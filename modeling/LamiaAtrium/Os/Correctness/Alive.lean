import LamiaAtrium.Os.Correctness.Deadline
import LamiaAtrium.Os.Correctness.Effort

/-!
# `Os.Correctness.Alive` — the simulator goes on until everybody is through

* `never_stuck`: in every reachable state somebody can go on with its work, unless the simulator is over or an
  instruction crashes. `thread_moves` is the part of the threads, `barrier_moves` that of the barrier.
* `room_of_few`: when no priority is that of more than `MAX_QUEUE_SIZE` processes, no `enqueue` meets a full queue.
* `everybody_finishes`: put together with `slots_are_short` and `deadline`, a bound for the steps after which every
  process has been executed and freed.
-/

namespace LamiaAtrium

section

variable {M : Type} {cfg : Config} {mach : Machine M}

/-! ## The threads -/

/-- A CPU that is about to run has something to run. -/
theorem proc_of_run {s : OsState cfg.numCpus M} (h : (osSystem cfg mach).Reachable s) (c : Fin cfg.numCpus)
    (hpc : (s.cpu c).pc = .run) : ∃ x, (s.cpu c).proc = some x := by
  revert hpc
  refine h.invariant (I := fun s => (s.cpu c).pc = .run → ∃ x, (s.cpu c).proc = some x) ?_ ?_
  · rintro s ⟨m, -, rfl⟩ hpc
    cases hpc
  rintro s e t hok ⟨now, hst⟩
  cases hst with
  | ld hl =>
    have hsame : t.cpu = s.cpu := by cases hl <;> rfl
    rw [hsame]
    exact hok
  | @cpu c' _ _ hc =>
    by_cases hcc : c = c'
    · subst hcc
      cases hc with
      | dispatch _ hproc => exact fun _ => ⟨_, by rw [cpu_setCpu_self]⟩
      | getIdle _ _ =>
        rw [cpu_setCpu_self]
        dsimp only
        split <;> exact fun hpc => CpuPc.noConfusion hpc
      | reap hpc _ _ | getAfterFree hpc | put hpc _ _ _ _ | getAfterPut hpc | keep hpc _ _ _ | stop hpc _ _
      | idle hpc _ _ | run hpc _ _ | call hpc | ret hpc | detach hpc =>
        rw [cpu_setCpu_self]
        exact fun hpc => CpuPc.noConfusion hpc
    · rw [hc.cpu_of_ne hcc]
      exact hok

/-- The loader is in its loop for a process only. -/
theorem lt_of_loading {s : OsState cfg.numCpus M} (h : (osSystem cfg mach).Reachable s) (hpc : s.ld.loading = true) :
    s.i < cfg.numProcesses := by
  revert hpc
  refine h.invariant (I := fun s => s.ld.loading = true → s.i < cfg.numProcesses) ?_ ?_
  · rintro s ⟨m, -, rfl⟩ hpc
    cases hpc
  rintro s e t hok ⟨now, hst⟩
  cases hst with
  | cpu hc =>
    obtain ⟨-, hld, hi⟩ := hc.loader
    rw [hld, hi]
    exact hok
  | ld hl =>
    cases hl with
    | load _ hi => exact fun _ => hi
    | early hpc _ | onTime hpc _ | callWait hpc | retWait hpc | initMm hpc _ => exact fun _ => hok (by rw [hpc]; rfl)
    | add _ _ | allLoaded _ _ | call _ | ret _ | setDone _ | detach _ => exact fun hpc => Bool.noConfusion hpc

/-- Somebody is about to load or to execute what cannot be loaded or executed. -/
def Crashes (cfg : Config) (mach : Machine M) (s : OsState cfg.numCpus M) : Prop :=
  (s.ld = .initMm ∧ ∀ m, ¬ mach.load s.i s.mem m) ∨
    ∃ c x ins, (s.cpu c).pc = .run ∧ (s.cpu c).proc = some x ∧ (cfg.code x)[s.procPc x]? = some ins ∧
      ∀ m, ¬ mach.exec s.sched x ins s.mem m

variable {s : OsState cfg.numCpus M}

/-- A CPU outside of `next_slot` can go on. -/
theorem cpu_moves (hs : (osSystem cfg mach).Reachable s) (hprio : ∀ x < cfg.numProcesses, cfg.prio x < maxPrio)
    (hok : ¬ Crashes cfg mach s) (c : Fin cfg.numCpus) (hout : (s.cpu c).pc.phase = .out) :
    ∃ e t, CpuStep cfg mach s c e t ∧
      ((∀ f, e ≠ .slot f) ∨ e = .slot (.call (cpuDev c)) ∨ e = .slot (.detach (cpuDev c))) := by
  cases hpc : (s.cpu c).pc with
  | top =>
    cases hproc : (s.cpu c).proc with
    | none => exact ⟨_, _, .getIdle hpc hproc, .inl fun f => by simp⟩
    | some x =>
      by_cases hend : s.procPc x = (cfg.code x).length
      · exact ⟨_, _, .reap hpc hproc hend, .inl fun f => by simp⟩
      by_cases htime : (s.cpu c).timeLeft = 0
      · have hheld : (s.cpu c).held = some x := by rw [Cpu.held_of_owns (by rw [hpc]; rfl), hproc]
        have hx := (held_live hs hheld).1.trans_le (i_le_numProcesses hs)
        obtain ⟨t, ht⟩ : ∃ t, s.sched.putMlqProc cfg.prio x = some t := SchedState.requeue_isSome _ (hprio x hx)
        exact ⟨_, _, .put hpc hproc hend htime ht, .inl fun f => by simp⟩
      · exact ⟨_, _, .keep hpc hproc hend htime, .inl fun f => by simp⟩
  | getAfterFree => exact ⟨_, _, .getAfterFree hpc, .inl fun f => by simp⟩
  | getAfterPut => exact ⟨_, _, .getAfterPut hpc, .inl fun f => by simp⟩
  | check =>
    cases hproc : (s.cpu c).proc with
    | some x => exact ⟨_, _, .dispatch hpc hproc, .inl fun f => by simp⟩
    | none =>
      cases hdone : s.done with
      | true => exact ⟨_, _, .stop hpc hproc hdone, .inl fun f => by simp⟩
      | false => exact ⟨_, _, .idle hpc hproc hdone, .inl fun f => by simp⟩
  | run =>
    obtain ⟨x, hproc⟩ := proc_of_run hs c hpc
    cases hins : (cfg.code x)[s.procPc x]? with
    | none => exact ⟨_, _, .run hpc hproc (.atEnd (List.getElem?_eq_none_iff.mp hins)), .inl fun f => by simp⟩
    | some ins =>
      have hexec : ∃ m, mach.exec s.sched x ins s.mem m := by
        by_contra hno
        exact hok (.inr ⟨c, x, ins, hpc, hproc, hins, fun m hm => hno ⟨m, hm⟩⟩)
      obtain ⟨m, hm⟩ := hexec
      exact ⟨_, _, .run hpc hproc (.exec hins hm), .inl fun f => by simp⟩
  | slot => exact ⟨_, _, .call hpc, .inr (.inl rfl)⟩
  | leaving => exact ⟨_, _, .detach hpc, .inr (.inr rfl)⟩
  | inSlot | exited =>
    rw [hpc] at hout
    cases hout

/-- The loader outside of `next_slot` can go on. -/
theorem ld_moves (hs : (osSystem cfg mach).Reachable s) (hprio : ∀ x < cfg.numProcesses, cfg.prio x < maxPrio)
    (hok : ¬ Crashes cfg mach s) (now : ℕ) (hout : s.ld.phase = .out) :
    ∃ e t, LdStep cfg mach now s e t ∧
      ((∀ f, e ≠ .slot f) ∨ e = .slot (.call ldDev) ∨ e = .slot (.detach ldDev)) := by
  cases hpc : s.ld with
  | top =>
    by_cases hi : s.i < cfg.numProcesses
    · exact ⟨_, _, .load hpc hi, .inl fun f => by simp⟩
    · exact ⟨_, _, .allLoaded hpc hi, .inl fun f => by simp⟩
  | waitTest =>
    by_cases htime : now < cfg.startTime s.i
    · exact ⟨_, _, .early hpc htime, .inl fun f => by simp⟩
    · exact ⟨_, _, .onTime hpc htime, .inl fun f => by simp⟩
  | initMm =>
    have hload : ∃ m, mach.load s.i s.mem m := by
      by_contra hno
      exact hok (.inl ⟨hpc, fun m hm => hno ⟨m, hm⟩⟩)
    obtain ⟨m, hm⟩ := hload
    exact ⟨_, _, .initMm hpc hm, .inl fun f => by simp⟩
  | add =>
    have hi := lt_of_loading hs (by rw [hpc]; rfl)
    obtain ⟨t, ht⟩ : ∃ t, s.sched.addMlqProc cfg.prio s.i = some t := SchedState.requeue_isSome _ (hprio s.i hi)
    exact ⟨_, _, .add hpc ht, .inl fun f => by simp⟩
  | setDone => exact ⟨_, _, .setDone hpc, .inl fun f => by simp⟩
  | waitSlot => exact ⟨_, _, .callWait hpc, .inr (.inl rfl)⟩
  | slot => exact ⟨_, _, .call hpc, .inr (.inl rfl)⟩
  | leaving => exact ⟨_, _, .detach hpc, .inr (.inr rfl)⟩
  | inWaitSlot | inSlot | exited =>
    rw [hpc] at hout
    cases hout

/-- **A thread outside of `next_slot` can go on.** -/
theorem thread_moves (hs : (osSystem cfg mach).Reachable s) (hprio : ∀ x < cfg.numProcesses, cfg.prio x < maxPrio)
    (hok : ¬ Crashes cfg mach s) (now : ℕ) (d : Fin (cfg.numCpus + 1)) (hout : s.phase d = .out) :
    ∃ e t, OsStep cfg mach now s e t ∧
      ((∀ f, e ≠ .slot f) ∨ e = .slot (.call d) ∨ e = .slot (.detach d)) := by
  induction d using Fin.lastCases with
  | last =>
    obtain ⟨e, t, hst, hlabel⟩ := ld_moves hs hprio hok now (by rwa [← phase_ldDev])
    exact ⟨e, t, .ld hst, hlabel⟩
  | cast c =>
    obtain ⟨e, t, hst, hlabel⟩ := cpu_moves hs hprio hok c (by rwa [← phase_cpuDev])
    exact ⟨e, t, .cpu hst, hlabel⟩

/-- A thread in `next_slot` can return. -/
theorem thread_returns (now : ℕ) (d : Fin (cfg.numCpus + 1)) (hin : s.phase d = .slot) :
    ∃ t, OsStep cfg mach now s (.slot (.ret d)) t := by
  induction d using Fin.lastCases with
  | last =>
    rw [show Fin.last cfg.numCpus = ldDev from rfl, phase_ldDev] at hin
    cases hpc : s.ld with
    | inSlot => exact ⟨_, .ld (.ret hpc)⟩
    | inWaitSlot => exact ⟨_, .ld (.retWait hpc)⟩
    | _ =>
      rw [hpc] at hin
      cases hin
  | cast c =>
    rw [show c.castSucc = cpuDev c from rfl, phase_cpuDev] at hin
    cases hpc : (s.cpu c).pc with
    | inSlot => exact ⟨_, .cpu (.ret hpc)⟩
    | _ =>
      rw [hpc] at hin
      cases hin

/-! ## The simulator -/

/-- Everybody has come to the end. -/
structure Over {n : ℕ} (s : BootState n M) : Prop where
  cpu : ∀ c, (s.os.cpu c).pc = .exited
  loader : s.os.ld = .exited
  devices : ∀ d, (s.timer.dev d).pc = .gone
  timer : s.timer.pc = .ended

theorem over_of_gone {n : ℕ} {s : BootState n M} (hsync : Synced s) (hgone : ∀ d, (s.timer.dev d).pc = .gone)
    (htimer : s.timer.pc = .ended) : Over s where
  cpu c := by
    have hphase := hsync (cpuDev c)
    rw [phase_cpuDev, hgone] at hphase
    cases hpc : (s.os.cpu c).pc with
    | exited => rfl
    | _ =>
      rw [hpc] at hphase
      cases hphase
  loader := by
    have hphase := hsync ldDev
    rw [phase_ldDev, hgone] at hphase
    cases hpc : s.os.ld with
    | exited => rfl
    | _ =>
      rw [hpc] at hphase
      cases hphase
  devices := hgone
  timer := htimer

theorem ne_of_osStep {now : ℕ} {t : OsState cfg.numCpus M} {e : OsEvent cfg.numCpus} (h : OsStep cfg mach now s e t)
    (hfree : e.charge = 0) : t ≠ s := by
  rintro rfl
  have hown := osStep_effort h
  omega

/-- **Nobody is stuck.** Somebody can take a step that is not for nothing, unless everybody has come to the end or
    somebody is about to crash. -/
theorem never_stuck (hprio : ∀ x < cfg.numProcesses, cfg.prio x < maxPrio) {s : BootState cfg.numCpus M}
    (hs : (bootSystem cfg mach).Reachable s) :
    (Over s ∨ Crashes cfg mach s.os) ∨ ∃ l t, (bootSystem cfg mach).step s l t ∧ ¬ s.Spurious t := by
  by_cases hok : Crashes cfg mach s.os
  · exact .inl (.inr hok)
  have hsync := synced_of_reachable hs
  rcases barrier_moves (timerReachable_of_boot hs) with ⟨t, hst, hbusy⟩ | ⟨d, hout | hret⟩ | ⟨hend, hgone⟩
  · exact .inr ⟨none, ⟨s.os, t⟩, .timer hst, fun h => hbusy h.2⟩
  · -- a thread between two calls
    right
    have hphase : s.os.phase d = .out := by rw [hsync d, hout]; rfl
    obtain ⟨e, t, hst, hlabel⟩ := thread_moves (osReachable_of_boot hs) hprio hok s.timer.time d hphase
    rcases hlabel with hfree | rfl | rfl
    · refine ⟨some e, ⟨t, s.timer⟩, .thread hfree hst, fun h => ne_of_osStep hst ?_ h.1⟩
      cases e with
      | slot f => exact absurd rfl (hfree f)
      | _ => rfl
    · refine ⟨_, ⟨t, _⟩, .slot hst (.device (e := some .call) (mem_devListOf d) (.call hout)), fun h => ?_⟩
      have hafter : t.phase d = .slot := (hst.phase d).trans (if_pos rfl)
      rw [show t = s.os from h.1, hphase] at hafter
      cases hafter
    · exact ⟨_, ⟨t, _⟩, .slot hst (.device (e := some .detach) (mem_devListOf d) (.detach hout)),
        fun h => ne_of_osStep hst rfl h.1⟩
  · -- a thread that returns
    right
    have hphase : s.os.phase d = .slot := by rw [hsync d, hret]; rfl
    obtain ⟨t, hst⟩ : ∃ t, OsStep cfg mach s.timer.time s.os (.slot (.ret d)) t := thread_returns _ d hphase
    exact ⟨_, ⟨t, _⟩, .slot hst (.device (e := some .ret) (mem_devListOf d) (.ret hret)),
      fun h => ne_of_osStep hst rfl h.1⟩
  · exact .inl (.inl (over_of_gone hsync hgone hend))

/-- **The simulator goes on.** From every reachable state, whatever the configuration with priorities in range and the
    memory below the threads, the simulator can take as many steps as one likes, none of them for nothing, unless every
    thread comes to its end or one of them crashes in a load or an instruction. -/
theorem simulator_goes_on (cfg : Config) (mach : Machine M) (hprio : ∀ x < cfg.numProcesses, cfg.prio x < maxPrio)
    (s : BootState cfg.numCpus M) (hs : (bootSystem cfg mach).Reachable s) (n : ℕ) :
    ∃ steps t, (bootSystem cfg mach).Counted BootState.Spurious s steps 0 t ∧
      (steps = n ∨ Over t ∨ Crashes cfg mach t.os) := by
  obtain ⟨steps, t, -, hrun, hend⟩ := Lts.System.Counted.ends_or_works (fun _ => never_stuck hprio) hs n
  exact ⟨steps, t, hrun, hend⟩

theorem not_crashes_one (s : OsState oneProcess.numCpus Unit) : ¬ Crashes oneProcess noMemory s := by
  rintro (⟨-, hno⟩ | ⟨c, x, ins, -, -, -, hno⟩)
  · exact hno () trivial
  · exact hno () trivial

theorem simulator_goes_on_one : ∃ steps t, (bootSystem oneProcess noMemory).Counted BootState.Spurious
    ⟨.start oneProcess.numCpus (), .start _⟩ steps 0 t ∧ (steps = 100 ∨ Over t) := by
  obtain ⟨steps, t, hrun, hend⟩ := simulator_goes_on oneProcess noMemory (fun _ _ => Nat.succ_pos 139) _
    (.init (s := ⟨.start oneProcess.numCpus (), .start _⟩) ⟨⟨(), trivial, rfl⟩, rfl⟩) 100
  exact ⟨steps, t, hrun, hend.imp_right fun h => h.resolve_right (not_crashes_one t.os)⟩

/-! ## Everybody is through -/

/-- No priority is that of more than `MAX_QUEUE_SIZE` processes. -/
def FewPerLevel (cfg : Config) : Prop :=
  ∀ p : Fin maxPrio, ((List.range cfg.numProcesses).filter fun x => cfg.prio x = p).length ≤ maxQueueSize

/-- A level that lacks one of its processes has room for it. -/
theorem ready_has_room (hfew : FewPerLevel cfg) (hs : (osSystem cfg mach).Reachable s) {p : Fin maxPrio} {y : ℕ}
    (hy : y < cfg.numProcesses) (hp : cfg.prio y = p) (hnot : y ∉ s.sched.ready p) :
    (s.sched.ready p).length < maxQueueSize := by
  have hone : ∀ x, (s.sched.ready p).count x ≤ 1 := fun x => by
    have hcount := count_le_readyCount s.sched p x
    have hplace := queued_or_held hs x
    omega
  have hnodup : (y :: s.sched.ready p).Nodup := List.nodup_cons.mpr ⟨hnot, List.nodup_iff_count_le_one.mpr hone⟩
  have hsub : (y :: s.sched.ready p) ⊆ (List.range cfg.numProcesses).filter fun x => cfg.prio x = p := by
    intro x hx
    rw [List.mem_filter, List.mem_range, decide_eq_true_eq]
    rcases List.mem_cons.mp hx with rfl | hmem
    · exact ⟨hy, hp⟩
    · refine ⟨?_, (levelled_of_reachable (schedReachable_of_os hs)).level p x hmem⟩
      have hcount := (List.count_pos_iff.mpr hmem).trans_le (count_le_readyCount s.sched p x)
      have hplace := places_le hs x
      unfold OsState.places at hplace
      split at hplace
      · rename_i hadded
        exact hadded.trans_le (i_le_numProcesses hs)
      · omega
  have hle := (List.subperm_of_subset hnodup hsub).length_le.trans (hfew p)
  rwa [List.length_cons, Nat.succ_le_iff] at hle

/-- **Every `enqueue` finds room.** -/
theorem room_of_few (hfew : FewPerLevel cfg) (hs : (osSystem cfg mach).Reachable s) {now : ℕ} {e : OsEvent cfg.numCpus}
    {t : OsState cfg.numCpus M} (hst : OsStep cfg mach now s e t) : RoomToEnqueue cfg s e := by
  rintro x hx ⟨p, hp, hfull⟩
  suffices h : x < cfg.numProcesses ∧ s.sched.readyCount x = 0 by
    have hnot : x ∉ s.sched.ready p := fun hmem => by
      have hcount := (List.count_pos_iff.mpr hmem).trans_le (count_le_readyCount s.sched p x)
      omega
    exact absurd (ready_has_room hfew hs h.1 hp.symm hnot) (Nat.not_lt.mpr hfull)
  cases hst with
  | cpu hc =>
    cases hc with
    | @put y _ hpc hproc _ _ _ =>
      obtain rfl : y = x := Option.some.inj hx
      have hheld : (s.cpu _).held = some y := (Cpu.held_of_owns (by rw [hpc]; rfl)).trans hproc
      have hone := one_le_heldCount hheld
      have hplace := queued_or_held hs y
      exact ⟨(held_live hs hheld).1.trans_le (i_le_numProcesses hs), by omega⟩
    | _ => cases hx
  | ld hl =>
    cases hl with
    | add hpc _ =>
      obtain rfl : s.i = x := Option.some.inj hx
      have hplace := places_le hs s.i
      rw [if_neg (Nat.lt_irrefl _)] at hplace
      unfold OsState.places at hplace
      exact ⟨lt_of_loading hs (by rw [hpc]; rfl), by omega⟩
    | _ => cases hx

/-- So every run of such a configuration is one in which no `enqueue` meets a full queue. -/
theorem guarded_of_few (hfew : FewPerLevel cfg) {s : BootState cfg.numCpus M} (hs : (bootSystem cfg mach).Reachable s) :
    ((bootSystem cfg mach).guard (BootRoom cfg)).Reachable s := by
  induction hs with
  | init hinit => exact .init hinit
  | step hs hst ih =>
    refine ih.step ⟨hst, ?_⟩
    rintro e rfl
    have hos := osReachable_of_boot hs
    cases hst with
    | thread _ hstep => exact room_of_few hfew hos hstep
    | slot hstep _ => exact room_of_few hfew hos hstep

/-- When the simulator is over, everybody is through. -/
theorem finished_of_over (hn : 0 < cfg.numCpus) {s : BootState cfg.numCpus M}
    (hs : ((bootSystem cfg mach).guard (BootRoom cfg)).Reachable s) (hover : Over s) : s.os.finished cfg := by
  have hord := orderly_of_reachable (osReachable_of_boot hs.of_guard)
  have hleft : ∀ c, (s.os.cpu c).pc.left = true := fun c => by rw [hover.cpu c]; rfl
  refine finished_of_empty hs (spentEmpty_of_reachable hn hs.of_guard fun c => .inl (hleft c))
    (hord.loaded (by rw [hover.loader]; rfl)) fun c => ?_
  unfold Cpu.held
  rw [(hord.stopped c (hleft c)).2]
  exact ite_self _

/-- The number of steps that the slots of the loader and the instructions of all programs ask for. -/
def enoughSteps (cfg : Config) (spurious : ℕ) : ℕ :=
  (26 * cfg.numCpus + 31) * (nextSlot cfg cfg.numProcesses + totalCost cfg) + (56 * cfg.numCpus + 61) + 3 * spurious

/-- A run that has come to its end, or has gone on for long enough. -/
theorem finished_of_counted (hn : 0 < cfg.numCpus) (hfew : FewPerLevel cfg) {s t : BootState cfg.numCpus M}
    (hs : (bootSystem cfg mach).Reachable s) {steps spurious : ℕ}
    (hrun : (bootSystem cfg mach).Counted BootState.Spurious s steps spurious t)
    (hend : Over t ∨ enoughSteps cfg spurious < steps) : t.os.finished cfg := by
  have hroom := guarded_of_few hfew (hrun.reachable hs)
  rcases hend with hover | hlong
  · exact finished_of_over hn hroom hover
  · refine finished_of_time hn hroom (Nat.lt_of_not_le fun hle => ?_)
    have hpaid := paid_for hrun
    have hstart := effort_le s
    have hticks := Nat.mul_le_mul_left (26 * cfg.numCpus + 31) hle
    rw [tickEffort_eq] at hpaid
    unfold enoughSteps at hlong
    omega

/-- **Everybody finishes.** Take any configuration with a CPU in which no priority is that of more than
    `MAX_QUEUE_SIZE` processes. In every run that has come to its end, or has gone on for as many steps as the slots of
    the loader and the instructions of all programs ask for, every process has executed its whole code and been
    freed, whatever the memory below the threads, the interleaving and the state the run has started from. -/
theorem everybody_finishes (cfg : Config) (mach : Machine M) (hn : 0 < cfg.numCpus) (hfew : FewPerLevel cfg)
    (s t : BootState cfg.numCpus M) (hs : (bootSystem cfg mach).Reachable s) (steps spurious : ℕ)
    (hrun : (bootSystem cfg mach).Counted BootState.Spurious s steps spurious t)
    (hend : Over t ∨ (26 * cfg.numCpus + 31) * (nextSlot cfg cfg.numProcesses + totalCost cfg)
      + (56 * cfg.numCpus + 61) + 3 * spurious < steps) (x : ℕ) (hx : x < cfg.numProcesses) :
    t.os.executed x = cfg.code x ∧ x ∈ t.os.reaped := by
  have hfin : t.os.finished cfg := finished_of_counted hn hfew hs hrun hend
  exact ⟨executed_of_finished (osReachable_of_boot (hrun.reachable hs)) hfin hx, hfin x hx⟩

end

/-- One process of one instruction is through after 232 steps, or before. -/
theorem everybody_finishes_one : ∃ steps t, (bootSystem oneProcess noMemory).Counted BootState.Spurious
    ⟨.start oneProcess.numCpus (), .start _⟩ steps 0 t ∧ t.os.executed 0 = oneProcess.code 0 ∧ 0 ∈ t.os.reaped := by
  have hs : (bootSystem oneProcess noMemory).Reachable ⟨.start oneProcess.numCpus (), .start _⟩ :=
    .init ⟨⟨(), trivial, rfl⟩, rfl⟩
  have hprio : ∀ x < oneProcess.numProcesses, oneProcess.prio x < maxPrio := fun _ _ => Nat.succ_pos 139
  obtain ⟨steps, t, -, hrun, hend⟩ := Lts.System.Counted.ends_or_works (fun _ => never_stuck hprio) hs 232
  have hfew : FewPerLevel oneProcess := fun p =>
    (List.length_filter_le _ _).trans (by rw [List.length_range]; exact Nat.succ_pos 49)
  refine ⟨steps, t, hrun, everybody_finishes oneProcess noMemory Nat.one_pos hfew _ t hs steps 0 hrun ?_ 0 Nat.one_pos⟩
  rcases hend with rfl | hover
  · exact .inr (by decide)
  · exact .inl (hover.resolve_right (not_crashes_one t.os))

end LamiaAtrium
