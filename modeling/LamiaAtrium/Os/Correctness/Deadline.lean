import LamiaAtrium.Os.Correctness.Pace

/-!
# `Os.Correctness.Deadline` — by when everything has happened

The other side of `Os.Correctness.Pace`: the simulator cannot dawdle either.

* `LoaderStands` is the slot that the loader is in; `loader_punctual`: it adds every process in its slot `earliest`.
* `spent` is the share of its time that a process has had, at most `cost`.
* `Decided`: a CPU has seen the queues empty in this slot, or it has stopped. `DecidedEmpty`: once all processes are
  in, nothing is queued when every CPU has decided.
* `OnSchedule` is the invariant: from then on there is an instruction in every slot, or everything has been reaped.
* `deadline`: so every process is through by a slot that the configuration tells.
-/

namespace LamiaAtrium

open SchedState

variable {n : ℕ} {M : Type} {cfg : Config} {mach : Machine M}

/-! ## The loader -/

/-- The first slot that the loader can use after it has added `x` processes. -/
def nextSlot (cfg : Config) : ℕ → ℕ
  | 0     => 0
  | x + 1 => earliest cfg x + 1

theorem earliest_eq (cfg : Config) (x : ℕ) : earliest cfg x = max (cfg.startTime x) (nextSlot cfg x) := by
  cases x with
  | zero => exact (max_eq_left (Nat.zero_le _)).symm
  | succ x => rfl

theorem nextSlot_mono (cfg : Config) : Monotone (nextSlot cfg) := by
  refine monotone_nat_of_le_succ fun x => ?_
  have hle : nextSlot cfg x ≤ earliest cfg x := by
    rw [earliest_eq]
    exact le_max_right _ _
  exact hle.trans (Nat.le_succ _)

/-- The slots that the loader can have entered, the one that it is about to enter included, where it goes on with
    process `i`. -/
def loaderBound (cfg : Config) (i : ℕ) : LdPc → ℕ
  | .top => nextSlot cfg i + 1
  | .waitTest => earliest cfg i + 1
  | .waitSlot => earliest cfg i
  | .inWaitSlot => earliest cfg i
  | .initMm => earliest cfg i + 1
  | .add => earliest cfg i + 1
  | .slot => nextSlot cfg i
  | .inSlot => nextSlot cfg i
  | _ => 0

/-- **The loader is not late.** -/
def LoaderStands (cfg : Config) (s : BootState n M) : Prop :=
  s.os.ld.loaded = false → (s.timer.dev ldDev).round ≤ loaderBound cfg s.os.i s.os.ld

theorem attached_of_not_loaded {pc : LdPc} (h : pc.loaded = false) : pc.phase ≠ .detached := by
  revert h
  cases pc <;> simp [LdPc.loaded, LdPc.phase]

/-- `next_slot` ends a slot. -/
theorem round_of_ret {k : ℕ} {s t : TimerState (Fin k)} {d : Fin k} (h : Lockstep s)
    (hst : TimerStep (devListOf k) s (some (.ret d)) t) : (t.dev d).round = (s.dev d).round + 1 := by
  have hout : (t.dev d).pc.phase = .out := by
    rw [(devMoves_of_timerStep hst d).phase]
    exact if_pos rfl
  rw [(lockstep_step h hst).round_out hout, h.round_ret hst]

section

variable {s t : BootState n M} {l : Option (OsEvent n)}

/-- Nothing else does. -/
theorem round_step (hst : BootStep cfg mach s l t) {d : Fin (n + 1)} (hon : (t.timer.dev d).pc.phase ≠ .detached)
    (hret : l ≠ some (.slot (.ret d))) : (t.timer.dev d).round = (s.timer.dev d).round := by
  cases hst with
  | thread _ _ => rfl
  | timer ht => exact (devMoves_of_timerStep ht d).round (by simp) hon
  | slot _ ht => exact (devMoves_of_timerStep ht d).round (by rintro he; exact hret (by rw [Option.some.inj he])) hon

/-- The loader goes on in the slot that it is in. -/
theorem loaderStands_stay (h : LoaderStands cfg s) (hsync' : Synced t) (hst : BootStep cfg mach s l t)
    (hnot : s.os.ld.loaded = true → t.os.ld.loaded = true) (hret : l ≠ some (.slot (.ret ldDev)))
    (hle : loaderBound cfg s.os.i s.os.ld ≤ loaderBound cfg t.os.i t.os.ld) : LoaderStands cfg t := by
  intro hld
  have hbefore : s.os.ld.loaded = false := by
    rw [Bool.eq_false_iff]
    exact fun hs => absurd (hnot hs) (by simp [hld])
  rw [round_step hst (by rw [← hsync', phase_ldDev]; exact attached_of_not_loaded hld) hret]
  exact (h hbefore).trans hle

theorem loaderStands_step (h : LoaderStands cfg s) (hsync : Synced s) (hsync' : Synced t) (hlock : Lockstep s.timer)
    (hst : BootStep cfg mach s l t) : LoaderStands cfg t := by
  have hboot := hst
  have hearliest : nextSlot cfg s.os.i ≤ earliest cfg s.os.i := by
    rw [earliest_eq]
    exact le_max_right _ _
  cases hst with
  | timer _ => exact loaderStands_stay h hsync' hboot id (by simp) le_rfl
  | @thread e u hslot hos =>
    have hret : some e ≠ some (.slot (.ret ldDev)) := by simpa using hslot _
    cases hos with
    | cpu hcpu =>
      obtain ⟨-, hld, hi⟩ := hcpu.loader
      exact loaderStands_stay h hsync' hboot (by rw [hld]; exact id) hret (by rw [hld, hi])
    | ld hld =>
      cases hld with
      | @early hpc hnow =>
        -- it waits, for a slot that has not come yet
        intro _
        have hround : (s.timer.dev ldDev).round = s.timer.time + 1 := by
          refine hlock.round_out ?_
          rw [← hsync, phase_ldDev, hpc]
          rfl
        show (s.timer.dev ldDev).round ≤ earliest cfg s.os.i
        rw [hround, earliest_eq]
        exact (Nat.succ_le_of_lt hnow).trans (le_max_left _ _)
      | load hpc _ =>
        refine loaderStands_stay h hsync' hboot (by simp [hpc, LdPc.loaded]) hret ?_
        rw [hpc]
        exact Nat.succ_le_succ hearliest
      | add hpc _ | onTime hpc _ | initMm hpc _ =>
        refine loaderStands_stay h hsync' hboot (by simp [hpc, LdPc.loaded]) hret ?_
        rw [hpc]
        exact le_rfl
      | allLoaded _ _ | setDone _ => exact fun hld => absurd hld (by simp [LdPc.loaded])
      | callWait _ | retWait _ | call _ | ret _ | detach _ => exact absurd rfl (hslot _)
  | @slot e u w hos ht =>
    cases hos with
    | @cpu c _ _ hcpu =>
      obtain ⟨-, hld, hi⟩ := hcpu.loader
      refine loaderStands_stay h hsync' hboot (by rw [hld]; exact id) ?_ (by rw [hld, hi])
      cases hcpu <;> simp [cpuDev_ne_ldDev]
    | ld hld =>
      have hstep := ht
      cases hld with
      | callWait hpc | call hpc | detach hpc =>
        refine loaderStands_stay h hsync' hboot (by simp [hpc, LdPc.loaded]) (by simp) ?_
        rw [hpc]
        simp [loaderBound]
      | retWait hpc | ret hpc =>
        intro _
        have hbefore := h (by rw [hpc]; rfl)
        rw [hpc] at hbefore
        show (w.dev ldDev).round ≤ _
        rw [round_of_ret hlock hstep]
        exact Nat.succ_le_succ hbefore

end

theorem loaderStands_of_reachable {s : BootState cfg.numCpus M} (hs : (bootSystem cfg mach).Reachable s) :
    LoaderStands cfg s := by
  induction hs with
  | init hinit =>
    obtain ⟨⟨m, -, hos⟩, htimer⟩ := hinit
    intro _
    rw [hos, htimer]
    exact le_rfl
  | step hs hst ih =>
    exact loaderStands_step ih (synced_of_reachable hs) (synced_of_reachable (hs.step hst))
      (lockstep_of_reachable (timerReachable_of_boot hs)) hst

/-- A process that has not been added yet is not due yet. -/
theorem le_earliest_of_not_added {s : BootState cfg.numCpus M} (hs : (bootSystem cfg mach).Reachable s) {x : ℕ}
    (hx : x < cfg.numProcesses) (hnot : s.os.i ≤ x) : s.timer.time ≤ earliest cfg x := by
  have hsync := synced_of_reachable hs
  have hld : s.os.ld.loaded = false := by
    rw [Bool.eq_false_iff]
    intro hloaded
    have := (orderly_of_reachable (osReachable_of_boot hs)).loaded hloaded
    omega
  have hstands := loaderStands_of_reachable hs hld
  have hlock := lockstep_of_reachable (timerReachable_of_boot hs)
  have hon : (s.timer.dev ldDev).pc.phase ≠ .detached := by
    rw [← hsync, phase_ldDev]
    exact attached_of_not_loaded hld
  have hle : ∀ y, nextSlot cfg y ≤ earliest cfg y := by
    intro y
    rw [earliest_eq]
    exact le_max_right _ _
  have hmono : earliest cfg s.os.i ≤ earliest cfg x := by
    have := nextSlot_mono cfg (Nat.succ_le_succ hnot)
    exact Nat.le_of_succ_le_succ this
  have hnext := hle s.os.i
  -- in front of `next_slot` the loader has counted the slot that it is in
  have hround : s.os.ld.phase = .out → (s.timer.dev ldDev).round = s.timer.time + 1 := by
    intro hout
    refine hlock.round_out ?_
    rw [← hsync, phase_ldDev, hout]
  have htime := (hlock.round_le hon).1
  cases hpc : s.os.ld with
  | top | waitTest | initMm | add =>
    have := hround (by rw [hpc]; rfl)
    rw [hpc] at hstands
    simp only [loaderBound] at hstands
    omega
  | waitSlot | inWaitSlot | slot | inSlot =>
    rw [hpc] at hstands
    simp only [loaderBound] at hstands
    omega
  | setDone | leaving | exited =>
    rw [hpc] at hld
    cases hld

/-- A process that has been added was due. -/
theorem earliest_le_of_added {s : BootState cfg.numCpus M} (hs : (bootSystem cfg mach).Reachable s) (x : ℕ)
    (hx : x < s.os.i) : earliest cfg x ≤ s.timer.time := by
  induction hs with
  | init hinit =>
    obtain ⟨⟨m, -, hos⟩, -⟩ := hinit
    rw [hos] at hx
    exact absurd hx (Nat.not_lt_zero x)
  | @step s t l hs hst ih =>
    have htime := time_step hst
    cases loader_move (lockstep_of_reachable (timerReachable_of_boot hs)) hst (synced_of_reachable (hs.step hst)) with
    | stay hi _ _ _ | gone hi _ => exact (ih (hi ▸ hx)).trans htime
    | add hpc _ hi _ =>
      rcases Nat.lt_or_ge x s.os.i with hlt | hge
      · exact (ih hlt).trans htime
      · obtain rfl : x = s.os.i := by omega
        exact ((paced_of_reachable hs).onTime (by rw [hpc]; rfl)).trans htime

/-- **The loader is punctual.** In every run of the simulator process `x` is added during slot `earliest x`, its start
    time or the slot after the process before it: not before that slot, and in no later one. -/
theorem loader_punctual (cfg : Config) (mach : Machine M) (s : BootState cfg.numCpus M)
    (hs : (bootSystem cfg mach).Reachable s) (x : ℕ) (hx : x < cfg.numProcesses) :
    (x < s.os.i → earliest cfg x ≤ s.timer.time) ∧ (earliest cfg x < s.timer.time → x < s.os.i) := by
  refine ⟨earliest_le_of_added hs x, fun hlt => ?_⟩
  by_contra hnot
  have := le_earliest_of_not_added hs hx (Nat.le_of_not_lt hnot)
  omega

theorem loader_punctual_one : ∃ s : BootState oneProcess.numCpus Unit,
    (0 < s.os.i → earliest oneProcess 0 ≤ s.timer.time) ∧ (earliest oneProcess 0 < s.timer.time → 0 < s.os.i) := by
  obtain ⟨s, h, -⟩ := oneBoot_ends
  exact ⟨s, loader_punctual oneProcess noMemory s h.of_guard 0 Nat.one_pos⟩

/-! ## Nothing is left behind in a slot -/

/-- CPU `c` has seen the queues empty in the current slot, or it has stopped. -/
def Decided (s : BootState n M) (c : Fin n) : Prop :=
  (s.os.cpu c).pc.left = true ∨ ((s.os.cpu c).pc = .check ∧ (s.os.cpu c).proc = none) ∨
    (limit s c = s.timer.time + 1 ∧ (s.os.cpu c).held = none)

/-- **The invariant**: once the loader has had the slots that it needs, nothing is queued when every CPU has decided. -/
def DecidedEmpty (cfg : Config) (s : BootState n M) : Prop :=
  nextSlot cfg cfg.numProcesses ≤ s.timer.time → (∀ c, Decided s c) → ∀ p, s.os.sched.ready p = []

section

variable {s t : BootState n M} {l : Option (OsEvent n)} {c : Fin n}

/-- A CPU that has not decided and is not in the timer. -/
theorem not_decided (hsync : Synced s) (hlock : Lockstep s.timer) {v : Cpu} (hv : s.os.cpu c = v)
    (hleft : v.pc.left = false) (hout : v.pc.phase = .out) (hend : v.pc.ending = false ∨ v.held ≠ none)
    (hcheck : v.pc = .check → v.proc ≠ none) : ¬ Decided s c := by
  rintro (h | ⟨h, hnone⟩ | ⟨hlimit, hnone⟩)
  · rw [hv, hleft] at h
    cases h
  · rw [hv] at h hnone
    exact hcheck h hnone
  · rw [hv] at hnone
    rcases hend with hend | hheld
    · rw [limit_out hsync hlock (by rw [hv]; exact hout), hv, hend] at hlimit
      simp at hlimit
    · exact hheld hnone

/-- `_time` stands still, and a CPU that is not touched has decided afterwards only if it had before. -/
theorem Decided.back (h : Decided t c) (hcpu : t.os.cpu c = s.os.cpu c) (htime : t.timer.time = s.timer.time)
    (hround : (t.os.cpu c).pc.ending = true → (t.timer.dev (cpuDev c)).round = (s.timer.dev (cpuDev c)).round) :
    Decided s c := by
  rcases h with hleft | hcheck | ⟨hlimit, hnone⟩
  · rw [hcpu] at hleft
    exact .inl hleft
  · rw [hcpu] at hcheck
    exact .inr (.inl hcheck)
  · refine .inr (.inr ⟨?_, by rw [← hcpu]; exact hnone⟩)
    unfold limit slotsUsed at hlimit ⊢
    rw [← hcpu]
    split at hlimit
    · rename_i hend
      rw [if_pos hend, ← hround hend, hlimit, htime]
    · rw [htime] at hlimit
      omega

/-- When the slot ends, nobody has decided in the next one. -/
theorem left_of_tick (hst : BootStep cfg mach s l t) (hsync : Synced s) (hsync' : Synced t) (hlock : Lockstep s.timer)
    (hlock' : Lockstep t.timer) (hos : t.os = s.os) (hret : l ≠ some (.slot (.ret (cpuDev c))))
    (htick : t.timer.time ≠ s.timer.time) (h : Decided t c) : (t.os.cpu c).pc.left = true := by
  have htime := time_step hst
  have hround : (t.os.cpu c).pc.phase ≠ .detached →
      (t.timer.dev (cpuDev c)).round = (s.timer.dev (cpuDev c)).round := by
    intro hon
    refine round_step hst ?_ hret
    rwa [← hsync', phase_cpuDev]
  rcases h with hleft | ⟨hcheck, -⟩ | ⟨hlimit, -⟩
  · exact hleft
  · -- the timer waits for a CPU that is outside of `next_slot`
    have hout : (t.os.cpu c).pc.phase = .out := by rw [hcheck]; rfl
    have hafter := hlock'.round_out (by rw [← hsync', phase_cpuDev]; exact hout)
    have hbefore := hlock.round_out (d := cpuDev c) (by rw [← hsync, phase_cpuDev, ← hos]; exact hout)
    have := hround (by rw [hout]; simp)
    omega
  · unfold limit slotsUsed at hlimit
    split at hlimit
    · rename_i hend
      have hon := phase_of_ending hend
      have hle := (hlock.round_le (d := cpuDev c) (by rw [← hsync, phase_cpuDev, ← hos]; exact hon)).2
      have := hround hon
      omega
    · omega

/-- A scheduler, flag or instruction step of the CPU itself: it has decided afterwards only if the queues are empty, or
    if it had decided before. -/
theorem decided_cpuStep {e : OsEvent n} {u : OsState n M} (hi : s.os.sched.mlqInited = true)
    (hsync' : Synced ⟨u, s.timer⟩) (hlock : Lockstep s.timer) (hst : CpuStep cfg mach s.os c e u)
    (hslot : ∀ f, e ≠ .slot f) (h : Decided ⟨u, s.timer⟩ c) :
    (∀ p, u.sched.ready p = []) ∨ (u.sched = s.os.sched ∧ Decided s c) := by
  have hempty : ∀ {v : Cpu}, u = { s.os with sched := (s.os.sched.getMlqProc cfg.prio).2 }.setCpu c v →
      (s.os.sched.getMlqProc cfg.prio).1 = none → ∀ p, u.sched.ready p = [] := by
    rintro v rfl hnone p
    rcases getMlqProc_cases cfg.prio hi with ⟨hempty, heq⟩ | ⟨p, x, t, heq, -⟩
    · show SchedState.ready (s.os.sched.getMlqProc cfg.prio).2 p = []
      rw [heq]
      exact hempty p
    · rw [heq] at hnone
      cases hnone
  cases hst with
  | getIdle hpc hproc | getAfterFree hpc | getAfterPut hpc =>
    left
    cases hgot : (s.os.sched.getMlqProc cfg.prio).1 with
    | none => exact hempty rfl hgot
    | some x =>
      refine absurd h (not_decided hsync' hlock (cpu_setCpu_self ..) ?_ ?_ (.inl ?_) ?_) <;> simp [hgot, CpuPc.left,
        CpuPc.phase, CpuPc.ending]
  | stop hpc hproc _ | idle hpc hproc _ => exact .inr ⟨rfl, .inr (.inl ⟨hpc, hproc⟩)⟩
  | reap _ _ _ | put _ _ _ _ _ | dispatch _ _ =>
    exact absurd h (not_decided hsync' hlock (cpu_setCpu_self ..) rfl rfl (.inl rfl) (by simp))
  | keep hpc hproc _ _ =>
    exact absurd h (not_decided hsync' hlock (cpu_setCpu_self ..) rfl rfl (.inl rfl) (by simp [hproc]))
  | run hpc hproc hrun =>
    refine absurd h (not_decided hsync' hlock (cpu_setCpu_self ..) rfl rfl (.inr ?_) (by simp))
    rw [Cpu.held_of_owns rfl]
    simp
  | call _ | ret _ | detach _ => exact absurd rfl (hslot _)

theorem decidedEmpty_step {s t : BootState cfg.numCpus M} {l : Option (OsEvent cfg.numCpus)} (hn : 0 < cfg.numCpus)
    (h : DecidedEmpty cfg s) (hs : (bootSystem cfg mach).Reachable s) (hst : BootStep cfg mach s l t) :
    DecidedEmpty cfg t := by
  have hsync := synced_of_reachable hs
  have hsync' := synced_of_reachable (hs.step hst)
  have hlock := lockstep_of_reachable (timerReachable_of_boot hs)
  have hlock' := lockstep_of_reachable (timerReachable_of_boot (hs.step hst))
  have hos := osReachable_of_boot hs
  have hos' := osReachable_of_boot (hs.step hst)
  intro hload hall
  -- CPUs that the step does not touch
  have hback : ∀ d, t.os.cpu d = s.os.cpu d → t.timer.time = s.timer.time → l ≠ some (.slot (.ret (cpuDev d))) →
      Decided s d := by
    intro d hcpu htime hret
    refine (hall d).back hcpu htime fun hend => round_step hst ?_ hret
    rw [← hsync', phase_cpuDev]
    exact phase_of_ending hend
  have hboot := hst
  cases hst with
  | @timer t ht =>
    by_cases htime : t.time = s.timer.time
    · exact h (htime ▸ hload) fun d => hback d rfl htime (by simp)
    · have hspent : ∀ d, Spent s d := by
        intro d
        have hleft := left_of_tick hboot hsync hsync' hlock hlock' rfl (by simp) htime (hall d)
        exact .inl hleft
      have hempty : ∀ p, s.os.sched.ready p = [] := spentEmpty_of_reachable hn hs hspent
      exact hempty
  | @thread e u hslot hstep =>
    have hret : ∀ d, some e ≠ some (.slot (.ret (cpuDev d))) := fun d => by simpa using hslot _
    cases hstep with
    | @cpu c _ _ hcpu =>
      rcases decided_cpuStep (inited_of_reachable hos) hsync' hlock hcpu hslot (hall c) with hempty | ⟨hsched, hc⟩
      · exact hempty
      · show ∀ p, u.sched.ready p = []
        rw [hsched]
        refine h hload fun d => ?_
        by_cases hd : d = c
        · subst hd
          exact hc
        · exact hback d (hcpu.cpu_of_ne hd) rfl (hret d)
    | ld hld =>
      cases hld with
      | add hpc hadd =>
        -- everybody has been added by now
        have hlt : s.os.i < cfg.numProcesses := i_le_numProcesses hos'
        have hearly := le_earliest_of_not_added hs hlt le_rfl
        have hmono := nextSlot_mono cfg (Nat.succ_le_of_lt hlt)
        exact absurd (hearly.trans_lt (Nat.lt_succ_self _)) (Nat.not_lt.mpr (hmono.trans hload))
      | load _ _ | allLoaded _ _ | early _ _ | onTime _ _ | initMm _ _ | setDone _ =>
        exact h hload fun d => hback d rfl rfl (hret d)
      | callWait _ | retWait _ | call _ | ret _ | detach _ => exact absurd rfl (hslot _)
  | @slot e u w hstep ht =>
    have htime : w.time = s.timer.time := (time_le ht).2 rfl
    have hload' : nextSlot cfg cfg.numProcesses ≤ s.timer.time := htime ▸ hload
    cases hstep with
    | ld hld =>
      have hsame : u.sched = s.os.sched ∧ u.cpu = s.os.cpu ∧ ∀ d, e ≠ .ret (cpuDev d) := by
        cases hld <;> exact ⟨rfl, rfl, fun d => by simp [(cpuDev_ne_ldDev d).symm]⟩
      show ∀ p, u.sched.ready p = []
      rw [hsame.1]
      refine h hload' fun d => hback d (congrFun hsame.2.1 d) htime ?_
      simpa using hsame.2.2 d
    | @cpu c _ _ hcpu =>
      have hother : ∀ d, d ≠ c → Decided s d := by
        intro d hd
        refine hback d (hcpu.cpu_of_ne hd) htime ?_
        have hdev : cpuDev c ≠ cpuDev d := fun heq => hd (Fin.castSucc_injective _ heq).symm
        cases hcpu <;> simp [hdev]
      have hself : u.sched = s.os.sched ∧ Decided s c := by
        cases hcpu with
        | call hpc =>
          refine ⟨rfl, ?_⟩
          rcases hall c with hleft | ⟨hcheck, -⟩ | ⟨hlimit, hheld⟩
          · rw [cpu_setCpu_self] at hleft
            cases hleft
          · rw [cpu_setCpu_self] at hcheck
            cases hcheck
          · rw [cpu_setCpu_self, Cpu.held_of_owns rfl] at hheld
            refine .inr (.inr ⟨?_, by rw [Cpu.held_of_owns (by rw [hpc]; rfl)]; exact hheld⟩)
            rw [limit, cpu_setCpu_self] at hlimit
            rw [limit, hpc, ← htime, ← hlimit]
            refine (round_step hboot ?_ (by simp)).symm
            rw [← hsync', phase_cpuDev, cpu_setCpu_self]
            simp [CpuPc.phase]
        | ret hpc =>
          exfalso
          exact not_decided hsync' hlock' (cpu_setCpu_self ..) rfl rfl (.inl rfl) (by simp) (hall c)
        | detach hpc => exact ⟨rfl, .inl (by rw [hpc]; rfl)⟩
      show ∀ p, u.sched.ready p = []
      rw [hself.1]
      refine h hload' fun d => ?_
      by_cases hd : d = c
      · subst hd
        exact hself.2
      · exact hother d hd

end

theorem decidedEmpty_of_reachable (hn : 0 < cfg.numCpus) {s : BootState cfg.numCpus M}
    (hs : (bootSystem cfg mach).Reachable s) : DecidedEmpty cfg s := by
  induction hs with
  | init hinit =>
    obtain ⟨⟨m, -, hos⟩, -⟩ := hinit
    intro _ _ p
    rw [hos]
    rfl
  | step hs hst ih => exact decidedEmpty_step hn ih hs hst

/-! ## The share of a process -/

/-- Where a CPU that holds a process has called `run` on it. -/
def CpuPc.hasRun : CpuPc → Bool
  | .top => true
  | .slot => true
  | .inSlot => true
  | _ => false

/-- `run` has been called on process `x`. -/
def OsState.begun (s : OsState n M) (x : ℕ) : Prop :=
  x ∈ s.reaped ∨ ∃ c, (s.cpu c).held = some x ∧ (s.cpu c).pc.hasRun = true

instance (s : OsState n M) (x : ℕ) : Decidable (s.begun x) := inferInstanceAs (Decidable (_ ∨ _))

/-- The slots that process `x` has had. A process without an instruction needs one too, to be run and reaped. -/
def OsState.spent (cfg : Config) (s : OsState n M) (x : ℕ) : ℕ :=
  s.procPc x + if cfg.code x = [] ∧ s.begun x then 1 else 0

/-- The slots that process `x` needs. -/
def cost (cfg : Config) (x : ℕ) : ℕ := max 1 (cfg.code x).length

/-- Process `x` is queued, or a CPU is about to run it. -/
def OsState.awaits (s : OsState n M) (x : ℕ) : Prop :=
  0 < s.sched.readyCount x ∨ ∃ c, (s.cpu c).held = some x ∧ ((s.cpu c).pc = .check ∨ (s.cpu c).pc = .run)

/-- **The invariant**: whoever waits for its turn has an instruction left, or never had one. -/
def Runnable (cfg : Config) (s : OsState n M) : Prop :=
  ∀ x, s.awaits x → s.procPc x < (cfg.code x).length ∨ cfg.code x = []

theorem spent_le_cost {s : OsState cfg.numCpus M} (hs : (osSystem cfg mach).Reachable s) (x : ℕ) :
    s.spent cfg x ≤ cost cfg x := by
  have hle := procPc_le hs x
  unfold OsState.spent cost
  split
  · rename_i hempty
    rw [hempty.1] at hle ⊢
    simp only [List.length_nil] at hle ⊢
    omega
  · omega

/-- A CPU step, as seen by the processes that wait. -/
theorem runnable_cpuStep {s t : OsState cfg.numCpus M} {c : Fin cfg.numCpus} {e : OsEvent cfg.numCpus}
    (hs : (osSystem cfg mach).Reachable s) (h : Runnable cfg s) (hst : CpuStep cfg mach s c e t) : Runnable cfg t := by
  have hi := inited_of_reachable hs
  have hlt : ∀ x, s.procPc x ≠ (cfg.code x).length → s.procPc x < (cfg.code x).length := fun x hne =>
    lt_of_le_of_ne (procPc_le hs x) hne
  -- the CPUs that the step does not touch
  have hother : ∀ x, (∃ d, d ≠ c ∧ (t.cpu d).held = some x ∧ ((t.cpu d).pc = .check ∨ (t.cpu d).pc = .run)) →
      s.awaits x := by
    rintro x ⟨d, hd, hheld⟩
    rw [hst.cpu_of_ne hd] at hheld
    exact .inr ⟨d, hheld⟩
  -- what a `get` has handed out was queued
  have hget : ∀ {v : Cpu}, t = { s with sched := (s.sched.getMlqProc cfg.prio).2 }.setCpu c v →
      v.proc = (s.sched.getMlqProc cfg.prio).1 → Runnable cfg t := by
    rintro v rfl hproc x hx
    refine h x ?_
    have hcount := readyCount_get hi cfg.prio x
    rcases hx with hqueued | ⟨d, hheld, hpc⟩
    · have : 0 < (s.sched.getMlqProc cfg.prio).2.readyCount x := hqueued
      exact .inl (by omega)
    · by_cases hd : d = c
      · subst hd
        rw [cpu_setCpu_self] at hheld
        have hgot : (s.sched.getMlqProc cfg.prio).1 = some x := by
          rw [← hproc]
          unfold Cpu.held at hheld
          split at hheld
          · exact hheld
          · cases hheld
        rw [if_pos hgot] at hcount
        exact .inl (by omega)
      · exact hother x ⟨d, hd, hheld, hpc⟩
  -- a step that leaves the queues and every `pc` of a process alone
  have hkeep : t.sched = s.sched → t.procPc = s.procPc →
      ((t.cpu c).pc ≠ .check ∧ (t.cpu c).pc ≠ .run ∨ ∀ x, (t.cpu c).held = some x → s.awaits x ∨
        s.procPc x ≠ (cfg.code x).length) → Runnable cfg t := by
    intro hsched hpc hself x hx
    rw [hpc]
    rcases hx with hqueued | ⟨d, hheld, hwhere⟩
    · exact h x (.inl (by rwa [hsched] at hqueued))
    · by_cases hd : d = c
      · subst hd
        rcases hself with ⟨hcheck, hrun⟩ | hself
        · exact absurd hwhere (by simp [hcheck, hrun])
        · rcases hself x hheld with hx | hx
          · exact h x hx
          · exact .inl (hlt x hx)
      · exact h x (hother x ⟨d, hd, hheld, hwhere⟩)
  cases hst with
  | getIdle _ _ | getAfterFree _ | getAfterPut _ => exact hget rfl rfl
  | reap _ _ _ | stop _ _ _ | idle _ _ _ | call _ | ret _ | detach _ =>
    refine hkeep rfl rfl (.inl ?_)
    rw [cpu_setCpu_self]
    simp
  | keep hpc hproc hne _ =>
    refine hkeep rfl rfl (.inr fun x hheld => .inr ?_)
    rw [cpu_setCpu_self, Cpu.held_of_owns rfl, hproc] at hheld
    exact Option.some.inj hheld ▸ hne
  | dispatch hpc hproc =>
    refine hkeep rfl rfl (.inr fun x hheld => .inl (.inr ⟨c, ?_, .inl hpc⟩))
    rw [cpu_setCpu_self, Cpu.held_of_owns rfl] at hheld
    rw [Cpu.held_of_owns (by rw [hpc]; rfl), hproc]
    exact hheld
  | @put y u hpc hproc hne hleft hput =>
    intro x hx
    have hcount := readyCount_requeue hput x
    by_cases hxy : y = x
    · exact .inl (hlt x (hxy ▸ hne))
    · rw [if_neg (by simp [hxy]), if_neg (by simp [hxy])] at hcount
      refine h x ?_
      rcases hx with hqueued | ⟨d, hheld, hwhere⟩
      · have : 0 < u.readyCount x := hqueued
        exact .inl (by omega)
      · by_cases hd : d = c
        · subst hd
          rw [cpu_setCpu_self] at hwhere
          exact absurd hwhere (by simp)
        · exact hother x ⟨d, hd, hheld, hwhere⟩
  | @run y u hpc hproc hrun =>
    cases hrun with
    | atEnd _ =>
      refine hkeep rfl rfl (.inl ?_)
      rw [cpu_setCpu_self]
      simp
    | @exec ins m hins hexec =>
      intro x hx
      have hheldc : (s.cpu c).held = some y := by rw [Cpu.held_of_owns (by rw [hpc]; rfl), hproc]
      have hbefore : s.awaits x ∧ x ≠ y := by
        rcases hx with hqueued | ⟨d, hheld, hwhere⟩
        · refine ⟨.inl hqueued, ?_⟩
          rintro rfl
          have hone := queued_or_held hs x
          have := one_le_heldCount hheldc
          have : 0 < s.sched.readyCount x := hqueued
          omega
        · by_cases hd : d = c
          · subst hd
            rw [cpu_setCpu_self] at hwhere
            exact absurd hwhere (by simp)
          · refine ⟨hother x ⟨d, hd, hheld, hwhere⟩, ?_⟩
            rintro rfl
            rw [CpuStep.cpu_of_ne (.run hpc hproc (.exec hins hexec)) hd] at hheld
            exact hd (holder_unique hs hheld hheldc)
      show Function.update s.procPc y _ x < _ ∨ _
      rw [Function.update_of_ne hbefore.2]
      exact h x hbefore.1

theorem runnable_of_reachable {s : BootState cfg.numCpus M} (hs : (bootSystem cfg mach).Reachable s) :
    Runnable cfg s.os := by
  induction hs with
  | init hinit =>
    obtain ⟨⟨m, -, hos⟩, -⟩ := hinit
    rw [hos]
    rintro x (hqueued | ⟨c, hheld, -⟩)
    · have hzero := @places_start cfg.numCpus _ m x
      unfold OsState.places at hzero
      omega
    · exact absurd hheld (by simp [OsState.start, Cpu.held, CpuPc.owns])
  | @step s t l hs hst ih =>
    have hos := osReachable_of_boot hs
    have hstep : ∀ {now e u}, OsStep cfg mach now s.os e u → Runnable cfg u := by
      intro now e u hstep
      cases hstep with
      | cpu hcpu => exact runnable_cpuStep hos ih hcpu
      | ld hld =>
        cases hld with
        | @add u hpc hadd =>
          intro x hx
          by_cases hxi : s.os.i = x
          · -- the new process is at its first instruction
            have hfresh := (paced_of_reachable hs).fresh x hxi.le
            rcases (cfg.code x).eq_nil_or_concat with hnil | ⟨l, a, hcode⟩
            · exact .inr hnil
            · left
              show s.os.procPc x < _
              rw [hfresh, hcode]
              simp
          · have hcount := readyCount_requeue hadd x
            rw [if_neg (by simp [hxi]), if_neg (by simp [hxi])] at hcount
            rcases hx with hqueued | hheld
            · have : 0 < u.readyCount x := hqueued
              exact ih x (.inl (by omega))
            · exact ih x (.inr hheld)
        | _ => exact ih
    cases hst with
    | timer _ => exact ih
    | thread _ hos' | slot hos' _ => exact hstep hos'

/-- Whoever has been run stays so. -/
theorem begun_step {s t : OsState cfg.numCpus M} {now : ℕ} {e : OsEvent cfg.numCpus} {x : ℕ}
    (hst : OsStep cfg mach now s e t) (hle : s.procPc x ≤ (cfg.code x).length) (hempty : cfg.code x = [])
    (h : s.begun x) : t.begun x := by
  have hend : s.procPc x = (cfg.code x).length := by
    rw [hempty] at hle ⊢
    exact Nat.le_zero.mp hle
  have hreaped : x ∈ s.reaped → x ∈ t.reaped := by
    intro hx
    cases hst with
    | ld hld => cases hld <;> exact hx
    | cpu hcpu =>
      cases hcpu with
      | reap _ _ _ => exact List.mem_cons_of_mem _ hx
      | run _ _ hrun => cases hrun <;> exact hx
      | _ => exact hx
  rcases h with hx | ⟨d, hheld, hrun⟩
  · exact .inl (hreaped hx)
  · cases hst with
    | ld hld => cases hld <;> exact .inr ⟨d, hheld, hrun⟩
    | @cpu c _ _ hcpu =>
      by_cases hd : d = c
      · subst hd
        cases hcpu with
        | getIdle hpc hproc =>
          rw [Cpu.held_of_owns (by rw [hpc]; rfl), hproc] at hheld
          cases hheld
        | @reap y hpc hproc _ =>
          -- nothing is left of it to be run
          rw [Cpu.held_of_owns (by rw [hpc]; rfl), hproc] at hheld
          obtain rfl := Option.some.inj hheld
          exact .inl List.mem_cons_self
        | @put y _ hpc hproc hne _ _ | @keep y hpc hproc hne _ =>
          rw [Cpu.held_of_owns (by rw [hpc]; rfl), hproc] at hheld
          obtain rfl := Option.some.inj hheld
          exact absurd hend hne
        | call hpc | ret hpc =>
          refine .inr ⟨d, ?_, ?_⟩ <;> rw [cpu_setCpu_self]
          · rw [Cpu.held_of_owns (by rw [hpc]; rfl)] at hheld
            rw [Cpu.held_of_owns rfl]
            exact hheld
          · rfl
        | getAfterFree hpc | getAfterPut hpc | stop hpc _ _ | idle hpc _ _ | dispatch hpc _ | run hpc _ _
        | detach hpc =>
          rw [hpc] at hrun
          cases hrun
      · rw [← hcpu.cpu_of_ne hd] at hheld hrun
        exact .inr ⟨d, hheld, hrun⟩

theorem procPc_mono {s t : BootState cfg.numCpus M} {l : Option (OsEvent cfg.numCpus)}
    (hst : BootStep cfg mach s l t) (x : ℕ) : s.os.procPc x ≤ t.os.procPc x := by
  cases executes_step hst with
  | nothing hsame => rw [hsame]
  | @one c y _ _ _ _ _ _ _ hpc =>
    rw [hpc]
    by_cases hxy : x = y
    · subst hxy
      rw [Function.update_self]
      exact Nat.le_succ _
    · rw [Function.update_of_ne hxy]

/-- **No slot is taken back.** -/
theorem spent_mono {s t : BootState cfg.numCpus M} {l : Option (OsEvent cfg.numCpus)}
    (hs : (bootSystem cfg mach).Reachable s) (hst : BootStep cfg mach s l t) (x : ℕ) :
    s.os.spent cfg x ≤ t.os.spent cfg x := by
  have hpc := procPc_mono hst x
  have hbegun : cfg.code x = [] → s.os.begun x → t.os.begun x := by
    intro hempty h
    have hle := procPc_le (osReachable_of_boot hs) x
    cases hst with
    | timer _ => exact h
    | thread _ hos | slot hos _ => exact begun_step hos hle hempty h
  unfold OsState.spent
  by_cases h : cfg.code x = [] ∧ s.os.begun x
  · rw [if_pos h, if_pos ⟨h.1, hbegun h.1 h.2⟩]
    omega
  · rw [if_neg h]
    omega

/-- **`run` uses a slot**, also when there is nothing to execute. -/
theorem spent_run {s u : OsState cfg.numCpus M} {c : Fin cfg.numCpus} {x : ℕ} {k : ℤ}
    (hs : (osSystem cfg mach).Reachable s) (hready : Runnable cfg s) (hpc : (s.cpu c).pc = .run)
    (hheld : (s.cpu c).held = some x) (hrun : Run cfg mach s x u) :
    s.spent cfg x < (u.setCpu c ⟨.slot, some x, k⟩).spent cfg x := by
  have hafter : (u.setCpu c ⟨.slot, some x, k⟩).begun x := by
    refine .inr ⟨c, ?_, ?_⟩ <;> rw [cpu_setCpu_self]
    · exact Cpu.held_of_owns rfl
    · rfl
  cases hrun with
  | atEnd hle =>
    have hempty : cfg.code x = [] := by
      rcases hready x (.inr ⟨c, hheld, .inr hpc⟩) with hlt | hempty
      · omega
      · exact hempty
    have hbefore : ¬ s.begun x := by
      rintro (hreaped | ⟨d, hd, hran⟩)
      · exact (held_live hs hheld).2 hreaped
      · obtain rfl := holder_unique hs hd hheld
        rw [hpc] at hran
        cases hran
    rw [OsState.spent, OsState.spent, if_neg (fun h => hbefore h.2), if_pos ⟨hempty, hafter⟩]
    exact Nat.lt_succ_self _
  | exec hins _ =>
    have hcode : cfg.code x ≠ [] := by
      intro hempty
      rw [hempty] at hins
      cases hins
    rw [OsState.spent, OsState.spent, if_neg (fun h => hcode h.1), if_neg (fun h => hcode h.1)]
    show s.procPc x + 0 < Function.update s.procPc x (s.procPc x + 1) x + 0
    rw [Function.update_self]
    exact Nat.lt_succ_self _

/-! ## An instruction in every slot -/

/-- The slots that the processes have had together. -/
def OsState.totalSpent (cfg : Config) (s : OsState n M) : ℕ := ∑ x ∈ Finset.range cfg.numProcesses, s.spent cfg x

/-- The slots that the processes need together. -/
def totalCost (cfg : Config) : ℕ := ∑ x ∈ Finset.range cfg.numProcesses, cost cfg x

/-- Every process has been freed. -/
def OsState.finished (cfg : Config) (s : OsState n M) : Prop := ∀ x < cfg.numProcesses, x ∈ s.reaped

/-- CPU `c` has run its process in this slot. -/
def Worked (s : BootState n M) (c : Fin n) : Prop :=
  limit s c = s.timer.time + 1 ∧ (s.os.cpu c).held ≠ none

/-- **The invariant**: since everybody is in, a process has been run in every slot, unless they have all finished. -/
def OnSchedule (cfg : Config) (s : BootState n M) : Prop :=
  nextSlot cfg cfg.numProcesses ≤ s.timer.time → s.os.finished cfg ∨
    (s.timer.time ≤ nextSlot cfg cfg.numProcesses + s.os.totalSpent cfg ∧
      ∀ c, Worked s c → s.timer.time + 1 ≤ nextSlot cfg cfg.numProcesses + s.os.totalSpent cfg)

theorem finished_step {s t : BootState n M} {l : Option (OsEvent n)} (hst : BootStep cfg mach s l t)
    (h : s.os.finished cfg) : t.os.finished cfg := by
  have hos : ∀ {now e u}, OsStep cfg mach now s.os e u → ∀ x ∈ s.os.reaped, x ∈ u.reaped := by
    intro now e u hos x hx
    cases hos with
    | ld hld => cases hld <;> exact hx
    | cpu hcpu =>
      cases hcpu with
      | reap _ _ _ => exact List.mem_cons_of_mem _ hx
      | run _ _ hrun => cases hrun <;> exact hx
      | _ => exact hx
  intro x hx
  cases hst with
  | timer _ => exact h x hx
  | thread _ hstep | slot hstep _ => exact hos hstep x (h x hx)

/-- Within a slot a CPU has worked afterwards only if it had before, or if it has just called `run`. -/
theorem worked_back {s t : BootState cfg.numCpus M} {l : Option (OsEvent cfg.numCpus)} {c : Fin cfg.numCpus}
    (hs : (bootSystem cfg mach).Reachable s) (hst : BootStep cfg mach s l t) (htime : t.timer.time = s.timer.time)
    (h : Worked t c) : Worked s c ∨ s.os.totalSpent cfg < t.os.totalSpent cfg := by
  have hsync := synced_of_reachable hs
  have hsync' := synced_of_reachable (hs.step hst)
  have hlock := lockstep_of_reachable (timerReachable_of_boot hs)
  have hlock' := lockstep_of_reachable (timerReachable_of_boot (hs.step hst))
  obtain ⟨hlimit, hheld⟩ := h
  have hend : (t.os.cpu c).pc.ending = true := by
    by_contra hend
    unfold limit slotsUsed at hlimit
    rw [if_neg hend] at hlimit
    omega
  have hround : l ≠ some (.slot (.ret (cpuDev c))) →
      (t.timer.dev (cpuDev c)).round = (s.timer.dev (cpuDev c)).round := by
    intro hret
    refine round_step hst ?_ hret
    rw [← hsync', phase_cpuDev]
    exact phase_of_ending hend
  -- a CPU that was in front of, or in, `next_slot` before
  have hback : l ≠ some (.slot (.ret (cpuDev c))) → (s.os.cpu c).pc.ending = true →
      (s.os.cpu c).held = (t.os.cpu c).held → Worked s c := by
    intro hret hend' hsame
    refine ⟨?_, by rwa [hsame]⟩
    unfold limit slotsUsed at hlimit ⊢
    rw [if_pos hend] at hlimit
    rw [if_pos hend', ← hround hret, hlimit, htime]
  have hsame : l ≠ some (.slot (.ret (cpuDev c))) → t.os.cpu c = s.os.cpu c → Worked s c :=
    fun hret hcpu => hback hret (by rwa [← hcpu]) (by rw [hcpu])
  have hboot := hst
  cases hst with
  | timer _ => exact .inl (hsame (by simp) rfl)
  | @thread e u hslot hstep =>
    have hret : some e ≠ some (.slot (.ret (cpuDev c))) := by simpa using hslot _
    cases hstep with
    | ld hld => exact .inl (hsame hret (by cases hld <;> rfl))
    | @cpu c' _ _ hcpu =>
      by_cases hc : c = c'
      · subst hc
        cases hcpu with
        | getIdle _ _ =>
          -- it goes to `next_slot` at once only if it has got nobody
          rw [cpu_setCpu_self] at hend hheld
          rw [Cpu.held_of_owns (by dsimp only; split <;> rfl)] at hheld
          dsimp only at hend hheld
          rw [if_pos (Option.isSome_iff_ne_none.mpr hheld)] at hend
          cases hend
        | idle hpc hproc _ =>
          rw [cpu_setCpu_self, Cpu.held_of_owns rfl] at hheld
          exact absurd hproc hheld
        | @run x u hpc hproc hrun =>
          right
          have hos := osReachable_of_boot hs
          have hholds : (s.os.cpu c).held = some x := by rw [Cpu.held_of_owns (by rw [hpc]; rfl), hproc]
          have hx : x < cfg.numProcesses :=
            (held_live hos hholds).1.trans_le (i_le_numProcesses hos)
          exact Finset.sum_lt_sum (fun y _ => spent_mono hs hboot y)
            ⟨x, Finset.mem_range.mpr hx, spent_run hos (runnable_of_reachable hs) hpc hholds hrun⟩
        | getAfterFree _ | getAfterPut _ | reap _ _ _ | put _ _ _ _ _ | keep _ _ _ _ | stop _ _ _ | dispatch _ _ =>
          rw [cpu_setCpu_self] at hend
          cases hend
        | call _ | ret _ | detach _ => exact absurd rfl (hslot _)
      · exact .inl (hsame hret (hcpu.cpu_of_ne hc))
  | @slot e u w hstep ht =>
    cases hstep with
    | ld hld =>
      refine .inl (hsame ?_ (by cases hld <;> rfl))
      cases hld <;> simp [(cpuDev_ne_ldDev c).symm]
    | @cpu c' _ _ hcpu =>
      by_cases hc : c = c'
      · subst hc
        cases hcpu with
        | call hpc =>
          refine .inl (hback (by simp) (by rw [hpc]; rfl) ?_)
          rw [cpu_setCpu_self, Cpu.held_of_owns (by rw [hpc]; rfl), Cpu.held_of_owns rfl]
        | ret _ | detach _ =>
          rw [cpu_setCpu_self] at hend
          cases hend
      · refine .inl (hsame ?_ (hcpu.cpu_of_ne hc))
        have hdev : cpuDev c' ≠ cpuDev c := fun heq => hc (Fin.castSucc_injective _ heq).symm
        cases hcpu <;> simp [hdev]

/-- The slot is counted when every device has entered it, or has detached. -/
theorem entered_of_tick {k : ℕ} {s t : TimerState (Fin k)} {e : Option (SlotEvent (Fin k))} (h : Lockstep s)
    (hst : TimerStep (devListOf k) s e t) (htick : t.time ≠ s.time) (d : Fin k) :
    (s.dev d).pc.phase = .detached ∨ ((s.dev d).pc.phase = .slot ∧ (s.dev d).round = s.time + 1) := by
  cases hst with
  | tick hpc =>
    obtain ⟨j, hj⟩ := List.mem_iff_getElem?.mp (mem_devListOf d)
    have hok := h j d hj
    rw [hpc] at hok
    cases hf : (s.dev d).fsh with
    | true =>
      left
      have hdet := hok.fsh_detached hf
      revert hdet
      cases (s.dev d).pc <;> simp [DevPc.detached, DevPc.phase]
    | false =>
      right
      have hdone := hok.collected_done hf rfl
      have hin := hok.done_inSlot hdone
      have hentered := hok.entered_eq hf rfl
      rw [if_pos hdone] at hentered
      rw [Dev.round, hentered]
      revert hin
      cases (s.dev d).pc <;> simp [DevPc.inSlot, DevPc.phase]
  | _ => exact absurd rfl htick

/-- At the end of a slot every CPU has worked or has decided. -/
theorem worked_or_decided {s : BootState n M} {t : TimerState (Fin (n + 1))} (hsync : Synced s)
    (hlock : Lockstep s.timer) (ht : TimerStep (devListOf (n + 1)) s.timer none t) (htick : t.time ≠ s.timer.time)
    (c : Fin n) : Worked s c ∨ Decided s c := by
  rcases entered_of_tick hlock ht htick (cpuDev c) with hdet | ⟨hslot, hround⟩
  · right
    left
    rw [← hsync, phase_cpuDev] at hdet
    revert hdet
    cases (s.os.cpu c).pc <;> simp [CpuPc.phase, CpuPc.left]
  · have hpc : (s.os.cpu c).pc = .inSlot := by
      rw [← hsync, phase_cpuDev] at hslot
      revert hslot
      cases (s.os.cpu c).pc <;> simp [CpuPc.phase]
    have hlimit : limit s c = s.timer.time + 1 := by
      rw [limit, hpc]
      exact hround
    by_cases hheld : (s.os.cpu c).held = none
    · exact .inr (.inr (.inr ⟨hlimit, hheld⟩))
    · exact .inl ⟨hlimit, hheld⟩

theorem time_eq_or {k : ℕ} {s t : TimerState (Fin k)} {e : Option (SlotEvent (Fin k))}
    (hst : TimerStep (devListOf k) s e t) : t.time = s.time ∨ t.time = s.time + 1 := by
  cases hst with
  | tick _ => exact .inr rfl
  | _ => exact .inl rfl

theorem held_of_decided {s : BootState cfg.numCpus M} (hs : (osSystem cfg mach).Reachable s.os) {c : Fin cfg.numCpus}
    (h : Decided s c) : (s.os.cpu c).held = none := by
  rcases h with hleft | ⟨hcheck, hproc⟩ | ⟨-, hnone⟩
  · have hproc := ((orderly_of_reachable hs).stopped c hleft).2
    unfold Cpu.held
    rw [hproc]
    exact ite_self _
  · rw [Cpu.held_of_owns (by rw [hcheck]; rfl), hproc]
  · exact hnone

/-- When everybody has been added, no CPU holds anybody and nothing is queued, everybody has been freed. -/
theorem finished_of_empty {s : BootState cfg.numCpus M}
    (hs : ((bootSystem cfg mach).guard (BootRoom cfg)).Reachable s) (hempty : ∀ p, s.os.sched.ready p = [])
    (hadded : cfg.numProcesses ≤ s.os.i) (hall : ∀ c, (s.os.cpu c).held = none) : s.os.finished cfg := by
  intro x hx
  have hplace := places_eq (osGuarded_of_boot hs) x
  rw [if_pos (hx.trans_le hadded)] at hplace
  have hready : s.os.sched.readyCount x = 0 := by
    refine Finset.sum_eq_zero fun p _ => ?_
    rw [hempty p]
    rfl
  have hheld : s.os.heldCount x = 0 := by
    refine Finset.sum_eq_zero fun c _ => ?_
    rw [hall c]
    rfl
  rw [OsState.places, hready, hheld] at hplace
  exact List.count_pos_iff.mp (by omega)

/-- The loader has had its slots. -/
theorem added_of_nextSlot {s : BootState cfg.numCpus M} (hs : (bootSystem cfg mach).Reachable s)
    (hload : nextSlot cfg cfg.numProcesses ≤ s.timer.time) : cfg.numProcesses ≤ s.os.i := by
  by_contra hnot
  have hlt := Nat.lt_of_not_le hnot
  have hearly := le_earliest_of_not_added hs hlt (Nat.le_refl s.os.i)
  have hmono := nextSlot_mono cfg (Nat.succ_le_of_lt hlt)
  exact absurd (hearly.trans_lt (Nat.lt_succ_self _)) (Nat.not_lt.mpr (hmono.trans hload))

theorem onSchedule_step {s t : BootState cfg.numCpus M} {l : Option (OsEvent cfg.numCpus)} (hn : 0 < cfg.numCpus)
    (h : OnSchedule cfg s) (hs : ((bootSystem cfg mach).guard (BootRoom cfg)).Reachable s)
    (hst : BootStep cfg mach s l t) : OnSchedule cfg t := by
  have hr := hs.of_guard
  have hsync := synced_of_reachable hr
  have hsync' := synced_of_reachable (hr.step hst)
  have hlock := lockstep_of_reachable (timerReachable_of_boot hr)
  have hspent : s.os.totalSpent cfg ≤ t.os.totalSpent cfg := Finset.sum_le_sum fun x _ => spent_mono hr hst x
  intro hload
  by_cases htime : t.timer.time = s.timer.time
  · -- within a slot
    rw [htime] at hload ⊢
    rcases h hload with hfin | ⟨hle, hwork⟩
    · exact .inl (finished_step hst hfin)
    · refine .inr ⟨by omega, fun c hc => ?_⟩
      rcases worked_back hr hst htime hc with hc | hlt
      · have := hwork c hc
        omega
      · omega
  · -- the slot ends
    cases hst with
    | thread _ _ => exact absurd rfl htime
    | slot _ ht => exact absurd ((time_le ht).2 rfl) htime
    | @timer t ht =>
      have hsucc : t.time = s.timer.time + 1 := (time_eq_or ht).resolve_left htime
      have hnobody : ∀ c, ¬ Worked ⟨s.os, t⟩ c := by
        rintro c ⟨hlimit, -⟩
        unfold limit slotsUsed at hlimit
        split at hlimit
        · rename_i hend
          have hon := phase_of_ending hend
          have hround := (devMoves_of_timerStep ht (cpuDev c)).round (by simp)
            (by rw [← hsync', phase_cpuDev]; exact hon)
          have hle := (hlock.round_le (d := cpuDev c) (by rw [← hsync, phase_cpuDev]; exact hon)).2
          have : (t.dev (cpuDev c)).round = t.time + 1 := hlimit
          omega
        · exact absurd hlimit (Nat.succ_ne_self _).symm
      rcases Nat.lt_or_ge s.timer.time (nextSlot cfg cfg.numProcesses) with hlt | hge
      · right
        refine ⟨?_, fun c hc => absurd hc (hnobody c)⟩
        show t.time ≤ _
        omega
      · rcases h hge with hfin | ⟨-, hwork⟩
        · exact .inl hfin
        · by_cases hex : ∃ c, Worked s c
          · obtain ⟨c, hc⟩ := hex
            have hdone := hwork c hc
            right
            refine ⟨?_, fun c hc => absurd hc (hnobody c)⟩
            show t.time ≤ _
            rw [hsucc]
            exact hdone
          · -- nobody has been run in this slot: nobody is left
            left
            rw [not_exists] at hex
            have hdecided : ∀ c, Decided s c := fun c =>
              (worked_or_decided hsync hlock ht htime c).resolve_left (hex c)
            have hempty : ∀ p, s.os.sched.ready p = [] := decidedEmpty_of_reachable hn hr hge hdecided
            have hfin : s.os.finished cfg := finished_of_empty hs hempty (added_of_nextSlot hr hge) fun c =>
              held_of_decided (osReachable_of_boot hr) (hdecided c)
            exact hfin

theorem onSchedule_of_reachable {s : BootState cfg.numCpus M} (hn : 0 < cfg.numCpus)
    (hs : ((bootSystem cfg mach).guard (BootRoom cfg)).Reachable s) : OnSchedule cfg s := by
  induction hs with
  | init hinit =>
    obtain ⟨⟨m, -, hos⟩, htimer⟩ := hinit
    intro _
    right
    refine ⟨by rw [htimer]; exact Nat.zero_le _, ?_⟩
    rintro c ⟨-, hheld⟩
    rw [hos] at hheld
    exact absurd rfl hheld
  | step hs hst ih => exact onSchedule_step hn ih hs hst.1

theorem totalSpent_le {s : OsState cfg.numCpus M} (hs : (osSystem cfg mach).Reachable s) :
    s.totalSpent cfg ≤ totalCost cfg := Finset.sum_le_sum fun x _ => spent_le_cost hs x

/-- Later than that, everybody has been freed. -/
theorem finished_of_time {s : BootState cfg.numCpus M} (hn : 0 < cfg.numCpus)
    (hs : ((bootSystem cfg mach).guard (BootRoom cfg)).Reachable s)
    (htime : nextSlot cfg cfg.numProcesses + totalCost cfg < s.timer.time) : s.os.finished cfg := by
  have hcosts := totalSpent_le (osReachable_of_boot hs.of_guard)
  rcases onSchedule_of_reachable hn hs (by omega) with hfin | ⟨hle, -⟩
  · exact hfin
  · omega

/-- Who has been freed has executed its whole code. -/
theorem executed_of_finished {s : OsState cfg.numCpus M} (hs : (osSystem cfg mach).Reachable s)
    (hfin : s.finished cfg) {x : ℕ} (hx : x < cfg.numProcesses) : s.executed x = cfg.code x := by
  rw [(orderly_of_reachable hs).executed x, reaped_atEnd hs x (hfin x hx), List.take_length]

/-- **Every process is through in time.** In every run of the simulator with a CPU in which no `enqueue` meets a full
    queue: once the loader has had the slots that it needs, and after that as many slots have passed as all programs
    have instructions (one at least for each), every process has executed its whole code, whatever the number of CPUs,
    the time slot, the priorities and the interleaving; and one slot later every process has been freed. -/
theorem deadline (cfg : Config) (mach : Machine M) (hn : 0 < cfg.numCpus) (s : BootState cfg.numCpus M)
    (hs : ((bootSystem cfg mach).guard (BootRoom cfg)).Reachable s)
    (htime : nextSlot cfg cfg.numProcesses + totalCost cfg ≤ s.timer.time) (x : ℕ) (hx : x < cfg.numProcesses) :
    s.os.executed x = cfg.code x ∧
      (nextSlot cfg cfg.numProcesses + totalCost cfg < s.timer.time → x ∈ s.os.reaped) := by
  have hos := osReachable_of_boot hs.of_guard
  refine ⟨?_, fun hlt => finished_of_time hn hs hlt x hx⟩
  have hcosts := totalSpent_le hos
  rcases onSchedule_of_reachable hn hs (by omega) with hfin | ⟨hle, -⟩
  · exact executed_of_finished hos hfin hx
  · -- everybody has had its full share
    have hall : ∀ y ∈ Finset.range cfg.numProcesses, s.os.spent cfg y = cost cfg y :=
      (Finset.sum_eq_sum_iff_of_le fun y _ => spent_le_cost hos y).mp (by
        show s.os.totalSpent cfg = totalCost cfg
        omega)
    have hspent := hall x (Finset.mem_range.mpr hx)
    rw [(orderly_of_reachable hos).executed x]
    refine List.take_of_length_le ?_
    by_cases hempty : cfg.code x = []
    · rw [hempty]
      exact Nat.zero_le _
    · rw [OsState.spent, if_neg (fun h => hempty h.1), cost] at hspent
      omega

/-! ### A run of two slots -/

/-- In the first slot the process is added and executed, in the second one the CPU has nothing to do and the loader
    detaches. -/
theorem oneBoot_twice : ∃ s, oneBoot.Reachable s ∧ s.timer.time = 2 := by
  have h : oneBoot.Reachable ⟨.start _ (), .start _⟩ := .init ⟨⟨(), trivial, rfl⟩, rfl⟩
  have h := oneBoot_silent h (.ld (.load rfl Nat.one_pos))
  have h := oneBoot_silent h (.ld (.onTime rfl (Nat.lt_irrefl 0)))
  have h := oneBoot_silent h (.ld (.initMm (m := ()) rfl trivial))
  have hroom : RoomToEnqueue oneProcess (OsState.start oneProcess.numCpus ()) (.add 0) := by
    rintro x - ⟨p, -, hfull⟩
    exact absurd hfull (Nat.not_succ_le_zero 49)
  obtain ⟨q, hq⟩ : ∃ q, SchedState.addMlqProc oneProcess.prio
      (OsState.start oneProcess.numCpus ()).sched 0 = some q := requeue_isSome _ (show 0 < maxPrio by decide)
  have h := oneBoot_thread h (fun _ => by simp) (.ld (.add rfl hq)) hroom
  obtain ⟨hp, hself, hother, -, hinit, -⟩ := requeue_spec hq
  obtain ⟨r, hget, hrinit, hrest⟩ := getMlqProc_only (hinit.trans rfl) hself hother oneProcess.prio
  have h := oneBoot_thread h (fun _ => by simp) (.cpu (.getIdle (c := onlyCpu) rfl rfl))
    (fun _ hx => absurd hx (by simp [OsEvent.enqueued]))
  have h := oneBoot_silent h (.cpu (.dispatch (c := onlyCpu) (x := 0)
    (by rw [cpu_setCpu_self]; simp only [hget]; rfl) (by rw [cpu_setCpu_self]; simp only [hget])))
  have h := oneBoot_silent h (.cpu (.run (c := onlyCpu) (x := 0) rfl rfl (.exec (m := ()) rfl trivial)))
  -- the first slot
  have h := oneBoot_slot h (.cpu (.call (c := onlyCpu) rfl)) (.device (e := some .call) (mem_devListOf _) (.call rfl))
  have h := oneBoot_device h (cpuDev onlyCpu) (.lockEvent rfl rfl)
  have h := oneBoot_device h (cpuDev onlyCpu) (.setDone rfl)
  have h := oneBoot_device h (cpuDev onlyCpu) (.signalEvent rfl)
  have h := oneBoot_device h (cpuDev onlyCpu) (.unlockEvent rfl)
  have h := oneBoot_slot h (.ld (.call rfl)) (.device (e := some .call) (mem_devListOf _) (.call rfl))
  have h := oneBoot_device h ldDev (.lockEvent rfl rfl)
  have h := oneBoot_device h ldDev (.setDone rfl)
  have h := oneBoot_device h ldDev (.signalEvent rfl)
  have h := oneBoot_device h ldDev (.unlockEvent rfl)
  have h := oneBoot_timer h (.round rfl rfl)
  have h := oneBoot_timer h (.lockEvent (d := ldDev) rfl rfl rfl)
  have h := oneBoot_timer h (.testPass (d := ldDev) rfl rfl (.inl rfl))
  have h := oneBoot_timer h (.count (d := ldDev) rfl rfl)
  have h := oneBoot_timer h (.unlockEvent (d := ldDev) rfl rfl)
  have h := oneBoot_timer h (.lockEvent (d := cpuDev onlyCpu) rfl rfl rfl)
  have h := oneBoot_timer h (.testPass (d := cpuDev onlyCpu) rfl rfl (.inl rfl))
  have h := oneBoot_timer h (.count (d := cpuDev onlyCpu) rfl rfl)
  have h := oneBoot_timer h (.unlockEvent (d := cpuDev onlyCpu) rfl rfl)
  have h := oneBoot_timer h (.lockEventEnd rfl rfl)
  have h := oneBoot_timer h (.tick rfl)
  have h := oneBoot_timer h (.lockTimer (d := ldDev) rfl rfl rfl)
  have h := oneBoot_timer h (.clear (d := ldDev) rfl rfl)
  have h := oneBoot_timer h (.signal (d := ldDev) rfl rfl)
  have h := oneBoot_timer h (.unlockTimer (d := ldDev) rfl rfl)
  have h := oneBoot_timer h (.lockTimer (d := cpuDev onlyCpu) rfl rfl rfl)
  have h := oneBoot_timer h (.clear (d := cpuDev onlyCpu) rfl rfl)
  have h := oneBoot_timer h (.signal (d := cpuDev onlyCpu) rfl rfl)
  have h := oneBoot_timer h (.unlockTimer (d := cpuDev onlyCpu) rfl rfl)
  have h := oneBoot_timer h (.lockTimerEnd rfl rfl)
  have h := oneBoot_timer h (.exitTest rfl)
  have h := oneBoot_device h ldDev (.lockTimer rfl rfl)
  have h := oneBoot_device h ldDev (.released rfl rfl)
  have h := oneBoot_slot h (.ld (.ret rfl)) (.device (e := some .ret) (mem_devListOf _) (.ret rfl))
  have h := oneBoot_device h (cpuDev onlyCpu) (.lockTimer rfl rfl)
  have h := oneBoot_device h (cpuDev onlyCpu) (.released rfl rfl)
  have h := oneBoot_slot h (.cpu (.ret (c := onlyCpu) rfl)) (.device (e := some .ret) (mem_devListOf _) (.ret rfl))
  -- the CPU frees the process and finds no other one, the loader is done
  have h := oneBoot_silent h (.cpu (.reap (c := onlyCpu) (x := 0) rfl rfl rfl))
  have hnone : ((q.getMlqProc oneProcess.prio).2.getMlqProc oneProcess.prio).1 = none := by
    rw [hget, getMlqProc_empty hrinit hrest]
  have h := oneBoot_thread h (fun _ => by simp) (.cpu (.getAfterFree (c := onlyCpu) rfl))
    (fun _ hx => absurd hx (by simp [OsEvent.enqueued]))
  have h := oneBoot_silent h (.cpu (.idle (c := onlyCpu) rfl hnone rfl))
  have h := oneBoot_silent h (.ld (.allLoaded rfl (Nat.lt_irrefl 1)))
  have h := oneBoot_silent h (.ld (.setDone rfl))
  -- the second slot
  have h := oneBoot_slot h (.cpu (.call (c := onlyCpu) rfl)) (.device (e := some .call) (mem_devListOf _) (.call rfl))
  have h := oneBoot_device h (cpuDev onlyCpu) (.lockEvent rfl rfl)
  have h := oneBoot_device h (cpuDev onlyCpu) (.setDone rfl)
  have h := oneBoot_device h (cpuDev onlyCpu) (.signalEvent rfl)
  have h := oneBoot_device h (cpuDev onlyCpu) (.unlockEvent rfl)
  have h := oneBoot_slot h (.ld (.detach rfl)) (.device (e := some .detach) (mem_devListOf _) (.detach rfl))
  have h := oneBoot_device h ldDev (.detachLock rfl rfl)
  have h := oneBoot_device h ldDev (.setFsh rfl)
  have h := oneBoot_device h ldDev (.detachSignal rfl)
  have h := oneBoot_device h ldDev (.detachUnlock rfl)
  have h := oneBoot_timer h (.round rfl rfl)
  have h := oneBoot_timer h (.lockEvent (d := ldDev) rfl rfl rfl)
  have h := oneBoot_timer h (.testPass (d := ldDev) rfl rfl (.inr rfl))
  have h := oneBoot_timer h (.count (d := ldDev) rfl rfl)
  have h := oneBoot_timer h (.unlockEvent (d := ldDev) rfl rfl)
  have h := oneBoot_timer h (.lockEvent (d := cpuDev onlyCpu) rfl rfl rfl)
  have h := oneBoot_timer h (.testPass (d := cpuDev onlyCpu) rfl rfl (.inl rfl))
  have h := oneBoot_timer h (.count (d := cpuDev onlyCpu) rfl rfl)
  have h := oneBoot_timer h (.unlockEvent (d := cpuDev onlyCpu) rfl rfl)
  have h := oneBoot_timer h (.lockEventEnd rfl rfl)
  have h := oneBoot_timer h (.tick rfl)
  exact ⟨_, h, rfl⟩

theorem deadline_one : ∃ s : BootState oneProcess.numCpus Unit, s.timer.time = 2 ∧ s.os.executed 0 = oneProcess.code 0 ∧
    (nextSlot oneProcess 1 + totalCost oneProcess < s.timer.time → 0 ∈ s.os.reaped) := by
  obtain ⟨s, h, htime⟩ := oneBoot_twice
  have hbound : nextSlot oneProcess oneProcess.numProcesses + totalCost oneProcess ≤ s.timer.time := by
    rw [htime]
    decide
  exact ⟨s, htime, deadline oneProcess noMemory Nat.one_pos s h hbound 0 Nat.one_pos⟩

end LamiaAtrium
