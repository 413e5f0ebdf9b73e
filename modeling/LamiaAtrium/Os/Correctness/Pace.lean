import LamiaAtrium.Os.Correctness.Slicing

/-!
# `Os.Correctness.Pace` — how much can happen by a given time

A thread that is outside `next_slot` is in the slot `_time`, so `_time` bounds what it can have done.

* `limit` is the number of slots that a CPU has used up: the slot that it is in counts from `run` on.
* `limit_step`: executing an instruction uses up a slot, and no step gives one back.
* `earliest`: the first slot in which the loader can add a process.
* `Paced` is the invariant: an instruction of a process for each slot since then, and no more.
* `slot_pace`: the results for one process. `throughput`: the result for all of them together.
-/

namespace LamiaAtrium

variable {n : ℕ} {M : Type} {cfg : Config} {mach : Machine M}

/-! ## Slots -/

section

variable {k : ℕ} {s : TimerState (Fin k)} {d : Fin k}

theorem pc_of_out {pc : DevPc} (h : pc.phase = .out) : pc = .out := by
  revert h
  cases pc <;> simp [DevPc.phase]

/-- A thread outside of the timer has entered `_time` slots. -/
theorem Lockstep.round_out (h : Lockstep s) (hout : (s.dev d).pc.phase = .out) : (s.dev d).round = s.time + 1 := by
  obtain ⟨j, hj⟩ := List.mem_iff_getElem?.mp (mem_devListOf d)
  have hok := h j d hj
  have hpc := pc_of_out hout
  have hdone := hok.not_done (by rw [hpc]; rfl)
  have hfsh := hok.not_fsh (by rw [hpc]; rfl)
  rw [Dev.round, hpc, (hok.entered_eq_time hdone hfsh).2]

/-- A thread that is still attached has entered one slot more at most. -/
theorem Lockstep.round_le (h : Lockstep s) (hon : (s.dev d).pc.phase ≠ .detached) :
    s.time ≤ (s.dev d).round ∧ (s.dev d).round ≤ s.time + 1 := by
  obtain ⟨j, hj⟩ := List.mem_iff_getElem?.mp (mem_devListOf d)
  have hok := h j d hj
  have hfsh : (s.dev d).fsh = false := by
    apply hok.not_fsh
    revert hon
    cases (s.dev d).pc <;> simp [DevPc.phase, DevPc.detached]
  have hent := h.entered d hfsh
  by_cases hbefore : (s.dev d).pc = .out ∨ (s.dev d).pc = .lockEvent ∨ (s.dev d).pc = .setDone
  · have hin : (s.dev d).pc.inSlot = false := by
      rcases hbefore with hpc | hpc | hpc <;> rw [hpc] <;> rfl
    have htime := (hok.entered_eq_time (hok.not_done hin) hfsh).2
    have hround : (s.dev d).round = (s.dev d).entered + 1 := by
      rcases hbefore with hpc | hpc | hpc <;> rw [Dev.round, hpc]
    omega
  · have hround : (s.dev d).round = (s.dev d).entered := by
      rw [not_or, not_or] at hbefore
      obtain ⟨h₁, h₂, h₃⟩ := hbefore
      revert h₁ h₂ h₃
      rw [Dev.round]
      cases (s.dev d).pc <;> simp
    omega

/-- A thread that comes back from `next_slot` has entered `_time` slots. -/
theorem Lockstep.round_ret {t : TimerState (Fin k)} (h : Lockstep s)
    (hst : TimerStep (devListOf k) s (some (.ret d)) t) : (s.dev d).round = t.time := by
  generalize he : some (SlotEvent.ret d) = e at hst
  cases hst with
  | @device d' e v _ hdst =>
    cases hdst with
    | ret hpc =>
      obtain rfl : d = d' := by simpa [DevEvent.at] using he
      obtain ⟨j, hj⟩ := List.mem_iff_getElem?.mp (mem_devListOf d)
      have hok := h j d hj
      have hdone := hok.not_done (by rw [hpc]; rfl)
      have hfsh := hok.not_fsh (by rw [hpc]; rfl)
      rw [Dev.round, hpc]
      exact (hok.entered_eq_time hdone hfsh).2
    | _ => simp [DevEvent.at] at he
  | _ => cases he

/-- `_time` only goes up, and a call of a thread does not change it. -/
theorem time_le {t : TimerState (Fin k)} {e : Option (SlotEvent (Fin k))} (hst : TimerStep (devListOf k) s e t) :
    s.time ≤ t.time ∧ (e.isSome → t.time = s.time) := by
  cases hst with
  | tick _ => exact ⟨Nat.le_succ _, fun he => absurd he (by simp)⟩
  | _ => exact ⟨le_rfl, fun _ => rfl⟩

end

/-! ## What a CPU has used up -/

/-- After `run`, until it is back from `next_slot`. -/
def CpuPc.ending : CpuPc → Bool
  | .slot => true
  | .inSlot => true
  | _ => false

/-- The slots that the thread of device `d` has used up, where `ending` tells whether the current one counts. -/
def slotsUsed (s : BootState n M) (d : Fin (n + 1)) (ending : Bool) : ℕ :=
  if ending then (s.timer.dev d).round else s.timer.time

/-- The slots that a CPU has used up. -/
def limit (s : BootState n M) (c : Fin n) : ℕ := slotsUsed s (cpuDev c) (s.os.cpu c).pc.ending

section

variable {s t : BootState n M} {l : Option (OsEvent n)} {c : Fin n}

theorem phase_of_ending {pc : CpuPc} (h : pc.ending = true) : pc.phase ≠ .detached := by
  revert h
  cases pc <;> simp [CpuPc.ending, CpuPc.phase]

/-- Nothing is given back to a thread that does not come back from `next_slot`. -/
theorem slotsUsed_mono (hst : BootStep cfg mach s l t) {d : Fin (n + 1)} {b : Bool}
    (hon : b = true → (t.timer.dev d).pc.phase ≠ .detached) (hret : l ≠ some (.slot (.ret d))) :
    slotsUsed s d b ≤ slotsUsed t d b := by
  cases hst with
  | thread _ _ => exact le_rfl
  | timer ht =>
    cases b with
    | false => exact (time_le ht).1
    | true => exact ((devMoves_of_timerStep ht d).round (by simp) (hon rfl)).ge
  | slot _ ht =>
    cases b with
    | false => exact (time_le ht).1
    | true =>
      refine ((devMoves_of_timerStep ht d).round (fun he => hret ?_) (hon rfl)).ge
      rw [Option.some.inj he]

theorem le_limit (hsync : Synced s) (hlock : Lockstep s.timer) : s.timer.time ≤ limit s c := by
  unfold limit slotsUsed
  split
  · rename_i hend
    refine (hlock.round_le ?_).1
    rw [← hsync, phase_cpuDev]
    exact phase_of_ending hend
  · exact le_rfl

theorem limit_le (hsync : Synced s) (hlock : Lockstep s.timer) : limit s c ≤ s.timer.time + 1 := by
  unfold limit slotsUsed
  split
  · rename_i hend
    refine (hlock.round_le ?_).2
    rw [← hsync, phase_cpuDev]
    exact phase_of_ending hend
  · exact Nat.le_succ _

/-- The slot that a CPU is in, before `next_slot`. -/
theorem limit_out (hsync : Synced s) (hlock : Lockstep s.timer) (hout : (s.os.cpu c).pc.phase = .out) :
    limit s c = if (s.os.cpu c).pc.ending then s.timer.time + 1 else s.timer.time := by
  unfold limit slotsUsed
  split
  · rw [hlock.round_out]
    rw [← hsync, phase_cpuDev, hout]
  · rfl

/-- What a step executes. -/
inductive Executes (cfg : Config) (s : OsState n M) (t : OsState n M) : Prop where
  | nothing : t.procPc = s.procPc → Executes cfg s t
  | one {c x} : (s.cpu c).pc = .run → (s.cpu c).held = some x → (t.cpu c).held = some x → (t.cpu c).pc = .slot →
      (∀ d, d ≠ c → t.cpu d = s.cpu d) → t.i = s.i → t.ld = s.ld →
      t.procPc = Function.update s.procPc x (s.procPc x + 1) → Executes cfg s t

theorem OsStep.executes {now : ℕ} {s t : OsState n M} {e : OsEvent n} (h : OsStep cfg mach now s e t) :
    Executes cfg s t := by
  cases h with
  | @cpu c _ _ hcpu =>
    have hothers := fun d (hd : d ≠ c) => hcpu.cpu_of_ne hd
    cases hcpu with
    | @run x u hpc hproc hrun =>
      cases hrun with
      | atEnd _ => exact .nothing rfl
      | exec _ _ =>
        refine .one hpc ?_ ?_ ?_ hothers rfl rfl rfl
        · rw [Cpu.held_of_owns (by rw [hpc]; rfl), hproc]
        · rw [cpu_setCpu_self]
          rfl
        · rw [cpu_setCpu_self]
    | _ => exact .nothing rfl
  | ld hld => cases hld <;> exact .nothing rfl

/-- A CPU outside of `next_slot` is not at its end, or it has nothing to end. -/
theorem CpuStep.ending {s t : OsState n M} {e : OsEvent n} (h : CpuStep cfg mach s c e t) (hslot : ∀ f, e ≠ .slot f) :
    (s.cpu c).pc.ending = false ∧ (s.cpu c).pc.phase = .out ∧ (t.cpu c).pc.phase = .out := by
  have hos : OsStep cfg mach 0 s e t := .cpu h
  have hphase := hos.phase (cpuDev c)
  rw [phase_cpuDev, phase_cpuDev] at hphase
  cases h with
  | call _ | ret _ | detach _ => exact absurd rfl (hslot _)
  | getIdle hpc _ | reap hpc _ _ | getAfterFree hpc | put hpc _ _ _ _ | getAfterPut hpc | keep hpc _ _ _ | stop hpc _ _
  | idle hpc _ _ | dispatch hpc _ | run hpc _ _ =>
    rw [hpc] at hphase ⊢
    exact ⟨rfl, rfl, hphase⟩

/-- **No step gives a slot back.** -/
theorem limit_step (hsync : Synced s) (hlock : Lockstep s.timer) (hst : BootStep cfg mach s l t) (hsync' : Synced t)
    (c : Fin n) : limit s c ≤ limit t c := by
  have hsame : t.os.cpu c = s.os.cpu c → l ≠ some (.slot (.ret (cpuDev c))) → limit s c ≤ limit t c := by
    intro hcpu hret
    unfold limit
    rw [hcpu]
    refine slotsUsed_mono hst (fun hend => ?_) hret
    rw [← hsync', phase_cpuDev, hcpu]
    exact phase_of_ending hend
  have hlock' : Lockstep t.timer := by
    cases hst with
    | thread _ _ => exact hlock
    | timer ht => exact lockstep_step hlock ht
    | slot _ ht => exact lockstep_step hlock ht
  have hboot := hst
  cases hst with
  | timer ht => exact hsame rfl (by simp)
  | @thread e u hslot hos =>
    cases hos with
    | ld hld => exact hsame (by cases hld <;> rfl) (by simpa using hslot _)
    | @cpu c' _ _ hcpu =>
      by_cases hc : c = c'
      · subst hc
        obtain ⟨hend, hout, -⟩ := hcpu.ending hslot
        rw [limit_out hsync hlock hout, hend]
        exact le_limit hsync' hlock'
      · exact hsame (hcpu.cpu_of_ne hc) (by simpa using hslot _)
  | @slot e u w hos ht =>
    cases hos with
    | ld hld =>
      refine hsame (by cases hld <;> rfl) ?_
      cases hld <;> simp [(cpuDev_ne_ldDev c).symm]
    | @cpu c' _ _ hcpu =>
      by_cases hc : c = c'
      · subst hc
        cases hcpu with
        | call hpc =>
          have hboth : limit s c = slotsUsed s (cpuDev c) true := by rw [limit, hpc]; rfl
          rw [hboth, limit, cpu_setCpu_self]
          refine slotsUsed_mono hboot (fun _ => ?_) (by simp)
          rw [← hsync', phase_cpuDev, cpu_setCpu_self]
          simp [CpuPc.phase]
        | ret hpc =>
          have hbefore : limit s c = (s.timer.dev (cpuDev c)).round := by rw [limit, hpc]; rfl
          rw [hbefore, hlock.round_ret ht]
          exact le_limit hsync' hlock'
        | detach hpc =>
          have hbefore : limit s c = s.timer.time := by rw [limit, hpc]; rfl
          rw [hbefore]
          exact (time_le ht).1.trans (le_limit hsync' hlock')
      · refine hsame (hcpu.cpu_of_ne hc) ?_
        have hdev : cpuDev c' ≠ cpuDev c := fun heq => hc (Fin.castSucc_injective _ heq).symm
        cases hcpu <;> simp [hdev]

end

/-! ## The pace of a process -/

/-- The first slot in which `ld_routine` can add process `x`: not before its start time, and one slot after the process
    before it. -/
def earliest (cfg : Config) : ℕ → ℕ
  | 0     => cfg.startTime 0
  | x + 1 => max (cfg.startTime (x + 1)) (earliest cfg x + 1)

/-- The loader is about to add its process. -/
def LdPc.onTime : LdPc → Bool
  | .initMm => true
  | .add => true
  | _ => false

/-- Where the loader is after process `x`: past its slot, unless it is in there. -/
def loaderUsed (s : BootState n M) : ℕ := slotsUsed s ldDev s.os.ld.adding

/-- **The invariant.** -/
structure Paced (cfg : Config) (s : BootState n M) : Prop where
  fresh : ∀ x, s.os.i ≤ x → s.os.procPc x = 0
  held : ∀ c x, (s.os.cpu c).held = some x → earliest cfg x + s.os.procPc x ≤ limit s c
  idle : ∀ x, x < s.os.i → (∀ c, (s.os.cpu c).held ≠ some x) → earliest cfg x + s.os.procPc x ≤ s.timer.time
  onTime : s.os.ld.onTime = true → earliest cfg s.os.i ≤ s.timer.time
  added : ∀ x, s.os.i = x + 1 → s.os.ld ≠ .exited → earliest cfg x + 1 ≤ loaderUsed s

section

variable {s t : BootState n M} {l : Option (OsEvent n)}

/-- A process that a CPU has got was idle. -/
theorem idle_of_get {os : OsState cfg.numCpus M} (hs : (osSystem cfg mach).Reachable os) {x : ℕ}
    (hget : (os.sched.getMlqProc cfg.prio).1 = some x) : x < os.i ∧ ∀ c, (os.cpu c).held ≠ some x := by
  have hcount := readyCount_get (inited_of_reachable hs) cfg.prio x
  rw [if_pos hget] at hcount
  have hle := places_le hs x
  have hone := queued_or_held hs x
  unfold OsState.places at hle
  constructor
  · by_contra hlt
    rw [if_neg hlt] at hle
    omega
  · intro c hheld
    have := one_le_heldCount hheld
    omega

/-- Whoever a CPU no longer holds is idle from the slot on that the CPU is in. -/
theorem limit_of_dropped (hsync : Synced s) (hlock : Lockstep s.timer) (hst : BootStep cfg mach s l t) {c : Fin n}
    {x : ℕ} (hheld : (s.os.cpu c).held = some x) (hdrop : (t.os.cpu c).held ≠ some x) :
    limit s c = s.timer.time ∧ t.timer = s.timer ∧ t.os.procPc = s.os.procPc ∧ t.os.i = s.os.i := by
  cases hst with
  | timer _ => exact absurd hheld hdrop
  | @thread e u hslot hos =>
    cases hos with
    | ld hld => cases hld <;> exact absurd hheld hdrop
    | @cpu c' _ _ hcpu =>
      by_cases hc : c = c'
      · subst hc
        obtain ⟨hend, hout, -⟩ := hcpu.ending hslot
        have hlimit : limit s c = s.timer.time := by rw [limit_out hsync hlock hout, hend]; rfl
        have hkeep := hcpu.hands
        cases hcpu with
        | run hpc hproc hrun =>
          -- it goes on with what it holds
          have hx : (s.os.cpu c).proc = some x := by rwa [Cpu.held_of_owns (by rw [hpc]; rfl)] at hheld
          rw [cpu_setCpu_self] at hdrop
          exact absurd (by rw [Cpu.held_of_owns rfl, ← hproc, hx]) hdrop
        | _ => exact ⟨hlimit, rfl, rfl, rfl⟩
      · exact absurd hheld (by rw [hcpu.cpu_of_ne hc] at hdrop; exact hdrop)
  | @slot e u w hos ht =>
    cases hos with
    | ld hld => cases hld <;> exact absurd hheld hdrop
    | @cpu c' _ _ hcpu =>
      by_cases hc : c = c'
      · subst hc
        have hsame : (u.cpu c).held = (s.os.cpu c).held := by
          cases hcpu with
          | call hpc | ret hpc | detach hpc =>
            rw [cpu_setCpu_self, Cpu.held_of_owns rfl, Cpu.held_of_owns (by rw [hpc]; rfl)]
        exact absurd (hsame.trans hheld) hdrop
      · exact absurd hheld (by rw [hcpu.cpu_of_ne hc] at hdrop; exact hdrop)

/-- Whoever a CPU holds it has held before, or it has just got. -/
theorem held_or_got (hst : BootStep cfg mach s l t) {c : Fin n} {x : ℕ} (hheld : (t.os.cpu c).held = some x) :
    (s.os.cpu c).held = some x ∨
      (s.os.sched.getMlqProc cfg.prio).1 = some x ∧ t.os.procPc = s.os.procPc ∧ t.timer = s.timer := by
  have hos : ∀ {u : OsState n M} {c' : Fin n} {e : OsEvent n}, CpuStep cfg mach s.os c' e u →
      (u.cpu c).held = some x →
        (s.os.cpu c).held = some x ∨ (s.os.sched.getMlqProc cfg.prio).1 = some x ∧ u.procPc = s.os.procPc ∧
          ∀ f, e ≠ .slot f := by
    intro u c' e hcpu hu
    by_cases hc : c = c'
    · subst hc
      cases hcpu.hands with
      | keep _ _ _ hsame => exact .inl (hsame.symm.trans hu)
      | reap _ _ _ _ _ _ hnone | put _ _ _ _ hnone => exact absurd (hnone.symm.trans hu) (by simp)
      | get _ _ _ hnone hgot =>
        cases hcpu with
        | run hpc hproc _ =>
          rw [Cpu.held_of_owns (by rw [hpc]; rfl), hproc] at hnone
          cases hnone
        | call hpc | ret hpc | detach hpc =>
          rw [cpu_setCpu_self, Cpu.held_of_owns rfl] at hu
          rw [Cpu.held_of_owns (by rw [hpc]; rfl)] at hnone
          exact absurd (hnone.symm.trans hu) (by simp)
        | _ => exact .inr ⟨hgot.symm.trans hu, rfl, by simp⟩
    · rw [hcpu.cpu_of_ne hc] at hu
      exact .inl hu
  cases hst with
  | timer _ => exact .inl hheld
  | thread hslot hstep =>
    cases hstep with
    | ld hld => cases hld <;> exact .inl hheld
    | cpu hcpu =>
      rcases hos hcpu hheld with hold | ⟨hget, hpc, -⟩
      · exact .inl hold
      · exact .inr ⟨hget, hpc, rfl⟩
  | slot hstep _ =>
    cases hstep with
    | ld hld => cases hld <;> exact .inl hheld
    | cpu hcpu =>
      rcases hos hcpu hheld with hold | ⟨-, -, hno⟩
      · exact .inl hold
      · exact absurd rfl (hno _)

/-- What a step does to the loader. -/
inductive LoaderMove (cfg : Config) (s t : BootState n M) : Prop where
  /-- It goes on at its process. -/
  | stay : t.os.i = s.os.i → s.os.ld ≠ .exited → loaderUsed s ≤ loaderUsed t →
      (t.os.ld.onTime = true →
        s.os.ld.onTime = true ∨ s.os.ld.adding = false ∧ cfg.startTime s.os.i ≤ s.timer.time) → LoaderMove cfg s t
  /-- It has detached. -/
  | gone : t.os.i = s.os.i → t.os.ld = .exited → LoaderMove cfg s t
  /-- It adds its process. -/
  | add : s.os.ld = .add → t.os.ld = .slot → t.os.i = s.os.i + 1 → t.timer = s.timer → LoaderMove cfg s t

theorem loader_move (hlock : Lockstep s.timer) (hst : BootStep cfg mach s l t) (hsync' : Synced t) :
    LoaderMove cfg s t := by
  -- a step that does not touch the loader
  have hsame : t.os.i = s.os.i → t.os.ld = s.os.ld → l ≠ some (.slot (.ret ldDev)) → LoaderMove cfg s t := by
    intro hi hld hret
    by_cases hgone : s.os.ld = .exited
    · exact .gone hi (hld.trans hgone)
    · refine .stay hi hgone ?_ fun hon => .inl (hld ▸ hon)
      unfold loaderUsed
      rw [hld]
      refine slotsUsed_mono hst (fun hadd => ?_) hret
      rw [← hsync', phase_ldDev, hld]
      revert hadd
      cases s.os.ld <;> simp [LdPc.adding, LdPc.phase]
  have hboot := hst
  cases hst with
  | timer _ => exact hsame rfl rfl (by simp)
  | @thread e u hslot hos =>
    cases hos with
    | cpu hcpu => exact hsame hcpu.loader.2.2 hcpu.loader.2.1 (by simpa using hslot _)
    | ld hld =>
      cases hld with
      | add hpc _ => exact .add hpc rfl rfl rfl
      | onTime hpc hnow =>
        refine .stay rfl (by simp [hpc]) ?_ fun _ => .inr ⟨by rw [hpc]; rfl, Nat.not_lt.mp hnow⟩
        rw [loaderUsed, hpc]
        exact le_rfl
      | initMm hpc _ =>
        refine .stay rfl (by simp [hpc]) ?_ fun _ => .inl (by rw [hpc]; rfl)
        rw [loaderUsed, hpc]
        exact le_rfl
      | load hpc _ | allLoaded hpc _ | early hpc _ | setDone hpc =>
        refine .stay rfl (by simp [hpc]) ?_ fun hon => absurd hon (by simp [LdPc.onTime])
        rw [loaderUsed, hpc]
        exact le_rfl
      | callWait _ | retWait _ | call _ | ret _ | detach _ => exact absurd rfl (hslot _)
  | @slot e u w hos ht =>
    cases hos with
    | @cpu c _ _ hcpu =>
      refine hsame hcpu.loader.2.2 hcpu.loader.2.1 ?_
      cases hcpu <;> simp [cpuDev_ne_ldDev]
    | ld hld =>
      have hstep := ht
      cases hld with
      | callWait hpc | retWait hpc | detach hpc =>
        refine .stay rfl (by simp [hpc]) ?_ fun hon => absurd hon (by simp [LdPc.onTime])
        rw [loaderUsed, hpc]
        exact (time_le ht).1
      | call hpc =>
        refine .stay rfl (by simp [hpc]) ?_ fun hon => absurd hon (by simp [LdPc.onTime])
        rw [loaderUsed, hpc]
        refine slotsUsed_mono hboot (fun _ => ?_) (by simp)
        rw [← hsync', phase_ldDev]
        simp [LdPc.phase]
      | ret hpc =>
        refine .stay rfl (by simp [hpc]) ?_ fun hon => absurd hon (by simp [LdPc.onTime])
        rw [loaderUsed, hpc]
        exact (hlock.round_ret hstep).le

theorem time_step (hst : BootStep cfg mach s l t) : s.timer.time ≤ t.timer.time := by
  cases hst with
  | thread _ _ => exact le_rfl
  | timer ht | slot _ ht => exact (time_le ht).1

theorem executes_step (hst : BootStep cfg mach s l t) : Executes cfg s.os t.os := by
  cases hst with
  | thread _ hos | slot hos _ => exact hos.executes
  | timer _ => exact .nothing rfl

end

/-- **One step keeps the pace.** -/
theorem Paced.step {s t : BootState cfg.numCpus M} {l : Option (OsEvent cfg.numCpus)} (h : Paced cfg s)
    (hs : (bootSystem cfg mach).Reachable s) (hst : BootStep cfg mach s l t) : Paced cfg t := by
  have hsync := synced_of_reachable hs
  have hsync' := synced_of_reachable (hs.step hst)
  have hlock := lockstep_of_reachable (timerReachable_of_boot hs)
  have hlock' := lockstep_of_reachable (timerReachable_of_boot (hs.step hst))
  have hos := osReachable_of_boot hs
  have htime := time_step hst
  have hlimit := limit_step hsync hlock hst hsync'
  have hmove := loader_move hlock hst hsync'
  -- the `pc` of a process that is not run stays
  have hpc : ∀ x, (∀ c, (s.os.cpu c).held ≠ some x) → t.os.procPc x = s.os.procPc x := by
    intro x hx
    cases executes_step hst with
    | nothing hsame => rw [hsame]
    | @one c y _ hheld _ _ _ _ _ hpc =>
      rw [hpc, Function.update_of_ne]
      rintro rfl
      exact hx c hheld
  have hidle : ∀ x, x < s.os.i → (∀ c, (t.os.cpu c).held ≠ some x) →
      earliest cfg x + t.os.procPc x ≤ t.timer.time := by
    intro x hxi hx
    by_cases hholder : ∃ c, (s.os.cpu c).held = some x
    · obtain ⟨c, hc⟩ := hholder
      obtain ⟨hlim, htimer, hsame, -⟩ := limit_of_dropped hsync hlock hst hc (hx c)
      have hpace := h.held c x hc
      rw [htimer, hsame, ← hlim]
      exact hpace
    · rw [not_exists] at hholder
      rw [hpc x hholder]
      exact (h.idle x hxi hholder).trans htime
  refine ⟨fun x hx => ?_, fun c x hheld => ?_, fun x hxi hx => ?_, fun hon => ?_, fun x hi hld => ?_⟩
  · have hi : s.os.i ≤ t.os.i := by
      cases hmove with
      | stay hi _ _ _ | gone hi _ => exact hi.ge
      | add _ _ hi _ => omega
    rw [hpc x]
    · exact h.fresh x (hi.trans hx)
    · intro c hc
      have hlt := (held_live hos hc).1
      omega
  · rcases held_or_got hst hheld with hold | ⟨hget, hsame, htimer⟩
    · cases executes_step hst with
      | nothing hsame =>
        rw [hsame]
        exact (h.held c x hold).trans (hlimit c)
      | @one d y hrun hy _ hslot _ _ _ hpc' =>
        by_cases hxy : x = y
        · -- the instruction is the one of this slot
          subst hxy
          obtain rfl := holder_unique hos hold hy
          have hbefore : limit s c = s.timer.time := by
            rw [limit_out hsync hlock (by rw [hrun]; rfl), hrun]
            rfl
          have hafter : limit t c = t.timer.time + 1 := by
            rw [limit_out hsync' hlock' (by rw [hslot]; rfl), hslot]
            rfl
          have hpace := h.held c x hold
          rw [hbefore] at hpace
          rw [hafter, hpc', Function.update_self]
          omega
        · rw [hpc', Function.update_of_ne hxy]
          exact (h.held c x hold).trans (hlimit c)
    · obtain ⟨hxi, hx⟩ := idle_of_get hos hget
      rw [hsame]
      exact (h.idle x hxi hx).trans (htime.trans (le_limit hsync' hlock'))
  · cases hmove with
    | stay hi _ _ _ | gone hi _ => exact hidle x (hi ▸ hxi) hx
    | add hpcl _ hi htimer =>
      by_cases hlt : x < s.os.i
      · exact hidle x hlt hx
      · -- it has just been added
        obtain rfl : x = s.os.i := by omega
        have hnot : ∀ c, (s.os.cpu c).held ≠ some s.os.i := fun c hc => absurd (held_live hos hc).1 (lt_irrefl _)
        rw [hpc _ hnot, h.fresh _ le_rfl, htimer]
        exact h.onTime (by rw [hpcl]; rfl)
  · cases hmove with
    | gone _ hgone =>
      rw [hgone] at hon
      cases hon
    | add _ hslot _ _ =>
      rw [hslot] at hon
      cases hon
    | stay hi hgone _ hstart =>
      rw [hi]
      rcases hstart hon with hold | ⟨hadd, hstart⟩
      · exact (h.onTime hold).trans htime
      · refine le_trans ?_ htime
        cases hsi : s.os.i with
        | zero =>
          rw [hsi] at hstart
          exact hstart
        | succ x =>
          have hprev := h.added x hsi hgone
          rw [loaderUsed, hadd] at hprev
          rw [hsi] at hstart
          exact max_le hstart hprev
  · cases hmove with
    | stay hi' hgone hused _ => exact (h.added x (hi' ▸ hi) hgone).trans hused
    | gone _ hgone => exact absurd hgone hld
    | add hpcl hslot hi' htimer =>
      obtain rfl : x = s.os.i := by omega
      have hround : loaderUsed t = t.timer.time + 1 := by
        rw [loaderUsed, hslot]
        refine hlock'.round_out ?_
        rw [← hsync', phase_ldDev, hslot]
        rfl
      rw [hround, htimer]
      exact Nat.succ_le_succ (h.onTime (by rw [hpcl]; rfl))

theorem paced_of_reachable {s : BootState cfg.numCpus M} (hs : (bootSystem cfg mach).Reachable s) : Paced cfg s := by
  induction hs with
  | init hinit =>
    obtain ⟨⟨m, -, hos⟩, htimer⟩ := hinit
    refine ⟨?_, ?_, ?_, ?_, ?_⟩ <;> rw [hos]
    · exact fun _ _ => rfl
    · exact fun c x hheld => absurd hheld (by simp [OsState.start, Cpu.held, CpuPc.owns])
    · exact fun x hx => absurd hx (Nat.not_lt_zero x)
    · exact fun hon => absurd hon (by simp [OsState.start, LdPc.onTime])
    · exact fun x hx => absurd hx (by simp [OsState.start])
  | step hs hst ih => exact ih.step hs hst

/-- **No process is ahead of its slots.** In every run of the simulator, whatever the threads do: by slot `_time` a
    process has executed at most one instruction for each slot since the first one in which the loader can have added
    it, and a process that has been freed is a whole slot behind its last instruction. -/
theorem slot_pace (cfg : Config) (mach : Machine M) (s : BootState cfg.numCpus M)
    (hs : (bootSystem cfg mach).Reachable s) (x : ℕ) (hx : x < s.os.i) :
    earliest cfg x + (s.os.executed x).length ≤ s.timer.time + 1 ∧
      (x ∈ s.os.reaped → earliest cfg x + (cfg.code x).length ≤ s.timer.time) := by
  have h := paced_of_reachable hs
  have hos := osReachable_of_boot hs
  have hexecuted : (s.os.executed x).length ≤ s.os.procPc x := by
    rw [(orderly_of_reachable hos).executed x]
    exact List.length_take_le ..
  constructor
  · by_cases hholder : ∃ c, (s.os.cpu c).held = some x
    · obtain ⟨c, hc⟩ := hholder
      have hpace := h.held c x hc
      have hle := @limit_le _ _ _ c (synced_of_reachable hs) (lockstep_of_reachable (timerReachable_of_boot hs))
      omega
    · have hpace := h.idle x hx (not_exists.mp hholder)
      omega
  · intro hreaped
    have hnot : ∀ c, (s.os.cpu c).held ≠ some x := fun c hc => (held_live hos hc).2 hreaped
    have hpace := h.idle x hx hnot
    rwa [reaped_atEnd hos x hreaped] at hpace

theorem loaded_of_left {pc : LdPc} (h : pc.left = true) : pc.loaded = true := by
  revert h
  cases pc <;> simp [LdPc.left, LdPc.loaded]

theorem slot_pace_one :
    ∃ s : BootState oneProcess.numCpus Unit, 0 < s.os.i ∧
      earliest oneProcess 0 + (s.os.executed 0).length ≤ s.timer.time + 1 ∧
        (0 ∈ s.os.reaped → earliest oneProcess 0 + (oneProcess.code 0).length ≤ s.timer.time) := by
  obtain ⟨s, h, hld, -⟩ := oneBoot_ends
  have hloaded := (orderly_of_reachable (osReachable_of_boot h.of_guard)).loaded (loaded_of_left hld)
  exact ⟨s, hloaded, slot_pace oneProcess noMemory s h.of_guard 0 hloaded⟩

/-! ## All processes together -/

/-- The instructions that the processes are past. -/
def OsState.progress (os : OsState n M) (k : ℕ) : ℕ := ∑ x ∈ Finset.range k, os.procPc x

/-- **An instruction uses up a slot of the CPU that executes it.** -/
theorem progress_step {s t : BootState cfg.numCpus M} {l : Option (OsEvent cfg.numCpus)}
    (hs : (bootSystem cfg mach).Reachable s) (hst : BootStep cfg mach s l t) {k : ℕ}
    (h : s.os.progress k ≤ ∑ c, limit s c) : t.os.progress k ≤ ∑ c, limit t c := by
  have hsync := synced_of_reachable hs
  have hsync' := synced_of_reachable (hs.step hst)
  have hlock := lockstep_of_reachable (timerReachable_of_boot hs)
  have hlock' := lockstep_of_reachable (timerReachable_of_boot (hs.step hst))
  have hlimit := limit_step hsync hlock hst hsync'
  cases executes_step hst with
  | nothing hsame =>
    rw [OsState.progress, hsame]
    exact h.trans (Finset.sum_le_sum fun c _ => hlimit c)
  | @one d y hrun _ _ hslot _ _ _ hpc =>
    have hbefore : limit s d = s.timer.time := by
      rw [limit_out hsync hlock (by rw [hrun]; rfl), hrun]
      rfl
    have hafter : limit t d = t.timer.time + 1 := by
      rw [limit_out hsync' hlock' (by rw [hslot]; rfl), hslot]
      rfl
    have hlt : ∑ c, limit s c < ∑ c, limit t c := by
      refine Finset.sum_lt_sum (fun c _ => hlimit c) ⟨d, Finset.mem_univ d, ?_⟩
      rw [hbefore, hafter]
      exact Nat.lt_succ_of_le (time_step hst)
    have hone : t.os.progress k ≤ s.os.progress k + 1 := by
      unfold OsState.progress
      rw [hpc]
      by_cases hy : y ∈ Finset.range k
      · rw [Finset.sum_update_of_mem hy, ← Finset.add_sum_erase _ _ hy, Finset.sdiff_singleton_eq_erase]
        omega
      · rw [Finset.sum_update_of_notMem hy]
        exact Nat.le_succ _
    omega

theorem progress_le {s : BootState cfg.numCpus M} (hs : (bootSystem cfg mach).Reachable s) (k : ℕ) :
    s.os.progress k ≤ ∑ c, limit s c := by
  induction hs with
  | init hinit =>
    obtain ⟨⟨m, -, hos⟩, -⟩ := hinit
    rw [hos]
    simp [OsState.progress, OsState.start]
  | step hs hst ih => exact progress_step hs hst ih

/-- **No more than an instruction for each CPU and slot.** In every run of the simulator the processes together have
    executed at most `num_cpus` instructions for each slot up to `_time`. -/
theorem throughput (cfg : Config) (mach : Machine M) (s : BootState cfg.numCpus M)
    (hs : (bootSystem cfg mach).Reachable s) (k : ℕ) :
    ∑ x ∈ Finset.range k, (s.os.executed x).length ≤ cfg.numCpus * (s.timer.time + 1) := by
  have hos := osReachable_of_boot hs
  calc ∑ x ∈ Finset.range k, (s.os.executed x).length
      ≤ s.os.progress k := by
        refine Finset.sum_le_sum fun x _ => ?_
        rw [(orderly_of_reachable hos).executed x]
        exact List.length_take_le ..
    _ ≤ ∑ c, limit s c := progress_le hs k
    _ ≤ ∑ _c : Fin cfg.numCpus, (s.timer.time + 1) :=
        Finset.sum_le_sum fun c _ =>
          limit_le (synced_of_reachable hs) (lockstep_of_reachable (timerReachable_of_boot hs))
    _ = cfg.numCpus * (s.timer.time + 1) := by simp

theorem throughput_one :
    ∃ s : BootState oneProcess.numCpus Unit, s.os.ld.left = true ∧
      ∑ x ∈ Finset.range 1, (s.os.executed x).length ≤ 1 * (s.timer.time + 1) := by
  obtain ⟨s, h, hld, -⟩ := oneBoot_ends
  exact ⟨s, hld, throughput oneProcess noMemory s h.of_guard 1⟩

end LamiaAtrium
