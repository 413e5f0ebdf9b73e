import LamiaAtrium.Os.Correctness.Places

/-!
# `Os.Correctness.Shutdown` — an idle CPU never stops

When the loader is done and nothing is queued, a CPU at the top of its loop with no process should leave.
It does not: its empty `get_proc` goes straight to `next_slot` and around again, past the test of `done`.
`idle_cpu_never_stops` says so for every such state and every continuation without `put` and `add`.
-/

namespace LamiaAtrium

open SchedState

variable {n : ℕ} {M : Type} {cfg : Config} {mach : Machine M}

/-- The loader has set `done`, nothing is queued, and CPU `c` is at the top of its loop without a process. -/
structure IdleAtEnd (s : OsState n M) (c : Fin n) : Prop where
  done : s.done = true
  empty : ∀ p, s.sched.ready p = []
  top : (s.cpu c).pc = .top
  noProc : (s.cpu c).proc = none

/-- A step that is neither a `put` nor an `add`. -/
def Quiet (_ : OsState n M) (e : OsEvent n) : Prop := e.enqueued = none

/-- Has the CPU left its loop? -/
def CpuPc.left : CpuPc → Bool
  | .leaving => true
  | .exited => true
  | _ => false

/-- The next iteration of CPU `c` leaves the loop: whatever the other threads do without putting or adding,
    the CPU does not come to `next_slot`, and it can come to leave. -/
def LeavesNext (cfg : Config) (mach : Machine M) (s : OsState cfg.numCpus M) (c : Fin cfg.numCpus) : Prop :=
  (∀ t, ((osSystem cfg mach).guard Quiet).Steps s t → (t.cpu c).pc ≠ .slot) ∧
    ∃ t, ((osSystem cfg mach).guard Quiet).Steps s t ∧ (t.cpu c).pc.left = true

/-- What holds of an idle CPU from then on. -/
structure Idling (s : OsState n M) (c : Fin n) : Prop where
  inited : s.sched.mlqInited = true
  empty : ∀ p, s.sched.ready p = []
  around : (s.cpu c).pc = .top ∨ (s.cpu c).pc = .slot ∨ (s.cpu c).pc = .inSlot
  noProc : (s.cpu c).proc = none

theorem getMlqProc_empty {s : SchedState ℕ} (hi : s.mlqInited = true) (h : ∀ p, s.ready p = [])
    (prio : ℕ → ℕ) : s.getMlqProc prio = (none, s) := by
  rcases getMlqProc_cases prio hi with ⟨-, heq⟩ | ⟨p, x, t, -, hserved⟩
  · exact heq
  · exact absurd (h p) hserved.nonempty

/-- A CPU step with empty queues that is no `put` leaves the scheduler alone. -/
theorem CpuStep.sched_of_quiet {s t : OsState n M} {c : Fin n} {e : OsEvent n}
    (h : CpuStep cfg mach s c e t) (hi : s.sched.mlqInited = true) (hempty : ∀ p, s.sched.ready p = [])
    (hquiet : e.enqueued = none) : t.sched = s.sched := by
  cases h.hands with
  | keep _ hsched _ _ => exact hsched
  | get _ hsched _ _ _ => rw [hsched, getMlqProc_empty hi hempty]
  | reap _ hsched _ _ _ _ _ => exact hsched
  | put he _ _ _ _ =>
    rw [he] at hquiet
    exact absurd hquiet (by simp [OsEvent.enqueued])

/-- **An idle CPU goes on idling.** -/
theorem idling_step {now : ℕ} {s t : OsState n M} {e : OsEvent n} {c : Fin n} (h : Idling s c)
    (hst : OsStep cfg mach now s e t) (hquiet : e.enqueued = none) : Idling t c := by
  cases hst with
  | @cpu d e t hc =>
    have hsched := hc.sched_of_quiet h.inited h.empty hquiet
    have hcpu : ((t.cpu c).pc = .top ∨ (t.cpu c).pc = .slot ∨ (t.cpu c).pc = .inSlot) ∧ (t.cpu c).proc = none := by
      by_cases hd : c = d
      · subst hd
        -- the CPU itself: `top → slot → inSlot → top`
        cases hc with
        | getIdle _ _ =>
          rw [cpu_setCpu_self, getMlqProc_empty h.inited h.empty]
          exact ⟨.inr (.inl rfl), rfl⟩
        | call _ =>
          rw [cpu_setCpu_self]
          exact ⟨.inr (.inr rfl), h.noProc⟩
        | ret _ =>
          rw [cpu_setCpu_self]
          exact ⟨.inl rfl, h.noProc⟩
        | reap _ hproc _ | put _ hproc _ _ _ | keep _ hproc _ _ | dispatch _ hproc | run _ hproc _ =>
          rw [h.noProc] at hproc
          exact absurd hproc (by simp)
        | getAfterFree hpc | getAfterPut hpc | stop hpc _ _ | idle hpc _ _ | detach hpc =>
          have := h.around
          rw [hpc] at this
          exact absurd this (by simp)
      · rw [hc.cpu_of_ne hd]
        exact ⟨h.around, h.noProc⟩
    exact ⟨by rw [hsched]; exact h.inited, by rw [hsched]; exact h.empty, hcpu.1, hcpu.2⟩
  | ld hl =>
    cases hl with
    | add _ _ => exact absurd hquiet (by simp [OsEvent.enqueued])
    | _ => exact ⟨h.inited, h.empty, h.around, h.noProc⟩

theorem idling_steps {s t : OsState cfg.numCpus M} {c : Fin cfg.numCpus} (h : Idling s c)
    (hst : ((osSystem cfg mach).guard Quiet).Steps s t) : Idling t c := by
  induction hst with
  | refl => exact h
  | tail _ hl ih =>
    obtain ⟨e, ⟨now, hos⟩, hquiet⟩ := hl
    exact idling_step ih hos hquiet

theorem IdleAtEnd.idling {s : OsState cfg.numCpus M} {c : Fin cfg.numCpus}
    (hr : (osSystem cfg mach).Reachable s) (h : IdleAtEnd s c) : Idling s c :=
  ⟨inited_of_reachable hr, h.empty, .inl h.top, h.noProc⟩

/-- **An idle CPU does not stop**: from every reachable state with `done` set, empty queues and CPU `c` at the
    top without a process, no continuation without `put` and `add` ever sees that CPU leave its loop. -/
theorem idle_cpu_never_stops {s : OsState cfg.numCpus M} {c : Fin cfg.numCpus}
    (hr : (osSystem cfg mach).Reachable s) (h : IdleAtEnd s c) :
    ¬ LeavesNext cfg mach s c ∧
      ∀ t, ((osSystem cfg mach).guard Quiet).Steps s t → (t.cpu c).pc.left = false := by
  have hnever : ∀ t, ((osSystem cfg mach).guard Quiet).Steps s t → (t.cpu c).pc.left = false := by
    intro t hst
    rcases (idling_steps (h.idling hr) hst).around with hpc | hpc | hpc <;> rw [hpc] <;> rfl
  refine ⟨?_, hnever⟩
  rintro ⟨-, t, hst, hleft⟩
  rw [hnever t hst] at hleft
  exact absurd hleft (by simp)

/-- One CPU and no process: the loader is done before the CPU makes its first step. -/
def noProcess : Config := ⟨1, 1, 0, fun _ => 0, fun _ => 0, fun _ => []⟩

/-- The only CPU of `noProcess`. -/
def loneCpu : Fin noProcess.numCpus := ⟨0, Nat.one_pos⟩

/-- The simulator of `noProcess` when the loader has set `done`. -/
def loaderDone : OsState noProcess.numCpus Unit :=
  { OsState.start noProcess.numCpus () with done := true, ld := .leaving }

theorem loaderDone_reachable : (osSystem noProcess noMemory).Reachable loaderDone :=
  ((Lts.System.Reachable.init (T := osSystem noProcess noMemory) ⟨(), trivial, rfl⟩).step
    ⟨0, .ld (.allLoaded rfl (Nat.not_lt_zero 0))⟩).step ⟨0, .ld (.setDone rfl)⟩

theorem loaderDone_idle : IdleAtEnd loaderDone loneCpu := ⟨rfl, fun _ => rfl, rfl, rfl⟩

theorem idle_cpu_never_stops_loaderDone : ¬ LeavesNext noProcess noMemory loaderDone loneCpu :=
  (idle_cpu_never_stops loaderDone_reachable loaderDone_idle).1

/-- The CPU of `noProcess` comes to `next_slot` instead of leaving. -/
theorem cpu_shutdown_fails :
    ¬ ∀ s, (osSystem noProcess noMemory).Reachable s → ∀ c, IdleAtEnd s c →
      LeavesNext noProcess noMemory s c := by
  intro hall
  have hleaves := (hall loaderDone loaderDone_reachable loneCpu loaderDone_idle).1
  refine hleaves _ (.single ⟨.get loneCpu, ⟨0, .cpu (.getIdle (c := loneCpu) rfl rfl)⟩, rfl⟩) ?_
  rw [cpu_setCpu_self, getMlqProc_empty rfl fun _ => rfl]
  rfl

end LamiaAtrium
