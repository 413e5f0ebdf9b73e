import LamiaAtrium.Lib.Lts
import LamiaAtrium.Sched.Sched

/-!
# `Sched.Calls` — runs of scheduler calls

The scheduler seen from outside: a state is the statics of `sched.c` together with the `prio` field of
every PCB, and a run is a sequence of `get_mlq_proc`, `put_mlq_proc` and `add_mlq_proc` calls. Between
calls the `prio` of a process may change as long as the process is in no ready queue (`setPrio`).

`Levelled` is the invariant of every such run: a process sits in the queue of its own level, and
every budget lies between `0` and its refill value.
-/

namespace LamiaAtrium

open SchedState

/-- The scheduler together with the field it reads from the PCBs. -/
structure SchedRun (α : Type) where
  sched : SchedState α
  prio : α → ℕ

/-- One call, or one change of a `prio` field. -/
inductive Call (α : Type) where
  | get
  | put (proc : α)
  | add (proc : α)
  | setPrio (proc : α) (prio : ℕ)

variable {α : Type} [DecidableEq α]

/-- Is the process in some ready queue? -/
def SchedState.queued (s : SchedState α) (x : α) : Bool :=
  (List.finRange maxPrio).any fun p => (s.ready p).contains x

/-- One call: the state after it and, for a `get`, what it returned. -/
def runCall (s : SchedRun α) : Call α → Option (SchedRun α × List (Option α))
  | .get => some ({ s with sched := (s.sched.getMlqProc s.prio).2 }, [(s.sched.getMlqProc s.prio).1])
  | .put x => (s.sched.putMlqProc s.prio x).map fun t => ({ s with sched := t }, [])
  | .add x => (s.sched.addMlqProc s.prio x).map fun t => ({ s with sched := t }, [])
  | .setPrio x v =>
    if s.sched.queued x then none else some ({ s with prio := Function.update s.prio x v }, [])

/-- A sequence of calls: the state after it and the results of its `get`s, in order. -/
def runCalls (s : SchedRun α) : List (Call α) → Option (SchedRun α × List (Option α))
  | [] => some (s, [])
  | c :: cs =>
    match runCall s c with
    | none => none
    | some (t, r) => (runCalls t cs).map fun (u, rs) => (u, r ++ rs)

/-- The scheduler as a transition system, from `init_scheduler` on. -/
def schedSystem (α : Type) [DecidableEq α] : Lts.System (SchedRun α) (Call α) where
  init s := ∃ s0, s.sched = initScheduler s0
  step s c t := ∃ r, runCall s c = some (t, r)

/-! ## The invariant of every run -/

/-- Every queued process is in the queue of its level, and `0 ≤ slot[p] ≤ MAX_PRIO - p`. -/
structure Levelled (s : SchedRun α) : Prop where
  inited : s.sched.mlqInited = true
  level : ∀ p, ∀ x ∈ s.sched.ready p, s.prio x = p
  slot_nonneg : ∀ p, 0 ≤ s.sched.slot p
  slot_le : ∀ p, s.sched.slot p ≤ fullSlot p

theorem not_queued_iff {s : SchedState α} {x : α} :
    s.queued x = false ↔ ∀ p, x ∉ s.ready p := by
  simp [SchedState.queued, List.any_eq_false]

omit [DecidableEq α] in
theorem SchedState.Served.slot_bounds {prio : α → ℕ} {s t : SchedState α} {p : Fin maxPrio} {x : α}
    (h : Served prio s p x t) (h0 : ∀ q, 0 ≤ s.slot q) (h1 : ∀ q, s.slot q ≤ fullSlot q) (q : Fin maxPrio) :
    0 ≤ t.slot q ∧ t.slot q ≤ fullSlot q := by
  rcases h.budget with ⟨hpos, -, hslot⟩ | ⟨-, -, hslot⟩
  · rw [hslot]
    by_cases hq : q = p
    · subst hq; rw [Function.update_self]; have := h1 q; omega
    · rw [Function.update_of_ne hq]; exact ⟨h0 q, h1 q⟩
  · rw [hslot]
    by_cases hq : q = p
    · subst hq; rw [Function.update_self]; have := fullSlot_pos q; omega
    · rw [Function.update_of_ne hq]; exact ⟨(fullSlot_pos q).le, le_refl _⟩

theorem levelled_init {s : SchedRun α} (h : (schedSystem α).init s) : Levelled s := by
  obtain ⟨s0, hs⟩ := h
  refine ⟨by rw [hs]; rfl, fun p x hx => ?_, fun p => ?_, fun p => ?_⟩
  · rw [hs, ready_initScheduler] at hx; exact absurd hx List.not_mem_nil
  · rw [hs, slot_initScheduler]; exact (fullSlot_pos p).le
  · rw [hs, slot_initScheduler]

omit [DecidableEq α] in
theorem levelled_get {s : SchedRun α} (h : Levelled s) :
    Levelled { s with sched := (s.sched.getMlqProc s.prio).2 } := by
  rcases getMlqProc_cases s.prio h.inited with ⟨-, heq⟩ | ⟨p, x, t, heq, hserved⟩
  · rw [heq]; exact h
  · rw [heq]
    refine ⟨hserved.inited, fun q y hy => ?_, fun q => ?_, fun q => ?_⟩
    · by_cases hq : q = p
      · subst hq
        exact h.level q y (hserved.perm.mem_iff.mpr (List.mem_cons_of_mem x hy))
      · rw [show SchedState.ready t q = s.sched.ready q from hserved.ready_ne hq] at hy
        exact h.level q y hy
    · exact (hserved.slot_bounds h.slot_nonneg h.slot_le q).1
    · exact (hserved.slot_bounds h.slot_nonneg h.slot_le q).2

theorem levelled_requeue {s : SchedRun α} (h : Levelled s) {x : α} {t : SchedState α}
    (ht : s.sched.requeue s.prio x = some t) : Levelled { s with sched := t } := by
  obtain ⟨hp, hself, hother, hslot, hinit, -⟩ := requeue_spec ht
  refine ⟨hinit.trans h.inited, fun q y hy => ?_, fun q => ?_, fun q => ?_⟩
  · by_cases hq : q = ⟨s.prio x, hp⟩
    · subst hq
      rw [hself] at hy
      split at hy
      · rcases List.mem_append.mp hy with hy | hy
        · exact h.level _ y hy
        · rw [List.mem_singleton.mp hy]
      · exact h.level _ y hy
    · rw [show SchedState.ready t q = s.sched.ready q from hother q hq] at hy
      exact h.level q y hy
  · rw [hslot]; exact h.slot_nonneg q
  · rw [hslot]; exact h.slot_le q

/-- **One call keeps the invariant.** -/
theorem levelled_step {s t : SchedRun α} {c : Call α} {r : List (Option α)} (h : Levelled s)
    (hc : runCall s c = some (t, r)) : Levelled t := by
  cases c with
  | get =>
    simp only [runCall, Option.some.injEq, Prod.mk.injEq] at hc
    rw [← hc.1]; exact levelled_get h
  | put x =>
    obtain ⟨t', ht', heq⟩ := Option.map_eq_some_iff.mp hc
    obtain ⟨rfl, -⟩ := Prod.mk.inj heq
    exact levelled_requeue h ht'
  | add x =>
    obtain ⟨t', ht', heq⟩ := Option.map_eq_some_iff.mp hc
    obtain ⟨rfl, -⟩ := Prod.mk.inj heq
    exact levelled_requeue h ht'
  | setPrio x v =>
    simp only [runCall] at hc
    split at hc
    · simp at hc
    · rename_i hq
      obtain ⟨rfl, -⟩ := Prod.mk.inj (Option.some.inj hc)
      refine ⟨h.inited, fun p y hy => ?_, h.slot_nonneg, h.slot_le⟩
      have hne : y ≠ x := by
        rintro rfl
        exact not_queued_iff.mp (Bool.not_eq_true _ ▸ hq) p hy
      show Function.update s.prio x v y = p
      rw [Function.update_of_ne hne]
      exact h.level p y hy

theorem levelled_of_reachable {s : SchedRun α} (h : (schedSystem α).Reachable s) : Levelled s :=
  h.invariant (fun _ => levelled_init) (fun _ _ _ hs ⟨_, hc⟩ => levelled_step hs hc)

end LamiaAtrium
