import Mathlib.Logic.Relation

/-!
# `Lib.Lts` — labelled transition systems, invariants, guarded runs

Nothing here mentions the operating system. A `System` is an initial predicate and a labelled step
relation; `Reachable` is every state of every run, and the rule that is used everywhere is
`Reachable.invariant`: what holds initially and survives one step holds of every reachable state.

`guard` keeps only the steps that meet a side condition, so a statement about "every run whose steps all
meet `C`" is a statement about `(T.guard C).Reachable`. `restrict` is the same for a condition that only the
target state can tell. `record` adds a history variable: it forbids no step, so every run has its record.
-/

namespace Lts

/-- A labelled transition system over states `S` and labels `L`. -/
structure System (S L : Type*) where
  init : S → Prop
  step : S → L → S → Prop

variable {S L : Type*}

namespace System

/-- The states of the runs of `T`. -/
inductive Reachable (T : System S L) : S → Prop where
  | init {s} : T.init s → Reachable T s
  | step {s l t} : Reachable T s → T.step s l t → Reachable T t

/-- `T.Steps s t`: some continuation leads from `s` to `t`. -/
def Steps (T : System S L) : S → S → Prop :=
  Relation.ReflTransGen (fun s t => ∃ l, T.step s l t)

/-- Keep the steps whose source state and label meet `C`. -/
def guard (T : System S L) (C : S → L → Prop) : System S L where
  init := T.init
  step s l t := T.step s l t ∧ C s l

/-- Keep the steps whose source and target state meet `C`. -/
def restrict (T : System S L) (C : S → S → Prop) : System S L where
  init := T.init
  step s l t := T.step s l t ∧ C s t

/-- Keep a record of the run: it starts as `h₀`, and a step changes it to what `next` says. -/
def record {H : Type*} (T : System S L) (h₀ : H) (next : S → S → H → H) : System (S × H) L where
  init p := T.init p.1 ∧ p.2 = h₀
  step p l q := T.step p.1 l q.1 ∧ q.2 = next p.1 q.1 p.2

/-- **The invariant rule.** What holds initially and is preserved by every step (from a state where it
    already holds) holds of every reachable state. -/
theorem Reachable.invariant {T : System S L} {I : S → Prop} (hinit : ∀ s, T.init s → I s)
    (hstep : ∀ s l t, I s → T.step s l t → I t) {s : S} (h : T.Reachable s) : I s := by
  induction h with
  | init hs => exact hinit _ hs
  | step _ hst ih => exact hstep _ _ _ ih hst

/-- The invariant rule above an invariant that is already established. -/
theorem Reachable.invariant_of {T : System S L} {J I : S → Prop} (hJ : ∀ s, T.Reachable s → J s)
    (hinit : ∀ s, T.init s → I s) (hstep : ∀ s l t, J s → I s → T.step s l t → I t)
    {s : S} (h : T.Reachable s) : I s := by
  induction h with
  | init hs => exact hinit _ hs
  | step hr hst ih => exact hstep _ _ _ (hJ _ hr) ih hst

/-- A continuation of a reachable state is reachable. -/
theorem Reachable.steps {T : System S L} {s t : S} (h : T.Reachable s) (hst : T.Steps s t) :
    T.Reachable t := by
  induction hst with
  | refl => exact h
  | tail _ hl ih => exact .step ih hl.choose_spec

/-- A run of a guarded system is a run of the system. -/
theorem Reachable.of_guard {T : System S L} {C : S → L → Prop} {s : S}
    (h : (T.guard C).Reachable s) : T.Reachable s := by
  induction h with
  | init hs => exact .init hs
  | step _ hst ih => exact .step ih hst.1

/-- A run of a restricted system is a run of the system. -/
theorem Reachable.of_restrict {T : System S L} {C : S → S → Prop} {s : S}
    (h : (T.restrict C).Reachable s) : T.Reachable s := by
  induction h with
  | init hs => exact .init hs
  | step _ hst ih => exact .step ih hst.1

/-- A stronger condition leaves fewer runs. -/
theorem Reachable.restrict_mono {T : System S L} {C D : S → S → Prop} (hCD : ∀ s t, C s t → D s t) {s : S}
    (h : (T.restrict C).Reachable s) : (T.restrict D).Reachable s := by
  induction h with
  | init hs => exact .init hs
  | step _ hst ih => exact .step ih ⟨hst.1, hCD _ _ hst.2⟩

section Record

variable {H : Type*} {T : System S L} {h₀ : H} {next : S → S → H → H}

/-- A run with a record is a run. -/
theorem Reachable.of_record {p : S × H} (h : (T.record h₀ next).Reachable p) : T.Reachable p.1 := by
  induction h with
  | init hp => exact .init hp.1
  | step _ hst ih => exact .step ih hst.1

/-- The invariant rule for a run and its record. -/
theorem Reachable.record_invariant {I : S → H → Prop} (hinit : ∀ s, T.init s → I s h₀)
    (hstep : ∀ s l t r, T.Reachable s → I s r → T.step s l t → I t (next s t r)) {s : S} {r : H}
    (h : (T.record h₀ next).Reachable (s, r)) : I s r := by
  refine Reachable.invariant_of (I := fun p => I p.1 p.2) (fun p hp => hp.of_record) ?_ ?_ h
  · rintro p ⟨hs, hr⟩
    rw [hr]
    exact hinit p.1 hs
  · rintro p l q hs hi ⟨hst, hq⟩
    rw [hq]
    exact hstep p.1 l q.1 p.2 hs hi hst

/-- A step with its record. -/
theorem Reachable.record_step {s t : S} {r : H} {l : L} (h : (T.record h₀ next).Reachable (s, r))
    (hst : T.step s l t) : (T.record h₀ next).Reachable (t, next s t r) := .step h ⟨hst, rfl⟩

/-- Every run has its record. -/
theorem Reachable.recorded (h₀ : H) (next : S → S → H → H) {s : S} (h : T.Reachable s) :
    ∃ r, (T.record h₀ next).Reachable (s, r) := by
  induction h with
  | init hs => exact ⟨h₀, .init ⟨hs, rfl⟩⟩
  | step _ hst ih =>
    obtain ⟨r, hr⟩ := ih
    exact ⟨_, hr.record_step hst⟩

end Record

end System

end Lts
