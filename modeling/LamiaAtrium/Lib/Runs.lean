import LamiaAtrium.Lib.Lts
import Mathlib.Tactic

/-!
# `Lib.Runs` — labelled runs, forward simulation, machines side by side, counted runs

Nothing here mentions the operating system. `Run` is a run together with its labels.

* `computed f`: the deterministic machine of a function. Its runs are folds.
* `Simulates R`: every step of one system is a step of the other with the same label, along the relation `R`.
  `Simulates.run` is the rule for runs.
* `sideBySide M own`: a family of copies of the machine `M`. A label belongs to one copy at most, and moves no other.
  `Run.component`: what a run of all of them does to one copy is a run of `M` on the labels of that copy.
* `Counted Idle s n k t`: a run from `s` to `t` with `n` steps of work and `k` steps that `Idle` singles out.
  `Counted.le` is the potential method: when a step of work lowers a potential, unless the clock ticks, and an idle
  step raises it by `c` at most, then the steps of work are paid for by the clock and by the idle steps.
  `Counted.ends_or_works`: a system that always has a step of work to offer, unless it is through, has runs of any
  number of them.
-/

namespace Lts.System

variable {S A L : Type*}

/-- The runs of `T`, with their labels in order. -/
inductive Run (T : System S L) : List L → S → Prop where
  | init {s} : T.init s → Run T [] s
  | step {ls s l t} : Run T ls s → T.step s l t → Run T (ls ++ [l]) t

theorem Run.reachable {T : System S L} {ls : List L} {s : S} (h : T.Run ls s) : T.Reachable s := by
  induction h with
  | init hs => exact .init hs
  | step _ hst ih => exact ih.step hst

/-- Every reachable state is at the end of some run. -/
theorem Reachable.run {T : System S L} {s : S} (h : T.Reachable s) : ∃ ls, T.Run ls s := by
  induction h with
  | init hs => exact ⟨[], .init hs⟩
  | step _ hst ih =>
    obtain ⟨ls, hr⟩ := ih
    exact ⟨_, hr.step hst⟩

/-! ## Machines that compute -/

/-- The machine whose state is a function of what has happened. -/
def computed (f : A → L → A) (a₀ : A) : System A L where
  init a := a = a₀
  step a l b := b = f a l

theorem Run.eq_foldl {f : A → L → A} {a₀ a : A} {ls : List L} (h : (computed f a₀).Run ls a) : a = ls.foldl f a₀ := by
  induction h with
  | init ha => exact ha
  | step _ hst ih => rw [List.foldl_append, ← ih, hst, List.foldl_cons, List.foldl_nil]

/-! ## Forward simulation -/

/-- `U` can follow `T` along `R`, label by label. -/
structure Simulates (T : System S L) (U : System A L) (R : S → A → Prop) : Prop where
  init : ∀ s, T.init s → ∃ a, U.init a ∧ R s a
  step : ∀ s l t a, R s a → T.step s l t → ∃ b, U.step a l b ∧ R t b

/-- **The simulation rule.** A run of `T` is a run of `U` with the same labels. -/
theorem Simulates.run {T : System S L} {U : System A L} {R : S → A → Prop} (h : Simulates T U R) {ls : List L} {s : S}
    (hr : T.Run ls s) : ∃ a, U.Run ls a ∧ R s a := by
  induction hr with
  | init hs =>
    obtain ⟨a, ha, hR⟩ := h.init _ hs
    exact ⟨a, .init ha, hR⟩
  | step _ hst ih =>
    obtain ⟨a, ha, hR⟩ := ih
    obtain ⟨b, hb, hR'⟩ := h.step _ _ _ _ hR hst
    exact ⟨b, ha.step hb, hR'⟩

/-! ## Counted runs -/

/-- A run from `s`: its steps of work, its idle steps, its end. -/
inductive Counted (T : System S L) (Idle : S → S → Prop) (s : S) : ℕ → ℕ → S → Prop where
  | refl : Counted T Idle s 0 0 s
  | work {n k t l u} : Counted T Idle s n k t → T.step t l u → ¬ Idle t u → Counted T Idle s (n + 1) k u
  | idle {n k t l u} : Counted T Idle s n k t → T.step t l u → Idle t u → Counted T Idle s n (k + 1) u

section Counted

variable {T : System S L} {Idle : S → S → Prop} {s t : S} {n k : ℕ}

theorem Counted.reachable (h : T.Counted Idle s n k t) (hs : T.Reachable s) : T.Reachable t := by
  induction h with
  | refl => exact hs
  | work _ hst _ ih => exact ih.step hst
  | idle _ hst _ ih => exact ih.step hst

/-- Every reachable state is at the end of a counted run. -/
theorem Reachable.counted (Idle : S → S → Prop) (h : T.Reachable t) :
    ∃ s n k, T.init s ∧ T.Counted Idle s n k t := by
  induction h with
  | init hs => exact ⟨_, 0, 0, hs, .refl⟩
  | @step t l u _ hst ih =>
    obtain ⟨s, n, k, hs, hrun⟩ := ih
    by_cases hidle : Idle t u
    · exact ⟨s, n, k + 1, hs, hrun.idle hst hidle⟩
    · exact ⟨s, n + 1, k, hs, hrun.work hst hidle⟩

/-- **The potential method.** `b` is what a tick of the clock may add to the potential `Φ`, and `c` what an idle step
    may. -/
theorem Counted.le {Φ clock : S → ℕ} {b c : ℕ}
    (hwork : ∀ s l t, T.step s l t → ¬ Idle s t → Φ t + 1 + b * clock s ≤ Φ s + b * clock t)
    (hidle : ∀ s t, Idle s t → Φ t + b * clock s ≤ Φ s + c + b * clock t) (h : T.Counted Idle s n k t) :
    Φ t + n + b * clock s ≤ Φ s + c * k + b * clock t := by
  induction h with
  | refl => simp
  | work _ hst hbusy ih =>
    have hone := hwork _ _ _ hst hbusy
    omega
  | idle _ _ hfree ih =>
    have hone := hidle _ _ hfree
    rw [Nat.mul_succ]
    omega

/-- Where every reachable state is through or has a step of work, a run goes on until it is through. -/
theorem Counted.ends_or_works {End : S → Prop}
    (hlive : ∀ s, T.Reachable s → End s ∨ ∃ l t, T.step s l t ∧ ¬ Idle s t) (hs : T.Reachable s) (n : ℕ) :
    ∃ m t, m ≤ n ∧ T.Counted Idle s m 0 t ∧ (m = n ∨ End t) := by
  induction n with
  | zero => exact ⟨0, s, le_rfl, .refl, .inl rfl⟩
  | succ n ih =>
    obtain ⟨m, t, hm, hrun, rfl | hend⟩ := ih
    · rcases hlive t (hrun.reachable hs) with hend | ⟨l, u, hst, hbusy⟩
      · exact ⟨m, t, Nat.le_succ m, hrun, .inr hend⟩
      · exact ⟨m + 1, u, le_rfl, hrun.work hst hbusy, .inl rfl⟩
    · exact ⟨m, t, hm.trans (Nat.le_succ n), hrun, .inr hend⟩

end Counted

/-! ## Machines side by side -/

variable {ι V B : Type*}

/-- Copies of `M`, one for each index; `own l` is the copy that the label moves, and how. -/
def sideBySide (M : System V B) (own : L → Option (ι × B)) : System (ι → V) L where
  init f := ∀ i, M.init (f i)
  step f l g := ∀ i,
    match own l with
    | none        => g i = f i
    | some (j, b) => (i = j → M.step (f i) b (g i)) ∧ (i ≠ j → g i = f i)

variable [DecidableEq ι]

/-- What a label means to the copy `i`. -/
def ownOf (own : L → Option (ι × B)) (i : ι) (l : L) : Option B :=
  (own l).bind fun p => if i = p.1 then some p.2 else none

/-- **A copy runs on its own labels**, whatever the others do in between. -/
theorem Run.component {M : System V B} {own : L → Option (ι × B)} {ls : List L} {f : ι → V}
    (h : (sideBySide M own).Run ls f) (i : ι) : M.Run (ls.filterMap (ownOf own i)) (f i) := by
  induction h with
  | init hf => exact .init (hf i)
  | @step ls f l g _ hst ih =>
    have hi := hst i
    rw [List.filterMap_append]
    cases hown : own l with
    | none =>
      rw [hown] at hi
      have hskip : ownOf own i l = none := by rw [ownOf, hown, Option.bind_none]
      rw [List.filterMap_cons_none hskip, List.filterMap_nil, List.append_nil, hi]
      exact ih
    | some p =>
      rw [hown] at hi
      by_cases hij : i = p.1
      · have htake : ownOf own i l = some p.2 := by rw [ownOf, hown, Option.bind_some, if_pos hij]
        rw [List.filterMap_cons_some htake, List.filterMap_nil]
        exact ih.step (hi.1 hij)
      · have hskip : ownOf own i l = none := by rw [ownOf, hown, Option.bind_some, if_neg hij]
        rw [List.filterMap_cons_none hskip, List.filterMap_nil, List.append_nil, hi.2 hij]
        exact ih

end Lts.System
