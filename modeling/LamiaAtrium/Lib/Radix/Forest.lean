import Mathlib.Data.List.Basic
import Mathlib.Logic.Function.Basic
import Mathlib.Tactic

/-!
# `Lib.Radix.Forest` — forests of tables that share one store

A *table* is named by an `F` and maps an index `I` to another name, or to nothing. Several trees live in
one store `Tables F I`; tree `p` starts at `root p`. A path of `depth` indices names a leaf, a shorter one
names a table. New tables come from a `pool`.

* `Forest` is the ownership discipline: a table is reached by one tree along one path, and no reachable
  table is in the pool. `Fresh` says that the tables of the pool are empty.
* `walk_write` says what a single write does to every walk of every tree.
* `Forest.plant` starts a new tree at a cleared table of the pool.

Trees, tables and indices are arbitrary types; nothing here knows what the store is made of.
-/

namespace Radix

variable {P F I : Type*}

/-- The content of every table. -/
abbrev Tables (F I : Type*) := F → I → Option F

/-- Follow a path from a table. -/
def walk (T : Tables F I) : F → List I → Option F
  | f, []      => some f
  | f, i :: is => (T f i).bind fun g => walk T g is

@[simp] theorem walk_nil (T : Tables F I) (f : F) : walk T f [] = some f := rfl

@[simp] theorem walk_cons (T : Tables F I) (f : F) (i : I) (is : List I) :
    walk T f (i :: is) = (T f i).bind fun g => walk T g is := rfl

theorem walk_append (T : Tables F I) (f : F) (is js : List I) :
    walk T f (is ++ js) = (walk T f is).bind fun g => walk T g js := by
  induction is generalizing f with
  | nil => rfl
  | cons i is ih =>
    rw [List.cons_append, walk_cons, walk_cons]
    cases T f i with
    | none => rfl
    | some g => exact ih g

theorem walk_concat (T : Tables F I) (f : F) (is : List I) (i : I) :
    walk T f (is ++ [i]) = (walk T f is).bind fun g => T g i := by
  rw [walk_append]
  congr 1
  funext g
  rw [walk_cons]
  cases T g i <;> rfl

/-- An empty table leads nowhere. -/
theorem walk_empty {T : Tables F I} {f : F} (h : ∀ i, T f i = none) {is : List I} (his : is ≠ []) :
    walk T f is = none := by
  cases is with
  | nil => exact absurd rfl his
  | cons i is => rw [walk_cons, h i]; rfl

/-- A walk is determined by the entries it passes. -/
theorem walk_congr {T T' : Tables F I} (js : List I) :
    ∀ r, (∀ k (hk : k < js.length), ∀ f, walk T r (js.take k) = some f → T' f js[k] = T f js[k]) →
      walk T' r js = walk T r js := by
  induction js with
  | nil =>
    intro r _
    rfl
  | cons j js ih =>
    intro r hsame
    have hfirst : T' r j = T r j := hsame 0 (by simp) r rfl
    rw [walk_cons, walk_cons, hfirst]
    cases hT : T r j with
    | none => rfl
    | some g =>
      refine ih g fun k hk f hwalk => ?_
      have hnext := hsame (k + 1) (by simpa using hk) f
      rw [List.take_succ_cons, walk_cons, hT] at hnext
      exact hnext hwalk

/-- Round an entry that leads back to its table. -/
theorem walk_replicate {f : F} {j : I} (h : T f j = some f) (n : ℕ) : walk T f (List.replicate n j) = some f := by
  induction n with
  | zero => rfl
  | succ n ih =>
    rw [List.replicate_succ, walk_cons, h, Option.bind_some]
    exact ih

/-! ## Writing one entry -/

variable [DecidableEq F] [DecidableEq I]

/-- Set entry `i` of table `f`. -/
def write (T : Tables F I) (f : F) (i : I) (x : F) : Tables F I :=
  fun g j => if g = f ∧ j = i then some x else T g j

@[simp] theorem write_self (T : Tables F I) (f : F) (i : I) (x : F) : write T f i x f i = some x := by
  simp [write]

theorem write_of_ne {T : Tables F I} {f g : F} {i j : I} {x : F} (h : ¬ (g = f ∧ j = i)) :
    write T f i x g j = T g j := by
  rw [write, if_neg h]

/-! ## Forests -/

/-- **The ownership discipline** of trees of height `depth` over one store. -/
structure Forest (depth : ℕ) (root : P → Option F) (T : Tables F I) (pool : List F) : Prop where
  /-- A table belongs to one tree, at one place. -/
  inj : ∀ {p q r r' is js f}, root p = some r → root q = some r' → is.length < depth → js.length < depth →
    walk T r is = some f → walk T r' js = some f → p = q ∧ is = js
  /-- No table in use is in the pool. -/
  off_pool : ∀ {p r is f}, root p = some r → is.length < depth → walk T r is = some f → f ∉ pool
  nodup : pool.Nodup

/-- The tables of the pool are empty. -/
def Fresh (T : Tables F I) (pool : List F) : Prop := ∀ f ∈ pool, ∀ i, T f i = none

variable {depth : ℕ} {root : P → Option F} {T : Tables F I} {pool : List F}

omit [DecidableEq F] [DecidableEq I] in
/-- The discipline only looks at walks to tables. -/
theorem Forest.congr (h : Forest depth root T pool) {T' : Tables F I}
    (hsame : ∀ {p r is}, root p = some r → is.length < depth → walk T' r is = walk T r is) :
    Forest depth root T' pool := by
  refine ⟨?_, ?_, h.nodup⟩
  · intro p q r r' is js f hp hq his hjs hf hf'
    rw [hsame hp his] at hf
    rw [hsame hq hjs] at hf'
    exact h.inj hp hq his hjs hf hf'
  · intro p r is f hp his hf
    rw [hsame hp his] at hf
    exact h.off_pool hp his hf

omit [DecidableEq F] [DecidableEq I] in
/-- A part of the pool can be set aside. -/
theorem Forest.sublist {pool' : List F} (h : Forest depth root T pool) (hsub : List.Sublist pool' pool) :
    Forest depth root T pool' where
  inj := h.inj
  off_pool hp his hf hmem := h.off_pool hp his hf (hsub.subset hmem)
  nodup := h.nodup.sublist hsub

/-- A write at the table that tree `p` reaches along `is` is passed by the walks of `p` through
    `is ++ [i]`, and by no other walk. -/
theorem Forest.walk_write_of_not_prefix (h : Forest depth root T pool) {p q : P} {r r' f x : F}
    {is js : List I} {i : I} (hp : root p = some r) (hq : root q = some r') (his : is.length < depth)
    (hf : walk T r is = some f) (hjs : js.length ≤ depth) (hnot : ¬ (q = p ∧ is ++ [i] <+: js)) :
    walk (write T f i x) r' js = walk T r' js := by
  refine walk_congr js r' fun k hk g hwalk => write_of_ne ?_
  rintro ⟨rfl, hki⟩
  refine hnot ?_
  have hlen : (js.take k).length < depth := by
    rw [List.length_take]
    omega
  obtain ⟨rfl, hpre⟩ := h.inj hq hp hlen his hwalk hf
  refine ⟨rfl, ?_⟩
  rw [← hpre, ← hki, List.take_append_getElem hk]
  exact List.take_prefix _ _

/-- **What one write does to every walk.** Entry `i` of the table at path `is` of tree `p` is set to `x`;
    either that is the leaf level, or the entry was empty and `x` is an empty table off the tree. -/
theorem Forest.walk_write (h : Forest depth root T pool) {p q : P} {r r' f x : F} {is : List I} {i : I}
    (hp : root p = some r) (hq : root q = some r') (his : is.length < depth) (hf : walk T r is = some f)
    (hx : is.length + 1 = depth ∨ (T f i = none ∧ x ≠ f ∧ ∀ j, T x j = none)) (js : List I)
    (hjs : js.length ≤ depth) :
    (q = p ∧ js = is ++ [i] ∧ walk (write T f i x) r' js = some x) ∨
      (¬ (q = p ∧ js = is ++ [i]) ∧ walk (write T f i x) r' js = walk T r' js) := by
  by_cases hpre : q = p ∧ is ++ [i] <+: js
  · obtain ⟨rfl, rest, rfl⟩ := hpre
    obtain rfl : r = r' := Option.some.inj (hp.symm.trans hq)
    -- the part up to `f` is too short to pass the entry written
    have hf' : walk (write T f i x) r is = some f := by
      rw [h.walk_write_of_not_prefix hp hp his hf his.le (fun hc => by
        have := hc.2.length_le
        rw [List.length_append, List.length_singleton] at this
        omega), hf]
    have hcut : walk (write T f i x) r ((is ++ [i]) ++ rest) = walk (write T f i x) x rest := by
      rw [walk_append, walk_concat, hf', Option.bind_some, write_self, Option.bind_some]
    cases hrest : rest with
    | nil =>
      left
      subst hrest
      rw [List.append_nil] at hcut ⊢
      exact ⟨rfl, rfl, hcut⟩
    | cons j rest' =>
      right
      rw [← hrest]
      refine ⟨fun hc => ?_, ?_⟩
      · have := congrArg List.length hc.2
        rw [List.length_append, hrest, List.length_cons] at this
        omega
      · rcases hx with hleaf | ⟨hnone, hne, hempty⟩
        · rw [List.length_append, List.length_append, List.length_singleton, hrest, List.length_cons] at hjs
          omega
        · have hx' : ∀ j, write T f i x x j = none := fun j => by
            rw [write_of_ne (fun hc => hne hc.1)]; exact hempty j
          rw [hcut, walk_empty hx' (by rw [hrest]; simp), walk_append, walk_concat, hf, Option.bind_some,
            hnone]
          rfl
  · right
    refine ⟨fun hc => hpre ⟨hc.1, hc.2 ▸ List.prefix_refl _⟩, ?_⟩
    exact h.walk_write_of_not_prefix hp hq his hf hjs hpre

/-! ## Planting a tree -/

omit [DecidableEq F] [DecidableEq I] in
/-- **A new tree at a cleared table of the pool** keeps the discipline and every walk of the other trees. -/
theorem Forest.plant [DecidableEq P] {g : F} (h : Forest depth root T (g :: pool)) {T' : Tables F I}
    (hclear : ∀ i, T' g i = none) (hsame : ∀ f, f ≠ g → T' f = T f) (p : P) :
    Forest depth (Function.update root p (some g)) T' pool ∧
      (∀ {q r js}, root q = some r → js.length ≤ depth → walk T' r js = walk T r js) := by
  have hnodup := List.nodup_cons.mp h.nodup
  have hold : ∀ {q r js}, root q = some r → js.length ≤ depth → walk T' r js = walk T r js := by
    intro q r js hq hjs
    refine walk_congr js r fun k hk f hwalk => ?_
    rw [hsame f]
    rintro rfl
    refine h.off_pool hq ?_ hwalk List.mem_cons_self
    rw [List.length_take]
    omega
  -- the only table of the new tree is its root
  have hnew : ∀ {js f}, walk T' g js = some f → js = [] ∧ f = g := by
    intro js f hwalk
    by_cases hjs : js = []
    · subst hjs
      exact ⟨rfl, (Option.some.inj hwalk).symm⟩
    · rw [walk_empty hclear hjs] at hwalk
      exact absurd hwalk (by simp)
  have hroot : ∀ {q r}, Function.update root p (some g) q = some r →
      (q = p ∧ r = g) ∨ (q ≠ p ∧ root q = some r) := by
    intro q r hq
    by_cases hqp : q = p
    · subst hqp
      rw [Function.update_self] at hq
      exact .inl ⟨rfl, (Option.some.inj hq).symm⟩
    · rw [Function.update_of_ne hqp] at hq
      exact .inr ⟨hqp, hq⟩
  refine ⟨⟨?_, ?_, hnodup.2⟩, hold⟩
  · intro q q' r r' js js' f hq hq' hjs hjs' hf hf'
    rcases hroot hq with ⟨rfl, rfl⟩ | ⟨-, hqo⟩ <;> rcases hroot hq' with ⟨rfl, rfl⟩ | ⟨-, hqo'⟩
    · exact ⟨rfl, (hnew hf).1.trans (hnew hf').1.symm⟩
    · rw [hold hqo' hjs'.le, (hnew hf).2] at hf'
      exact absurd List.mem_cons_self (h.off_pool hqo' hjs' hf')
    · rw [hold hqo hjs.le, (hnew hf').2] at hf
      exact absurd List.mem_cons_self (h.off_pool hqo hjs hf)
    · rw [hold hqo hjs.le] at hf
      rw [hold hqo' hjs'.le] at hf'
      exact h.inj hqo hqo' hjs hjs' hf hf'
  · intro q r js f hq hjs hf
    rcases hroot hq with ⟨rfl, rfl⟩ | ⟨-, hq⟩
    · rw [(hnew hf).2]
      exact hnodup.1
    · rw [hold hq hjs.le] at hf
      exact fun hmem => h.off_pool hq hjs hf (List.mem_cons_of_mem g hmem)

end Radix
