import LamiaAtrium.Lib.Radix.Insert

/-!
# `Lib.Radix.Lacking` — the tables that several paths lack

Paths share the tables on their common beginnings, so what several paths need is not the sum of what is `missing` on
each. `lacking` is the set of the beginnings without a table; `card_lacking_cons` counts it along a sequence of
insertions, and `card_lacking_le` bounds it.
-/

namespace Radix

variable {P F I : Type*} [DecidableEq F] [DecidableEq I] {depth : ℕ} {root : P → Option F}
  {T : Tables F I} {pool : List F}

/-- The beginnings of some paths where there is no table. -/
def lacking (T : Tables F I) (r : F) (paths : List (List I)) : Finset (List I) :=
  (paths.flatMap List.inits).toFinset.filter fun js => walk T r js = none

section

omit [DecidableEq F]

theorem mem_lacking {r : F} {paths : List (List I)} {js : List I} :
    js ∈ lacking T r paths ↔ (∃ is ∈ paths, js <+: is) ∧ walk T r js = none := by
  simp [lacking]

theorem mem_lacking_cons {r : F} {is : List I} {paths : List (List I)} {js : List I} :
    js ∈ lacking T r (is :: paths) ↔ (js <+: is ∨ ∃ ks ∈ paths, js <+: ks) ∧ walk T r js = none := by
  simp [mem_lacking]

theorem mem_lacking_singleton {r : F} {is js : List I} :
    js ∈ lacking T r [is] ↔ js <+: is ∧ walk T r js = none := by
  simp [mem_lacking]

theorem card_inits (is : List I) : is.inits.toFinset.card = is.length + 1 := by
  induction is with
  | nil => rfl
  | cons i is ih =>
    have hmap : (is.inits.map fun js => i :: js).toFinset = is.inits.toFinset.image fun js => i :: js := by
      ext js
      simp
    rw [List.inits_cons, List.toFinset_cons, Finset.card_insert_of_notMem (by simp), hmap,
      Finset.card_image_of_injective _ List.cons_injective, ih, List.length_cons]

/-- Below the first entry of a path, its beginnings are those of the rest. -/
theorem mem_lacking_cons_singleton {f : F} {i : I} {is js : List I} :
    js ∈ lacking T f [i :: is] ↔ ∃ ks, ks <+: is ∧ ((T f i).bind fun g => walk T g ks) = none ∧ i :: ks = js := by
  rw [mem_lacking_singleton]
  constructor
  · rintro ⟨hpre, hnone⟩
    cases js with
    | nil => cases hnone
    | cons j js =>
      obtain ⟨rfl, hrest⟩ := List.cons_prefix_cons.mp hpre
      exact ⟨js, hrest, hnone, rfl⟩
  · rintro ⟨ks, hpre, hnone, rfl⟩
    exact ⟨List.cons_prefix_cons.mpr ⟨rfl, hpre⟩, hnone⟩

/-- Below a table, the path lacks what the rest of it lacks. -/
theorem lacking_cons_of_some {f g : F} {i : I} (hT : T f i = some g) (is : List I) :
    lacking T f [i :: is] = (lacking T g [is]).image fun js => i :: js := by
  ext js
  rw [mem_lacking_cons_singleton, hT]
  simp only [Finset.mem_image, mem_lacking_singleton, Option.bind_some, and_assoc]

/-- Below a missing entry, all beginnings but the empty one. -/
theorem lacking_cons_of_none {f : F} {i : I} (hT : T f i = none) (is : List I) :
    lacking T f [i :: is] = is.inits.toFinset.image fun js => i :: js := by
  ext js
  rw [mem_lacking_cons_singleton, hT]
  simp only [Finset.mem_image, List.mem_toFinset, List.mem_inits, Option.bind_none, true_and]

/-- One path lacks what is missing on it. -/
theorem card_lacking_singleton (T : Tables F I) (is : List I) :
    ∀ f, (lacking T f [is]).card = missing T f is := by
  induction is with
  | nil =>
    intro f
    have hempty : lacking T f [[]] = ∅ := by
      ext js
      rw [mem_lacking_singleton, List.prefix_nil]
      constructor
      · rintro ⟨rfl, hnone⟩
        cases hnone
      · intro hjs
        exact absurd hjs (Finset.notMem_empty js)
    rw [hempty]
    rfl
  | cons i is ih =>
    intro f
    cases hT : T f i with
    | some g =>
      rw [lacking_cons_of_some hT, Finset.card_image_of_injective _ List.cons_injective, ih g]
      simp only [missing, hT]
    | none =>
      rw [lacking_cons_of_none hT, Finset.card_image_of_injective _ List.cons_injective, card_inits]
      simp only [missing, hT]

theorem missing_le_card_lacking (T : Tables F I) (r : F) (is : List I) (paths : List (List I)) :
    missing T r is ≤ (lacking T r (is :: paths)).card := by
  rw [← card_lacking_singleton]
  apply Finset.card_le_card
  intro js hjs
  obtain ⟨hpre, hnone⟩ := mem_lacking_singleton.mp hjs
  exact mem_lacking_cons.mpr ⟨.inl hpre, hnone⟩

/-- **Paths of at most `d` entries** lack at most `d` tables each. -/
theorem card_lacking_le (T : Tables F I) (r : F) {d : ℕ} {paths : List (List I)} (hd : ∀ is ∈ paths, is.length ≤ d) :
    (lacking T r paths).card ≤ d * paths.length := by
  induction paths with
  | nil => exact Nat.le_of_eq Finset.card_empty
  | cons is paths ih =>
    rw [List.forall_mem_cons] at hd
    have hsub : lacking T r (is :: paths) ⊆ lacking T r [is] ∪ lacking T r paths := by
      intro js hjs
      obtain ⟨hpre | hrest, hnone⟩ := mem_lacking_cons.mp hjs
      · exact Finset.mem_union_left _ (mem_lacking_singleton.mpr ⟨hpre, hnone⟩)
      · exact Finset.mem_union_right _ (mem_lacking.mpr ⟨hrest, hnone⟩)
    calc (lacking T r (is :: paths)).card
        ≤ (lacking T r [is]).card + (lacking T r paths).card :=
          (Finset.card_le_card hsub).trans (Finset.card_union_le ..)
      _ ≤ d + d * paths.length := by
          rw [card_lacking_singleton]
          exact Nat.add_le_add ((missing_le T is r).trans hd.1) (ih hd.2)
      _ = d * (is :: paths).length := by rw [List.length_cons, Nat.mul_succ, Nat.add_comm]

end

/-- **Which tables an insertion adds**: those at the beginnings of its path. -/
theorem insert_walk_eq_none_iff (h : Forest depth root T pool) (hfresh : Fresh T pool) {p : P} {r x : F}
    {is : List I} {i : I} (hp : root p = some r) (hlen : is.length + 1 = depth) {T' : Tables F I}
    {pool' : List F} (hins : insert T pool r is i x = (true, T', pool')) {js : List I} (hjs : js.length < depth) :
    walk T' r js = none ↔ walk T r js = none ∧ ¬ js <+: is := by
  unfold insert at hins
  cases hd : descend T pool r is with
  | mk o rest =>
    obtain ⟨T₁, pool₁⟩ := rest
    obtain ⟨h₁, -, hothers, hend⟩ := descend_spec hp is h hfresh (walk_nil T r) (by simpa using hlen) hd
    rw [hd] at hins
    cases o with
    | none => cases (Prod.mk.inj hins).1
    | some g =>
      obtain ⟨rfl, rfl⟩ : write T₁ g i x = T' ∧ pool₁ = pool' := by simpa using hins
      have hg : walk T₁ r is = some g := hend g rfl
      -- the leaf is deeper
      have hleaf : walk (write T₁ g i x) r js = walk T₁ r js := by
        apply h₁.walk_write_of_not_prefix hp hp (by omega) hg hjs.le
        rintro ⟨-, hpre⟩
        have hle := hpre.length_le
        rw [List.length_append, List.length_singleton] at hle
        omega
      rw [hleaf]
      by_cases hpre : js <+: is
      · obtain ⟨rest, rfl⟩ := hpre
        rw [walk_append] at hg
        obtain ⟨f, hf, -⟩ := Option.bind_eq_some_iff.mp hg
        rw [hf]
        simp
      · rw [hothers hp hjs.le (fun hc => hpre hc.2)]
        exact ⟨fun hnone => ⟨hnone, hpre⟩, fun hc => hc.1⟩

/-- **What several paths lack**, one path after the other. -/
theorem card_lacking_cons (h : Forest depth root T pool) (hfresh : Fresh T pool) {p : P} {r x : F} {is : List I}
    {i : I} (hp : root p = some r) (hlen : is.length + 1 = depth) {T' : Tables F I} {pool' : List F}
    (hins : insert T pool r is i x = (true, T', pool')) {paths : List (List I)}
    (hpaths : ∀ js ∈ paths, js.length < depth) :
    (lacking T r (is :: paths)).card = missing T r is + (lacking T' r paths).card := by
  have hadds : ∀ {js}, (∃ ks ∈ paths, js <+: ks) → (walk T' r js = none ↔ walk T r js = none ∧ ¬ js <+: is) := by
    rintro js ⟨ks, hks, hpre⟩
    exact insert_walk_eq_none_iff h hfresh hp hlen hins (hpre.length_le.trans_lt (hpaths ks hks))
  have hunion : lacking T r (is :: paths) = lacking T r [is] ∪ lacking T' r paths := by
    ext js
    rw [Finset.mem_union, mem_lacking_cons, mem_lacking_singleton, mem_lacking]
    constructor
    · rintro ⟨hpre | hrest, hnone⟩
      · exact .inl ⟨hpre, hnone⟩
      · by_cases hpre : js <+: is
        · exact .inl ⟨hpre, hnone⟩
        · exact .inr ⟨hrest, (hadds hrest).mpr ⟨hnone, hpre⟩⟩
    · rintro (⟨hpre, hnone⟩ | ⟨hrest, hnone⟩)
      · exact ⟨.inl hpre, hnone⟩
      · exact ⟨.inr hrest, ((hadds hrest).mp hnone).1⟩
  have hdisjoint : Disjoint (lacking T r [is]) (lacking T' r paths) := by
    rw [Finset.disjoint_left]
    intro js hone hrest
    obtain ⟨hmem, hnone⟩ := mem_lacking.mp hrest
    exact ((hadds hmem).mp hnone).2 (mem_lacking_singleton.mp hone).1
  rw [hunion, Finset.card_union_of_disjoint hdisjoint, card_lacking_singleton]

end Radix
