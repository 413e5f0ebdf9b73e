import LamiaAtrium.Lib.Radix.Insert

/-!
# `Lib.Radix.Partial` — pools that are only partly blank

An insertion does not look at the tables of the pool that it does not take.

* `insert_take`: the spec, when the tables that it takes are empty.
* `Forest.insert_exposes`: what happens when the first of them is not, and has an entry that leads back to itself.
-/

namespace Radix

variable {P F I : Type*} [DecidableEq F] [DecidableEq I] {depth : ℕ} {root : P → Option F}
  {T : Tables F I} {pool : List F}

/-- The rest of the pool does not matter to a descent that succeeds. -/
theorem descend_append (extra : List F) (is : List I) :
    ∀ {T : Tables F I} {pool : List F} {f g : F} {T' : Tables F I} {pool' : List F},
      descend T pool f is = (some g, T', pool') →
        descend T (pool ++ extra) f is = (some g, T', pool' ++ extra) := by
  induction is with
  | nil =>
    intro T pool f g T' pool' hd
    obtain ⟨rfl, rfl, rfl⟩ : f = g ∧ T = T' ∧ pool = pool' := by simpa [descend] using hd
    rfl
  | cons i is ih =>
    intro T pool f g T' pool' hd
    cases hT : T f i with
    | some x =>
      rw [descend_of_some hT] at hd ⊢
      exact ih hd
    | none =>
      cases pool with
      | nil =>
        rw [descend_of_none_nil hT] at hd
        cases hd
      | cons x pool =>
        rw [List.cons_append, descend_of_none_cons hT]
        rw [descend_of_none_cons hT] at hd
        exact ih hd

/-- **A descent takes what is missing from the front of the pool**, when that part of it is blank; what comes
    after it does not matter. -/
theorem descend_take {p : P} {r : F} (h : Forest depth root T pool) (hp : root p = some r) {is : List I}
    (hlen : is.length + 1 = depth) (hfresh : Fresh T (pool.take (missing T r is))) {o : Option F}
    {T' : Tables F I} {pool' : List F} (hd : descend T (pool.take (missing T r is)) r is = (o, T', pool')) :
    ∃ pool'', descend T pool r is = (o, T', pool'') := by
  have hnone := descend_eq_none_iff hp is (h.sublist (List.take_sublist _ _)) hfresh (walk_nil T r)
    (by simpa using hlen)
  rw [hd, List.length_take] at hnone
  cases o with
  | some g =>
    refine ⟨pool' ++ pool.drop (missing T r is), ?_⟩
    rw [← descend_append _ is hd, List.take_append_drop]
  | none =>
    -- the whole pool is too short
    have hshort : min (missing T r is) pool.length < missing T r is := hnone.mp rfl
    rw [List.take_of_length_le (by omega)] at hd
    exact ⟨pool', hd⟩

/-- A descent only sets entries on its path. -/
theorem descend_other_index {j : I} (is : List I) :
    ∀ {T : Tables F I} {pool : List F} {f : F} {o : Option F} {T' : Tables F I} {pool' : List F}, j ∉ is →
      descend T pool f is = (o, T', pool') → ∀ g, T' g j = T g j := by
  induction is with
  | nil =>
    intro T pool f o T' pool' _ hd g
    obtain ⟨-, rfl, -⟩ : some f = o ∧ T = T' ∧ pool = pool' := by simpa [descend] using hd
    rfl
  | cons i is ih =>
    intro T pool f o T' pool' hj hd g
    rw [List.mem_cons, not_or] at hj
    cases hT : T f i with
    | some x =>
      rw [descend_of_some hT] at hd
      exact ih hj.2 hd g
    | none =>
      cases pool with
      | nil =>
        rw [descend_of_none_nil hT] at hd
        obtain ⟨-, rfl, -⟩ : none = o ∧ T = T' ∧ [] = pool' := by simpa using hd
        rfl
      | cons x pool =>
        rw [descend_of_none_cons hT] at hd
        rw [ih hj.2 hd g, write_of_ne (fun hc => hj.1 hc.2)]

/-- **A descent stays within a set** of tables that its start and the pool are in, and that no entry leads out
    of: it ends there, and sets no entry elsewhere. -/
theorem descend_within {S : F → Prop} (is : List I) :
    ∀ {T : Tables F I} {pool : List F} {f : F} {o : Option F} {T' : Tables F I} {pool' : List F}, S f →
      (∀ x ∈ pool, S x) → (∀ x i y, S x → T x i = some y → S y) →
      descend T pool f is = (o, T', pool') → (∀ x, ¬ S x → T' x = T x) ∧ ∀ g, o = some g → S g := by
  induction is with
  | nil =>
    intro T pool f o T' pool' hf _ _ hd
    obtain ⟨rfl, rfl, -⟩ : some f = o ∧ T = T' ∧ pool = pool' := by simpa [descend] using hd
    refine ⟨fun _ _ => rfl, ?_⟩
    rintro g hg
    obtain rfl := Option.some.inj hg
    exact hf
  | cons i is ih =>
    intro T pool f o T' pool' hf hpool hclosed hd
    cases hT : T f i with
    | some x =>
      rw [descend_of_some hT] at hd
      exact ih (hclosed f i x hf hT) hpool hclosed hd
    | none =>
      cases pool with
      | nil =>
        rw [descend_of_none_nil hT] at hd
        obtain ⟨rfl, rfl, -⟩ : none = o ∧ T = T' ∧ [] = pool' := by simpa using hd
        exact ⟨fun _ _ => rfl, fun g hg => absurd hg (by simp)⟩
      | cons x pool =>
        rw [descend_of_none_cons hT] at hd
        have hx : S x := hpool x List.mem_cons_self
        have hclosed' : ∀ y j z, S y → write T f i x y j = some z → S z := by
          intro y j z hy hz
          by_cases hyj : y = f ∧ j = i
          · obtain ⟨rfl, rfl⟩ := hyj
            rw [write_self] at hz
            obtain rfl := Option.some.inj hz
            exact hx
          · rw [write_of_ne hyj] at hz
            exact hclosed y j z hy hz
        obtain ⟨hoff, hend⟩ := ih hx (fun y hy => hpool y (List.mem_cons_of_mem x hy)) hclosed' hd
        refine ⟨?_, hend⟩
        intro y hy
        rw [hoff y hy]
        funext j
        exact write_of_ne (fun hc => hy (hc.1 ▸ hf))

/-- **An insertion from a pool that is only partly blank**: the tables that it takes have to be. -/
theorem insert_take [DecidableEq P] (h : Forest depth root T pool) {p : P} {r x : F} {is : List I} {i : I}
    (hfresh : Fresh T (pool.take (missing T r is))) (hp : root p = some r) (hlen : is.length + 1 = depth)
    {ok : Bool} {T' : Tables F I} {pool' : List F} (hins : insert T pool r is i x = (ok, T', pool')) {q : P}
    {r' : F} {js : List I} (hq : root q = some r') (hjs : js.length = depth) :
    walk T' r' js = if ok = true ∧ q = p ∧ js = is ++ [i] then some x else walk T r' js := by
  cases hd : descend T (pool.take (missing T r is)) r is with
  | mk o rest =>
    obtain ⟨T₁, pool₁⟩ := rest
    obtain ⟨pool₂, hd'⟩ := descend_take h hp hlen hfresh hd
    have hshort : ∃ pool'', insert T (pool.take (missing T r is)) r is i x = (ok, T', pool'') := by
      unfold insert at hins ⊢
      rw [hd'] at hins
      rw [hd]
      cases o with
      | none =>
        obtain ⟨rfl, rfl, -⟩ : false = ok ∧ T₁ = T' ∧ pool₂ = pool' := by simpa using hins
        exact ⟨_, rfl⟩
      | some g =>
        obtain ⟨rfl, rfl, -⟩ : true = ok ∧ write T₁ g i x = T' ∧ pool₂ = pool' := by simpa using hins
        exact ⟨_, rfl⟩
    obtain ⟨pool'', hins'⟩ := hshort
    exact (insert_spec (h.sublist (List.take_sublist _ _)) hfresh hp hlen hins').2.2 hq hjs

/-- A descent passes the tables that are there. -/
theorem descend_of_walk (pool : List F) (rest : List I) (pre : List I) :
    ∀ {f g : F}, walk T f pre = some g → descend T pool f (pre ++ rest) = descend T pool g rest := by
  induction pre with
  | nil =>
    intro f g hwalk
    obtain rfl := Option.some.inj hwalk
    rfl
  | cons i pre ih =>
    intro f g hwalk
    rw [walk_cons] at hwalk
    obtain ⟨x, hx, hrest⟩ := Option.bind_eq_some_iff.mp hwalk
    rw [List.cons_append, descend_of_some hx]
    exact ih hrest

/-- An insertion that links the first table of the pool at an entry outside of it, when no entry of the pool leads out
    of it: outside of the pool only that entry changes, and so it is everywhere for the entries at an index that the
    path does not use. -/
theorem insert_within {f g x : F} {r : F} {pre post : List I} {i i' j : I} (hg : walk T r pre = some g)
    (hnone : T g i = none) (hgoff : g ∉ f :: pool)
    (hclosed : ∀ y ∈ f :: pool, ∀ l z, T y l = some z → z ∈ f :: pool) (hj : j ∉ post) (hj' : j ≠ i') {ok : Bool}
    {T' : Tables F I} {pool' : List F} (hins : insert T (f :: pool) r (pre ++ i :: post) i' x = (ok, T', pool')) :
    (∀ y, y ∉ f :: pool → T' y = write T g i f y) ∧ ∀ y, T' y j = write T g i f y j := by
  have hclosed' : ∀ y l z, y ∈ f :: pool → write T g i f y l = some z → z ∈ f :: pool := by
    intro y l z hy hz
    have hne : ¬ (y = g ∧ l = i) := fun hc => hgoff (hc.1 ▸ hy)
    rw [write_of_ne hne] at hz
    exact hclosed y hy l z hz
  unfold insert at hins
  rw [descend_of_walk _ _ pre hg, descend_of_none_cons hnone] at hins
  cases hd : descend (write T g i f) pool f post with
  | mk o rest =>
    obtain ⟨T₁, pool₁⟩ := rest
    obtain ⟨hoff, hend⟩ := descend_within (S := fun y => y ∈ f :: pool) post List.mem_cons_self
      (fun y hy => List.mem_cons_of_mem f hy) hclosed' hd
    have hindex := descend_other_index post hj hd
    rw [hd] at hins
    cases o with
    | none =>
      obtain ⟨-, rfl, -⟩ : false = ok ∧ T₁ = T' ∧ pool₁ = pool' := by simpa using hins
      exact ⟨hoff, hindex⟩
    | some e =>
      obtain ⟨-, rfl, -⟩ : true = ok ∧ write T₁ e i' x = T' ∧ pool₁ = pool' := by simpa using hins
      constructor
      · intro y hy
        funext l
        have hne : ¬ (y = e ∧ l = i') := fun hc => hy (hc.1 ▸ hend e rfl)
        rw [write_of_ne hne, hoff y hy]
      · intro y
        rw [write_of_ne (fun hc => hj' hc.2), hindex y]

/-- **A table that is not blank shows.** The first table of the pool has an entry that leads back to it, and no
    entry of the pool leads out of it. Once the table is linked, every path that enters it and goes on through
    that entry is walkable. -/
theorem Forest.insert_exposes {f : F} (h : Forest depth root T (f :: pool)) {p : P} {r g x : F}
    {pre post : List I} {i i' j : I} (hp : root p = some r)
    (hlen : (pre ++ i :: post).length + 1 = depth) (hg : walk T r pre = some g) (hnone : T g i = none)
    (hloop : T f j = some f) (hclosed : ∀ y ∈ f :: pool, ∀ l z, T y l = some z → z ∈ f :: pool)
    (hj : j ∉ pre ++ i :: post) (hj' : j ≠ i') {ok : Bool} {T' : Tables F I} {pool' : List F}
    (hins : insert T (f :: pool) r (pre ++ i :: post) i' x = (ok, T', pool')) (n : ℕ) :
    walk T' r (pre ++ i :: List.replicate n j) = some f := by
  rw [List.length_append, List.length_cons] at hlen
  have hgoff : g ∉ f :: pool := h.off_pool hp (by omega) hg
  rw [List.mem_append, List.mem_cons, not_or, not_or] at hj
  obtain ⟨hoff, hindex⟩ := insert_within hg hnone hgoff hclosed hj.2.2 hj' hins
  -- the way to the table
  have hway : walk T' r pre = some g := by
    rw [← hg]
    refine walk_congr pre r fun k hk y hy => ?_
    have hyoff : y ∉ f :: pool := by
      apply h.off_pool hp _ hy
      rw [List.length_take]
      omega
    rw [hoff y hyoff, write_of_ne]
    rintro ⟨rfl, -⟩
    have hsame := (h.inj hp hp (by rw [List.length_take]; omega) (by omega) hy hg).2
    have hshort := congrArg List.length hsame
    rw [List.length_take] at hshort
    omega
  -- the entry that leads back
  have hentry : T' f j = some f := by
    have hne : ¬ (f = g ∧ j = i) := fun hc => hgoff (hc.1 ▸ List.mem_cons_self)
    rw [hindex f, write_of_ne hne]
    exact hloop
  rw [walk_append, hway, Option.bind_some, walk_cons, hoff g hgoff, write_self, Option.bind_some]
  exact walk_replicate hentry n

end Radix
