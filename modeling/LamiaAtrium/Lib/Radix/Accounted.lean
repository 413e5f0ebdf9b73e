import LamiaAtrium.Lib.Radix.Insert

/-!
# `Lib.Radix.Accounted` — which tables a tree has, and that none is lost

* `InTree`: the tables of one tree. `insert_inTree` says which ones an insertion adds.
* `Accounted`: the pool and the tables in use are all the tables that there are. `Accounted.insert` and
  `Accounted.plant` keep it so.
-/

namespace Radix

variable {P F I : Type*} [DecidableEq F] [DecidableEq I] {depth : ℕ} {root : P → Option F}
  {T : Tables F I} {pool : List F}

/-! ## Which tables a tree has -/

/-- The tree at `r` has table `y`. -/
def InTree (depth : ℕ) (T : Tables F I) (r y : F) : Prop := ∃ js, js.length < depth ∧ walk T r js = some y

/-- A table that is linked comes into its tree, and no tree changes otherwise. -/
theorem Forest.inTree_link {g : F} (h : Forest depth root T (g :: pool)) (hfresh : Fresh T (g :: pool)) {p q : P}
    {r r' f : F} {is : List I} {i : I} (hp : root p = some r) (hq : root q = some r') (his : is.length + 1 < depth)
    (hf : walk T r is = some f) (hnone : T f i = none) (y : F) :
    InTree depth (write T f i g) r' y ↔ InTree depth T r' y ∨ (q = p ∧ y = g) := by
  have hwalk := fun js hjs => h.walk_link hfresh hp hq (Nat.lt_of_succ_lt his) hf hnone js hjs
  constructor
  · rintro ⟨js, hjs, hy⟩
    rcases hwalk js hjs.le with ⟨hqp, -, hg⟩ | ⟨-, hsame⟩
    · exact .inr ⟨hqp, Option.some.inj (hy.symm.trans hg)⟩
    · exact .inl ⟨js, hjs, hsame.symm.trans hy⟩
  · rintro (⟨js, hjs, hy⟩ | ⟨rfl, rfl⟩)
    · rcases hwalk js hjs.le with ⟨rfl, rfl, -⟩ | ⟨-, hsame⟩
      · -- the entry was empty before
        obtain rfl := Option.some.inj (hp.symm.trans hq)
        rw [walk_concat, hf, Option.bind_some, hnone] at hy
        cases hy
      · exact ⟨js, hjs, hsame.trans hy⟩
    · obtain rfl := Option.some.inj (hp.symm.trans hq)
      refine ⟨is ++ [i], ?_, h.walk_linked hfresh hp (Nat.lt_of_succ_lt his) hf hnone⟩
      rw [List.length_append]
      exact his

/-- **A descent adds the tables that it takes** from the front of the pool. -/
theorem descend_inTree {p : P} {r : F} (hp : root p = some r) (is : List I) :
    ∀ {T : Tables F I} {pool : List F} {pre : List I} {f : F}, Forest depth root T pool → Fresh T pool →
      walk T r pre = some f → pre.length + is.length + 1 = depth →
      ∀ {o T' pool'}, descend T pool f is = (o, T', pool') → ∃ taken, pool = taken ++ pool' ∧
        ∀ {q r'}, root q = some r' → ∀ y, InTree depth T' r' y ↔ InTree depth T r' y ∨ (q = p ∧ y ∈ taken) := by
  have hnothing {T : Tables F I} {pool : List F} : ∃ taken, pool = taken ++ pool ∧ ∀ {q r'}, root q = some r' →
      ∀ y, InTree depth T r' y ↔ InTree depth T r' y ∨ (q = p ∧ y ∈ taken) :=
    ⟨[], rfl, fun _ y => ⟨.inl, fun hy => hy.resolve_right fun hc => absurd hc.2 List.not_mem_nil⟩⟩
  induction is with
  | nil =>
    intro T pool pre f _ _ _ _ o T' pool' hd
    obtain ⟨-, rfl, rfl⟩ : some f = o ∧ T = T' ∧ pool = pool' := by simpa [descend] using hd
    exact hnothing
  | cons i is ih =>
    intro T pool pre f h hfresh hf hlen o T' pool' hd
    rw [List.length_cons] at hlen
    have hlen' : (pre ++ [i]).length + is.length + 1 = depth := by
      rw [List.length_append, List.length_singleton]
      omega
    cases hT : T f i with
    | some g =>
      rw [descend_of_some hT] at hd
      have hg : walk T r (pre ++ [i]) = some g := by rw [walk_concat, hf, Option.bind_some, hT]
      exact ih h hfresh hg hlen' hd
    | none =>
      cases pool with
      | nil =>
        rw [descend_of_none_nil hT] at hd
        obtain ⟨-, rfl, rfl⟩ : none = o ∧ T = T' ∧ [] = pool' := by simpa using hd
        exact hnothing
      | cons g pool =>
        rw [descend_of_none_cons hT] at hd
        obtain ⟨h', hfresh'⟩ := h.link hfresh hp (by omega) hf hT
        obtain ⟨taken, rfl, htrees⟩ := ih h' hfresh' (h.walk_linked hfresh hp (by omega) hf hT) hlen' hd
        refine ⟨g :: taken, rfl, fun {q r'} hq y => ?_⟩
        rw [htrees hq y, h.inTree_link hfresh hp hq (by omega) hf hT y, List.mem_cons, or_assoc, ← and_or_left]

/-- **An insertion adds the tables that it takes**, whether it succeeds or not. -/
theorem insert_inTree (h : Forest depth root T pool) (hfresh : Fresh T pool) {p : P} {r x : F} {is : List I} {i : I}
    (hp : root p = some r) (hlen : is.length + 1 = depth) {ok : Bool} {T' : Tables F I} {pool' : List F}
    (hins : insert T pool r is i x = (ok, T', pool')) : ∃ taken, pool = taken ++ pool' ∧
      ∀ {q r'}, root q = some r' → ∀ y, InTree depth T' r' y ↔ InTree depth T r' y ∨ (q = p ∧ y ∈ taken) := by
  unfold insert at hins
  cases hd : descend T pool r is with
  | mk o rest =>
    obtain ⟨T₁, pool₁⟩ := rest
    have hlen' : ([] : List I).length + is.length + 1 = depth := by rwa [List.length_nil, Nat.zero_add]
    obtain ⟨taken, htaken, htrees⟩ := descend_inTree hp is h hfresh (walk_nil T r) hlen' hd
    obtain ⟨h₁, -, -, hend⟩ := descend_spec hp is h hfresh (walk_nil T r) hlen' hd
    rw [hd] at hins
    cases o with
    | none =>
      obtain ⟨-, rfl, rfl⟩ : false = ok ∧ T₁ = T' ∧ pool₁ = pool' := by simpa using hins
      exact ⟨taken, htaken, htrees⟩
    | some g =>
      obtain ⟨-, rfl, rfl⟩ : true = ok ∧ write T₁ g i x = T' ∧ pool₁ = pool' := by simpa using hins
      refine ⟨taken, htaken, fun {q r'} hq y => ?_⟩
      -- the leaf is below every table
      have hg : walk T₁ r is = some g := hend g rfl
      have hsame : ∀ js, js.length < depth → walk (write T₁ g i x) r' js = walk T₁ r' js := by
        intro js hjs
        rcases h₁.walk_write (x := x) (i := i) hp hq (by omega) hg (.inl hlen) js hjs.le with
          ⟨-, rfl, -⟩ | ⟨-, hsame⟩
        · rw [List.length_append, List.length_singleton] at hjs
          exact absurd hlen hjs.ne
        · exact hsame
      rw [← htrees hq y]
      constructor
      · rintro ⟨js, hjs, hy⟩
        exact ⟨js, hjs, (hsame js hjs).symm.trans hy⟩
      · rintro ⟨js, hjs, hy⟩
        exact ⟨js, hjs, (hsame js hjs).trans hy⟩

/-! ## Nothing is lost -/

/-- **The pool and the tables in use make up `frames`.** -/
structure Accounted (depth : ℕ) (root : P → Option F) (T : Tables F I) (pool frames : List F) : Prop where
  of_pool : ∀ f ∈ pool, f ∈ frames
  of_table : ∀ {p r is f}, root p = some r → is.length < depth → walk T r is = some f → f ∈ frames
  cover : ∀ f ∈ frames, f ∈ pool ∨ ∃ p r is, root p = some r ∧ is.length < depth ∧ walk T r is = some f

variable {frames : List F}

omit [DecidableEq F] [DecidableEq I] in
/-- It only looks at walks to tables. -/
theorem Accounted.congr (h : Accounted depth root T pool frames) {T' : Tables F I}
    (hsame : ∀ {p r is}, root p = some r → is.length < depth → walk T' r is = walk T r is) :
    Accounted depth root T' pool frames := by
  refine ⟨h.of_pool, ?_, ?_⟩
  · intro p r is f hp his hf
    rw [hsame hp his] at hf
    exact h.of_table hp his hf
  · intro f hf
    rcases h.cover f hf with hpool | ⟨p, r, is, hp, his, hwalk⟩
    · exact .inl hpool
    · exact .inr ⟨p, r, is, hp, his, (hsame hp his).trans hwalk⟩

/-- A table that is linked leaves the pool and comes into use. -/
theorem Accounted.link {g : F} (h : Accounted depth root T (g :: pool) frames)
    (hforest : Forest depth root T (g :: pool)) (hfresh : Fresh T (g :: pool)) {p : P} {r f : F} {is : List I} {i : I}
    (hp : root p = some r) (his : is.length + 1 < depth) (hf : walk T r is = some f) (hnone : T f i = none) :
    Accounted depth root (write T f i g) pool frames := by
  refine ⟨fun x hx => h.of_pool x (List.mem_cons_of_mem g hx), ?_, ?_⟩
  · intro q r' js x hq hjs hx
    rcases hforest.walk_link hfresh hp hq (by omega) hf hnone js hjs.le with ⟨-, -, hg⟩ | ⟨-, hsame⟩
    · obtain rfl := Option.some.inj (hg.symm.trans hx)
      exact h.of_pool g List.mem_cons_self
    · rw [hsame] at hx
      exact h.of_table hq hjs hx
  · intro x hx
    rcases h.cover x hx with hpool | ⟨q, r', js, hq, hjs, hwalk⟩
    · rcases List.mem_cons.mp hpool with rfl | hrest
      · refine .inr ⟨p, r, is ++ [i], hp, ?_, hforest.walk_linked hfresh hp (by omega) hf hnone⟩
        rw [List.length_append, List.length_singleton]
        exact his
      · exact .inl hrest
    · refine .inr ⟨q, r', js, hq, hjs, ?_⟩
      rcases hforest.walk_link hfresh hp hq (by omega) hf hnone js hjs.le with ⟨rfl, rfl, -⟩ | ⟨-, hsame⟩
      · -- the entry was empty before
        obtain rfl := Option.some.inj (hp.symm.trans hq)
        rw [walk_concat, hf, Option.bind_some, hnone] at hwalk
        cases hwalk
      · exact hsame.trans hwalk

theorem Accounted.descend {p : P} {r : F} (hp : root p = some r) (is : List I) :
    ∀ {T : Tables F I} {pool : List F} {pre : List I} {f : F}, Accounted depth root T pool frames →
      Forest depth root T pool → Fresh T pool → walk T r pre = some f → pre.length + is.length + 1 = depth →
      ∀ {o T' pool'}, Radix.descend T pool f is = (o, T', pool') → Accounted depth root T' pool' frames := by
  induction is with
  | nil =>
    intro T pool pre f h _ _ _ _ o T' pool' hd
    obtain ⟨-, rfl, rfl⟩ : some f = o ∧ T = T' ∧ pool = pool' := by simpa [Radix.descend] using hd
    exact h
  | cons i is ih =>
    intro T pool pre f h hforest hfresh hf hlen o T' pool' hd
    rw [List.length_cons] at hlen
    have hlen' : (pre ++ [i]).length + is.length + 1 = depth := by
      rw [List.length_append, List.length_singleton]
      omega
    cases hT : T f i with
    | some g =>
      rw [descend_of_some hT] at hd
      have hg : walk T r (pre ++ [i]) = some g := by rw [walk_concat, hf, Option.bind_some, hT]
      exact ih h hforest hfresh hg hlen' hd
    | none =>
      cases pool with
      | nil =>
        rw [descend_of_none_nil hT] at hd
        obtain ⟨-, rfl, rfl⟩ : none = o ∧ T = T' ∧ [] = pool' := by simpa using hd
        exact h
      | cons g pool =>
        rw [descend_of_none_cons hT] at hd
        obtain ⟨hforest', hfresh'⟩ := hforest.link hfresh hp (by omega) hf hT
        exact ih (h.link hforest hfresh hp (by omega) hf hT) hforest' hfresh'
          (hforest.walk_linked hfresh hp (by omega) hf hT) hlen' hd

/-- **An insertion loses no table**, whether it succeeds or not. -/
theorem Accounted.insert (h : Accounted depth root T pool frames) (hforest : Forest depth root T pool)
    (hfresh : Fresh T pool) {p : P} {r x : F} {is : List I} {i : I} (hp : root p = some r)
    (hlen : is.length + 1 = depth) {ok : Bool} {T' : Tables F I} {pool' : List F}
    (hins : Radix.insert T pool r is i x = (ok, T', pool')) : Accounted depth root T' pool' frames := by
  unfold Radix.insert at hins
  cases hd : Radix.descend T pool r is with
  | mk o rest =>
    obtain ⟨T₁, pool₁⟩ := rest
    have hlen' : ([] : List I).length + is.length + 1 = depth := by rwa [List.length_nil, Nat.zero_add]
    have h₁ := h.descend hp is hforest hfresh (walk_nil T r) hlen' hd
    obtain ⟨hforest₁, -, -, hend⟩ := descend_spec hp is hforest hfresh (walk_nil T r) hlen' hd
    rw [hd] at hins
    cases o with
    | none =>
      obtain ⟨-, rfl, rfl⟩ : false = ok ∧ T₁ = T' ∧ pool₁ = pool' := by simpa using hins
      exact h₁
    | some g =>
      obtain ⟨-, rfl, rfl⟩ : true = ok ∧ write T₁ g i x = T' ∧ pool₁ = pool' := by simpa using hins
      have hg : walk T₁ r is = some g := hend g rfl
      -- the leaf is below every table
      refine h₁.congr fun {q r' js} hq hjs => ?_
      rcases hforest₁.walk_write (x := x) (i := i) hp hq (by omega) hg (.inl hlen) js hjs.le with
        ⟨-, rfl, -⟩ | ⟨-, hsame⟩
      · rw [List.length_append, List.length_singleton] at hjs
        exact absurd hlen hjs.ne
      · exact hsame

omit [DecidableEq F] [DecidableEq I] in
/-- **A new tree loses no table**, when there was none of its name. -/
theorem Accounted.plant [DecidableEq P] {g : F} (h : Accounted depth root T (g :: pool) frames)
    (hforest : Forest depth root T (g :: pool)) {T' : Tables F I} (hclear : ∀ i, T' g i = none)
    (hsame : ∀ f, f ≠ g → T' f = T f) {p : P} (hnew : root p = none) (hdepth : 0 < depth) :
    Accounted depth (Function.update root p (some g)) T' pool frames := by
  obtain ⟨-, hold⟩ := hforest.plant hclear hsame p
  refine ⟨fun x hx => h.of_pool x (List.mem_cons_of_mem g hx), ?_, ?_⟩
  · intro q r js f hq hjs hf
    by_cases hqp : q = p
    · subst hqp
      rw [Function.update_self] at hq
      obtain rfl := Option.some.inj hq
      by_cases hnil : js = []
      · subst hnil
        obtain rfl := Option.some.inj hf
        exact h.of_pool g List.mem_cons_self
      · rw [walk_empty hclear hnil] at hf
        cases hf
    · rw [Function.update_of_ne hqp] at hq
      rw [hold hq hjs.le] at hf
      exact h.of_table hq hjs hf
  · intro f hf
    rcases h.cover f hf with hpool | ⟨q, r, js, hq, hjs, hwalk⟩
    · rcases List.mem_cons.mp hpool with rfl | hrest
      · exact .inr ⟨p, f, [], Function.update_self .., hdepth, rfl⟩
      · exact .inl hrest
    · refine .inr ⟨q, r, js, ?_, hjs, (hold hq hjs.le).trans hwalk⟩
      rw [Function.update_of_ne]
      · exact hq
      · rintro rfl
        rw [hnew] at hq
        cases hq

end Radix
