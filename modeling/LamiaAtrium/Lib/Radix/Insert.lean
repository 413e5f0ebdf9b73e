import LamiaAtrium.Lib.Radix.Forest

/-!
# `Lib.Radix.Insert` — setting a leaf

* `insert` descends along a path, takes the missing tables from the pool, and sets the leaf.
* `insert_spec` is its meaning when the tables of the pool are empty: the leaf map changes at that leaf of that tree
  and nowhere else, and not at all when the pool runs out on the way.
* `missing` counts the tables that are not there; `descend_eq_none_iff` and `insert_length` say by that when the pool
  runs out, and what is left of it.
-/

namespace Radix

variable {P F I : Type*} [DecidableEq F] [DecidableEq I] {depth : ℕ} {root : P → Option F}
  {T : Tables F I} {pool : List F}

/-- The table at the end of a path, with the missing tables taken from the pool; nothing when the pool runs
    out. -/
def descend : Tables F I → List F → F → List I → Option F × Tables F I × List F
  | T, pool, f, []      => (some f, T, pool)
  | T, pool, f, i :: is =>
    match T f i with
    | some g => descend T pool g is
    | none =>
      match pool with
      | []        => (none, T, [])
      | g :: pool => descend (write T f i g) pool g is

theorem descend_of_some {f g : F} {i : I} (h : T f i = some g) (pool : List F) (is : List I) :
    descend T pool f (i :: is) = descend T pool g is := by
  simp only [descend, h]

theorem descend_of_none_nil {f : F} {i : I} (h : T f i = none) (is : List I) :
    descend T [] f (i :: is) = (none, T, []) := by
  simp only [descend, h]

theorem descend_of_none_cons {f : F} {i : I} (h : T f i = none) (g : F) (pool : List F) (is : List I) :
    descend T (g :: pool) f (i :: is) = descend (write T f i g) pool g is := by
  simp only [descend, h]

/-- Set the leaf at `is ++ [i]` of the tree at `r`. -/
def insert (T : Tables F I) (pool : List F) (r : F) (is : List I) (i : I) (x : F) :
    Bool × Tables F I × List F :=
  match descend T pool r is with
  | (some g, T, pool) => (true, write T g i x, pool)
  | (none, T, pool)   => (false, T, pool)

/-- **What linking a table from the pool does to every walk**: entry `i` of the table at path `is` of tree `p`
    leads to it now, and nothing else changes. -/
theorem Forest.walk_link {g : F} (h : Forest depth root T (g :: pool)) (hfresh : Fresh T (g :: pool)) {p q : P}
    {r r' f : F} {is : List I} {i : I} (hp : root p = some r) (hq : root q = some r') (his : is.length < depth)
    (hf : walk T r is = some f) (hnone : T f i = none) (js : List I) (hjs : js.length ≤ depth) :
    (q = p ∧ js = is ++ [i] ∧ walk (write T f i g) r' js = some g) ∨
      (¬ (q = p ∧ js = is ++ [i]) ∧ walk (write T f i g) r' js = walk T r' js) := by
  apply h.walk_write hp hq his hf _ js hjs
  refine .inr ⟨hnone, ?_, hfresh g List.mem_cons_self⟩
  rintro rfl
  exact h.off_pool hp his hf List.mem_cons_self

theorem Forest.walk_linked {g : F} (h : Forest depth root T (g :: pool)) (hfresh : Fresh T (g :: pool)) {p : P}
    {r f : F} {is : List I} {i : I} (hp : root p = some r) (his : is.length < depth) (hf : walk T r is = some f)
    (hnone : T f i = none) : walk (write T f i g) r (is ++ [i]) = some g := by
  have hlen : (is ++ [i]).length ≤ depth := by
    rw [List.length_append]
    exact his
  rcases h.walk_link hfresh hp hp his hf hnone (is ++ [i]) hlen with ⟨-, -, hg⟩ | ⟨hnot, -⟩
  · exact hg
  · exact absurd ⟨rfl, rfl⟩ hnot

/-- Taking a table from the pool and linking it keeps the discipline. -/
theorem Forest.link {g : F} (h : Forest depth root T (g :: pool)) (hfresh : Fresh T (g :: pool)) {p : P}
    {r f : F} {is : List I} {i : I} (hp : root p = some r) (his : is.length + 1 < depth)
    (hf : walk T r is = some f) (hnone : T f i = none) :
    Forest depth root (write T f i g) pool ∧ Fresh (write T f i g) pool := by
  have hfg : f ∉ g :: pool := h.off_pool hp (by omega) hf
  have hnodup := List.nodup_cons.mp h.nodup
  have hwalk : ∀ {q r' js}, root q = some r' → js.length < depth →
      (q = p ∧ js = is ++ [i] ∧ walk (write T f i g) r' js = some g) ∨
        (¬ (q = p ∧ js = is ++ [i]) ∧ walk (write T f i g) r' js = walk T r' js) := by
    intro q r' js hq hjs
    exact h.walk_link hfresh hp hq (by omega) hf hnone js hjs.le
  refine ⟨⟨?_, ?_, hnodup.2⟩, ?_⟩
  · intro q q' s s' js js' x hq hq' hjs hjs' hx hx'
    rcases hwalk hq hjs with ⟨rfl, rfl, hg⟩ | ⟨-, hsame⟩ <;>
      rcases hwalk hq' hjs' with ⟨rfl, rfl, hg'⟩ | ⟨-, hsame'⟩
    · exact ⟨rfl, rfl⟩
    · -- the new table is off every old walk
      obtain rfl := Option.some.inj (hg.symm.trans hx)
      rw [hsame'] at hx'
      exact absurd List.mem_cons_self (h.off_pool hq' hjs' hx')
    · obtain rfl := Option.some.inj (hg'.symm.trans hx')
      rw [hsame] at hx
      exact absurd List.mem_cons_self (h.off_pool hq hjs hx)
    · rw [hsame] at hx
      rw [hsame'] at hx'
      exact h.inj hq hq' hjs hjs' hx hx'
  · intro q s js x hq hjs hx
    rcases hwalk hq hjs with ⟨rfl, rfl, hg⟩ | ⟨-, hsame⟩
    · obtain rfl := Option.some.inj (hg.symm.trans hx)
      exact hnodup.1
    · rw [hsame] at hx
      exact fun hmem => h.off_pool hq hjs hx (List.mem_cons_of_mem g hmem)
  · intro x hx j
    rw [write_of_ne]
    · exact hfresh x (List.mem_cons_of_mem g hx) j
    · rintro ⟨rfl, -⟩
      exact hfg (List.mem_cons_of_mem g hx)

/-- Setting a leaf keeps the discipline. -/
theorem Forest.setLeaf (h : Forest depth root T pool) (hfresh : Fresh T pool) {p : P} {r f x : F}
    {is : List I} {i : I} (hp : root p = some r) (his : is.length + 1 = depth) (hf : walk T r is = some f) :
    Forest depth root (write T f i x) pool ∧ Fresh (write T f i x) pool := by
  have hfp : f ∉ pool := h.off_pool hp (by omega) hf
  have hwalk : ∀ {q r' js}, root q = some r' → js.length < depth →
      walk (write T f i x) r' js = walk T r' js := by
    intro q r' js hq hjs
    rcases h.walk_write (x := x) (i := i) hp hq (by omega) hf (.inl his) js hjs.le with
      ⟨-, hjs', -⟩ | ⟨-, hsame⟩
    · rw [hjs', List.length_append, List.length_singleton] at hjs
      omega
    · exact hsame
  refine ⟨⟨?_, ?_, h.nodup⟩, ?_⟩
  · intro q q' s s' js js' y hq hq' hjs hjs' hy hy'
    rw [hwalk hq hjs] at hy
    rw [hwalk hq' hjs'] at hy'
    exact h.inj hq hq' hjs hjs' hy hy'
  · intro q s js y hq hjs hy
    rw [hwalk hq hjs] at hy
    exact h.off_pool hq hjs hy
  · intro y hy j
    rw [write_of_ne]
    · exact hfresh y hy j
    · rintro ⟨rfl, -⟩
      exact hfp hy

/-- **What a descent does**: the discipline stays, no walk changes but those to the tables on its path, and when
    it succeeds it ends at the table of its path. -/
theorem descend_spec {p : P} {r : F} (hp : root p = some r) :
    ∀ (is : List I) {T : Tables F I} {pool : List F} {pre : List I} {f : F},
      Forest depth root T pool → Fresh T pool → walk T r pre = some f →
      pre.length + is.length + 1 = depth →
      ∀ {o T' pool'}, descend T pool f is = (o, T', pool') →
        Forest depth root T' pool' ∧ Fresh T' pool' ∧
          (∀ {q r' js}, root q = some r' → js.length ≤ depth → ¬ (q = p ∧ js <+: pre ++ is) →
            walk T' r' js = walk T r' js) ∧
          ∀ g, o = some g → walk T' r (pre ++ is) = some g := by
  intro is
  induction is with
  | nil =>
    intro T pool pre f h hfresh hf hlen o T' pool' hd
    obtain ⟨rfl, rfl, rfl⟩ : some f = o ∧ T = T' ∧ pool = pool' := by simpa [descend] using hd
    refine ⟨h, hfresh, fun _ _ _ => rfl, ?_⟩
    rintro g hg
    rw [List.append_nil, hf, hg]
  | cons i is ih =>
    intro T pool pre f h hfresh hf hlen o T' pool' hd
    rw [List.length_cons] at hlen
    cases hT : T f i with
    | some g =>
      -- the next table exists
      rw [descend_of_some hT] at hd
      have hg : walk T r (pre ++ [i]) = some g := by rw [walk_concat, hf, Option.bind_some, hT]
      have := ih h hfresh hg (by simp; omega) hd
      rwa [List.append_assoc, List.singleton_append] at this
    | none =>
      cases pool with
      | nil =>
        -- the pool has run out
        rw [descend_of_none_nil hT] at hd
        obtain ⟨rfl, rfl, rfl⟩ : none = o ∧ T = T' ∧ [] = pool' := by simpa using hd
        exact ⟨h, hfresh, fun _ _ _ => rfl, fun g hg => absurd hg (by simp)⟩
      | cons g pool =>
        -- a new table is linked
        rw [descend_of_none_cons hT] at hd
        obtain ⟨h', hfresh'⟩ := h.link hfresh hp (by omega) hf hT
        have hg := h.walk_linked hfresh hp (by omega) hf hT
        obtain ⟨hF, hFr, hleaf, hend⟩ := ih h' hfresh' hg (by simp; omega) hd
        refine ⟨hF, hFr, ?_, ?_⟩
        · intro q r' js hq hjs hnot
          have hsplit : pre ++ i :: is = (pre ++ [i]) ++ is := by rw [List.append_assoc, List.singleton_append]
          rw [hsplit] at hnot
          rw [hleaf hq hjs hnot]
          rcases h.walk_link hfresh hp hq (by omega) hf hT js hjs with ⟨rfl, rfl, -⟩ | ⟨-, hsame⟩
          · exact absurd ⟨rfl, List.prefix_append _ _⟩ hnot
          · exact hsame
        · intro x hx
          have := hend x hx
          rwa [List.append_assoc, List.singleton_append] at this

/-- **What an insertion does**: the discipline stays; when it succeeds, the leaf at its path is set and every
    other leaf of every tree is as before; when the pool runs out, every leaf is as before. -/
theorem insert_spec [DecidableEq P] (h : Forest depth root T pool) (hfresh : Fresh T pool) {p : P} {r x : F}
    {is : List I} {i : I} (hp : root p = some r) (hlen : is.length + 1 = depth) {ok : Bool} {T' : Tables F I}
    {pool' : List F} (hins : insert T pool r is i x = (ok, T', pool')) :
    Forest depth root T' pool' ∧ Fresh T' pool' ∧
      ∀ {q r' js}, root q = some r' → js.length = depth →
        walk T' r' js = if ok = true ∧ q = p ∧ js = is ++ [i] then some x else walk T r' js := by
  unfold insert at hins
  cases hd : descend T pool r is with
  | mk o rest =>
    obtain ⟨T₁, pool₁⟩ := rest
    obtain ⟨h₁, hfresh₁, hleaf, hend⟩ := descend_spec hp is h hfresh (walk_nil T r) (by simpa using hlen) hd
    -- a leaf is not on the path of tables
    have hlong : ∀ {q : P} {js : List I}, js.length = depth → ¬ (q = p ∧ js <+: [] ++ is) := by
      rintro q js hjs ⟨-, hpre⟩
      have hle := hpre.length_le
      rw [List.nil_append] at hle
      omega
    rw [hd] at hins
    cases o with
    | none =>
      obtain ⟨rfl, rfl, rfl⟩ : false = ok ∧ T₁ = T' ∧ pool₁ = pool' := by simpa using hins
      refine ⟨h₁, hfresh₁, fun hq hjs => ?_⟩
      rw [hleaf hq hjs.le (hlong hjs), if_neg (by simp)]
    | some g =>
      obtain ⟨rfl, rfl, rfl⟩ : true = ok ∧ write T₁ g i x = T' ∧ pool₁ = pool' := by simpa using hins
      have hg : walk T₁ r is = some g := hend g rfl
      obtain ⟨h₂, hfresh₂⟩ := h₁.setLeaf (x := x) (i := i) hfresh₁ hp hlen hg
      refine ⟨h₂, hfresh₂, fun {q r' js} hq hjs => ?_⟩
      rcases h₁.walk_write (x := x) (i := i) hp hq (by omega) hg (.inl hlen) js hjs.le with
        ⟨rfl, rfl, hx⟩ | ⟨hnot, hsame⟩
      · rw [hx, if_pos ⟨rfl, rfl, rfl⟩]
      · rw [hsame, hleaf hq hjs.le (hlong hjs), if_neg (fun hc => hnot hc.2)]

/-! ## How many tables it takes -/

/-- The number of tables that a descent from `f` along a path has to take from the pool. -/
def missing (T : Tables F I) : F → List I → ℕ
  | _, []      => 0
  | f, i :: is =>
    match T f i with
    | some g => missing T g is
    | none   => is.length + 1

omit [DecidableEq F] [DecidableEq I] in
theorem missing_of_empty {f : F} (h : ∀ i, T f i = none) (is : List I) : missing T f is = is.length := by
  cases is with
  | nil => rfl
  | cons i is => simp only [missing, h i, List.length_cons]

omit [DecidableEq F] [DecidableEq I] in
theorem missing_le (T : Tables F I) (is : List I) : ∀ f, missing T f is ≤ is.length := by
  induction is with
  | nil =>
    intro f
    exact Nat.le_refl 0
  | cons i is ih =>
    intro f
    cases hT : T f i with
    | some g =>
      simp only [missing, hT, List.length_cons]
      exact (ih g).trans (Nat.le_succ _)
    | none => simp only [missing, hT, List.length_cons, Nat.le_refl]

omit [DecidableEq F] [DecidableEq I] in
/-- What is missing is determined by the entries that the walk passes. -/
theorem missing_congr {T T' : Tables F I} (is : List I) :
    ∀ f, (∀ n (hn : n < is.length), ∀ g, walk T f (is.take n) = some g → T' g is[n] = T g is[n]) →
      missing T' f is = missing T f is := by
  induction is with
  | nil =>
    intro f _
    rfl
  | cons i is ih =>
    intro f hsame
    have hfirst : T' f i = T f i := hsame 0 (by simp) f rfl
    cases hT : T f i with
    | none => simp only [missing, hfirst, hT]
    | some g =>
      simp only [missing, hfirst, hT]
      refine ih g fun n hn x hwalk => ?_
      have hnext := hsame (n + 1) (by simpa using hn) x
      rw [List.take_succ_cons, walk_cons, hT] at hnext
      exact hnext hwalk

omit [DecidableEq F] [DecidableEq I] in
/-- Where a descent leaves the tables that are there. -/
theorem exists_missing_entry {T : Tables F I} (is : List I) :
    ∀ f, missing T f is ≠ 0 →
      ∃ pre i post g, is = pre ++ i :: post ∧ walk T f pre = some g ∧ T g i = none := by
  induction is with
  | nil =>
    intro f hmiss
    exact absurd rfl hmiss
  | cons i is ih =>
    intro f hmiss
    cases hT : T f i with
    | none => exact ⟨[], i, is, f, rfl, rfl, hT⟩
    | some g =>
      simp only [missing, hT] at hmiss
      obtain ⟨pre, j, post, x, hsplit, hwalk, hx⟩ := ih g hmiss
      refine ⟨i :: pre, j, post, x, by rw [hsplit, List.cons_append], ?_, hx⟩
      rw [walk_cons, hT]
      exact hwalk

/-- **How many tables a descent takes**: what is missing, unless the pool is too short for that. -/
theorem descend_length {p : P} {r : F} (hp : root p = some r) :
    ∀ (is : List I) {T : Tables F I} {pool : List F} {pre : List I} {f : F},
      Forest depth root T pool → Fresh T pool → walk T r pre = some f →
      pre.length + is.length + 1 = depth →
      ∀ {o T' pool'}, descend T pool f is = (o, T', pool') →
        (o = none → pool.length < missing T f is) ∧
          ∀ g, o = some g → pool'.length + missing T f is = pool.length := by
  intro is
  induction is with
  | nil =>
    intro T pool pre f _ _ _ _ o T' pool' hd
    obtain ⟨rfl, -, rfl⟩ : some f = o ∧ T = T' ∧ pool = pool' := by simpa [descend] using hd
    exact ⟨fun hnone => absurd hnone (by simp), fun _ _ => rfl⟩
  | cons i is ih =>
    intro T pool pre f h hfresh hf hlen o T' pool' hd
    rw [List.length_cons] at hlen
    cases hT : T f i with
    | some g =>
      have hg : walk T r (pre ++ [i]) = some g := by rw [walk_concat, hf, Option.bind_some, hT]
      rw [descend_of_some hT] at hd
      simp only [missing, hT]
      exact ih h hfresh hg (by simp; omega) hd
    | none =>
      cases pool with
      | nil =>
        rw [descend_of_none_nil hT] at hd
        obtain ⟨rfl, -, -⟩ : none = o ∧ T = T' ∧ [] = pool' := by simpa using hd
        simp only [missing, hT]
        exact ⟨fun _ => Nat.succ_pos _, fun g hg => absurd hg (by simp)⟩
      | cons g pool =>
        -- the new table is empty, so everything below it is missing
        obtain ⟨h', hfresh'⟩ := h.link hfresh hp (by omega) hf hT
        have hempty : ∀ j, write T f i g g j = none := by
          intro j
          rw [write_of_ne]
          · exact hfresh g List.mem_cons_self j
          · rintro ⟨rfl, -⟩
            exact h.off_pool hp (by omega) hf List.mem_cons_self
        have hlinked := h.walk_linked hfresh hp (by omega) hf hT
        rw [descend_of_none_cons hT] at hd
        obtain ⟨hnone, hsome⟩ := ih h' hfresh' hlinked (by simp; omega) hd
        rw [missing_of_empty hempty] at hnone hsome
        simp only [missing, hT, List.length_cons]
        refine ⟨fun ho => Nat.succ_lt_succ (hnone ho), fun x hx => ?_⟩
        rw [← hsome x hx, Nat.add_assoc]

/-- **A descent fails exactly when the pool is too short for it.** -/
theorem descend_eq_none_iff {p : P} {r : F} (hp : root p = some r) (is : List I) {pre : List I} {f : F}
    (h : Forest depth root T pool) (hfresh : Fresh T pool) (hf : walk T r pre = some f)
    (hlen : pre.length + is.length + 1 = depth) :
    (descend T pool f is).1 = none ↔ pool.length < missing T f is := by
  cases hd : descend T pool f is with
  | mk o rest =>
    obtain ⟨hnone, hsome⟩ := descend_length hp is h hfresh hf hlen hd
    cases o with
    | none => exact ⟨fun _ => hnone rfl, fun _ => rfl⟩
    | some g =>
      have hsum := hsome g rfl
      constructor
      · intro h
        cases h
      · intro h
        omega

/-- **How many tables an insertion takes.** -/
theorem insert_length (h : Forest depth root T pool) (hfresh : Fresh T pool) {p : P} {r x : F} {is : List I}
    {i : I} (hp : root p = some r) (hlen : is.length + 1 = depth) {ok : Bool} {T' : Tables F I}
    {pool' : List F} (hins : insert T pool r is i x = (ok, T', pool')) :
    (ok = false → pool.length < missing T r is) ∧ (ok = true → pool'.length + missing T r is = pool.length) := by
  unfold insert at hins
  cases hd : descend T pool r is with
  | mk o rest =>
    obtain ⟨T₁, pool₁⟩ := rest
    obtain ⟨hnone, hsome⟩ := descend_length hp is h hfresh (walk_nil T r) (by simpa using hlen) hd
    rw [hd] at hins
    cases o with
    | none =>
      obtain ⟨rfl, -, -⟩ : false = ok ∧ T₁ = T' ∧ pool₁ = pool' := by simpa using hins
      exact ⟨fun _ => hnone rfl, fun hok => absurd hok Bool.false_ne_true⟩
    | some g =>
      obtain ⟨rfl, -, rfl⟩ : true = ok ∧ write T₁ g i x = T' ∧ pool₁ = pool' := by simpa using hins
      exact ⟨fun hok => absurd hok.symm Bool.false_ne_true, fun _ => hsome g rfl⟩

end Radix
