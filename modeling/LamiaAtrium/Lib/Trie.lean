import LamiaAtrium.Lib.Radix.Insert

/-!
# `Lib.Trie` — trees of tables as sets of paths

Nothing here mentions the operating system. `Trees` is what is left of a forest of tables when the tables have no names:
which paths there are, and how many tables the pool still has. Its operations are computable.

* `descend_nodes`: what a descent adds to the paths, also when the pool runs out on the way.
* `Shows` connects a forest to its `Trees`. `Shows.insert` and `Shows.plant`: the operations agree.
* `Trees.account_insert`, `Trees.account_plant`: no table is lost. `Trees.Tight`: no table is there for nothing.
-/

namespace Radix

variable {P F I : Type*} [DecidableEq P] [DecidableEq F] [DecidableEq I]

/-- The beginnings of `pre ++ is` that are longer than `pre`, the shortest first. -/
def stages (pre : List I) : List I → List (List I)
  | []      => []
  | i :: is => (pre ++ [i]) :: stages (pre ++ [i]) is

omit [DecidableEq I] in
theorem mem_stages {js : List I} (is : List I) : ∀ {pre : List I},
    js ∈ stages pre is ↔ pre <+: js ∧ js <+: pre ++ is ∧ pre.length < js.length := by
  induction is with
  | nil =>
    intro pre
    simp only [stages, List.not_mem_nil, List.append_nil, false_iff, not_and]
    intro _ hpre
    exact not_lt.mpr hpre.length_le
  | cons i is ih =>
    intro pre
    have hsplit : pre ++ i :: is = (pre ++ [i]) ++ is := by rw [List.append_assoc, List.singleton_append]
    rw [stages, List.mem_cons, ih, hsplit]
    constructor
    · rintro (rfl | ⟨hpre, hjs, hlen⟩)
      · exact ⟨List.prefix_append _ _, List.prefix_append _ _, by simp⟩
      · refine ⟨(List.prefix_append _ _).trans hpre, hjs, ?_⟩
        rw [List.length_append] at hlen
        omega
    · rintro ⟨hpre, hjs, hlen⟩
      have hnext : pre ++ [i] <+: js := by
        refine List.prefix_of_prefix_length_le (List.prefix_append _ _) hjs ?_
        rw [List.length_append]
        exact hlen
      by_cases hsame : js = pre ++ [i]
      · exact .inl hsame
      · refine .inr ⟨hnext, hjs, lt_of_le_of_ne hnext.length_le fun hc => ?_⟩
        exact hsame (hnext.eq_of_length hc).symm

omit [DecidableEq I] in
theorem nodup_stages (is : List I) : ∀ pre : List I, (stages pre is).Nodup := by
  induction is with
  | nil =>
    intro pre
    exact List.nodup_nil
  | cons i is ih =>
    intro pre
    refine List.nodup_cons.mpr ⟨fun hmem => ?_, ih _⟩
    exact lt_irrefl _ ((mem_stages is).mp hmem).2.2

/-! ## What a descent adds -/

section

variable {depth : ℕ} {root : P → Option F} {T : Tables F I} {pool : List F}

/-- The tables that a path below `pre` lacks. -/
def lackingStages (T : Tables F I) (r : F) (pre is : List I) : List (List I) :=
  (stages pre is).filter fun js => (walk T r js).isNone

omit [DecidableEq P] in
/-- **A descent adds the tables that its path lacks**, as many of them as the pool has. -/
theorem descend_nodes {p : P} {r : F} (hp : root p = some r) :
    ∀ (is : List I) {T : Tables F I} {pool : List F} {pre : List I} {f : F},
      Forest depth root T pool → Fresh T pool → walk T r pre = some f → pre.length + is.length + 1 = depth →
      ∀ {o T' pool'}, descend T pool f is = (o, T', pool') →
        (o.isSome ↔ (lackingStages T r pre is).length ≤ pool.length) ∧
          pool'.length = pool.length - (lackingStages T r pre is).length ∧
          ∀ {q r' js}, root q = some r' → js.length ≤ depth →
            ((walk T' r' js).isSome ↔
              (walk T r' js).isSome ∨ q = p ∧ js ∈ (lackingStages T r pre is).take pool.length) := by
  intro is
  induction is with
  | nil =>
    intro T pool pre f _ _ _ _ o T' pool' hd
    obtain ⟨rfl, rfl, rfl⟩ : some f = o ∧ T = T' ∧ pool = pool' := by simpa [descend] using hd
    simp [lackingStages, stages]
  | cons i is ih =>
    intro T pool pre f h hfresh hf hlen o T' pool' hd
    rw [List.length_cons] at hlen
    have hstep : walk T r (pre ++ [i]) = T f i := by rw [walk_concat, hf, Option.bind_some]
    cases hT : T f i with
    | some g =>
      -- the next table exists
      rw [descend_of_some hT] at hd
      have hlack : lackingStages T r pre (i :: is) = lackingStages T r (pre ++ [i]) is := by
        rw [lackingStages, stages, List.filter_cons_of_neg (by simp [hstep, hT]), lackingStages]
      rw [hlack]
      exact ih h hfresh (hstep.trans hT) (by simp; omega) hd
    | none =>
      have hlack : lackingStages T r pre (i :: is) = (pre ++ [i]) :: lackingStages T r (pre ++ [i]) is := by
        rw [lackingStages, stages, List.filter_cons_of_pos (by simp [hstep, hT]), lackingStages]
      rw [hlack]
      cases pool with
      | nil =>
        -- the pool has run out
        rw [descend_of_none_nil hT] at hd
        obtain ⟨rfl, rfl, rfl⟩ : none = o ∧ T = T' ∧ [] = pool' := by simpa using hd
        simp
      | cons g pool =>
        -- a new table is linked, and the longer beginnings are as before
        rw [descend_of_none_cons hT] at hd
        obtain ⟨h', hfresh'⟩ := h.link hfresh hp (by omega) hf hT
        have hlinked := h.walk_linked hfresh hp (by omega) hf hT
        have hsame : lackingStages (write T f i g) r (pre ++ [i]) is = lackingStages T r (pre ++ [i]) is := by
          refine List.filter_congr fun js hjs => ?_
          obtain ⟨-, hbelow, hlonger⟩ := (mem_stages is).mp hjs
          have hle := hbelow.length_le
          rw [List.length_append, List.length_append, List.length_singleton] at hle
          rcases h.walk_link hfresh hp hp (by omega) hf hT js (by omega) with ⟨-, rfl, -⟩ | ⟨-, hwalk⟩
          · exact absurd hlonger (lt_irrefl _)
          · rw [hwalk]
        obtain ⟨hsome, hlength, hnodes⟩ := ih h' hfresh' hlinked (by simp; omega) hd
        rw [hsame] at hsome hlength hnodes
        refine ⟨?_, ?_, ?_⟩
        · rw [hsome, List.length_cons, List.length_cons, Nat.succ_le_succ_iff]
        · rw [hlength, List.length_cons, List.length_cons, Nat.succ_sub_succ]
        · intro q r' js hq hjs
          rw [hnodes hq hjs, List.length_cons, List.take_succ_cons, List.mem_cons]
          rcases h.walk_link hfresh hp hq (by omega) hf hT js hjs with ⟨rfl, rfl, hg⟩ | ⟨hnot, hwalk⟩
          · simp [hg]
          · rw [hwalk]
            constructor
            · rintro (hold | ⟨rfl, hnew⟩)
              · exact .inl hold
              · exact .inr ⟨rfl, .inr hnew⟩
            · rintro (hold | ⟨rfl, rfl | hnew⟩)
              · exact .inl hold
              · exact absurd ⟨rfl, rfl⟩ hnot
              · exact .inr ⟨rfl, hnew⟩

end

/-! ## Trees without names -/

/-- The paths to tables and leaves, with the tree that each belongs to, and how many tables the pool has. -/
structure Trees (P I : Type*) where
  nodes : Finset (P × List I)
  free : ℕ

namespace Trees

variable {depth : ℕ} {a : Trees P I} {p : P} {is : List I} {i : I}

/-- The tables that are missing on the way, the shortest path first. -/
def lacks (a : Trees P I) (p : P) (is : List I) : List (List I) := (stages [] is).filter fun js => (p, js) ∉ a.nodes

/-- Take a table from the pool for each of these paths. -/
def link (a : Trees P I) (p : P) (new : List (List I)) : Trees P I :=
  ⟨a.nodes ∪ (new.map (Prod.mk p)).toFinset, a.free - new.length⟩

/-- Set a leaf, if the pool has tables enough. -/
def insert (a : Trees P I) (p : P) (is : List I) (i : I) : Bool × Trees P I :=
  if (a.lacks p is).length ≤ a.free then
    (true, ⟨Insert.insert (p, is ++ [i]) (a.link p (a.lacks p is)).nodes, (a.link p (a.lacks p is)).free⟩)
  else (false, a.link p ((a.lacks p is).take a.free))

/-- A new tree with an empty root takes the place of the tree of `p`. -/
def plant (a : Trees P I) (p : P) : Trees P I :=
  ⟨Insert.insert (p, []) (a.nodes.filter fun n => n.1 ≠ p), a.free - 1⟩

/-- The tables, without the leaves. -/
def tables (depth : ℕ) (a : Trees P I) : Finset (P × List I) := a.nodes.filter fun n => n.2.length < depth

theorem mem_lacks {js : List I} : js ∈ a.lacks p is ↔ (js <+: is ∧ js ≠ []) ∧ (p, js) ∉ a.nodes := by
  rw [lacks, List.mem_filter, mem_stages, List.nil_append, List.length_nil, List.length_pos_iff]
  simp

theorem mem_link {new : List (List I)} {n : P × List I} :
    n ∈ (a.link p new).nodes ↔ n ∈ a.nodes ∨ n.1 = p ∧ n.2 ∈ new := by
  obtain ⟨q, js⟩ := n
  simp only [link, Finset.mem_union, List.mem_toFinset, List.mem_map, Prod.mk.injEq]
  constructor
  · rintro (hold | ⟨ks, hks, rfl, rfl⟩)
    · exact .inl hold
    · exact .inr ⟨rfl, hks⟩
  · rintro (hold | ⟨rfl, hks⟩)
    · exact .inl hold
    · exact .inr ⟨js, hks, rfl, rfl⟩

theorem insert_free_le : (a.insert p is i).2.free ≤ a.free := by
  unfold insert
  split
  · exact Nat.sub_le _ _
  · exact Nat.sub_le _ _

/-- Nothing is added but the way to the leaf. -/
theorem mem_insert {n : P × List I} (hn : n ∈ (a.insert p is i).2.nodes) :
    n ∈ a.nodes ∨ n.1 = p ∧ n.2 ≠ [] ∧ n.2 <+: is ++ [i] := by
  have hnew : n.1 = p ∧ n.2 ∈ a.lacks p is → n.1 = p ∧ n.2 ≠ [] ∧ n.2 <+: is ++ [i] := by
    rintro ⟨hp, hmem⟩
    obtain ⟨⟨hpre, hne⟩, -⟩ := mem_lacks.mp hmem
    exact ⟨hp, hne, hpre.trans (List.prefix_append _ _)⟩
  unfold insert at hn
  split at hn
  · rw [Finset.mem_insert, mem_link] at hn
    rcases hn with rfl | hold | hlack
    · exact .inr ⟨rfl, by simp, List.prefix_refl _⟩
    · exact .inl hold
    · exact .inr (hnew hlack)
  · rcases mem_link.mp hn with hold | ⟨hp, hlack⟩
    · exact .inl hold
    · exact .inr (hnew ⟨hp, List.mem_of_mem_take hlack⟩)

/-- An insertion that succeeds adds all of it. -/
theorem mem_insert_iff (hok : (a.insert p is i).1 = true) {n : P × List I} :
    n ∈ (a.insert p is i).2.nodes ↔ n ∈ a.nodes ∨ n.1 = p ∧ n.2 ≠ [] ∧ n.2 <+: is ++ [i] := by
  refine ⟨mem_insert, fun hn => ?_⟩
  unfold insert at hok ⊢
  split at hok
  · rename_i henough
    rw [if_pos henough, Finset.mem_insert, mem_link]
    obtain ⟨q, js⟩ := n
    rcases hn with hold | ⟨rfl, hne, hpre⟩
    · exact .inr (.inl hold)
    · rcases List.prefix_concat_iff.mp hpre with hleaf | hway
      · exact .inl (by rw [← hleaf])
      · by_cases hold : (q, js) ∈ a.nodes
        · exact .inr (.inl hold)
        · exact .inr (.inr ⟨rfl, mem_lacks.mpr ⟨⟨hway, hne⟩, hold⟩⟩)
  · cases hok

/-- An insertion that fails empties the pool. -/
theorem insert_fails (hok : (a.insert p is i).1 ≠ true) : (a.insert p is i).2.free = 0 := by
  unfold insert at hok ⊢
  split at hok
  · exact absurd rfl hok
  · rename_i hshort
    rw [if_neg hshort, link, List.length_take]
    dsimp only
    omega

/-! ### No table is lost -/

omit [DecidableEq P] [DecidableEq I] in
theorem mem_tables {n : P × List I} : n ∈ a.tables depth ↔ n ∈ a.nodes ∧ n.2.length < depth := by
  simp [tables]

theorem card_tables_link {new : List (List I)} (hnodup : new.Nodup) (hnew : ∀ js ∈ new, (p, js) ∉ a.nodes)
    (hshort : ∀ js ∈ new, js.length < depth) (hfree : new.length ≤ a.free) :
    (a.link p new).free + ((a.link p new).tables depth).card = a.free + (a.tables depth).card := by
  have hsplit : (a.link p new).tables depth = a.tables depth ∪ (new.map (Prod.mk p)).toFinset := by
    ext ⟨q, js⟩
    rw [mem_tables, mem_link, Finset.mem_union, mem_tables]
    simp only [List.mem_toFinset, List.mem_map, Prod.mk.injEq]
    constructor
    · rintro ⟨hold | ⟨rfl, hjs⟩, hlen⟩
      · exact .inl ⟨hold, hlen⟩
      · exact .inr ⟨js, hjs, rfl, rfl⟩
    · rintro (⟨hold, hlen⟩ | ⟨ks, hks, rfl, rfl⟩)
      · exact ⟨.inl hold, hlen⟩
      · exact ⟨.inr ⟨rfl, hks⟩, hshort ks hks⟩
  have hdisj : Disjoint (a.tables depth) (new.map (Prod.mk p)).toFinset := by
    rw [Finset.disjoint_right]
    intro n hn hold
    obtain ⟨js, hjs, rfl⟩ := List.mem_map.mp (List.mem_toFinset.mp hn)
    exact hnew js hjs (mem_tables.mp hold).1
  have hcard : (new.map (Prod.mk p)).toFinset.card = new.length := by
    rw [List.toFinset_card_of_nodup (hnodup.map (Prod.mk_right_injective p)), List.length_map]
  rw [hsplit, Finset.card_union_of_disjoint hdisj, hcard, link]
  dsimp only
  omega

theorem nodup_lacks : (a.lacks p is).Nodup := (nodup_stages is []).filter _

theorem account_insert (hlen : is.length + 1 = depth) :
    (a.insert p is i).2.free + ((a.insert p is i).2.tables depth).card = a.free + (a.tables depth).card := by
  have hnew : ∀ js ∈ a.lacks p is, (p, js) ∉ a.nodes := fun js hjs => (mem_lacks.mp hjs).2
  have hshort : ∀ js ∈ a.lacks p is, js.length < depth := by
    intro js hjs
    have hle := (mem_lacks.mp hjs).1.1.length_le
    omega
  unfold insert
  split
  · rename_i henough
    rw [← card_tables_link nodup_lacks hnew hshort henough]
    congr 2
    -- the leaf is no table
    ext n
    rw [mem_tables, mem_tables, Finset.mem_insert]
    constructor
    · rintro ⟨rfl | hold, hn⟩
      · rw [List.length_append, List.length_singleton] at hn
        omega
      · exact ⟨hold, hn⟩
    · rintro ⟨hold, hn⟩
      exact ⟨.inr hold, hn⟩
  · have htake : ∀ js ∈ (a.lacks p is).take a.free, js ∈ a.lacks p is := fun js hjs => List.mem_of_mem_take hjs
    refine card_tables_link (nodup_lacks.sublist (List.take_sublist _ _)) (fun js hjs => hnew js (htake js hjs))
      (fun js hjs => hshort js (htake js hjs)) ?_
    rw [List.length_take]
    exact min_le_left _ _

theorem account_plant (hnew : ∀ js, (p, js) ∉ a.nodes) (hfree : 0 < a.free) (hdepth : 0 < depth) :
    (a.plant p).free + ((a.plant p).tables depth).card = a.free + (a.tables depth).card := by
  have hsplit : (a.plant p).tables depth = Insert.insert (p, []) (a.tables depth) := by
    ext ⟨q, js⟩
    rw [mem_tables, plant, Finset.mem_insert, Finset.mem_insert, mem_tables, Finset.mem_filter]
    constructor
    · rintro ⟨hroot | ⟨hold, -⟩, hlen⟩
      · exact .inl hroot
      · exact .inr ⟨hold, hlen⟩
    · rintro (hroot | ⟨hold, hlen⟩)
      · obtain ⟨rfl, rfl⟩ := Prod.mk.inj hroot
        exact ⟨.inl rfl, hdepth⟩
      · refine ⟨.inr ⟨hold, ?_⟩, hlen⟩
        rintro rfl
        exact hnew js hold
  have hout : (p, []) ∉ a.tables depth := fun hmem => hnew [] (mem_tables.mp hmem).1
  rw [hsplit, Finset.card_insert_of_notMem hout, plant]
  dsimp only
  omega

/-! ### No table is there for nothing -/

/-- Every table but a root is on the way to some leaf. -/
def Tight (depth : ℕ) (a : Trees P I) : Prop :=
  ∀ p js, (p, js) ∈ a.nodes → js = [] ∨ ∃ leaf, (p, leaf) ∈ a.nodes ∧ leaf.length = depth ∧ js <+: leaf

/-- Only an insertion that fails leaves tables without a leaf, and then the pool is empty. -/
theorem tight_insert (hlen : is.length + 1 = depth) (h : 0 < a.free → a.Tight depth)
    (hfree : 0 < (a.insert p is i).2.free) : (a.insert p is i).2.Tight depth := by
  have hok : (a.insert p is i).1 = true := by
    by_contra hc
    exact hfree.ne' (insert_fails hc)
  have hlength : (is ++ [i]).length = depth := by rw [List.length_append, List.length_singleton, hlen]
  intro q js hjs
  rcases (mem_insert_iff hok).mp hjs with hold | ⟨rfl, -, hpre⟩
  · rcases h (hfree.trans_le insert_free_le) q js hold with rfl | ⟨leaf, hmem, hl, hpre⟩
    · exact .inl rfl
    · exact .inr ⟨leaf, (mem_insert_iff hok).mpr (.inl hmem), hl, hpre⟩
  · refine .inr ⟨is ++ [i], (mem_insert_iff hok).mpr (.inr ⟨rfl, by simp, List.prefix_refl _⟩), hlength, hpre⟩

theorem tight_plant (h : 0 < a.free → a.Tight depth) (hfree : 0 < (a.plant p).free) : (a.plant p).Tight depth := by
  have hpos : 0 < a.free := hfree.trans_le (Nat.sub_le _ _)
  intro q js hjs
  rw [plant, Finset.mem_insert, Finset.mem_filter] at hjs
  rcases hjs with hjs | ⟨hold, hne⟩
  · exact .inl (Prod.mk.inj hjs).2
  · rcases h hpos q js hold with rfl | ⟨leaf, hmem, hlen, hpre⟩
    · exact .inl rfl
    · exact .inr ⟨leaf, Finset.mem_insert_of_mem (Finset.mem_filter.mpr ⟨hmem, hne⟩), hlen, hpre⟩

end Trees

/-! ## A forest and its trees -/

/-- `a` is what the forest looks like without the names of its tables. -/
structure Shows (depth : ℕ) (root : P → Option F) (T : Tables F I) (pool : List F) (a : Trees P I) : Prop where
  free : a.free = pool.length
  nodes : ∀ p js, (p, js) ∈ a.nodes ↔ ∃ r, root p = some r ∧ js.length ≤ depth ∧ (walk T r js).isSome

section

variable {depth : ℕ} {root : P → Option F} {T T' : Tables F I} {pool pool' : List F} {a : Trees P I}

omit [DecidableEq P] [DecidableEq F] [DecidableEq I] in
theorem Shows.mem_iff (h : Shows depth root T pool a) {p : P} {r : F} (hp : root p = some r) {js : List I}
    (hjs : js.length ≤ depth) : (p, js) ∈ a.nodes ↔ (walk T r js).isSome := by
  rw [h.nodes]
  constructor
  · rintro ⟨r', hp', -, hsome⟩
    rwa [Option.some.inj (hp.symm.trans hp')]
  · exact fun hsome => ⟨r, hp, hjs, hsome⟩

omit [DecidableEq P] [DecidableEq F] [DecidableEq I] in
/-- A forest that looks the same is shown by the same trees. -/
theorem Shows.congr (h : Shows depth root T pool a) (hpool : pool'.length = pool.length)
    (hwalk : ∀ {p r js}, root p = some r → js.length ≤ depth → (walk T' r js).isSome = (walk T r js).isSome) :
    Shows depth root T' pool' a := by
  refine ⟨h.free.trans hpool.symm, fun p js => ?_⟩
  rw [h.nodes]
  refine exists_congr fun r => and_congr_right fun hr => and_congr_right fun hjs => ?_
  rw [hwalk hr hjs]

omit [DecidableEq F] in
theorem Shows.lacks_eq (h : Shows depth root T pool a) {p : P} {r : F} (hp : root p = some r) {is : List I}
    (hlen : is.length < depth) : a.lacks p is = lackingStages T r [] is := by
  refine List.filter_congr fun js hjs => ?_
  have hle := ((mem_stages is).mp hjs).2.1.length_le
  rw [List.nil_append] at hle
  have hiff := h.mem_iff hp (show js.length ≤ depth by omega)
  cases hwalk : walk T r js with
  | none => simpa [hwalk] using hiff
  | some g => simpa [hwalk] using hiff

/-- **An insertion into the forest is an insertion into its trees.** -/
theorem Shows.insert (h : Shows depth root T pool a) (hforest : Forest depth root T pool) (hfresh : Fresh T pool)
    {p : P} {r x : F} {is : List I} {i : I} (hp : root p = some r) (hlen : is.length + 1 = depth) {ok : Bool}
    (hins : Radix.insert T pool r is i x = (ok, T', pool')) :
    (a.insert p is i).1 = ok ∧ Shows depth root T' pool' (a.insert p is i).2 := by
  unfold Radix.insert at hins
  cases hd : descend T pool r is with
  | mk o rest =>
    obtain ⟨T₁, pool₁⟩ := rest
    obtain ⟨hsome, hlength, hnodes⟩ := descend_nodes hp is hforest hfresh (walk_nil T r) (by simpa using hlen) hd
    obtain ⟨hforest₁, -, -, hend⟩ := descend_spec hp is hforest hfresh (walk_nil T r) (by simpa using hlen) hd
    have hlacks : a.lacks p is = lackingStages T r [] is := h.lacks_eq hp (by omega)
    rw [← hlacks, ← h.free] at hsome hlength hnodes
    have hlinked : ∀ {q r' js}, root q = some r' → js.length ≤ depth →
        ((walk T₁ r' js).isSome ↔ (q, js) ∈ (a.link p ((a.lacks p is).take a.free)).nodes) := by
      intro q r' js hq hjs
      rw [hnodes hq hjs, Trees.mem_link, h.mem_iff hq hjs]
    have hroot : ∀ {q js}, (q, js) ∈ (a.link p ((a.lacks p is).take a.free)).nodes →
        ∃ r', root q = some r' ∧ js.length ≤ depth := by
      intro q js hmem
      rcases Trees.mem_link.mp hmem with hold | ⟨rfl, hnew⟩
      · obtain ⟨r', hr', hjs, -⟩ := (h.nodes q js).mp hold
        exact ⟨r', hr', hjs⟩
      · have hle := (Trees.mem_lacks.mp (List.mem_of_mem_take hnew)).1.1.length_le
        exact ⟨r, hp, by dsimp only at hle; omega⟩
    rw [hd] at hins
    cases o with
    | none =>
      obtain ⟨rfl, rfl, rfl⟩ : false = ok ∧ T₁ = T' ∧ pool₁ = pool' := by simpa using hins
      have hshort : ¬ (a.lacks p is).length ≤ a.free := by
        rw [← hsome]
        simp
      rw [Trees.insert, if_neg hshort]
      refine ⟨rfl, ?_, fun q js => ⟨fun hmem => ?_, ?_⟩⟩
      · rw [Trees.link, List.length_take, hlength]
        dsimp only
        omega
      · obtain ⟨r', hr', hjs⟩ := hroot hmem
        exact ⟨r', hr', hjs, (hlinked hr' hjs).mpr hmem⟩
      · rintro ⟨r', hr', hjs, hwalk⟩
        exact (hlinked hr' hjs).mp hwalk
    | some g =>
      obtain ⟨rfl, rfl, rfl⟩ : true = ok ∧ write T₁ g i x = T' ∧ pool₁ = pool' := by simpa using hins
      have henough : (a.lacks p is).length ≤ a.free := hsome.mp rfl
      rw [List.take_of_length_le henough] at hlinked hroot
      have hg : walk T₁ r is = some g := hend g rfl
      have hwrite := fun {q : P} {r' : F} (hq : root q = some r') (js : List I) (hjs : js.length ≤ depth) =>
        hforest₁.walk_write (x := x) (i := i) hp hq (by omega) hg (.inl hlen) js hjs
      rw [Trees.insert, if_pos henough]
      refine ⟨rfl, hlength.symm, fun q js => ?_⟩
      rw [Finset.mem_insert]
      constructor
      · rintro (hleaf | hmem)
        · obtain ⟨rfl, rfl⟩ := Prod.mk.inj hleaf
          have hle : (is ++ [i]).length ≤ depth := by rw [List.length_append, List.length_singleton, hlen]
          rcases hwrite hp _ hle with ⟨-, -, hx⟩ | ⟨hnot, -⟩
          · exact ⟨r, hp, hle, by rw [hx]; rfl⟩
          · exact absurd ⟨rfl, rfl⟩ hnot
        · obtain ⟨r', hr', hjs⟩ := hroot hmem
          refine ⟨r', hr', hjs, ?_⟩
          rcases hwrite hr' js hjs with ⟨-, -, hx⟩ | ⟨-, hsame⟩
          · rw [hx]
            rfl
          · rw [hsame]
            exact (hlinked hr' hjs).mpr hmem
      · rintro ⟨r', hr', hjs, hwalk⟩
        rcases hwrite hr' js hjs with ⟨rfl, rfl, -⟩ | ⟨-, hsame⟩
        · exact .inl rfl
        · rw [hsame] at hwalk
          exact .inr ((hlinked hr' hjs).mp hwalk)

omit [DecidableEq F] in
/-- **Planting.** -/
theorem Shows.plant {g : F} (h : Shows depth root T (g :: pool) a) (hforest : Forest depth root T (g :: pool))
    (hclear : ∀ i, T' g i = none) (hsame : ∀ f, f ≠ g → T' f = T f) (p : P) :
    Shows depth (Function.update root p (some g)) T' pool (a.plant p) := by
  obtain ⟨-, hold⟩ := hforest.plant hclear hsame p
  refine ⟨?_, fun q js => ?_⟩
  · rw [Trees.plant, h.free, List.length_cons]
    rfl
  · rw [Trees.plant, Finset.mem_insert, Finset.mem_filter]
    by_cases hqp : q = p
    · subst hqp
      rw [Function.update_self]
      constructor
      · rintro (hroot | ⟨-, hne⟩)
        · rw [(Prod.mk.inj hroot).2]
          exact ⟨g, rfl, Nat.zero_le _, rfl⟩
        · exact absurd rfl hne
      · rintro ⟨r, hr, -, hwalk⟩
        obtain rfl := Option.some.inj hr
        by_cases hjs : js = []
        · exact .inl (by rw [hjs])
        · rw [walk_empty hclear hjs] at hwalk
          cases hwalk
    · rw [Function.update_of_ne hqp]
      constructor
      · rintro (hroot | ⟨hmem, -⟩)
        · exact absurd (Prod.mk.inj hroot).1 hqp
        · obtain ⟨r, hr, hjs, hwalk⟩ := (h.nodes q js).mp hmem
          exact ⟨r, hr, hjs, by rw [hold hr hjs]; exact hwalk⟩
      · rintro ⟨r, hr, hjs, hwalk⟩
        rw [hold hr hjs] at hwalk
        exact .inr ⟨(h.nodes q js).mpr ⟨r, hr, hjs, hwalk⟩, hqp⟩

end

end Radix
