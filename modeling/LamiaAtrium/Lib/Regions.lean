import Mathlib

/-!
# `Lib.Regions` — what is held, and what is free

Owners and a free list share one space. Each owner `i` holds a set `live i` of addresses, and a list of sets is
free. `Separate` says that no address is held twice. Four operations keep it: an owner takes a part of the free
list, takes new addresses, gives back what it holds, and the free list loses something.

`space` is what is held at all. Giving back loses nothing of it, and taking only what the owner had before.

A pool: single items instead of sets. `Conserved` says that the free items and those that are held are together the
items of the pool, each once. Taking items off the front of the free list keeps it, and so does giving back items
that are held.

Owners, addresses and items are arbitrary types.
-/

namespace Regions

variable {ι α : Type*}

/-- The addresses of a list of sets. -/
def cover (free : List (Set α)) : Set α := {a | ∃ S ∈ free, a ∈ S}

/-- **No address is held twice.** -/
structure Separate (live : ι → Set α) (free : List (Set α)) : Prop where
  owners : ∀ {i j}, i ≠ j → Disjoint (live i) (live j)
  list : free.Pairwise Disjoint
  apart : ∀ i, Disjoint (live i) (cover free)

theorem mem_cover_cons {S : Set α} {free : List (Set α)} {a : α} : a ∈ cover (S :: free) ↔ a ∈ S ∨ a ∈ cover free := by
  simp [cover]

theorem cover_cons (S : Set α) (free : List (Set α)) : cover (S :: free) = S ∪ cover free :=
  Set.ext fun _ => mem_cover_cons

theorem subset_cover {S : Set α} {free : List (Set α)} (h : S ∈ free) : S ⊆ cover free := fun _ ha => ⟨S, h, ha⟩

/-- A list of disjoint sets, one by one. -/
theorem pairwise_cons_iff {S : Set α} {free : List (Set α)} :
    (S :: free).Pairwise Disjoint ↔ Disjoint S (cover free) ∧ free.Pairwise Disjoint := by
  rw [List.pairwise_cons, and_congr_left_iff]
  intro _
  constructor
  · intro h
    rw [Set.disjoint_left]
    rintro a ha ⟨T, hT, haT⟩
    exact Set.disjoint_left.mp (h T hT) ha haT
  · intro h T hT
    exact h.mono_right (subset_cover hT)

variable {live : ι → Set α} {free free' : List (Set α)}

/-- The free list loses addresses, or is cut up anew. -/
theorem Separate.shrink (h : Separate live free) (hfree : free'.Pairwise Disjoint)
    (hsub : cover free' ⊆ cover free) : Separate live free' :=
  ⟨h.owners, hfree, fun i => (h.apart i).mono_right hsub⟩

/-- **The addresses that somebody holds**, an owner or the free list. -/
def space (live : ι → Set α) (free : List (Set α)) : Set α := {a | ∃ i, a ∈ live i} ∪ cover free

variable [DecidableEq ι]

/-- Owner `i` gets `S`, where `S` and the new free list make up the old one: only what `i` had before can be
    lost. -/
theorem space_take {i : ι} {S : Set α} {a : α} (hcover : cover free ⊆ S ∪ cover free') (ha : a ∈ space live free)
    (hi : a ∈ live i → (∃ j, j ≠ i ∧ a ∈ live j) ∨ a ∈ cover free ∨ a ∈ S) :
    a ∈ space (Function.update live i S) free' := by
  have hfree : a ∈ S ∪ cover free' → a ∈ space (Function.update live i S) free' := by
    rintro (hS | hf)
    · refine .inl ⟨i, ?_⟩
      rwa [Function.update_self]
    · exact .inr hf
  have hother : (∃ j, j ≠ i ∧ a ∈ live j) → a ∈ space (Function.update live i S) free' := by
    rintro ⟨j, hji, hj⟩
    refine .inl ⟨j, ?_⟩
    rwa [Function.update_of_ne hji]
  rcases ha with ⟨j, hj⟩ | hf
  · by_cases hji : j = i
    · subst hji
      rcases hi hj with hj' | hf | hS
      · exact hother hj'
      · exact hfree (hcover hf)
      · exact hfree (.inl hS)
    · exact hother ⟨j, hji, hj⟩
  · exact hfree (hcover hf)

/-- Owner `i` puts what it holds on the free list: nothing is lost. -/
theorem space_release (i : ι) : space live free ⊆ space (Function.update live i ∅) (live i :: free) := by
  rintro a (⟨j, hj⟩ | hf)
  · by_cases hji : j = i
    · subst hji
      exact .inr (mem_cover_cons.mpr (.inl hj))
    · refine .inl ⟨j, ?_⟩
      rwa [Function.update_of_ne hji]
  · exact .inr (mem_cover_cons.mpr (.inr hf))

/-- Owner `i` gives up nothing. -/
theorem space_drop {i : ι} (hi : live i = ∅) : space live free ⊆ space (Function.update live i ∅) free := by
  rintro a (⟨j, hj⟩ | hf)
  · have hji : j ≠ i := by
      rintro rfl
      rw [hi] at hj
      exact hj
    refine .inl ⟨j, ?_⟩
    rwa [Function.update_of_ne hji]
  · exact .inr hf

/-- Owner `i` gives up what it holds for new addresses. -/
theorem Separate.grow (h : Separate live free) {i : ι} {S : Set α} (hlive : ∀ j, j ≠ i → Disjoint S (live j))
    (hfree : Disjoint S (cover free)) : Separate (Function.update live i S) free := by
  refine ⟨?_, h.list, ?_⟩
  · intro j j' hne
    by_cases hj : j = i
    · subst hj
      rw [Function.update_self, Function.update_of_ne hne.symm]
      exact hlive j' hne.symm
    · rw [Function.update_of_ne hj]
      by_cases hj' : j' = i
      · subst hj'
        rw [Function.update_self]
        exact (hlive j hj).symm
      · rw [Function.update_of_ne hj']
        exact h.owners hne
  · intro j
    by_cases hj : j = i
    · subst hj
      rw [Function.update_self]
      exact hfree
    · rw [Function.update_of_ne hj]
      exact h.apart j

/-- Owner `i` gives up what it holds for a part of the free list. -/
theorem Separate.take (h : Separate live free) {i : ι} {S : Set α} (hfree : (S :: free').Pairwise Disjoint)
    (hsub : cover (S :: free') ⊆ cover free) : Separate (Function.update live i S) free' := by
  obtain ⟨hS, hfree'⟩ := pairwise_cons_iff.mp hfree
  rw [cover_cons, Set.union_subset_iff] at hsub
  apply Separate.grow
  · exact h.shrink hfree' hsub.2
  · intro j _
    exact ((h.apart j).mono_right hsub.1).symm
  · exact hS

/-- Owner `i` gives up what it holds. -/
theorem Separate.drop (h : Separate live free) (i : ι) : Separate (Function.update live i ∅) free := by
  apply h.grow
  · intro j _
    exact Set.empty_disjoint _
  · exact Set.empty_disjoint _

/-- Owner `i` puts what it holds on the free list. -/
theorem Separate.release (h : Separate live free) (i : ι) :
    Separate (Function.update live i ∅) (live i :: free) := by
  refine ⟨(h.drop i).owners, pairwise_cons_iff.mpr ⟨h.apart i, h.list⟩, ?_⟩
  intro j
  rw [cover_cons, Set.disjoint_union_right]
  by_cases hj : j = i
  · subst hj
    rw [Function.update_self]
    exact ⟨Set.empty_disjoint _, Set.empty_disjoint _⟩
  · rw [Function.update_of_ne hj]
    exact ⟨h.owners hj, h.apart j⟩

end Regions

/-! ## Items that are free or held -/

namespace Pool

variable {α : Type*} {all free held l : List α}

/-- **Every item is free or held**, as often as the pool has it. -/
def Conserved (all free held : List α) : Prop := (free ++ held).Perm all

theorem Conserved.nodup (h : Conserved all free held) (hall : all.Nodup) : free.Nodup ∧ held.Nodup := by
  have happend : (free ++ held).Nodup := h.nodup_iff.mpr hall
  obtain ⟨hfree, hheld, -⟩ := List.nodup_append.mp happend
  exact ⟨hfree, hheld⟩

/-- The first `n` items are taken. -/
theorem Conserved.take (h : Conserved all free held) (n : ℕ) :
    Conserved all (free.drop n) (free.take n ++ held) := by
  have hswap : (free.drop n ++ free.take n).Perm (free.take n ++ free.drop n) := List.perm_append_comm
  rw [List.take_append_drop] at hswap
  rw [Conserved, ← List.append_assoc]
  exact (hswap.append_right held).trans h

variable [DecidableEq α]

/-- The items of `l` come back. -/
theorem Conserved.giveBack (h : Conserved all free held) (hl : l.Nodup) (hheld : l ⊆ held) :
    Conserved all (l.reverse ++ free) (held.diff l) := by
  have hsub : l.Subperm held := List.subperm_of_subset hl hheld
  have hsplit : (l ++ held.diff l).Perm held :=
    List.subperm_append_diff_self_of_count_le (List.subperm_ext_iff.mp hsub)
  have hfront : (l.reverse ++ free).Perm (free ++ l) :=
    ((List.reverse_perm l).append_right free).trans List.perm_append_comm
  have hback := hfront.append_right (held.diff l)
  rw [List.append_assoc free] at hback
  exact hback.trans ((hsplit.append_left free).trans h)

end Pool
