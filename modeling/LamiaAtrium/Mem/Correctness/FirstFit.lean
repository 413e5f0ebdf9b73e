import LamiaAtrium.Mem.Correctness.Backed
import LamiaAtrium.Mem.Correctness.Space

/-!
# `Mem.Correctness.FirstFit` — what `get_free_vmrg_area` carves, and the size that `liballoc` records

* `carve_eq`: where the loop stops, and what it leaves of the list. The three updates of the source (shrink in
  place, clone the next node, leave a dummy) are one: the region makes way for what is behind its first `size` bytes,
  or for nothing.
* `firstFit_exact`: on regions below 2^57 that do not overlap, `get_free_vmrg_area` carves exactly.
* `sizeHonoured_iff`: `liballoc` narrows the size to `int` for the search, so a region from the free list has the
  size asked for only when that changes nothing.
-/

namespace LamiaAtrium

open Regions

/-! ## Where the loop stops -/

/-- The list from the carved region on, after the loop. -/
def leftOver (size : AddrT) (rg : VmRgStruct) (post : List VmRgStruct) : List VmRgStruct :=
  if rg.rgStart + size < rg.rgEnd then ⟨rg.rgStart + size, rg.rgEnd⟩ :: post else cloneNext rg post

theorem carve_append {size : AddrT} {rg : VmRgStruct} (hrg : rg.Fits size) (post : List VmRgStruct)
    {pre : List VmRgStruct} (hpre : ∀ r ∈ pre, ¬ r.Fits size) :
    carve size (pre ++ rg :: post) = (some ⟨rg.rgStart, rg.rgStart + size⟩, pre ++ leftOver size rg post) := by
  induction pre with
  | nil => exact carve_cons_of_fits hrg post
  | cons r pre ih =>
    rw [List.forall_mem_cons] at hpre
    rw [List.cons_append, carve_cons_of_not_fits hpre.1, ih hpre.2, List.cons_append]

/-- **The loop stops at the first region with room**, and keeps what is before it. -/
theorem carve_eq {size : AddrT} {l : List VmRgStruct} {rg : VmRgStruct} (h : firstFit size l = some rg) :
    ∃ pre post, l = pre ++ rg :: post ∧ rg.Fits size ∧ (∀ r ∈ pre, ¬ r.Fits size) ∧
      carve size l = (some ⟨rg.rgStart, rg.rgStart + size⟩, pre ++ leftOver size rg post) := by
  obtain ⟨hrg, pre, post, rfl, hpre⟩ := List.find?_eq_some_iff_append.mp h
  have hfits : rg.Fits size := of_decide_eq_true hrg
  have hnot : ∀ r ∈ pre, ¬ r.Fits size := by
    intro r hr
    simpa using hpre r hr
  exact ⟨pre, post, rfl, hfits, hnot, carve_append hfits post hnot⟩

/-- Either the rest of the region stays in its place, or there is no rest and the region goes. -/
theorem leftOver_cases {size : AddrT} {rg : VmRgStruct} (hrg : rg.Fits size) (post : List VmRgStruct) :
    leftOver size rg post = ⟨rg.rgStart + size, rg.rgEnd⟩ :: post ∨
      (leftOver size rg post = post ∧ rg.rgStart + size = rg.rgEnd) := by
  rw [leftOver]
  by_cases hlt : rg.rgStart + size < rg.rgEnd
  · rw [if_pos hlt]
    exact .inl rfl
  · have hend : rg.rgStart + size = rg.rgEnd := BitVec.le_antisymm hrg (BitVec.not_lt.mp hlt)
    rw [if_neg hlt]
    cases post with
    | nil =>
      left
      rw [cloneNext, hend]
    | cons nextrg rest => exact .inr ⟨rfl, hend⟩

/-! ## Exact first fit -/

/-- `rg_end - rg_start`. -/
def VmRgStruct.length (rg : VmRgStruct) : ℕ := rg.rgEnd.toNat - rg.rgStart.toNat

/-- A free list of regions below 2^57 that do not overlap. -/
structure FreeListOk (l : List VmRgStruct) : Prop where
  ordered : ∀ rg ∈ l, rg.rgStart.toNat ≤ rg.rgEnd.toNat
  below : ∀ rg ∈ l, rg.rgEnd.toNat ≤ 2 ^ 57
  disjoint : (sets l).Pairwise Disjoint

/-- **What exact first fit makes of a list `l`** when it is asked for `size` bytes: `found` is the new region, if
    there is one, and `l'` the list afterwards. -/
structure CarvedExactly (size : ℕ) (l : List VmRgStruct) (found : Option VmRgStruct) (l' : List VmRgStruct) : Prop where
  found_iff : found.isSome = true ↔ ∃ rg ∈ l, size ≤ rg.length
  /-- The first region with room gives its first bytes. What is left of it is in its place. -/
  carved : ∀ newrg, found = some newrg → ∃ pre rg post left, l = pre ++ rg :: post ∧
    (∀ r ∈ pre, r.length < size) ∧ size ≤ rg.length ∧
    newrg.rgStart = rg.rgStart ∧ newrg.rgEnd.toNat = rg.rgStart.toNat + size ∧
    l' = pre ++ left ++ post ∧ (left = [⟨newrg.rgEnd, rg.rgEnd⟩] ∨ (left = [] ∧ newrg.rgEnd = rg.rgEnd))
  cover : ∀ newrg, found = some newrg → cover (sets (newrg :: l')) = cover (sets l)
  disjoint : ∀ newrg, found = some newrg → (sets (newrg :: l')).Pairwise Disjoint
  unchanged : found = none → l' = l

section

variable {size : AddrT} {l : List VmRgStruct}

/-- Nothing wraps around below 2^57, so the test of the loop is the one on lengths. -/
theorem FreeListOk.fits_iff (h : FreeListOk l) (hsize : size.toNat < 2 ^ 31) {rg : VmRgStruct} (hrg : rg ∈ l) :
    (rg.rgStart + size).toNat = rg.rgStart.toNat + size.toNat ∧ (rg.Fits size ↔ size.toNat ≤ rg.length) := by
  have hordered := h.ordered rg hrg
  have hbelow := h.below rg hrg
  have hsum : (rg.rgStart + size).toNat = rg.rgStart.toNat + size.toNat := by
    rw [BitVec.toNat_add, Nat.mod_eq_of_lt (by omega)]
  refine ⟨hsum, ?_⟩
  rw [VmRgStruct.Fits, BitVec.le_def, hsum, VmRgStruct.length]
  omega

/-- No region of the list starts at the address that stands for "not found". -/
theorem FreeListOk.start_ne (h : FreeListOk l) {rg : VmRgStruct} (hrg : rg ∈ l) : rg.rgStart ≠ -1 := by
  rintro hmax
  have hordered := h.ordered rg hrg
  have hbelow := h.below rg hrg
  have hlast : (-1 : AddrT).toNat = 2 ^ 64 - 1 := by decide
  rw [hmax, hlast] at hordered
  omega

/-- **The loop carves exactly**, on regions below 2^57 that do not overlap. -/
theorem carvedExactly_carve (h : FreeListOk l) (hsize : size.toNat < 2 ^ 31) :
    CarvedExactly size.toNat l (carve size l).1 (carve size l).2 := by
  cases hfit : firstFit size l with
  | none =>
    rw [carve_of_not_fits hfit]
    refine ⟨?_, fun _ hf => absurd hf (by simp), fun _ hf => absurd hf (by simp), fun _ hf => absurd hf (by simp),
      fun _ => rfl⟩
    constructor
    · intro hf
      exact absurd hf (by simp)
    · rintro ⟨rg, hrg, hlen⟩
      have hnot := List.find?_eq_none.mp hfit rg hrg
      rw [decide_eq_true_iff] at hnot
      exact absurd (((h.fits_iff hsize hrg).2).mpr hlen) hnot
  | some rg =>
    obtain ⟨pre, post, hl, hfits, hpre, hcarve⟩ := carve_eq hfit
    have hrg : rg ∈ l := by
      rw [hl]
      exact List.mem_append_right _ List.mem_cons_self
    obtain ⟨hsum, hlen⟩ := h.fits_iff hsize hrg
    have hwrap : rg.rgStart.toNat + size.toNat < 2 ^ 64 := by
      rw [← hsum]
      exact (rg.rgStart + size).isLt
    obtain ⟨hsome, hdisj, hsub⟩ := carve_spec hfit hwrap h.disjoint
    have hnew : ∀ newrg, (carve size l).1 = some newrg → newrg = ⟨rg.rgStart, rg.rgStart + size⟩ := by
      intro newrg hnewrg
      exact Option.some.inj (hnewrg.symm.trans hsome)
    refine ⟨?_, ?_, ?_, ?_, ?_⟩
    · rw [hsome]
      exact ⟨fun _ => ⟨rg, hrg, hlen.mp hfits⟩, fun _ => rfl⟩
    · intro newrg hnewrg
      obtain rfl := hnew newrg hnewrg
      have hbefore : ∀ r ∈ pre, r.length < size.toNat := by
        intro r hr
        have hmem : r ∈ l := by
          rw [hl]
          exact List.mem_append_left _ hr
        rw [← Nat.not_le, ← (h.fits_iff hsize hmem).2]
        exact hpre r hr
      rw [hcarve]
      rcases leftOver_cases hfits post with hleft | ⟨hleft, hend⟩
      · refine ⟨pre, rg, post, [⟨rg.rgStart + size, rg.rgEnd⟩], hl, hbefore, hlen.mp hfits, rfl, hsum, ?_, .inl rfl⟩
        rw [hleft, List.append_assoc, List.singleton_append]
      · refine ⟨pre, rg, post, [], hl, hbefore, hlen.mp hfits, rfl, hsum, ?_, .inr ⟨rfl, hend⟩⟩
        rw [hleft, List.append_nil]
    · intro newrg hnewrg
      obtain rfl := hnew newrg hnewrg
      refine Set.Subset.antisymm hsub ?_
      have hkept := cover_subset_carve size l
      rw [hsome] at hkept
      rw [sets_cons, cover_cons]
      exact hkept
    · intro newrg hnewrg
      obtain rfl := hnew newrg hnewrg
      exact hdisj
    · intro hnone
      rw [hsome] at hnone
      exact absurd hnone (by simp)

end

/-- The address space with another free list in area `i`. -/
def setFreeList (mm : MmStruct) (i : ℕ) (vma : VmAreaStruct) (l : List VmRgStruct) : MmStruct :=
  { mm with mmap := mm.mmap.set i { vma with vmFreergList := l } }

theorem setFreeList_self {mm : MmStruct} {i : ℕ} {vma : VmAreaStruct} (h : mm.mmap[i]? = some vma) :
    setFreeList mm i vma vma.vmFreergList = mm := by
  obtain ⟨hi, rfl⟩ := List.getElem?_eq_some_iff.mp h
  rw [setFreeList]
  show ({ mm with mmap := mm.mmap.set i mm.mmap[i] } : MmStruct) = mm
  rw [List.set_getElem_self]

/-- **First-fit carving is exact**, for any area, any list and any `int` that is not negative; a result `none` is
    the return value `-1`. -/
theorem firstFit_exact (mm : MmStruct) (vmaid size : BitVec 32) (i : ℕ) (vma : VmAreaStruct)
    (hnum : getVmaByNum mm vmaid = .ok (some i)) (hvma : mm.mmap[i]? = some vma) (hl : FreeListOk vma.vmFreergList)
    (hsize : 0 ≤ size.toInt) :
    ∃ found mm' l', getFreeVmrgArea mm vmaid size = .ok (found, mm') ∧ mm' = setFreeList mm i vma l' ∧
      CarvedExactly size.toNat vma.vmFreergList found l' ∧ (found = none → mm' = mm) := by
  have hnat : size.toNat < 2 ^ 31 := by
    rw [BitVec.toInt_eq_toNat_cond] at hsize
    split at hsize <;> omega
  have hwide : (size.signExtend 64).toNat = size.toNat := by
    rw [signExtend_of_lt hnat, BitVec.toNat_setWidth_of_le (by decide)]
  have hexact := carvedExactly_carve hl (hwide ▸ hnat)
  rw [hwide] at hexact
  -- no region is taken for "not found"
  have hfilter : (carve (size.signExtend 64) vma.vmFreergList).1.filter (·.rgStart != -1)
      = (carve (size.signExtend 64) vma.vmFreergList).1 := by
    cases hfound : (carve (size.signExtend 64) vma.vmFreergList).1 with
    | none => rfl
    | some newrg =>
      obtain ⟨pre, rg, post, left, hlist, -, -, hstart, -⟩ := hexact.carved newrg hfound
      have hmem : rg ∈ vma.vmFreergList := by
        rw [hlist]
        exact List.mem_append_right _ List.mem_cons_self
      have hkeep : (newrg.rgStart != -1) = true := by
        rw [bne_iff_ne, hstart]
        exact hl.start_ne hmem
      exact Option.filter_some_pos hkeep
  refine ⟨_, _, (carve (size.signExtend 64) vma.vmFreergList).2, ?_, rfl, hexact, ?_⟩
  · have harea : areaAt mm (some i) = .ok (i, vma) := by
      rw [areaAt, hvma]
    rw [getFreeVmrgArea, hnum]
    show (areaAt mm (some i) >>= _) = _
    rw [harea, ← hfilter]
    rfl
  · intro hnone
    rw [hexact.unchanged hnone]
    exact setFreeList_self hvma

/-- Three regions, where the second one has room for 40 bytes. -/
def threeFree : VmAreaStruct := ⟨0, 0, 0, 0, [⟨0, 0⟩, ⟨100, 140⟩, ⟨200, 300⟩]⟩

/-- They are used up: the third one takes the place of the second. -/
theorem firstFit_exact_clone : ∃ found mm' l',
    getFreeVmrgArea { rawMm with mmap := [threeFree] } 0 40 = .ok (found, mm') ∧
      mm' = setFreeList { rawMm with mmap := [threeFree] } 0 threeFree l' ∧
      CarvedExactly (40 : BitVec 32).toNat threeFree.vmFreergList found l' ∧
      (found = none → mm' = { rawMm with mmap := [threeFree] }) := by
  refine firstFit_exact { rawMm with mmap := [threeFree] } 0 40 0 threeFree rfl rfl ⟨?_, ?_, ?_⟩ (by decide)
  · decide
  · decide
  · simp only [threeFree, sets, List.map_cons, List.map_nil, pairwise_cons_iff, cover_cons, VmRgStruct.bytes]
    simp [cover, Set.Ico_disjoint_Ico]

/-! ## The size of an allocation -/

/-- A region of `size` bytes that does not wrap around. -/
structure VmRgStruct.Honours (rg : VmRgStruct) (size : AddrT) : Prop where
  ordered : rg.rgStart ≤ rg.rgEnd
  length : rg.rgEnd - rg.rgStart = size

/-- `liballoc` records a region of `size` bytes for register `r` and returns 0, or it returns -1. -/
def SizeHonoured (k : CharKind) (x : ℕ) (s : Kernel) (size : AddrT) (r : Fin pagingMaxSymtblSz) : Prop :=
  ∀ sched junk, ∃ stat t mm, s.liballoc k sched x size (BitVec.ofNat 32 r) junk = .ok (stat, t) ∧ t.mm x = some mm ∧
    ((stat = 0 ∧ (mm.symrgtbl.get r).Honours size) ∨ stat = -1)

/-- **The sizes that come through**: when first fit finds a region, the size is an `int`, and its sum with the start
    of that region does not wrap around. -/
def SizeOk (size : AddrT) (mm : MmStruct) : Prop :=
  ∀ rg, (firstFit (intSize size) (freeRegions mm)).filter (·.rgStart != -1) = some rg →
    intSize size = size ∧ rg.rgStart.toNat + size.toNat < 2 ^ 64

/-- A region that starts at 0, such as the one that an area grows by. -/
theorem honours_zero (size : AddrT) : VmRgStruct.Honours ⟨0, size⟩ size :=
  ⟨Nat.zero_le _, BitVec.sub_zero size⟩

/-- The first `n` bytes of a region. -/
theorem honours_add_iff (start n size : AddrT) :
    VmRgStruct.Honours ⟨start, start + n⟩ size ↔ n = size ∧ start.toNat + size.toNat < 2 ^ 64 := by
  have hlen : start + n - start = n := by
    rw [BitVec.add_comm]
    exact BitVec.add_sub_cancel n start
  constructor
  · rintro ⟨hle, hsize⟩
    obtain rfl : n = size := hlen.symm.trans hsize
    refine ⟨rfl, ?_⟩
    dsimp only at hle
    rw [BitVec.le_def, BitVec.toNat_add] at hle
    have hstart := start.isLt
    have hn := n.isLt
    omega
  · rintro ⟨rfl, hwrap⟩
    refine ⟨?_, hlen⟩
    dsimp only
    rw [BitVec.le_def, BitVec.toNat_add, Nat.mod_eq_of_lt hwrap]
    exact Nat.le_add_right ..

theorem newRegion_honours_iff {mm : MmStruct} {vma : VmAreaStruct} (h : OneArea mm vma) (size : AddrT) :
    (newRegion size vma.vmFreergList).Honours size ↔ SizeOk size mm := by
  have hnew : newRegion size vma.vmFreergList = (foundRegion size vma).getD ⟨0, size⟩ := rfl
  rw [hnew, foundRegion_eq, SizeOk, h.freeRegions_eq]
  show _ ↔ ∀ rg, fitting size vma = some rg → _
  cases hfit : fitting size vma with
  | none => exact ⟨fun _ rg hrg => absurd hrg (by simp), fun _ => honours_zero size⟩
  | some rg =>
    rw [Option.map_some, Option.getD_some, honours_add_iff]
    constructor
    · rintro hok rg' hrg'
      obtain rfl := Option.some.inj hrg'
      exact hok
    · intro hok
      exact hok rg rfl

/-- **The size of an allocation is honoured exactly when it comes through**, after any calls of `liballoc` and
    `libfree`. -/
theorem sizeHonoured_iff (k : CharKind) (x : ℕ) (s : Kernel) (hs : (regionSystem k x fun _ => True).Reachable s)
    (mm : MmStruct) (hm : s.mm x = some mm) (size : AddrT) (r : Fin pagingMaxSymtblSz) :
    SizeHonoured k x s size r ↔ SizeOk size mm := by
  obtain ⟨mm', vma, hm', harea⟩ := hasArea_of_reachable hs
  obtain rfl : mm' = mm := Option.some.inj (hm'.symm.trans hm)
  rw [← newRegion_honours_iff harea]
  have hget : (afterAlloc mm' vma size r).symrgtbl.get r = newRegion size vma.vmFreergList := by
    rw [afterAlloc, get_set, if_pos rfl]
  constructor
  · intro h
    obtain ⟨stat, t, mt, hcall, hmt, hok⟩ := h .static 0
    rw [liballoc_eq k .static hm harea size r 0] at hcall
    obtain ⟨rfl, rfl⟩ : 0 = stat ∧ s.setMm x (afterAlloc mm' vma size r) = t := by simpa using hcall
    obtain rfl := Option.some.inj ((Kernel.mm_setMm_self ..).symm.trans hmt)
    rcases hok with ⟨-, hhonours⟩ | hfail
    · rw [hget] at hhonours
      exact hhonours
    · exact absurd hfail (by decide)
  · intro h sched junk
    refine ⟨0, _, _, liballoc_eq k sched hm harea size r junk, Kernel.mm_setMm_self .., .inl ⟨rfl, ?_⟩⟩
    rw [hget]
    exact h

/-- Of 300 bytes that it has given back, register 0 takes 40 again. -/
theorem forty_taken : ∃ s m vma, (regionSystem .signed 0 fun _ => True).Reachable s ∧ s.mm 0 = some m ∧
    OneArea m vma ∧ vma.vmFreergList = [⟨40, 300⟩, ⟨0, 0⟩] := by
  obtain ⟨s, m, hs, hm, harea, hget, -⟩ := three_hundred
  have hfree := libfree_eq hm harea regA
  rw [hget, if_neg (by decide)] at hfree
  have h₁ := hs.step (.free hfree)
  have harea₁ : OneArea (afterFree m (vma0 []) regA) { vma0 [] with vmFreergList := [⟨0, 300⟩, ⟨0, 0⟩] } := by
    refine ⟨?_, rfl, rfl⟩
    rw [afterFree, hget]
    rfl
  have h₂ := h₁.step (.alloc (liballoc_eq .signed .static (Kernel.mm_setMm_self ..) harea₁ 40 regA 0))
  exact ⟨_, _, { vma0 [] with vmFreergList := [⟨40, 300⟩, ⟨0, 0⟩] }, h₂, Kernel.mm_setMm_self .., ⟨rfl, rfl, rfl⟩, rfl⟩

/-- Register 1 gets the next 100 of them. -/
theorem sizeHonoured_iff_found : ∃ s m, (regionSystem .signed 0 fun _ => True).Reachable s ∧ s.mm 0 = some m ∧
    firstFit (intSize 100) (freeRegions m) = some ⟨40, 300⟩ ∧ SizeHonoured .signed 0 s 100 regB := by
  obtain ⟨s, m, vma, hs, hm, harea, hlist⟩ := forty_taken
  have hfound : firstFit (intSize 100) (freeRegions m) = some ⟨40, 300⟩ := by
    rw [harea.freeRegions_eq, hlist]
    decide
  refine ⟨s, m, hs, hm, hfound, (sizeHonoured_iff .signed 0 s hs m hm 100 regB).mpr fun rg hrg => ?_⟩
  rw [hfound] at hrg
  obtain rfl : (⟨40, 300⟩ : VmRgStruct) = rg := Option.some.inj hrg
  exact ⟨by decide, by decide⟩

/-- **4 GiB right after `init_mm`**: as an `int` this is 0, and the empty region of the new area has room for that. -/
theorem size_narrowed : ¬ ∀ (k : CharKind) (x : ℕ) (s : Kernel), (regionSystem k x fun _ => True).Reachable s →
    ∀ size r, SizeHonoured k x s size r := by
  intro hall
  obtain ⟨m₀, m, mram, hinit, harea, -⟩ := initMm_oneFrame
  have hs : (regionSystem .signed 0 fun _ => True).Reachable (Kernel.setMm { oneFrame with mram } 0 m) :=
    .init ⟨oneFrame, m₀, m, mram, [], trivial, hinit, rfl⟩
  obtain ⟨stat, t, mm, hcall, hmm, hok⟩ := hall _ _ _ hs 0x100000000 regA .static 0
  rw [liballoc_eq .signed .static (Kernel.mm_setMm_self ..) harea 0x100000000 regA 0] at hcall
  obtain ⟨rfl, rfl⟩ : 0 = stat ∧ _ = t := by simpa using hcall
  obtain rfl := Option.some.inj ((Kernel.mm_setMm_self ..).symm.trans hmm)
  rcases hok with ⟨-, hhonours⟩ | hfail
  · rw [afterAlloc, get_set, if_pos rfl] at hhonours
    exact absurd hhonours.length (by decide)
  · exact absurd hfail (by decide)

end LamiaAtrium
