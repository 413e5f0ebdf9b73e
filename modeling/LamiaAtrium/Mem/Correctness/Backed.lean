import LamiaAtrium.Mem.Correctness.Regions
import LamiaAtrium.Mem.Correctness.Residency

/-!
# `Mem.Correctness.Backed` — is there anything behind a region?

`liballoc` asks the kernel for room with a system call that does nothing (`inc_vma_limit` is empty), does not
look at its result, and returns 0.

* `BackedIn`: a region inside the limits of its area, with a page table entry for each of its pages.
* `AllocSound` is what a caller may expect of the result, `Backable` the states in which it gets that.
* `allocSound_iff`: these are the same. With ordinary limits they need a region on the free list.
-/

namespace LamiaAtrium

/-- The page is resident or swapped out. -/
def PageThere (k : CharKind) (mm : MmStruct) (mp : MemphyStruct) (pgn : AddrT) : Prop :=
  pagingPagePresent (pteGetEntry k mm mp pgn) = true ∨ pteGetEntry k mm mp pgn &&& pagingPteSwappedMask ≠ 0

/-- **A region with something behind it.** -/
structure BackedIn (k : CharKind) (mm : MmStruct) (mp : MemphyStruct) (vma : VmAreaStruct) (rg : VmRgStruct) :
    Prop where
  start : vma.vmStart ≤ rg.rgStart
  limit : rg.rgEnd ≤ vma.sbrk
  pages : ∀ a, rg.rgStart ≤ a → a < rg.rgEnd → PageThere k mm mp (a >>> 12)

/-- A frame is left, and the system call finds its process. -/
def CanExtend (sched : SchedState ℕ) (s : Kernel) (x : ℕ) : Prop :=
  s.mram.freeFpList ≠ [] ∧ (Kernel.findPcbByPid sched (pidOf x)).isSome = true

/-- **What `liballoc` promises.** If it returns 0, the recorded region is backed; if the area has to grow and
    cannot, it returns -1 and leaves the table, the free list and `sbrk` alone. -/
structure AllocSound (k : CharKind) (sched : SchedState ℕ) (s : Kernel) (x i : ℕ) (mm : MmStruct) (vma : VmAreaStruct)
    (size : AddrT) (r : Fin pagingMaxSymtblSz) (junk : BYTE) : Prop where
  backed : ∀ t mm' vma', s.liballoc k sched x size (BitVec.ofNat 32 r) junk = .ok (0, t) → t.mm x = some mm' →
    mm'.mmap[i]? = some vma' → BackedIn k mm' t.mram vma' (mm'.symrgtbl.get r)
  refused : foundRegion size vma = none → ¬ CanExtend sched s x →
    ∃ t mm' vma', s.liballoc k sched x size (BitVec.ofNat 32 r) junk = .ok (-1, t) ∧ t.mm x = some mm' ∧
      mm'.mmap[i]? = some vma' ∧ mm'.symrgtbl = mm.symrgtbl ∧ vma'.vmFreergList = vma.vmFreergList ∧
      vma'.sbrk = vma.sbrk

/-- The region that first fit takes a piece of. -/
def fitting (size : AddrT) (vma : VmAreaStruct) : Option VmRgStruct :=
  (firstFit (intSize size) vma.vmFreergList).filter (·.rgStart != -1)

/-- **The states in which it keeps the promise.** The first free region with room has something behind its first
    `size` bytes. Without such a region, the addresses from `(int) sbrk` on have to be below `sbrk` and mapped
    already. -/
def Backable (k : CharKind) (sched : SchedState ℕ) (s : Kernel) (x : ℕ) (mm : MmStruct) (vma : VmAreaStruct)
    (size : AddrT) : Prop :=
  match fitting size vma with
  | some rg => BackedIn k mm s.mram vma ⟨rg.rgStart, rg.rgStart + intSize size⟩
  | none    => CanExtend sched s x ∧ BackedIn k mm s.mram vma ⟨oldSbrk vma, oldSbrk vma + size⟩

theorem carve_fst (size : AddrT) (l : List VmRgStruct) :
    (carve size l).1 = (firstFit size l).map fun rg => ⟨rg.rgStart, rg.rgStart + size⟩ := by
  induction l with
  | nil => rfl
  | cons rgit l ih =>
    rw [firstFit, List.find?_cons]
    by_cases hfits : rgit.Fits size
    · rw [carve_cons_of_fits hfits, decide_eq_true hfits]
      rfl
    · rw [carve_cons_of_not_fits hfits, decide_eq_false hfits]
      exact ih

/-- What is found is the first piece of what fits. -/
theorem foundRegion_eq (size : AddrT) (vma : VmAreaStruct) :
    foundRegion size vma = (fitting size vma).map fun rg => ⟨rg.rgStart, rg.rgStart + intSize size⟩ := by
  rw [foundRegion, fitting, carve_fst]
  cases firstFit (intSize size) vma.vmFreergList with
  | none => rfl
  | some rg =>
    rw [Option.map_some, Option.filter_some, Option.filter_some]
    split
    · rfl
    · rfl

section

variable {k : CharKind} {sched : SchedState ℕ} {s : Kernel} {x i : ℕ} {mm : MmStruct} {vma : VmAreaStruct}
  {size : AddrT} {r : Fin pagingMaxSymtblSz} {junk : BYTE}

/-- The limits and the pages are as before the call. -/
theorem backedIn_recordRegion (h : AreaZero mm i vma) (size : AddrT) (r : Fin pagingMaxSymtblSz) (rg : VmRgStruct) :
    (∀ vma', (recordRegion mm i vma size r).mmap[i]? = some vma' →
        BackedIn k (recordRegion mm i vma size r) s.mram vma' rg) ↔ BackedIn k mm s.mram vma rg := by
  have hlt : i < mm.mmap.length := (List.getElem?_eq_some_iff.mp h.mmap).1
  have hget : (recordRegion mm i vma size r).mmap[i]?
      = some { vma with vmFreergList := (carve (intSize size) vma.vmFreergList).2 } := by
    rw [recordRegion, List.getElem?_set_self hlt]
  constructor
  · intro hall
    obtain ⟨hstart, hlimit, hpages⟩ := hall _ hget
    exact ⟨hstart, hlimit, hpages⟩
  · rintro ⟨hstart, hlimit, hpages⟩ vma' hvma
    obtain rfl := Option.some.inj (hget.symm.trans hvma)
    exact ⟨hstart, hlimit, hpages⟩

/-- **`liballoc` keeps its promise exactly in those states.** -/
theorem allocSound_iff_backable (hm : s.mm x = some mm) (h : AreaZero mm i vma) :
    AllocSound k sched s x i mm vma size r junk ↔ Backable k sched s x mm vma size := by
  have hcall := liballoc_area k sched hm h size r junk
  have hget : (recordRegion mm i vma size r).symrgtbl.get r
      = (foundRegion size vma).getD ⟨oldSbrk vma, oldSbrk vma + size⟩ := by
    rw [recordRegion, get_set, if_pos rfl]
  have hbacked : (∀ t mm' vma', s.liballoc k sched x size (BitVec.ofNat 32 r) junk = .ok (0, t) → t.mm x = some mm' →
        mm'.mmap[i]? = some vma' → BackedIn k mm' t.mram vma' (mm'.symrgtbl.get r)) ↔
      BackedIn k mm s.mram vma ((foundRegion size vma).getD ⟨oldSbrk vma, oldSbrk vma + size⟩) := by
    rw [← backedIn_recordRegion h size r, ← hget]
    constructor
    · intro hall vma' hvma
      exact hall (s.setMm x (recordRegion mm i vma size r)) _ vma' hcall (Kernel.mm_setMm_self ..) hvma
    · intro hall t mm' vma' ht hmm hvma
      rw [hcall] at ht
      cases ht
      obtain rfl := Option.some.inj ((Kernel.mm_setMm_self ..).symm.trans hmm)
      exact hall vma' hvma
  have hnever : ¬ ∃ t mm' vma', s.liballoc k sched x size (BitVec.ofNat 32 r) junk = .ok (-1, t) ∧ t.mm x = some mm' ∧
      mm'.mmap[i]? = some vma' ∧ mm'.symrgtbl = mm.symrgtbl ∧ vma'.vmFreergList = vma.vmFreergList ∧
      vma'.sbrk = vma.sbrk := by
    rintro ⟨t, mm', vma', ht, -⟩
    rw [hcall] at ht
    cases ht
  have hfound := foundRegion_eq size vma
  unfold Backable
  cases hfit : fitting size vma with
  | some rg =>
    rw [hfit, Option.map_some] at hfound
    rw [hfound, Option.getD_some] at hbacked
    constructor
    · intro hsound
      exact hbacked.mp hsound.backed
    · intro hrg
      refine ⟨hbacked.mpr hrg, fun hnone => ?_⟩
      rw [hfound] at hnone
      cases hnone
  | none =>
    rw [hfit, Option.map_none] at hfound
    rw [hfound, Option.getD_none] at hbacked
    constructor
    · intro hsound
      refine ⟨?_, hbacked.mp hsound.backed⟩
      by_contra hcannot
      exact hnever (hsound.refused hfound hcannot)
    · rintro ⟨hcan, hrg⟩
      exact ⟨hbacked.mpr hrg, fun _ hcannot => absurd hcan hcannot⟩

/-- Growth does not help: there is nothing above `sbrk`, unless a sum wraps around. -/
theorem fitting_of_backable (hsize : 0 < size) (hint : vma.sbrk.toNat < 2 ^ 31)
    (hwrap : vma.sbrk.toNat + size.toNat < 2 ^ 64) (h : Backable k sched s x mm vma size) :
    ∃ rg, fitting size vma = some rg := by
  cases hfit : fitting size vma with
  | some rg => exact ⟨rg, rfl⟩
  | none =>
    rw [Backable, hfit] at h
    have hlimit : (oldSbrk vma + size).toNat ≤ vma.sbrk.toNat := h.2.limit
    have hold : (oldSbrk vma).toNat = vma.sbrk.toNat := by
      have hlow : (vma.sbrk.setWidth 32 : BitVec 32).toNat = vma.sbrk.toNat := by
        rw [BitVec.toNat_setWidth]
        omega
      have hsmall : (vma.sbrk.setWidth 32 : BitVec 32).toNat < 2 ^ 31 := by
        rw [hlow]
        exact hint
      rw [oldSbrk, signExtend_of_lt hsmall, BitVec.toNat_setWidth, hlow]
      omega
    have hpos : 0 < size.toNat := hsize
    rw [BitVec.toNat_add, hold] at hlimit
    omega

end

/-- **When an allocation is backed.** With a `sbrk` that is an `int`, and a size that does not wrap around, only a
    region of the free list can make it so. -/
theorem allocSound_iff (k : CharKind) (sched : SchedState ℕ) (s : Kernel) (x i : ℕ) (mm : MmStruct)
    (vma : VmAreaStruct) (size : AddrT) (r : Fin pagingMaxSymtblSz) (junk : BYTE) (hm : s.mm x = some mm)
    (h : AreaZero mm i vma) (hsize : 0 < size) :
    (AllocSound k sched s x i mm vma size r junk ↔ Backable k sched s x mm vma size) ∧
      (vma.sbrk.toNat < 2 ^ 31 → vma.sbrk.toNat + size.toNat < 2 ^ 64 → Backable k sched s x mm vma size →
        ∃ rg, fitting size vma = some rg) := by
  constructor
  · exact allocSound_iff_backable hm h
  · exact fitting_of_backable hsize

/-- An area of one page, all of it free. -/
def onePage : VmAreaStruct := ⟨0, 0, 4096, 4096, [⟨0, 4096⟩]⟩

/-- A process with that area and its page 0 mapped gets 100 bytes of it. -/
theorem allocSound_onePage : ∃ (s : Kernel) (mm : MmStruct), s.mm 0 = some mm ∧ mm.mmap = [onePage] ∧
    AllocSound .unsigned .static s 0 0 mm onePage 100 regA 0 := by
  obtain ⟨m, mp, g, htable⟩ := first_page
  have hpresent := present_entry (get32bitEntry .unsigned mp (entryAddr g (ptIdx 0))) (.setFpn 5)
  rw [← htable.word_apply] at hpresent
  let mm : MmStruct := { m with mmap := [onePage] }
  let s : Kernel := ⟨fun _ => some mm, ((PteCall.setFpn 5).apply m 0 mp).2, rawMp⟩
  refine ⟨s, mm, rfl, rfl, ?_⟩
  apply (allocSound_iff .unsigned .static s 0 0 mm onePage 100 regA 0 rfl ⟨rfl, rfl⟩ (by decide)).1.mpr
  have hfit : fitting 100 onePage = some ⟨0, 4096⟩ := by decide
  rw [Backable, hfit]
  refine ⟨BitVec.le_refl _, by decide, fun a _ ha => .inl ?_⟩
  -- the 100 bytes are in page 0
  have hpage : a >>> 12 = 0 := by
    have hlt : a.toNat < 100 := ha
    apply BitVec.eq_of_toNat_eq
    rw [BitVec.toNat_ushiftRight, Nat.shiftRight_eq_div_pow]
    show a.toNat / 2 ^ 12 = 0
    omega
  rw [hpage]
  exact hpresent

/-- **The first allocation of a process** returns 0, and its region is above `sbrk`. -/
theorem first_alloc_unbacked : ¬ ∀ (k : CharKind) (sched : SchedState ℕ) (s : Kernel) (x i : ℕ) (mm : MmStruct)
    (vma : VmAreaStruct) (size : AddrT) (r : Fin pagingMaxSymtblSz) (junk : BYTE), s.mm x = some mm →
      AreaZero mm i vma → 0 < size → AllocSound k sched s x i mm vma size r junk := by
  intro hall
  obtain ⟨m₀, m, mram, hinit, harea, -⟩ := initMm_oneFrame
  let s : Kernel := Kernel.setMm { oneFrame with mram } 0 m
  have hm : s.mm 0 = some m := Kernel.mm_setMm_self ..
  have hsound := hall .signed .static s 0 0 m (vma0 []) 100 regA 0 hm harea.areaZero (by decide)
  have hbackable := (allocSound_iff_backable hm harea.areaZero).mp hsound
  have hpos : (0 : AddrT) < 100 := by decide
  have hint : (vma0 []).sbrk.toNat < 2 ^ 31 := Nat.two_pow_pos 31
  have hwrap : (vma0 []).sbrk.toNat + (100 : AddrT).toNat < 2 ^ 64 := by decide
  -- no free region has room for it
  obtain ⟨rg, hfit⟩ := fitting_of_backable hpos hint hwrap hbackable
  have hnone : fitting 100 (vma0 []) = none := by decide
  rw [hnone] at hfit
  cases hfit

end LamiaAtrium
