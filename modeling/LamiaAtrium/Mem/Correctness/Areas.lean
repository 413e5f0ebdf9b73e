import LamiaAtrium.Mem.Libmem

/-!
# `Mem.Correctness.Areas` — the list of areas: lookup and overlap

* `FindsArea`: `get_vma_by_num` returns the area with the number that was asked for, and `NULL` when there is none.
  The loop stops at the first number that is not smaller, without asking whether it is the right one, and runs off
  the end of the list when all of them are smaller (`findsArea_iff`).
* `OverlapRefused`: `validate_overlap_vm_area` accepts a planned range exactly when it shares no address with another
  area. The macro `OVERLAP` is a placeholder, so every range is accepted (`overlapRefused_iff`).
-/

namespace LamiaAtrium

section

variable {mm : MmStruct} {vmaid : BitVec 32} {l : List VmAreaStruct}

/-! ## The search -/

/-- Numbers below 2^31 are compared as they are. -/
theorem vmId_slt_iff {id : BitVec 64} (hid : id.toNat < 2 ^ 31) (hpos : 0 ≤ vmaid.toInt) :
    (id.setWidth 32 : BitVec 32).slt vmaid = true ↔ id.toNat < vmaid.toNat := by
  have hnarrow : (id.setWidth 32 : BitVec 32).toNat = id.toNat := by
    rw [BitVec.toNat_setWidth]
    exact Nat.mod_eq_of_lt (hid.trans (by decide))
  have hleft : (id.setWidth 32 : BitVec 32).toInt = id.toNat := by
    rw [BitVec.toInt_eq_toNat_of_lt (by omega), hnarrow]
  have hright : vmaid.toInt = vmaid.toNat := by
    rw [BitVec.toInt_eq_toNat_cond] at hpos ⊢
    split at hpos
    · rename_i hlow
      exact if_pos hlow
    · have := vmaid.isLt
      omega
  rw [BitVec.slt_iff_toInt_lt, hleft, hright]
  omega

/-- The numbers of the areas increase, and stay below 2^31. -/
structure Numbered (l : List VmAreaStruct) : Prop where
  increasing : l.Pairwise fun v w => v.vmId.toNat < w.vmId.toNat
  small : ∀ v ∈ l, v.vmId.toNat < 2 ^ 31

theorem Numbered.tail {v : VmAreaStruct} (h : Numbered (v :: l)) : Numbered l :=
  ⟨h.increasing.of_cons, fun w hw => h.small w (List.mem_cons_of_mem v hw)⟩

/-- The search comes to the area with the number that was asked for. -/
theorem getVmaLoop_of_getElem? (hpos : 0 ≤ vmaid.toInt) : ∀ {l : List VmAreaStruct} {i n : ℕ} {vma : VmAreaStruct},
    Numbered l → l[n]? = some vma → vma.vmId.toNat = vmaid.toNat → getVmaLoop vmaid i l = .ok (i + n) := by
  intro l
  induction l with
  | nil =>
    intro i n vma _ hn _
    simp at hn
  | cons v l ih =>
    intro i n vma hl hn hid
    have hslt := vmId_slt_iff (hl.small v List.mem_cons_self) hpos
    rw [getVmaLoop]
    cases n with
    | zero =>
      obtain rfl := Option.some.inj ((List.getElem?_cons_zero ..).symm.trans hn)
      rw [if_neg (by rw [hslt]; omega), Nat.add_zero]
    | succ n =>
      rw [List.getElem?_cons_succ] at hn
      have hlt := (List.pairwise_cons.mp hl.increasing).1 vma (List.mem_of_getElem? hn)
      rw [if_pos (hslt.mpr (by omega)), ih hl.tail hn hid]
      congr 1
      omega

/-- The loop stops at some area as soon as one of them has the number, whatever the others have. -/
theorem getVmaLoop_stops : ∀ {l : List VmAreaStruct} {i : ℕ} {vma : VmAreaStruct}, vma ∈ l →
    (vma.vmId.setWidth 32 : BitVec 32) = vmaid → ∃ n, n < l.length ∧ getVmaLoop vmaid i l = .ok (i + n) := by
  intro l
  induction l with
  | nil =>
    intro i vma hmem _
    exact absurd hmem List.not_mem_nil
  | cons v l ih =>
    intro i vma hmem hid
    rw [getVmaLoop]
    by_cases hslt : (v.vmId.setWidth 32 : BitVec 32).slt vmaid = true
    · have hne : vma ≠ v := by
        rintro rfl
        rw [hid, BitVec.slt_iff_toInt_lt] at hslt
        exact absurd hslt (lt_irrefl _)
      obtain ⟨n, hn, hloop⟩ := ih (i := i + 1) ((List.mem_cons.mp hmem).resolve_left hne) hid
      refine ⟨n + 1, by simpa using hn, ?_⟩
      rw [if_pos hslt, hloop]
      congr 1
      omega
    · exact ⟨0, by simp, by rw [if_neg hslt, Nat.add_zero]⟩

end

/-! ## Lookup -/

/-- **`get_vma_by_num` returns the area with number `vmaid`**, and `NULL` when there is none. -/
def FindsArea (mm : MmStruct) (vmaid : BitVec 32) : Prop :=
  ∃ found, getVmaByNum mm vmaid = .ok found ∧
    ∀ i, found = some i ↔ ∃ vma, mm.mmap[i]? = some vma ∧ vma.vmId.toNat = vmaid.toNat

/-- **On a list with increasing numbers, the lookup is right exactly when** the list is empty or has the number. -/
theorem findsArea_iff (mm : MmStruct) (vmaid : BitVec 32) (hl : Numbered mm.mmap) (hpos : 0 ≤ vmaid.toInt) :
    FindsArea mm vmaid ↔ mm.mmap = [] ∨ ∃ vma ∈ mm.mmap, vma.vmId.toNat = vmaid.toNat := by
  by_cases hnil : mm.mmap = []
  · refine ⟨fun _ => .inl hnil, fun _ => ⟨none, ?_, fun i => ?_⟩⟩
    · rw [getVmaByNum, hnil]
    · rw [hnil]
      simp
  have hloop : getVmaByNum mm vmaid = (getVmaLoop vmaid 0 mm.mmap).map some := by
    unfold getVmaByNum
    split
    · rename_i hnil'
      exact absurd hnil' hnil
    · rfl
  constructor
  · rintro ⟨found, hfound, hiff⟩
    right
    -- a pointer to an area has come back, and it is the right one
    rw [hloop] at hfound
    cases hidx : getVmaLoop vmaid 0 mm.mmap with
    | error e =>
      rw [hidx] at hfound
      exact absurd hfound (by simp [Except.map])
    | ok i =>
      rw [hidx] at hfound
      obtain ⟨vma, hvma, hid⟩ := (hiff i).mp (Except.ok.inj hfound).symm
      exact ⟨vma, List.mem_of_getElem? hvma, hid⟩
  · intro hcond
    obtain ⟨vma, hmem, hid⟩ := hcond.resolve_left hnil
    obtain ⟨n, hn⟩ := List.mem_iff_getElem?.mp hmem
    have hres := getVmaLoop_of_getElem? (i := 0) hpos hl hn hid
    refine ⟨some n, by rw [hloop, hres, Nat.zero_add]; rfl, fun i => ⟨?_, ?_⟩⟩
    · rintro hi
      obtain rfl := Option.some.inj hi
      exact ⟨vma, hn, hid⟩
    · rintro ⟨w, hw, hwid⟩
      -- the loop cannot come to two different areas
      have hres' := getVmaLoop_of_getElem? (i := 0) hpos hl hw hwid
      have heq := Except.ok.inj (hres.symm.trans hres')
      rw [show n = i by omega]

/-- An area with number `id` and the given bounds. -/
def areaOf (id : BitVec 64) (vmStart vmEnd : AddrT) : VmAreaStruct := ⟨id, vmStart, vmEnd, vmStart, []⟩

theorem numbered_singleton : Numbered [areaOf 0 0 0] := by
  refine ⟨List.pairwise_singleton _ _, fun v hv => ?_⟩
  rw [List.mem_singleton.mp hv]
  decide

/-- The list that `init_mm` makes, asked for area 0. -/
theorem findsArea_iff_first : FindsArea { rawMm with mmap := [areaOf 0 0 0] } 0 :=
  (findsArea_iff { rawMm with mmap := [areaOf 0 0 0] } 0 numbered_singleton (by decide)).mpr
    (.inr ⟨areaOf 0 0 0, List.mem_singleton.mpr rfl, by decide⟩)

/-- The same list, asked for area 1: the loop reads `vm_id` through `NULL`. -/
theorem findsArea_fails :
    ¬ ∀ (mm : MmStruct) (vmaid : BitVec 32), Numbered mm.mmap → 0 ≤ vmaid.toInt → FindsArea mm vmaid := by
  intro hall
  obtain ⟨found, hfound, -⟩ := hall { rawMm with mmap := [areaOf 0 0 0] } 1 numbered_singleton (by decide)
  have hnull : getVmaByNum { rawMm with mmap := [areaOf 0 0 0] } 1 = .error .nullDeref := by rfl
  rw [hnull] at hfound
  exact absurd hfound (by simp)

/-! ## Overlap -/

/-- The planned range shares no address with an area other than the one with position `j`. -/
def ApartFromOthers (mm : MmStruct) (j : ℕ) (vmastart vmaend : AddrT) : Prop :=
  ∀ i vma, mm.mmap[i]? = some vma → i ≠ j →
    ∀ a, ¬ (vmastart ≤ a ∧ a < vmaend ∧ vma.vmStart ≤ a ∧ a < vma.vmEnd)

/-- **`validate_overlap_vm_area` accepts a planned range of area `j` exactly when** it shares no address with another
    area. -/
def OverlapRefused (mm : MmStruct) (j : ℕ) (vmaid : BitVec 32) (vmastart vmaend : AddrT) : Prop :=
  validateOverlapVmArea mm vmaid vmastart vmaend = .ok 0 ↔ ApartFromOthers mm j vmastart vmaend

/-- The loop finds no overlap in any list. -/
theorem validateLoop_eq (cur : ℕ) (curArea : VmAreaStruct) (l : List VmAreaStruct) :
    ∀ i, validateLoop cur curArea i l = 0 := by
  induction l with
  | nil =>
    intro i
    rfl
  | cons vma l ih =>
    intro i
    rw [validateLoop, if_neg (by simp [overlap])]
    exact ih (i + 1)

/-- Every planned range of an area in the list is accepted. -/
theorem validateOverlapVmArea_eq {mm : MmStruct} {vmaid : BitVec 32} {vmastart vmaend : AddrT} {vma : VmAreaStruct}
    (hmem : vma ∈ mm.mmap) (hid : (vma.vmId.setWidth 32 : BitVec 32) = vmaid) (hlt : vmastart < vmaend) :
    validateOverlapVmArea mm vmaid vmastart vmaend = .ok 0 := by
  obtain ⟨n, hn, hloop⟩ := getVmaLoop_stops (i := 0) hmem hid
  have hne : mm.mmap ≠ [] := List.ne_nil_of_mem hmem
  have hnum : getVmaByNum mm vmaid = .ok (some n) := by
    unfold getVmaByNum
    split
    · rename_i hnil
      exact absurd hnil hne
    · rw [hloop, Nat.zero_add]
      rfl
  have harea : areaAt mm (some n) = .ok (n, mm.mmap[n]) := by
    rw [areaAt, List.getElem?_eq_getElem hn]
  rw [validateOverlapVmArea, if_neg (BitVec.not_le.mpr hlt), if_neg (by simpa using hne)]
  refine bind_eq_ok.mpr ⟨some n, hnum, bind_eq_ok.mpr ⟨(n, mm.mmap[n]), harea, ?_⟩⟩
  exact congrArg Except.ok (validateLoop_eq n _ mm.mmap 0)

/-- **The validation is right exactly for the ranges that it may accept.** -/
theorem overlapRefused_iff (mm : MmStruct) (j : ℕ) (vma : VmAreaStruct) (vmaid : BitVec 32) (vmastart vmaend : AddrT)
    (hj : mm.mmap[j]? = some vma) (hid : (vma.vmId.setWidth 32 : BitVec 32) = vmaid) (hlt : vmastart < vmaend) :
    OverlapRefused mm j vmaid vmastart vmaend ↔ ApartFromOthers mm j vmastart vmaend := by
  have hok := validateOverlapVmArea_eq (List.mem_of_getElem? hj) hid hlt
  unfold OverlapRefused
  rw [hok]
  exact ⟨fun h => h.mp rfl, fun h => ⟨fun _ => h, fun _ => rfl⟩⟩

/-- Two areas that share no address, and the bounds of the first one as the plan. -/
theorem overlapRefused_iff_apart :
    OverlapRefused { rawMm with mmap := [areaOf 0 0 256, areaOf 1 256 512] } 0 0 0 256 := by
  refine (overlapRefused_iff { rawMm with mmap := [areaOf 0 0 256, areaOf 1 256 512] } 0 (areaOf 0 0 256) 0 0 256
    (by rfl) (by decide) (by decide)).mpr ?_
  intro i vma hi hne a ha
  obtain ⟨n, rfl⟩ := Nat.exists_eq_succ_of_ne_zero hne
  rw [List.getElem?_cons_succ] at hi
  obtain rfl := List.mem_singleton.mp (List.mem_of_getElem? hi)
  exact BitVec.not_le.mpr ha.2.1 ha.2.2.1

/-- A plan for area 0 that covers area 1 is accepted. -/
theorem overlapRefused_fails :
    ¬ ∀ (mm : MmStruct) (j : ℕ) (vma : VmAreaStruct) (vmaid : BitVec 32) (vmastart vmaend : AddrT),
      mm.mmap[j]? = some vma → (vma.vmId.setWidth 32 : BitVec 32) = vmaid → vmastart < vmaend →
        OverlapRefused mm j vmaid vmastart vmaend := by
  intro hall
  have hiff := hall { rawMm with mmap := [areaOf 0 0 256, areaOf 1 256 512] } 0 (areaOf 0 0 256) 0 0 512
    (by rfl) (by decide) (by decide)
  have hok := @validateOverlapVmArea_eq { rawMm with mmap := [areaOf 0 0 256, areaOf 1 256 512] } 0 0 512
    (areaOf 0 0 256) List.mem_cons_self (by decide) (by decide)
  exact hiff.mp hok 1 (areaOf 1 256 512) (by rfl) (by decide) 300 (by decide)

end LamiaAtrium
