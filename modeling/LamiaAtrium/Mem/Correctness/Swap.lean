import LamiaAtrium.Mem.Access

/-!
# `Mem.Correctness.Swap` — a page sent to swap and brought back

`__swap_cp_page` counts a frame as `PAGING_PAGESZ` cells from `fpn * PAGING_PAGESZ` on, `translate_address` as
`PAGING64_PAGESZ` bytes from `fpn * PAGING64_PAGESZ` on. So a copy touches no byte that a page in that frame has,
but for the first cells of frame 0.

* `storage_swapCpPage`: all that one copy does.
* `storage_roundTrip`: all that two do, with any change of RAM between them.
* `pagePreserved_iff`: the page is back exactly when it did not have to be copied. Some change always prevents
  that, whatever the frames and the contents.
-/

namespace LamiaAtrium

/-! ## Cells and bytes -/

/-- The cells of a frame, as `__swap_cp_page` counts them. -/
def frameCell (fpn : AddrT) (j : ℕ) : AddrT := fpn * BitVec.ofNat 64 pagingPagesz + BitVec.ofNat 64 j

/-- The bytes of a frame, as `translate_address` counts them (`translateAddress_walk`). -/
def frameByte (fpn : AddrT) (j : ℕ) : AddrT := baseOf fpn + BitVec.ofNat 64 j

/-- `fpn` is one of the frames that the device is cut into. Its size is an `int`. -/
structure HasFrame (mp : MemphyStruct) (fpn : AddrT) : Prop where
  cut : (fpn.toNat : ℤ) < mp.maxsz.tdiv pagingPagesz
  size : mp.maxsz < 2 ^ 31

theorem frameCell_inj {fpn : AddrT} {i j : ℕ} (hi : i < pagingPagesz) (hj : j < pagingPagesz)
    (h : frameCell fpn i = frameCell fpn j) : i = j := by
  have hnat := congrArg BitVec.toNat ((BitVec.add_right_inj _).mp h)
  rw [BitVec.toNat_ofNat, BitVec.toNat_ofNat] at hnat
  unfold pagingPagesz at hi hj
  omega

section

variable {mp : MemphyStruct} {fpn : AddrT}

theorem HasFrame.lt (h : HasFrame mp fpn) : fpn.toNat < 2 ^ 31 := by
  obtain ⟨hcut, hsize⟩ := h
  rcases le_total 0 mp.maxsz with hpos | hneg
  · have hle := Int.tdiv_le_self (pagingPagesz : ℤ) hpos
    omega
  · have hle := Int.tdiv_nonneg (neg_nonneg.mpr hneg) (Int.natCast_nonneg pagingPagesz)
    rw [Int.neg_tdiv] at hle
    omega

theorem HasFrame.toNat_frameCell (h : HasFrame mp fpn) {j : ℕ} (hj : j < 4096) :
    (frameCell fpn j).toNat = fpn.toNat * 256 + j := by
  have hlt := h.lt
  simp only [frameCell, pagingPagesz, BitVec.toNat_add, BitVec.toNat_mul, BitVec.toNat_ofNat]
  omega

theorem HasFrame.toNat_frameByte (h : HasFrame mp fpn) {j : ℕ} (hj : j < paging64Pagesz) :
    (frameByte fpn j).toNat = fpn.toNat * 4096 + j := by
  have hlt := h.lt
  unfold paging64Pagesz at hj
  simp only [frameByte, baseOf, paging64Pagesz, BitVec.toNat_add, BitVec.toNat_mul, BitVec.toNat_ofNat]
  omega

/-- **The cells are none of the bytes**, but for the first ones of frame 0. -/
theorem HasFrame.frameCell_eq_frameByte (h : HasFrame mp fpn) {i j : ℕ} (hi : i < pagingPagesz)
    (hj : j < paging64Pagesz) : frameCell fpn i = frameByte fpn j ↔ fpn = 0 ∧ i = j := by
  have hi' : i < 256 := hi
  have hcell := h.toNat_frameCell (hi'.trans (by decide))
  have hbyte := h.toNat_frameByte hj
  constructor
  · intro heq
    rw [heq, hbyte] at hcell
    have hzero : fpn.toNat = 0 := by omega
    refine ⟨BitVec.eq_of_toNat_eq hzero, by omega⟩
  · rintro ⟨rfl, rfl⟩
    apply BitVec.eq_of_toNat_eq
    rw [hcell, hbyte]
    rfl

end

/-! ## Copies -/

theorem storage_swapCpLoop {src : MemphyStruct} {srcfpn dstfpn : AddrT} (hsrc : src.rdmflg = true) (n : ℕ) :
    ∀ {i : ℕ} {data : BYTE} {dst : MemphyStruct}, dst.rdmflg = true → i + n ≤ pagingPagesz →
      ∀ j, i ≤ j → j < i + n →
        (swapCpLoop src srcfpn dstfpn i n data dst).storage (frameCell dstfpn j)
          = src.storage (frameCell srcfpn j) := by
  induction n with
  | zero =>
    intro i data dst _ _ j hij hj
    omega
  | succ n ih =>
    intro i data dst hdst hin j hij hj
    rw [swapCpLoop, memphyRead_of_rdm hsrc, Option.map_some, Option.getD_some]
    by_cases hfirst : j = i
    · -- written in this turn, and in no later one
      subst hfirst
      rw [swapCpLoop_frame, memphyWriteIgn_of_rdm hdst]
      · exact Function.update_self ..
      · intro _ m hm hmn heq
        have hjm : j = m := frameCell_inj (by omega) (by omega) heq
        omega
    · refine ih ?_ (by omega) j (by omega) (by omega)
      rw [rdmflg_memphyWriteIgn]
      exact hdst

/-- **The cells of the target frame are those of the source frame, and nothing else changes.** -/
theorem storage_swapCpPage {src dst : MemphyStruct} (hsrc : src.rdmflg = true) (hdst : dst.rdmflg = true)
    (srcfpn dstfpn : AddrT) (junk : BYTE) :
    (∀ j < pagingPagesz, (swapCpPage src srcfpn dst dstfpn junk).storage (frameCell dstfpn j)
        = src.storage (frameCell srcfpn j)) ∧
      ∀ a, (∀ j < pagingPagesz, a ≠ frameCell dstfpn j) →
        (swapCpPage src srcfpn dst dstfpn junk).storage a = dst.storage a := by
  constructor
  · intro j hj
    have hloop := @storage_swapCpLoop src srcfpn dstfpn hsrc pagingPagesz 0 junk dst hdst
    rw [swapCpPage]
    exact hloop (Nat.le_of_eq (Nat.zero_add _)) j (Nat.zero_le j) (by rw [Nat.zero_add]; exact hj)
  · intro a ha
    apply swapCpPage_frame
    rw [mem_swapAccess]
    rintro ⟨-, j, hj, heq⟩
    exact ha j hj heq

@[simp] theorem rdmflg_swapCpLoop (src : MemphyStruct) (srcfpn dstfpn : AddrT) (i n : ℕ) (data : BYTE)
    (dst : MemphyStruct) : (swapCpLoop src srcfpn dstfpn i n data dst).rdmflg = dst.rdmflg := by
  induction n generalizing i data dst with
  | zero => rfl
  | succ n ih => rw [swapCpLoop, ih, rdmflg_memphyWriteIgn]

/-! ## To swap and back -/

/-- `mram` has become `mram₁` after the page in frame `f` went to swap frame `s`; then it comes back to `f2`. -/
def roundTrip (mram mswp mram₁ : MemphyStruct) (f s f2 : AddrT) (junk junk₁ : BYTE) : MemphyStruct :=
  swapCpPage (swapCpPage mram f mswp s junk) s mram₁ f2 junk₁

section

variable {mram mswp mram₁ : MemphyStruct} {f s f2 : AddrT} {junk junk₁ : BYTE}

/-- **What a round trip does to RAM.** -/
theorem storage_roundTrip (hram : mram.rdmflg = true) (hswp : mswp.rdmflg = true) (hram₁ : mram₁.rdmflg = true) :
    (∀ j < pagingPagesz, (roundTrip mram mswp mram₁ f s f2 junk junk₁).storage (frameCell f2 j)
        = mram.storage (frameCell f j)) ∧
      ∀ a, (∀ j < pagingPagesz, a ≠ frameCell f2 j) →
        (roundTrip mram mswp mram₁ f s f2 junk junk₁).storage a = mram₁.storage a := by
  have hback : (swapCpPage mram f mswp s junk).rdmflg = true := by
    rw [swapCpPage, rdmflg_swapCpLoop]
    exact hswp
  obtain ⟨hcells, hothers⟩ := storage_swapCpPage hback hram₁ s f2 junk₁
  obtain ⟨hsent, -⟩ := storage_swapCpPage hram hswp f s junk
  rw [roundTrip]
  refine ⟨fun j hj => ?_, hothers⟩
  rw [hcells j hj, hsent j hj]

/-- The page is back, and neither copy has touched a byte of another frame. -/
structure PagePreserved (mram mswp mram₁ : MemphyStruct) (f s f2 : AddrT) (junk junk₁ : BYTE) : Prop where
  page : ∀ j < paging64Pagesz, (roundTrip mram mswp mram₁ f s f2 junk junk₁).storage (frameByte f2 j)
    = mram.storage (frameByte f j)
  ram : ∀ a, (∀ j < paging64Pagesz, a ≠ frameByte f2 j) →
    (roundTrip mram mswp mram₁ f s f2 junk junk₁).storage a = mram₁.storage a
  swap : ∀ a, (∀ j < pagingPagesz, a ≠ frameCell s j) → (swapCpPage mram f mswp s junk).storage a = mswp.storage a

/-- There was nothing to copy: the changes have left every byte of the page that no cell is, the cells of frame 0
    that are bytes of the page hold what they should already, and a cell of another frame is copied onto itself. -/
structure NothingToCopy (mram mram₁ : MemphyStruct) (f f2 : AddrT) : Prop where
  kept : ∀ j < paging64Pagesz, f2 ≠ 0 ∨ pagingPagesz ≤ j →
    mram₁.storage (frameByte f2 j) = mram.storage (frameByte f j)
  first : f2 = 0 → ∀ j < pagingPagesz, mram.storage (frameCell f j) = mram.storage (frameByte f j)
  other : f2 ≠ 0 → ∀ j < pagingPagesz, mram₁.storage (frameCell f2 j) = mram.storage (frameCell f j)

/-- A byte that no copy reaches is what the changes have made it. -/
theorem storage_roundTrip_frameByte (hram : mram.rdmflg = true) (hswp : mswp.rdmflg = true)
    (hram₁ : mram₁.rdmflg = true) (h2 : HasFrame mram f2) {j : ℕ} (hj : j < paging64Pagesz)
    (hfar : f2 ≠ 0 ∨ pagingPagesz ≤ j) :
    (roundTrip mram mswp mram₁ f s f2 junk junk₁).storage (frameByte f2 j) = mram₁.storage (frameByte f2 j) := by
  apply (storage_roundTrip hram hswp hram₁).2
  intro i hi heq
  obtain ⟨hzero, rfl⟩ := (h2.frameCell_eq_frameByte hi hj).mp heq.symm
  rcases hfar with hne | hle
  · exact hne hzero
  · omega

/-- The last byte of a page stays behind. -/
theorem not_pagePreserved (hram : mram.rdmflg = true) (hswp : mswp.rdmflg = true) (hram₁ : mram₁.rdmflg = true)
    (h2 : HasFrame mram f2) (hlast : mram₁.storage (frameByte f2 4095) ≠ mram.storage (frameByte f 4095)) :
    ¬ PagePreserved mram mswp mram₁ f s f2 junk junk₁ := by
  intro h
  apply hlast
  rw [← h.page 4095 (by decide), storage_roundTrip_frameByte hram hswp hram₁ h2 (by decide) (.inr (by decide))]

end

/-- **A round trip preserves a page exactly when it had nothing to copy**, and for no frames and contents does it
    do so under every change. -/
theorem pagePreserved_iff (mram mswp : MemphyStruct) (f s f2 : AddrT) (junk junk₁ : BYTE)
    (hram : mram.rdmflg = true) (hswp : mswp.rdmflg = true) (h2 : HasFrame mram f2) :
    (∀ mram₁ : MemphyStruct, mram₁.rdmflg = true →
      (PagePreserved mram mswp mram₁ f s f2 junk junk₁ ↔ NothingToCopy mram mram₁ f f2)) ∧
    ∃ mram₁ : MemphyStruct, mram₁.rdmflg = true ∧ mram₁.maxsz = mram.maxsz ∧
      ¬ PagePreserved mram mswp mram₁ f s f2 junk junk₁ := by
  constructor
  · intro mram₁ hram₁
    obtain ⟨hcells, hothers⟩ := @storage_roundTrip mram mswp mram₁ f s f2 junk junk₁ hram hswp hram₁
    constructor
    · intro h
      refine ⟨fun j hj hfar => ?_, ?_, fun hne j hj => ?_⟩
      · rw [← h.page j hj, storage_roundTrip_frameByte hram hswp hram₁ h2 hj hfar]
      · rintro rfl j hj
        have hj' : j < paging64Pagesz := Nat.lt_trans hj (by decide)
        have hsame := (h2.frameCell_eq_frameByte hj hj').mpr ⟨rfl, rfl⟩
        rw [← h.page j hj', ← hsame, hcells j hj]
      · rw [← hcells j hj]
        refine (h.ram _ fun i hi heq => hne ?_).symm
        exact ((h2.frameCell_eq_frameByte hj hi).mp heq).1
    · intro h
      refine ⟨fun j hj => ?_, fun a ha => ?_, (storage_swapCpPage hram hswp f s junk).2⟩
      · by_cases hfar : f2 ≠ 0 ∨ pagingPagesz ≤ j
        · rw [storage_roundTrip_frameByte hram hswp hram₁ h2 hj hfar, h.kept j hj hfar]
        · obtain ⟨hzero, hnear⟩ : f2 = 0 ∧ j < pagingPagesz := by
            rw [not_or, not_not, Nat.not_le] at hfar
            exact hfar
          rw [← h.first hzero j hnear, ← (h2.frameCell_eq_frameByte hnear hj).mpr ⟨hzero, rfl⟩, hcells j hnear]
      · by_cases hcell : ∃ j < pagingPagesz, a = frameCell f2 j
        · obtain ⟨j, hj, rfl⟩ := hcell
          have hne : f2 ≠ 0 := by
            intro hzero
            have hj' : j < paging64Pagesz := Nat.lt_trans hj (by decide)
            exact ha j hj' ((h2.frameCell_eq_frameByte hj hj').mpr ⟨hzero, rfl⟩)
          rw [hcells j hj, h.other hne j hj]
        · refine hothers a fun j hj heq => hcell ⟨j, hj, heq⟩
  · -- one byte of the page is overwritten while it is in swap
    refine ⟨memphyWriteIgn mram (frameByte f2 4095) (mram.storage (frameByte f 4095) + 1), ?_, ?_, ?_⟩
    · rw [rdmflg_memphyWriteIgn]
      exact hram
    · rw [maxsz_memphyWriteIgn]
    · apply not_pagePreserved hram hswp (by rw [rdmflg_memphyWriteIgn]; exact hram) h2
      rw [memphyWriteIgn_of_rdm hram]
      dsimp only
      rw [Function.update_self]
      have hnext : ∀ b : BYTE, b + 1 ≠ b := by decide
      exact hnext _

/-- Two frames of 4096 bytes. -/
def twoPages (b : BYTE) : MemphyStruct := { rawMp with rdmflg := true, maxsz := 8192, storage := fun _ => b }

theorem hasFrame_twoPages (b : BYTE) {fpn : AddrT} (h : fpn.toNat < 32) : HasFrame (twoPages b) fpn := by
  have hcut : (fpn.toNat : ℤ) < 32 := by exact_mod_cast h
  have hsize : (8192 : ℤ) < 2 ^ 31 := by decide
  exact ⟨hcut, hsize⟩

theorem pagePreserved_iff_twoPages :
    (∀ mram₁ : MemphyStruct, mram₁.rdmflg = true →
      (PagePreserved (twoPages 7) (twoPages 0) mram₁ 0 0 1 0 0 ↔ NothingToCopy (twoPages 7) mram₁ 0 1)) ∧
    ∃ mram₁ : MemphyStruct, mram₁.rdmflg = true ∧ mram₁.maxsz = (twoPages 7).maxsz ∧
      ¬ PagePreserved (twoPages 7) (twoPages 0) mram₁ 0 0 1 0 0 :=
  pagePreserved_iff (twoPages 7) (twoPages 0) 0 0 1 0 0 rfl rfl (hasFrame_twoPages 7 (by decide))

theorem pagePreserved_fails :
    ¬ ∀ mram mswp mram₁ f s f2 junk junk₁, mram.rdmflg = true → mswp.rdmflg = true → mram₁.rdmflg = true →
      mram₁.maxsz = mram.maxsz → HasFrame mram f → HasFrame mswp s → HasFrame mram f2 →
        PagePreserved mram mswp mram₁ f s f2 junk junk₁ := by
  intro h
  have h2 := hasFrame_twoPages 7 (show (1 : AddrT).toNat < 32 by decide)
  have hback := h (twoPages 7) (twoPages 0) (twoPages 0) 0 0 1 0 0 rfl rfl rfl rfl
    (hasFrame_twoPages 7 (by decide)) (hasFrame_twoPages 0 (by decide)) h2
  refine not_pagePreserved rfl rfl rfl h2 ?_ hback
  show (0 : BYTE) ≠ 7
  decide

end LamiaAtrium
