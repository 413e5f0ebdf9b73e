import LamiaAtrium.Mem.Correctness.Codec

/-!
# `Mem.Correctness.Teardown` — what `free_pcb_memph` puts on the free lists

The function takes `mm->pgd` for an array of 16384 entries, and puts one frame for each of them on a list: an entry
with the present bit goes to RAM, every other one to the swap device (`freePcbMemph_eq`). An entry of a page that was
never mapped has neither bit, and one that `pte_set_swap` has written has both.

`teardown_iff`: that is right exactly when each entry has one of the two bits, and they name different frames in use.
-/

namespace LamiaAtrium

/-! ## Entries -/

/-- The page is in RAM. -/
def PteResident (pte : BitVec 32) : Prop := pagingPagePresent pte = true ∧ pte &&& pagingPteSwappedMask = 0

instance : DecidablePred PteResident := fun _ => inferInstanceAs (Decidable (_ ∧ _))

/-- The page is in swap. -/
def PteSwapped (pte : BitVec 32) : Prop := pte &&& pagingPteSwappedMask ≠ 0

instance : DecidablePred PteSwapped := fun _ => inferInstanceAs (Decidable (_ ≠ _))

/-- The frame that a resident page names. -/
def pteFrame (pte : BitVec 32) : AddrT := (pagingFpn pte).setWidth 64

/-- The frame that a swapped page names. -/
def pteSwapFrame (pte : BitVec 32) : AddrT := (pagingSwp pte).setWidth 64

theorem pagingSwp_lt (pte : BitVec 32) : (pagingSwp pte).toNat < 2 ^ 31 := by
  rw [pagingSwp, BitVec.toNat_ushiftRight, Nat.shiftRight_eq_div_pow]
  have hlt := (pte &&& pagingPteSwpoffMask).isLt
  omega

/-! ## The loop -/

/-- The entries of `l` that have the present bit, or the ones that do not. -/
def withPresent (b : Bool) (l : List (BitVec 32)) : List (BitVec 32) := l.filter fun pte => pagingPagePresent pte == b

/-- **The loop puts a frame on a list for every entry.** -/
theorem foldl_freePcbTurn (l : List (BitVec 32)) : ∀ s : Kernel, l.foldl Kernel.freePcbTurn s =
    { s with
      mram := { s.mram with freeFpList := ((withPresent true l).map pteFrame).reverse ++ s.mram.freeFpList }
      activeMswp := { s.activeMswp with
        freeFpList := ((withPresent false l).map pteSwapFrame).reverse ++ s.activeMswp.freeFpList } } := by
  induction l with
  | nil =>
    intro s
    rfl
  | cons pte l ih =>
    intro s
    rw [List.foldl_cons, ih, Kernel.freePcbTurn]
    cases hpresent : pagingPagePresent pte with
    | true =>
      have hfpn : (pagingFpn pte).signExtend 64 = pteFrame pte :=
        signExtend_of_lt ((pagingFpn_lt pte).trans (by decide))
      simp [memphyPutFreefp, hfpn, withPresent, hpresent]
    | false =>
      have hswp : (pagingSwp pte).signExtend 64 = pteSwapFrame pte := signExtend_of_lt (pagingSwp_lt pte)
      simp [memphyPutFreefp, hswp, withPresent, hpresent]

/-- The entries that the function reads. -/
def pgdEntries (host : AddrT → AddrT) (mm : MmStruct) : List (BitVec 32) :=
  (List.range pagingMaxPgn).map (pgdEntry host mm)

theorem freePcbMemph_eq (host : AddrT → AddrT) {s : Kernel} {x : ℕ} {mm : MmStruct} (hm : s.mm x = some mm) :
    s.freePcbMemph host x
      = if mm.pgd = 0 then .error .nullDeref else .ok (0, (pgdEntries host mm).foldl Kernel.freePcbTurn s) := by
  rw [Kernel.freePcbMemph, Kernel.mmOf_eq_ok.mpr hm]
  rfl

/-! ## Exactly what was owned -/

section

variable (want : BitVec 32 → Prop) (frame : BitVec 32 → AddrT) (old : List AddrT) (l : List (BitVec 32))

/-- `added` is what the wanted entries of `l` name: each frame once, and none that was on the list already. -/
structure ExactlyOnce (added : List AddrT) : Prop where
  named : ∀ f, f ∈ added ↔ ∃ pte ∈ l, want pte ∧ frame pte = f
  once : added.Nodup
  new : ∀ f ∈ added, f ∉ old

/-- The wanted entries name different frames, and none that is on the list. -/
structure NamesApart [DecidablePred want] : Prop where
  distinct : ((l.filter want).map frame).Nodup
  new : ∀ pte ∈ l, want pte → frame pte ∉ old

variable {want frame old l}

/-- Putting back what the entries with property `p` name is exact when these are the wanted ones, and name frames
    apart. -/
theorem exactlyOnce_iff [DecidablePred want] {p : BitVec 32 → Bool} (hsub : ∀ pte ∈ l, want pte → p pte = true) :
    ExactlyOnce want frame old l ((l.filter p).map frame).reverse ↔
      (∀ pte ∈ l, p pte = true → want pte) ∧ NamesApart want frame old l := by
  have hmem : ∀ f, f ∈ ((l.filter p).map frame).reverse ↔ ∃ pte ∈ l, p pte = true ∧ frame pte = f := by
    intro f
    simp [and_assoc]
  have hfilter : (∀ pte ∈ l, p pte = true → want pte) → l.filter p = l.filter want := by
    intro hwant
    apply List.filter_congr
    intro pte hpte
    rw [Bool.eq_iff_iff, decide_eq_true_iff]
    exact ⟨hwant pte hpte, hsub pte hpte⟩
  constructor
  · rintro ⟨hnamed, honce, hnew⟩
    rw [List.nodup_reverse] at honce
    have hwant : ∀ pte ∈ l, p pte = true → want pte := by
      intro pte hpte hp
      -- its frame is named by a wanted entry, and that is the same entry
      obtain ⟨q, hq, hwq, hframe⟩ := (hnamed (frame pte)).mp ((hmem _).mpr ⟨pte, hpte, hp, rfl⟩)
      have hsame : q = pte := List.inj_on_of_nodup_map honce (List.mem_filter.mpr ⟨hq, hsub q hq hwq⟩)
        (List.mem_filter.mpr ⟨hpte, hp⟩) hframe
      rwa [← hsame]
    refine ⟨hwant, ?_, ?_⟩
    · rw [← hfilter hwant]
      exact honce
    · intro pte hpte hw
      exact hnew _ ((hmem _).mpr ⟨pte, hpte, hsub pte hpte hw, rfl⟩)
  · rintro ⟨hwant, hdistinct, hnew⟩
    refine ⟨?_, ?_, ?_⟩
    · intro f
      rw [hmem]
      constructor
      · rintro ⟨pte, hpte, hp, hf⟩
        exact ⟨pte, hpte, hwant pte hpte hp, hf⟩
      · rintro ⟨pte, hpte, hw, hf⟩
        exact ⟨pte, hpte, hsub pte hpte hw, hf⟩
    · rw [List.nodup_reverse, hfilter hwant]
      exact hdistinct
    · intro f hf
      obtain ⟨pte, hpte, hp, rfl⟩ := (hmem f).mp hf
      exact hnew pte hpte (hwant pte hpte hp)

end

/-- **What a teardown should do** with the entries in `l`: the frames of resident pages go back to RAM, those of
    swapped pages to the swap device, and nothing else does. -/
structure TeardownExact (l : List (BitVec 32)) (s t : Kernel) : Prop where
  mram : ∃ added, t.mram.freeFpList = added ++ s.mram.freeFpList ∧
    ExactlyOnce PteResident pteFrame s.mram.freeFpList l added
  activeMswp : ∃ added, t.activeMswp.freeFpList = added ++ s.activeMswp.freeFpList ∧
    ExactlyOnce PteSwapped pteSwapFrame s.activeMswp.freeFpList l added

/-- **The page tables for which it does**: every page is mapped, none has both bits, and the frames are different
    ones in use. -/
structure TeardownOk (l : List (BitVec 32)) (s : Kernel) : Prop where
  oneBit : ∀ pte ∈ l, pagingPagePresent pte = true ↔ ¬ PteSwapped pte
  mram : NamesApart PteResident pteFrame s.mram.freeFpList l
  activeMswp : NamesApart PteSwapped pteSwapFrame s.activeMswp.freeFpList l

theorem teardownExact_foldl_iff (l : List (BitVec 32)) (s : Kernel) :
    TeardownExact l s (l.foldl Kernel.freePcbTurn s) ↔ TeardownOk l s := by
  have hram := @exactlyOnce_iff PteResident pteFrame s.mram.freeFpList l _ (fun pte => pagingPagePresent pte == true)
    fun pte _ hres => beq_iff_eq.mpr hres.1
  constructor
  · rintro ⟨⟨added, hadded, hexact⟩, ⟨added', hadded', hexact'⟩⟩
    rw [foldl_freePcbTurn] at hadded hadded'
    obtain rfl := List.append_cancel_right hadded
    obtain rfl := List.append_cancel_right hadded'
    obtain ⟨hpresent, hapart⟩ := hram.mp hexact
    -- an entry with the swapped bit is not taken for a resident one
    have hswapped : ∀ pte ∈ l, PteSwapped pte → (pagingPagePresent pte == false) = true := by
      intro pte hpte hswp
      rw [beq_iff_eq, ← Bool.not_eq_true]
      intro hp
      exact hswp (hpresent pte hpte (beq_iff_eq.mpr hp)).2
    obtain ⟨habsent, hapart'⟩ := (exactlyOnce_iff hswapped).mp hexact'
    refine ⟨fun pte hpte => ⟨fun hp hswp => ?_, fun hswp => ?_⟩, hapart, hapart'⟩
    · exact hswp (hpresent pte hpte (beq_iff_eq.mpr hp)).2
    · by_contra hp
      exact hswp (habsent pte hpte (by simpa using hp))
  · rintro ⟨hbit, hapart, hapart'⟩
    rw [foldl_freePcbTurn]
    refine ⟨⟨_, rfl, hram.mpr ⟨fun pte hpte hp => ?_, hapart⟩⟩, ⟨_, rfl, (exactlyOnce_iff ?_).mpr ⟨?_, hapart'⟩⟩⟩
    · have hp' := beq_iff_eq.mp hp
      exact ⟨hp', not_not.mp ((hbit pte hpte).mp hp')⟩
    · intro pte hpte hswp
      rw [beq_iff_eq, ← Bool.not_eq_true]
      intro hp
      exact (hbit pte hpte).mp hp hswp
    · intro pte hpte hp
      by_contra hswp
      rw [(hbit pte hpte).mpr hswp] at hp
      exact absurd hp (by decide)

/-- `free_pcb_memph` comes to an end, and has done what it should. -/
def TearsDown (host : AddrT → AddrT) (s : Kernel) (x : ℕ) (mm : MmStruct) : Prop :=
  ∃ t, s.freePcbMemph host x = .ok (0, t) ∧ TeardownExact (pgdEntries host mm) s t

/-- **`free_pcb_memph` returns exactly what was owned** when `pgd` leads to 16384 entries of which each has one of
    the two bits, and they name different frames that are in use. -/
theorem teardown_iff (host : AddrT → AddrT) (s : Kernel) (x : ℕ) (mm : MmStruct) (hm : s.mm x = some mm) :
    TearsDown host s x mm ↔ mm.pgd ≠ 0 ∧ TeardownOk (pgdEntries host mm) s := by
  rw [TearsDown, freePcbMemph_eq host hm]
  by_cases hpgd : mm.pgd = 0
  · rw [if_pos hpgd]
    constructor
    · rintro ⟨t, hcall, -⟩
      cases hcall
    · rintro ⟨hne, -⟩
      exact absurd hpgd hne
  · rw [if_neg hpgd, ← teardownExact_foldl_iff]
    constructor
    · rintro ⟨t, hcall, hexact⟩
      obtain ⟨-, rfl⟩ := Prod.mk.inj (Except.ok.inj hcall)
      exact ⟨hpgd, hexact⟩
    · rintro ⟨-, hexact⟩
      exact ⟨_, rfl, hexact⟩

/-- A process with its top level in frame 1, and pools without a frame. -/
def tornDown : Kernel := ⟨fun _ => some { rawMm with pgd := 4096 }, rawMp, rawMp⟩

/-- An entry with the swapped bit alone, for swap frame `i`. -/
def swappedOnly (i : ℕ) : BitVec 32 := Mask.put pagingPteSwpoffMask pagingPteSwappedMask (BitVec.ofNat 32 i <<< 5)

theorem swappedOnly_spec {i : ℕ} (hi : i < pagingMaxPgn) :
    pagingPagePresent (swappedOnly i) = false ∧ PteSwapped (swappedOnly i) ∧
      pteSwapFrame (swappedOnly i) = BitVec.ofNat 64 i := by
  have hlt : i < 16384 := hi
  refine ⟨?_, ?_, ?_⟩
  · rw [pagingPagePresent, swappedOnly, Mask.put_and_of_disjoint (by decide)]
    decide
  · rw [PteSwapped, swappedOnly, Mask.put_and_of_disjoint (by decide)]
    decide
  · have hsmall : (BitVec.ofNat 32 i).toNat < 2 ^ 21 := by
      rw [BitVec.toNat_ofNat]
      omega
    rw [pteSwapFrame, pagingSwp, swappedOnly, Mask.put_and_self,
      Mask.get_of_range (by decide) (by decide) hsmall]
    exact BitVec.setWidth_ofNat_of_le_of_lt (by decide) (hlt.trans (by decide))

/-- Every page is in a swap frame of its own. -/
theorem teardown_iff_swapped : TearsDown (fun a => (swappedOnly ((a - 4096).toNat / 8)).setWidth 64) tornDown 0
    { rawMm with pgd := 4096 } := by
  refine (teardown_iff _ tornDown 0 { rawMm with pgd := 4096 } rfl).mpr ⟨by decide, ?_⟩
  have hentries : pgdEntries (fun a => (swappedOnly ((a - 4096).toNat / 8)).setWidth 64) { rawMm with pgd := 4096 }
      = (List.range pagingMaxPgn).map swappedOnly := by
    apply List.map_congr_left
    intro i hi
    have hlt : i < 16384 := List.mem_range.mp hi
    have hidx : ((4096 : AddrT) + BitVec.ofNat 64 (8 * i) - 4096).toNat / 8 = i := by
      rw [BitVec.add_comm, BitVec.add_sub_cancel, BitVec.toNat_ofNat]
      omega
    rw [pgdEntry, hidx, BitVec.setWidth_setWidth_of_le _ (by decide), BitVec.setWidth_eq]
  have hspec : ∀ pte ∈ (List.range pagingMaxPgn).map swappedOnly, pagingPagePresent pte = false ∧ PteSwapped pte := by
    intro pte hpte
    obtain ⟨i, hi, rfl⟩ := List.mem_map.mp hpte
    obtain ⟨habsent, hswp, -⟩ := swappedOnly_spec (List.mem_range.mp hi)
    exact ⟨habsent, hswp⟩
  have hnotResident : ∀ pte ∈ (List.range pagingMaxPgn).map swappedOnly, ¬ PteResident pte := by
    intro pte hpte hres
    exact (hspec pte hpte).2 hres.2
  rw [hentries]
  refine ⟨?_, ⟨?_, ?_⟩, ⟨?_, ?_⟩⟩
  · intro pte hpte
    obtain ⟨habsent, hswp⟩ := hspec pte hpte
    simp [habsent, hswp]
  · rw [List.filter_eq_nil_iff.mpr (by simpa using hnotResident)]
    exact List.nodup_nil
  · intro pte hpte hres
    exact absurd hres (hnotResident pte hpte)
  · rw [List.filter_eq_self.mpr fun pte hpte => decide_eq_true (hspec pte hpte).2, List.map_map]
    refine List.Nodup.map_on ?_ List.nodup_range
    intro i hi j hj heq
    rw [List.mem_range] at hi hj
    have hframe : pteSwapFrame (swappedOnly i) = pteSwapFrame (swappedOnly j) := heq
    rw [(swappedOnly_spec hi).2.2, (swappedOnly_spec hj).2.2] at hframe
    have hnat := congrArg BitVec.toNat hframe
    have hi' : i < 16384 := hi
    have hj' : j < 16384 := hj
    rw [BitVec.toNat_ofNat, BitVec.toNat_ofNat] at hnat
    omega
  · intro pte _ _
    exact List.not_mem_nil

/-- A process without a page: frame 0 goes to the swap device 16384 times. -/
theorem teardown_fails : ¬ ∀ (host : AddrT → AddrT) (s : Kernel) (x : ℕ) (mm : MmStruct), s.mm x = some mm →
    mm.pgd ≠ 0 → TearsDown host s x mm := by
  intro h
  obtain ⟨t, hcall, hexact⟩ := h (fun _ => 0) tornDown 0 { rawMm with pgd := 4096 } rfl (by decide)
  rw [freePcbMemph_eq _ rfl, if_neg (by decide)] at hcall
  obtain ⟨-, rfl⟩ := Prod.mk.inj (Except.ok.inj hcall)
  have hbit := ((teardownExact_foldl_iff _ _).mp hexact).oneBit 0
    (List.mem_map.mpr ⟨0, List.mem_range.mpr (by decide), rfl⟩)
  exact absurd hbit (by decide)

end LamiaAtrium
