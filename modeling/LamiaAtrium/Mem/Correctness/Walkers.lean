import LamiaAtrium.Mem.Correctness.NewSpace
import LamiaAtrium.Mem.Correctness.PageNumbers
import LamiaAtrium.Mem.Correctness.PageTable
import LamiaAtrium.Mem.Correctness.Residency
import LamiaAtrium.Mem.Correctness.Status

/-!
# `Mem.Correctness.Walkers` — the walkers of the page table against each other

The five-level walk is written out in `translate_address`, in `get_pte_address` (which `pte_get_entry` goes through)
and in `pte_set_fpn`.

* `WalkersAgree`: on any memory, well-formed or not, they find the same entry (`walkers_agree`). The proof needs no
  forest: the three descend over the same list of indices, and the present bit is below bit 32.
* `FailedReadUnmapped`: a walk on which a read fails ends as a walk that finds nothing. The `-1` of `get_32bit_entry`
  has the present bit, so this holds only where no read can fail (`failedReadUnmapped_iff`).
-/

namespace LamiaAtrium

section

variable {k : CharKind} {mm : MmStruct} {mp : MemphyStruct} {vaddr pgn fpn : AddrT}

/-! ## One entry, three ways -/

/-- The frame number that `pte_get_entry` shows is the one that the walk goes by. -/
theorem toNat_pagingFpn (entry : AddrT) : (pagingFpn (entry.setWidth 32)).toNat = (entryFpn entry).toNat := by
  have hmask : pagingPteFpnMask.toNat = 2 ^ 13 - 1 := by decide
  have hwide : (0x1FFF#64).toNat = 2 ^ 13 - 1 := by decide
  rw [pagingFpn, BitVec.ushiftRight_zero, BitVec.toNat_and, BitVec.toNat_setWidth, hmask,
    Nat.and_two_pow_sub_one_eq_mod, entryFpn, BitVec.toNat_and, hwide, Nat.and_two_pow_sub_one_eq_mod,
    Nat.mod_mod_of_dvd _ (by decide)]

/-- The address that a present entry gives. -/
theorem toNat_entryBase_add (entry vaddr : AddrT) :
    (entryBase entry + (vaddr &&& 0xFFF#64)).toNat = (entryFpn entry).toNat * 4096 + vaddr.toNat % 4096 := by
  have hlt := entryFpn_lt entry
  rw [entryBase_eq, baseOf_add_offset, BitVec.toNat_ofNat]
  exact Nat.mod_eq_of_lt (by omega)

/-- The loop that writes an entry changes the four bytes at most, and nothing but bytes. -/
theorem putEntryBytes_only (mp : MemphyStruct) (addr v : AddrT) :
    putEntryBytes mp addr v = { mp with storage := (putEntryBytes mp addr v).storage } ∧
      ∀ a, (∀ i < 4, a ≠ addr + BitVec.ofNat 64 i) → (putEntryBytes mp addr v).storage a = mp.storage a := by
  cases hrdm : mp.rdmflg with
  | true =>
    refine ⟨?_, fun a ha => storage_putEntryBytes_of_ne hrdm ha⟩
    rw [← hrdm]
    exact putEntryBytes_eq hrdm addr v
  | false =>
    have hsame : putEntryBytes mp addr v = mp := by simp only [putEntryBytes, putBytesLoop, memphyWriteIgn_of_seq hrdm]
    rw [hsame]
    exact ⟨by rw [← hrdm], fun _ _ => rfl⟩

/-- Where `get_pte_address` finds an entry, `pte_set_fpn` allocates nothing and writes it in place. -/
theorem pteSetFpn_of_getPteAddress {pteAddr : AddrT} (h : getPteAddress k mm mp pgn = some pteAddr) :
    pteSetFpn k mm mp pgn fpn = (0, putEntryBytes mp pteAddr (leafEntry (get32bitEntry k mp pteAddr) fpn)) := by
  unfold getPteAddress at h
  split at h
  · exact absurd h (by simp)
  · rename_i ptBase hwalk
    obtain rfl := Option.some.inj h
    rw [pteSetFpn, allocTables_of_walk hwalk]

end

/-! ## Agreement -/

/-- **The walkers agree** about an address and its page. -/
structure WalkersAgree (k : CharKind) (mm : MmStruct) (mp : MemphyStruct) (vaddr fpn : AddrT) : Prop where
  /-- `translate_address` succeeds when `pte_get_entry` returns a present entry, and only then. -/
  succeeds : (translateAddress k mm mp vaddr).isSome = pagingPagePresent (pteGetEntry k mm mp (vaddr >>> 12))
  result : ∀ paddr, translateAddress k mm mp vaddr = some paddr →
    paddr.toNat = (pagingFpn (pteGetEntry k mm mp (vaddr >>> 12))).toNat * 4096 + vaddr.toNat % 4096
  /-- Where `get_pte_address` succeeds, `pte_set_fpn` changes the four bytes there at most: no frame, no table. -/
  inPlace : ∀ pteAddr, getPteAddress k mm mp (vaddr >>> 12) = some pteAddr →
    ∃ storage, pteSetFpn k mm mp (vaddr >>> 12) fpn = (0, { mp with storage := storage }) ∧
      ∀ a, (∀ i < 4, a ≠ pteAddr + BitVec.ofNat 64 i) → storage a = mp.storage a

/-- **On every memory the walkers agree**, for every address and every frame number. -/
theorem walkers_agree (k : CharKind) (mm : MmStruct) (mp : MemphyStruct) (vaddr fpn : AddrT) :
    WalkersAgree k mm mp vaddr fpn := by
  have hlook := looksUpPage_shift vaddr k mm mp
  refine ⟨?_, ?_, ?_⟩
  · rw [hlook, pteGetEntry]
    cases getPteAddress k mm mp (vaddr >>> 12) with
    | none =>
      show false = pagingPagePresent 0
      decide
    | some pteAddr =>
      dsimp only
      rw [Option.bind_some, pagingPagePresent_setWidth]
      cases entryPresent (get32bitEntry k mp pteAddr) with
      | true => simp
      | false => simp
  · intro paddr hpaddr
    rw [hlook] at hpaddr
    obtain ⟨pteAddr, hpte, hentry⟩ := Option.bind_eq_some_iff.mp hpaddr
    split at hentry
    · obtain rfl := Option.some.inj hentry
      rw [pteGetEntry, hpte]
      dsimp only
      rw [toNat_pagingFpn, toNat_entryBase_add]
    · exact absurd hentry (by simp)
  · intro pteAddr hpte
    obtain ⟨hshape, hothers⟩ := putEntryBytes_only mp pteAddr (leafEntry (get32bitEntry k mp pteAddr) fpn)
    refine ⟨_, ?_, hothers⟩
    rw [pteSetFpn_of_getPteAddress hpte, ← hshape]

/-! ## Reads that fail -/

/-- The reads of `translate_address` that fail. -/
def translateFailures (k : CharKind) (mm : MmStruct) (mp : MemphyStruct) (vaddr : AddrT) : List MemOp :=
  walkFailures k mp mm.pgd (getPdFromAddress vaddr).upper ++
    match walkTables k mp mm.pgd (getPdFromAddress vaddr).upper with
    | none        => []
    | some ptBase => get32bitFailures mp (ptBase + (getPdFromAddress vaddr).pt * 4) 0 4

/-- The reads of `get_pte_address` that fail. -/
def getPteFailures (k : CharKind) (mm : MmStruct) (mp : MemphyStruct) (pgn : AddrT) : List MemOp :=
  walkFailures k mp mm.pgd (getPdFromPagenum pgn).upper

/-- **A failed device read is not a mapping**: a walker below which a read fails reports that there is no entry, and
    `pte_set_fpn` leaves the device as it is. -/
structure FailedReadUnmapped (k : CharKind) (mm : MmStruct) (mp : MemphyStruct) (vaddr pgn fpn : AddrT) : Prop where
  translate : .memphyRead ∈ translateFailures k mm mp vaddr → translateAddress k mm mp vaddr = none
  getPte : .memphyRead ∈ getPteFailures k mm mp pgn → getPteAddress k mm mp pgn = none
  getEntry : .memphyRead ∈ pteGetFailures k mm mp pgn → pagingPagePresent (pteGetEntry k mm mp pgn) = false
  setFpn : .memphyRead ∈ pteSetFpnFailures k mm mp pgn fpn → pteSetFpn k mm mp pgn fpn = (-1, mp)

section

variable {k : CharKind} {mm : MmStruct} {mp : MemphyStruct} {vaddr pgn fpn : AddrT}

/-- The first read of a walk on a sequential device fails. -/
theorem mem_translateFailures_of_seq (h : mp.rdmflg = false) : .memphyRead ∈ translateFailures k mm mp vaddr := by
  have hread : ∀ a, memphyRead mp a = none := fun a => by simp [memphyRead, memphySeqRead, h]
  rw [translateFailures, PdIndices.upper, walkFailures, get32bitFailures, hread]
  simp

/-- **A failed read is no mapping exactly where no read fails**, on a random-access device. -/
theorem failedReadUnmapped_iff (k : CharKind) (mm : MmStruct) (mp : MemphyStruct) (vaddr pgn fpn : AddrT) :
    FailedReadUnmapped k mm mp vaddr pgn fpn ↔ mp.rdmflg = true := by
  constructor
  · intro h
    by_contra hrdm
    have hseq : mp.rdmflg = false := Bool.eq_false_iff.mpr hrdm
    exact translateAddress_of_seq hseq vaddr (h.translate (mem_translateFailures_of_seq hseq))
  · intro h
    have hwalk : ∀ is base, walkFailures k mp base is = [] := fun is => walkFailures_of_rdm h is
    refine ⟨fun hmem => ?_, fun hmem => ?_, fun hmem => ?_, fun hmem => ?_⟩
    · rw [translateFailures, hwalk, List.nil_append] at hmem
      split at hmem
      · exact absurd hmem List.not_mem_nil
      · rw [get32bitFailures_of_rdm h] at hmem
        exact absurd hmem List.not_mem_nil
    · rw [getPteFailures, hwalk] at hmem
      exact absurd hmem List.not_mem_nil
    · rw [pteGetFailures_eq_nil_iff.mpr h] at hmem
      exact absurd hmem List.not_mem_nil
    · rw [(pteSetFpnFailures_of_rdm h pgn fpn).1] at hmem
      exact absurd hmem List.not_mem_nil

end

/-- A device that is not random access, as it is before `init_memphy`: address 0 translates, although no read has
    succeeded. -/
theorem failedReadUnmapped_fails :
    ¬ ∀ k mm mp vaddr pgn fpn, FailedReadUnmapped k mm mp vaddr pgn fpn := by
  intro hall
  exact translateAddress_of_seq rfl 0
    ((hall .signed rawMm rawMp 0 0 0).translate (mem_translateFailures_of_seq rfl))

end LamiaAtrium
