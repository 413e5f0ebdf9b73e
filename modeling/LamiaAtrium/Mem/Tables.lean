import Mathlib.Tactic
import LamiaAtrium.Lib.Mask
import LamiaAtrium.Lib.Radix.Partial
import LamiaAtrium.Mem.Paging

/-!
# `Mem.Tables` — the bytes of a RAM device as a forest of page tables

`tables` reads a device as the store of `Lib.Radix.Forest`: a table is a frame number, an index one of 512, and the
content of an entry the frame it names when it is present.

* `Survives` says which frame numbers come back from an entry: 13 bits are kept, and when plain `char` is
  signed a low byte with its top bit set spoils the ones above it.
* `tables_putEntryBytes` and `tables_clear` say what the two byte loops do to the forest.
* `allocTables_descend`, `pteSetFpn_insert`, `translateAddress_walk` and `pteGetEntry_walk` connect the
  functions of `mm64.c` to the operations of the library. Nothing above this file looks at bytes again.
-/

namespace LamiaAtrium

open Radix

/-! ## Four bytes and their value -/

/-- The value of four bytes, least significant first. -/
def decodeBytes (k : CharKind) (b : ℕ → BYTE) : AddrT :=
  k.extend (b 0) ||| k.extend (b 1) <<< 8 ||| k.extend (b 2) <<< 16 ||| k.extend (b 3) <<< 24

/-- Byte `i` of a value. -/
def byteOf (v : AddrT) (i : ℕ) : BYTE := ((v >>> (i * 8)) &&& 0xFF#64).setWidth 8

theorem getLsbD_byteOf (v : AddrT) (i : ℕ) {j : ℕ} (hj : j < 8) :
    (byteOf v i).getLsbD j = v.getLsbD (i * 8 + j) := by
  have hmask : ∀ j < 8, (0xFF#64).getLsbD j = true := by decide
  unfold byteOf
  rw [BitVec.getLsbD_setWidth, BitVec.getLsbD_and, BitVec.getLsbD_ushiftRight, hmask j hj]
  simp [hj]

theorem getLsbD_decode_unsigned (b : ℕ → BYTE) {n : ℕ} (hn : n < 32) :
    (decodeBytes .unsigned b).getLsbD n = (b (n / 8)).getLsbD (n % 8) := by
  unfold decodeBytes CharKind.extend
  simp only [BitVec.getLsbD_or, BitVec.getLsbD_shiftLeft, BitVec.getLsbD_setWidth]
  interval_cases n <;> simp

/-- With an unsigned `char` the 32 bits of a value are read back. -/
theorem setWidth_decode_unsigned (v : AddrT) :
    (decodeBytes .unsigned (byteOf v)).setWidth 32 = v.setWidth 32 := by
  apply BitVec.eq_of_getLsbD_eq
  intro n hn
  rw [BitVec.getLsbD_setWidth, BitVec.getLsbD_setWidth, getLsbD_decode_unsigned _ hn,
    getLsbD_byteOf _ _ (Nat.mod_lt _ (by decide)), Nat.div_add_mod']

/-- With a signed `char` the lowest 16 bits survive when the top bit of the lowest byte is clear. -/
theorem getLsbD_decode_signed (b : ℕ → BYTE) {n : ℕ} (hn : n < 16) (h7 : (b 0).getLsbD 7 = false) :
    (decodeBytes .signed b).getLsbD n = (b (n / 8)).getLsbD (n % 8) := by
  have h7' : (b 0)[7] = false := by simpa using h7
  unfold decodeBytes CharKind.extend
  simp only [BitVec.getLsbD_or, BitVec.getLsbD_shiftLeft, BitVec.getLsbD_signExtend,
    BitVec.msb_eq_getLsbD_last]
  interval_cases n <;> simp [h7']

/-- The top bit of the highest byte always survives. -/
theorem getLsbD_decode_31 (k : CharKind) (b : ℕ → BYTE) (h : (b 3).getLsbD 7 = true) :
    (decodeBytes k b).getLsbD 31 = true := by
  have h' : (b 3)[7] = true := by simpa using h
  unfold decodeBytes CharKind.extend
  cases k <;>
    simp only [BitVec.getLsbD_or, BitVec.getLsbD_shiftLeft, BitVec.getLsbD_signExtend,
      BitVec.getLsbD_setWidth] <;>
    simp [h']

/-- The frame number of an entry. -/
def entryFpn (entry : AddrT) : AddrT := entry &&& 0x1FFF#64

theorem getLsbD_fpnMask (n : ℕ) : (0x1FFF#64).getLsbD n = decide (n < 13) := by
  by_cases hn : n < 64
  · revert n
    decide
  · rw [BitVec.getLsbD_of_ge _ _ (by omega)]
    exact (decide_eq_false (by omega)).symm

theorem entryPresent_eq (entry : AddrT) : entryPresent entry = entry.getLsbD 31 := by
  have hflag : entry &&& pagingPtePresentMask.setWidth 64 = 0 ↔ entry.getLsbD 31 = false :=
    Mask.and_flag_eq_zero_iff (by decide) (by decide)
  unfold entryPresent
  cases hbit : entry.getLsbD 31 with
  | true =>
    rw [bne_iff_ne]
    intro hzero
    rw [hflag.mp hzero] at hbit
    cases hbit
  | false =>
    rw [bne_eq_false_iff_eq]
    exact hflag.mpr hbit

/-- Which frame numbers an entry returns unchanged. -/
def Survives (k : CharKind) (fpn : AddrT) : Prop :=
  fpn.toNat < 8192 ∧ (k = .signed → fpn.getLsbD 7 = false)

/-- An entry that is written as present reads back so. -/
theorem present_byteOf {k : CharKind} {v : AddrT} (hpresent : v.getLsbD 31 = true) :
    entryPresent (decodeBytes k (byteOf v)) = true := by
  rw [entryPresent_eq]
  exact getLsbD_decode_31 k _ (by rw [getLsbD_byteOf v 3 (by decide)]; exact hpresent)

/-- An entry that is written as present and with a surviving frame number reads back so. -/
theorem decode_byteOf {k : CharKind} {v fpn : AddrT} (hfpn : Survives k fpn) (hpresent : v.getLsbD 31 = true)
    (hlow : ∀ n < 13, v.getLsbD n = fpn.getLsbD n) :
    entryPresent (decodeBytes k (byteOf v)) = true ∧ entryFpn (decodeBytes k (byteOf v)) = fpn := by
  refine ⟨present_byteOf hpresent, ?_⟩
  apply BitVec.eq_of_getLsbD_eq
  intro n _
  rw [entryFpn, BitVec.getLsbD_and, getLsbD_fpnMask]
  by_cases hn : n < 13
  · have hbit : (decodeBytes k (byteOf v)).getLsbD n = (byteOf v (n / 8)).getLsbD (n % 8) := by
      cases k with
      | unsigned => exact getLsbD_decode_unsigned _ (by omega)
      | signed =>
        refine getLsbD_decode_signed _ (by omega) ?_
        rw [getLsbD_byteOf v 0 (by decide), hlow _ (by decide)]
        exact hfpn.2 rfl
    rw [hbit, getLsbD_byteOf v _ (Nat.mod_lt _ (by decide)), Nat.div_add_mod', hlow n hn]
    simp [hn]
  · -- above bit 12 both sides are zero
    have hzero : fpn.getLsbD n = false := Mask.getLsbD_of_lt hfpn.1 (Nat.le_of_not_lt hn)
    simp [hn, hzero]

/-! ## What the byte loops do -/

section

variable {mp : MemphyStruct}

theorem get32bitEntry_of_rdm (h : mp.rdmflg = true) (k : CharKind) (base : AddrT) :
    get32bitEntry k mp base = decodeBytes k fun i => mp.storage (base + BitVec.ofNat 64 i) := by
  simp [get32bitEntry, get32bitLoop, memphyRead_of_rdm h, decodeBytes]

/-- Every read of a sequential device fails. -/
theorem get32bitEntry_of_seq (h : mp.rdmflg = false) (k : CharKind) (base : AddrT) : get32bitEntry k mp base = -1 := by
  simp [get32bitEntry, get32bitLoop, memphyRead, memphySeqRead, h]

@[simp] theorem rdmflg_putEntryBytes (mp : MemphyStruct) (addr v : AddrT) :
    (putEntryBytes mp addr v).rdmflg = mp.rdmflg := by
  simp [putEntryBytes, putBytesLoop]

@[simp] theorem freeFpList_putEntryBytes (mp : MemphyStruct) (addr v : AddrT) :
    (putEntryBytes mp addr v).freeFpList = mp.freeFpList := by
  simp [putEntryBytes, putBytesLoop]

@[simp] theorem maxsz_putEntryBytes (mp : MemphyStruct) (addr v : AddrT) :
    (putEntryBytes mp addr v).maxsz = mp.maxsz := by
  simp [putEntryBytes, putBytesLoop]

/-- The four bytes are stored at the four addresses. -/
theorem storage_putEntryBytes_self (h : mp.rdmflg = true) (addr v : AddrT) {i : ℕ} (hi : i < 4) :
    (putEntryBytes mp addr v).storage (addr + BitVec.ofNat 64 i) = byteOf v i := by
  simp only [putEntryBytes, putBytesLoop, memphyWriteIgn_of_rdm, h]
  interval_cases i <;> simp [byteOf]

/-- Nothing else changes. -/
theorem storage_putEntryBytes_of_ne (h : mp.rdmflg = true) {addr v a : AddrT}
    (ha : ∀ i < 4, a ≠ addr + BitVec.ofNat 64 i) : (putEntryBytes mp addr v).storage a = mp.storage a := by
  simp only [putEntryBytes, putBytesLoop, memphyWriteIgn_of_rdm, h]
  rw [Function.update_of_ne (ha 3 (by decide)), Function.update_of_ne (ha 2 (by decide)),
    Function.update_of_ne (ha 1 (by decide)), Function.update_of_ne (ha 0 (by decide))]

/-- The write loop changes the bytes of the device and nothing else. -/
theorem putEntryBytes_eq (h : mp.rdmflg = true) (a v : AddrT) :
    putEntryBytes mp a v = { mp with storage := (putEntryBytes mp a v).storage } := by
  simp only [putEntryBytes, putBytesLoop, memphyWriteIgn_of_rdm, h]

@[simp] theorem rdmflg_clearLoop (base : AddrT) (i n : ℕ) (mp : MemphyStruct) :
    (clearLoop base i n mp).rdmflg = mp.rdmflg := by
  induction n generalizing i mp with
  | zero => rfl
  | succ n ih => rw [clearLoop, ih, rdmflg_memphyWriteIgn]

@[simp] theorem freeFpList_clearLoop (base : AddrT) (i n : ℕ) (mp : MemphyStruct) :
    (clearLoop base i n mp).freeFpList = mp.freeFpList := by
  induction n generalizing i mp with
  | zero => rfl
  | succ n ih => rw [clearLoop, ih, freeFpList_memphyWriteIgn]

@[simp] theorem maxsz_clearLoop (base : AddrT) (i n : ℕ) (mp : MemphyStruct) :
    (clearLoop base i n mp).maxsz = mp.maxsz := by
  induction n generalizing i mp with
  | zero => rfl
  | succ n ih => rw [clearLoop, ih, maxsz_memphyWriteIgn]

/-- The bytes in the range become zero. -/
theorem storage_clearLoop_self {i n j : ℕ} (h : mp.rdmflg = true) (base : AddrT) (hi : i ≤ j)
    (hj : j < i + n) : (clearLoop base i n mp).storage (base + BitVec.ofNat 64 j) = 0 := by
  have hkeep : ∀ {i n} {mp : MemphyStruct}, mp.rdmflg = true → mp.storage (base + BitVec.ofNat 64 j) = 0 →
      (clearLoop base i n mp).storage (base + BitVec.ofNat 64 j) = 0 := by
    intro i n
    induction n generalizing i with
    | zero =>
      intro mp _ hzero
      exact hzero
    | succ n ih =>
      intro mp h hzero
      rw [clearLoop, memphyWriteIgn_of_rdm h]
      refine ih (i := i + 1) h ?_
      show Function.update mp.storage _ 0 _ = 0
      rw [Function.update_apply, hzero]
      split <;> rfl
  induction n generalizing i mp with
  | zero => omega
  | succ n ih =>
    rw [clearLoop]
    by_cases hij : i = j
    · subst hij
      refine hkeep (by rw [rdmflg_memphyWriteIgn]; exact h) ?_
      rw [memphyWriteIgn_of_rdm h]
      exact Function.update_self ..
    · exact ih (by rw [rdmflg_memphyWriteIgn]; exact h) (by omega) (by omega)

/-- Nothing else changes. -/
theorem storage_clearLoop_of_ne {i n : ℕ} (h : mp.rdmflg = true) {base a : AddrT}
    (ha : ∀ j, i ≤ j → j < i + n → a ≠ base + BitVec.ofNat 64 j) :
    (clearLoop base i n mp).storage a = mp.storage a := by
  induction n generalizing i mp with
  | zero => rfl
  | succ n ih =>
    rw [clearLoop, ih (by rw [rdmflg_memphyWriteIgn]; exact h) (fun j h1 h2 => ha j (by omega) (by omega)),
      memphyWriteIgn_of_rdm h]
    exact Function.update_of_ne (ha i (Nat.le_refl _) (by omega)) ..

end

/-! ## The forest in the device -/

/-- `fpn * PAGING64_PAGESZ`. -/
def baseOf (fpn : AddrT) : AddrT := fpn * BitVec.ofNat 64 paging64Pagesz

/-- An index as the C code holds it. -/
def idxOf (i : Fin 512) : AddrT := BitVec.ofNat 64 i

/-- The address of an entry. -/
def entryAddr (f : AddrT) (i : Fin 512) : AddrT := baseOf f + idxOf i * 4

theorem entryAddr_eq (f : AddrT) (i : Fin 512) : baseOf f + idxOf i * 4 = entryAddr f i := rfl

/-- Frames whose addresses do not wrap. -/
def Addressable (f : AddrT) : Prop := f.toNat < 2 ^ 52

instance (f : AddrT) : Decidable (Addressable f) := inferInstanceAs (Decidable (_ < _))

theorem Survives.addressable {k : CharKind} {f : AddrT} (h : Survives k f) : Addressable f :=
  h.1.trans (by decide)

/-- The device as a store of tables. -/
def tables (k : CharKind) (mp : MemphyStruct) : Tables AddrT (Fin 512) := fun f i =>
  if Addressable f ∧ entryPresent (get32bitEntry k mp (entryAddr f i)) = true then
    some (entryFpn (get32bitEntry k mp (entryAddr f i)))
  else none

theorem toNat_entryAddr_add {f : AddrT} (hf : Addressable f) (i : Fin 512) {c : ℕ} (hc : c < 4) :
    (entryAddr f i + BitVec.ofNat 64 c).toNat = f.toNat * 4096 + i * 4 + c := by
  have hi := i.isLt
  have hf' : f.toNat < 4503599627370496 := hf
  rw [entryAddr, idxOf, show (4 : AddrT) = BitVec.ofNat 64 4 from rfl]
  simp only [baseOf, paging64Pagesz, BitVec.toNat_add, BitVec.toNat_mul, BitVec.toNat_ofNat]
  omega

/-- Different frames start at different addresses. -/
theorem baseOf_inj {f g : AddrT} (hf : Addressable f) (hg : Addressable g) (h : baseOf f = baseOf g) : f = g := by
  have hf' : f.toNat < 4503599627370496 := hf
  have hg' : g.toNat < 4503599627370496 := hg
  have hnat := congrArg BitVec.toNat h
  simp only [baseOf, paging64Pagesz, BitVec.toNat_mul, BitVec.toNat_ofNat] at hnat
  exact BitVec.eq_of_toNat_eq (by omega)

/-- Bytes of different entries are at different addresses. -/
theorem entryAddr_add_inj {f g : AddrT} {i j : Fin 512} {c d : ℕ} (hf : Addressable f) (hg : Addressable g)
    (hc : c < 4) (hd : d < 4)
    (h : entryAddr f i + BitVec.ofNat 64 c = entryAddr g j + BitVec.ofNat 64 d) : f = g ∧ i = j ∧ c = d := by
  have hnat := congrArg BitVec.toNat h
  rw [toNat_entryAddr_add hf i hc, toNat_entryAddr_add hg j hd] at hnat
  have hi := i.isLt
  have hj := j.isLt
  refine ⟨BitVec.eq_of_toNat_eq ?_, Fin.ext ?_, ?_⟩ <;> omega

variable {k : CharKind} {mp : MemphyStruct}

/-- Entries that hold the same bytes have the same content. -/
theorem tables_congr {mp' : MemphyStruct} (h : mp.rdmflg = true) (h' : mp'.rdmflg = true) {f : AddrT}
    {i : Fin 512}
    (hsame : Addressable f → ∀ c < 4,
      mp'.storage (entryAddr f i + BitVec.ofNat 64 c) = mp.storage (entryAddr f i + BitVec.ofNat 64 c)) :
    tables k mp' f i = tables k mp f i := by
  unfold tables
  by_cases hf : Addressable f
  · have hbytes : get32bitEntry k mp' (entryAddr f i) = get32bitEntry k mp (entryAddr f i) := by
      rw [get32bitEntry_of_rdm h, get32bitEntry_of_rdm h']
      simp only [decodeBytes, hsame hf 0 (by decide), hsame hf 1 (by decide), hsame hf 2 (by decide),
        hsame hf 3 (by decide)]
    rw [hbytes]
  · rw [if_neg (fun hc => hf hc.1), if_neg (fun hc => hf hc.1)]

theorem decode_stored (h : mp.rdmflg = true) (addr v : AddrT) :
    get32bitEntry k (putEntryBytes mp addr v) addr = decodeBytes k (byteOf v) := by
  rw [get32bitEntry_of_rdm (by rw [rdmflg_putEntryBytes]; exact h)]
  simp only [decodeBytes, storage_putEntryBytes_self h addr v (show 0 < 4 by decide),
    storage_putEntryBytes_self h addr v (show 1 < 4 by decide),
    storage_putEntryBytes_self h addr v (show 2 < 4 by decide),
    storage_putEntryBytes_self h addr v (show 3 < 4 by decide)]

/-- **The write loop writes one entry of one table.** -/
theorem tables_putEntryBytes (h : mp.rdmflg = true) {f v x : AddrT} {i : Fin 512} (hf : Addressable f)
    (hv : entryPresent (decodeBytes k (byteOf v)) = true ∧ entryFpn (decodeBytes k (byteOf v)) = x) :
    tables k (putEntryBytes mp (entryAddr f i) v) = write (tables k mp) f i x := by
  funext g j
  by_cases hgj : g = f ∧ j = i
  · obtain ⟨rfl, rfl⟩ := hgj
    rw [write_self, tables, decode_stored h, if_pos ⟨hf, hv.1⟩, hv.2]
  · rw [write_of_ne hgj]
    refine tables_congr h (by rw [rdmflg_putEntryBytes]; exact h) fun hg c hc => ?_
    refine storage_putEntryBytes_of_ne h fun d hd heq => hgj ?_
    obtain ⟨rfl, rfl, -⟩ := entryAddr_add_inj hg hf hc hd heq
    exact ⟨rfl, rfl⟩

/-- An entry of four zero bytes is zero. -/
theorem get32bitEntry_of_blank (h : mp.rdmflg = true) {a : AddrT}
    (hblank : ∀ c < 4, mp.storage (a + BitVec.ofNat 64 c) = 0) : get32bitEntry k mp a = 0 := by
  rw [get32bitEntry_of_rdm h]
  simp only [decodeBytes, hblank 0 (by decide), hblank 1 (by decide), hblank 2 (by decide),
    hblank 3 (by decide)]
  cases k <;> decide

theorem tables_of_blank (h : mp.rdmflg = true) {f : AddrT} {i : Fin 512}
    (hblank : ∀ c < 4, mp.storage (entryAddr f i + BitVec.ofNat 64 c) = 0) : tables k mp f i = none := by
  rw [tables, get32bitEntry_of_blank h hblank, if_neg (fun hc => absurd hc.2 (by decide))]

/-- The clearing loop makes every entry of its table zero. -/
theorem storage_clearLoop_entry (h : mp.rdmflg = true) (f : AddrT) (i : Fin 512) {c : ℕ} (hc : c < 4) :
    (clearLoop (baseOf f) 0 paging64Pagesz mp).storage (entryAddr f i + BitVec.ofNat 64 c) = 0 := by
  have hi := i.isLt
  have haddr : entryAddr f i + BitVec.ofNat 64 c = baseOf f + BitVec.ofNat 64 (i * 4 + c) := by
    apply BitVec.eq_of_toNat_eq
    rw [entryAddr, idxOf, show (4 : AddrT) = BitVec.ofNat 64 4 from rfl]
    simp only [BitVec.toNat_add, BitVec.toNat_mul, BitVec.toNat_ofNat]
    omega
  rw [haddr]
  exact storage_clearLoop_self h _ (Nat.zero_le _) (by unfold paging64Pagesz; omega)

/-- **The clearing loop empties one table** and leaves the others alone. -/
theorem tables_clear (h : mp.rdmflg = true) {f : AddrT} (hf : Addressable f) :
    (∀ i, tables k (clearLoop (baseOf f) 0 paging64Pagesz mp) f i = none) ∧
      ∀ g, g ≠ f → tables k (clearLoop (baseOf f) 0 paging64Pagesz mp) g = tables k mp g := by
  have hrdm : (clearLoop (baseOf f) 0 paging64Pagesz mp).rdmflg = true := by rw [rdmflg_clearLoop]; exact h
  constructor
  · intro i
    apply tables_of_blank hrdm
    intro c hc
    exact storage_clearLoop_entry h f i hc
  · intro g hgf
    funext i
    refine tables_congr h hrdm fun hg c hc => ?_
    refine storage_clearLoop_of_ne h fun j _ hj heq => ?_
    have hnat := congrArg BitVec.toNat heq
    rw [toNat_entryAddr_add hg i hc] at hnat
    have hf' : f.toNat < 4503599627370496 := hf
    have hj' : j < 4096 := by simpa [paging64Pagesz] using hj
    have hright : (baseOf f + BitVec.ofNat 64 j).toNat = f.toNat * 4096 + j := by
      simp only [baseOf, paging64Pagesz, BitVec.toNat_add, BitVec.toNat_mul, BitVec.toNat_ofNat]
      omega
    rw [hright] at hnat
    have hi := i.isLt
    exact hgf (BitVec.eq_of_toNat_eq (by omega))

/-! ## Indices -/

/-- The nine index bits of an address from bit `l` on. -/
def levelIdx (l : ℕ) (addr : AddrT) : Fin 512 := ⟨addr.toNat / 2 ^ l % 512, Nat.mod_lt _ (by decide)⟩

/-- The indices of the four levels above the page table. -/
def upperPath (addr : AddrT) : List (Fin 512) :=
  [levelIdx 48 addr, levelIdx 39 addr, levelIdx 30 addr, levelIdx 21 addr]

/-- The path of the leaf entry of an address. -/
def leafPath (addr : AddrT) : List (Fin 512) := upperPath addr ++ [levelIdx 12 addr]

theorem field_eq (addr mask : AddrT) (l : ℕ) (hmask : mask >>> l = 0x1FF#64) :
    (addr &&& mask) >>> l = idxOf (levelIdx l addr) := by
  apply BitVec.eq_of_toNat_eq
  rw [BitVec.ushiftRight_and_distrib, hmask, BitVec.toNat_and, BitVec.toNat_ushiftRight,
    Nat.shiftRight_eq_div_pow]
  have hmod : addr.toNat / 2 ^ l &&& (0x1FF#64).toNat = addr.toNat / 2 ^ l % 512 :=
    Nat.and_two_pow_sub_one_eq_mod _ 9
  rw [hmod, idxOf, levelIdx, BitVec.toNat_ofNat]
  exact (Nat.mod_eq_of_lt ((Nat.mod_lt _ (by decide)).trans (by decide))).symm

theorem upper_getPdFromAddress (addr : AddrT) :
    (getPdFromAddress addr).upper = (upperPath addr).map idxOf := by
  simp only [PdIndices.upper, getPdFromAddress, upperPath, List.map_cons, List.map_nil, pagingAddrPgd,
    pagingAddrP4d, pagingAddrPud, pagingAddrPmd, field_eq addr (genmask64 56 48) 48 (by decide),
    field_eq addr (genmask64 47 39) 39 (by decide), field_eq addr (genmask64 38 30) 30 (by decide),
    field_eq addr (genmask64 29 21) 21 (by decide)]

theorem pt_getPdFromAddress (addr : AddrT) : (getPdFromAddress addr).pt = idxOf (levelIdx 12 addr) :=
  field_eq addr (genmask64 20 12) 12 (by decide)

theorem toNat_pgn_shift {pgn : AddrT} (h : pgn.toNat < 2 ^ 52) : (pgn <<< 12).toNat = pgn.toNat * 4096 := by
  rw [BitVec.toNat_shiftLeft, Nat.shiftLeft_eq]
  omega

/-- A page number is determined by its path. -/
theorem leafPath_inj {p q : AddrT} (hp : p.toNat < 2 ^ 45) (hq : q.toNat < 2 ^ 45)
    (h : leafPath (p <<< 12) = leafPath (q <<< 12)) : p = q := by
  simp only [leafPath, upperPath, levelIdx, List.cons_append, List.nil_append, List.cons.injEq,
    Fin.mk.injEq, and_true, toNat_pgn_shift (hp.trans (by decide)), toNat_pgn_shift (hq.trans (by decide))] at h
  exact BitVec.eq_of_toNat_eq (by omega)

/-- The path of an address is the path of its page. -/
theorem leafPath_page (vaddr : AddrT) :
    leafPath ((vaddr >>> 12) <<< 12) = leafPath vaddr := by
  have hpage : (vaddr >>> 12).toNat = vaddr.toNat / 4096 := by
    rw [BitVec.toNat_ushiftRight, Nat.shiftRight_eq_div_pow]
  have hlt : (vaddr >>> 12).toNat < 2 ^ 52 := by
    rw [hpage]
    have := vaddr.isLt
    omega
  simp only [leafPath, upperPath, levelIdx, toNat_pgn_shift hlt, hpage, List.cons_append, List.nil_append,
    List.cons.injEq, Fin.mk.injEq, and_true]
  omega

/-! ## The functions of `mm64.c` on the forest -/

theorem entryBase_eq (entry : AddrT) : entryBase entry = baseOf (entryFpn entry) := rfl

theorem entryFpn_lt (entry : AddrT) : (entryFpn entry).toNat < 8192 := by
  have := Nat.and_le_right (n := entry.toNat) (m := 0x1FFF)
  rw [entryFpn, BitVec.toNat_and]
  exact Nat.lt_succ_of_le this

theorem addressable_entryFpn (entry : AddrT) : Addressable (entryFpn entry) :=
  (entryFpn_lt entry).trans (by decide)

theorem tableEntry_eq (fpn : AddrT) : tableEntry fpn = 0x80000000#64 ||| (fpn &&& 0x1FFF#64) := by
  have hclear : setbit 0 pagingPtePresentMask &&& (~~~pagingPteFpnMask).setWidth 64 = 0x80000000#64 := by
    decide
  have hmask : pagingPteFpnMask.setWidth 64 = 0x1FFF#64 := by decide
  rw [tableEntry, setval, hclear, hmask, BitVec.shiftLeft_zero]

/-- A number below 2^13 has no bit from 13 on. -/
theorem and_fpnMask {fpn : AddrT} (h : fpn.toNat < 8192) : fpn &&& 0x1FFF#64 = fpn := by
  apply BitVec.eq_of_toNat_eq
  rw [BitVec.toNat_and]
  exact (Nat.and_two_pow_sub_one_eq_mod _ 13).trans (Nat.mod_eq_of_lt h)

theorem getLsbD_tableEntry {fpn : AddrT} (h : fpn.toNat < 8192) :
    (tableEntry fpn).getLsbD 31 = true ∧ ∀ n < 13, (tableEntry fpn).getLsbD n = fpn.getLsbD n := by
  rw [tableEntry_eq, and_fpnMask h]
  constructor
  · rw [BitVec.getLsbD_or]
    simp
  · intro n hn
    have hzero : ∀ n < 13, (0x80000000#64).getLsbD n = false := by decide
    rw [BitVec.getLsbD_or, hzero n hn, Bool.false_or]

theorem entryFpn_tableEntry {fpn : AddrT} (h : fpn.toNat < 8192) : entryFpn (tableEntry fpn) = fpn := by
  apply BitVec.eq_of_getLsbD_eq
  intro n _
  rw [entryFpn, BitVec.getLsbD_and, getLsbD_fpnMask]
  by_cases hn : n < 13
  · rw [(getLsbD_tableEntry h).2 n hn]
    simp [hn]
  · have hzero : fpn.getLsbD n = false := Mask.getLsbD_of_lt h (Nat.le_of_not_lt hn)
    simp [hn, hzero]

theorem getLsbD_leafEntry (v fpn : AddrT) :
    (leafEntry v fpn).getLsbD 31 = true ∧ ∀ n < 13, (leafEntry v fpn).getLsbD n = fpn.getLsbD n := by
  have hkeep : ∀ n < 64, ((~~~pagingPteFpnMask).setWidth 64).getLsbD n = decide (13 ≤ n ∧ n < 32) := by decide
  have hmask : ∀ n < 64, (pagingPteFpnMask.setWidth 64).getLsbD n = decide (n < 13) := by decide
  have hpresent : (pagingPtePresentMask.setWidth 64).getLsbD 31 = true := by decide
  have hswap : ((~~~pagingPteSwappedMask).setWidth 64).getLsbD 31 = true := by decide
  constructor
  · simp only [leafEntry, setval, clrbit, setbit, BitVec.getLsbD_or, BitVec.getLsbD_and, hpresent, hswap,
      hkeep 31 (by decide)]
    simp
  · intro n hn
    simp only [leafEntry, setval, clrbit, setbit, BitVec.getLsbD_or, BitVec.getLsbD_and,
      BitVec.shiftLeft_zero, hkeep n (by omega), hmask n (by omega), hn]
    simp [Nat.not_le.mpr hn]

theorem leafEntry_not_swapped (v fpn : AddrT) :
    (leafEntry v fpn).setWidth 32 &&& pagingPteSwappedMask = 0 := by
  have hclear : ((~~~pagingPteSwappedMask).setWidth 64).getLsbD 30 = false := by decide
  have hfpn : (pagingPteFpnMask.setWidth 64).getLsbD 30 = false := by decide
  rw [Mask.and_flag_eq_zero_iff (i := 30) (by decide) (by decide), BitVec.getLsbD_setWidth]
  simp only [leafEntry, setval, clrbit, setbit, BitVec.getLsbD_or, BitVec.getLsbD_and, hclear, hfpn]
  simp

theorem pagingFpn_leafEntry (v : AddrT) {fpn : AddrT} (h : fpn.toNat < 8192) :
    (pagingFpn ((leafEntry v fpn).setWidth 32)).setWidth 64 = fpn := by
  have hmask : ∀ n < 32, pagingPteFpnMask.getLsbD n = decide (n < 13) := by decide
  apply BitVec.eq_of_getLsbD_eq
  intro n _
  unfold pagingFpn
  rw [BitVec.ushiftRight_zero, BitVec.getLsbD_setWidth, BitVec.getLsbD_and, BitVec.getLsbD_setWidth]
  by_cases hn : n < 13
  · rw [hmask n (by omega), (getLsbD_leafEntry v fpn).2 n hn]
    simp [hn, show n < 64 by omega, show n < 32 by omega]
  · -- both are too small for the bit
    have hzero : fpn.getLsbD n = false := Mask.getLsbD_of_lt h (Nat.le_of_not_lt hn)
    rw [hzero]
    by_cases h32 : n < 32
    · simp [hmask n h32, hn]
    · simp [h32]

theorem tables_of_present {f : AddrT} {i : Fin 512} (hf : Addressable f)
    (h : entryPresent (get32bitEntry k mp (entryAddr f i)) = true) :
    tables k mp f i = some (entryFpn (get32bitEntry k mp (entryAddr f i))) := if_pos ⟨hf, h⟩

theorem tables_of_absent {f : AddrT} {i : Fin 512}
    (h : ¬ entryPresent (get32bitEntry k mp (entryAddr f i)) = true) : tables k mp f i = none :=
  if_neg fun hc => h hc.2

/-- The walk of the C code is the walk of the forest. -/
theorem walkTables_walk (is : List (Fin 512)) : ∀ {f : AddrT}, Addressable f →
    walkTables k mp (baseOf f) (is.map idxOf) = (walk (tables k mp) f is).map baseOf ∧
      ∀ g, walk (tables k mp) f is = some g → Addressable g := by
  induction is with
  | nil =>
    intro f hf
    refine ⟨rfl, ?_⟩
    rintro g hg
    obtain rfl := Option.some.inj hg
    exact hf
  | cons i is ih =>
    intro f hf
    rw [List.map_cons, walkTables, walk_cons, entryAddr_eq]
    by_cases hpresent : entryPresent (get32bitEntry k mp (entryAddr f i)) = true
    · rw [if_pos hpresent, tables_of_present hf hpresent, Option.bind_some]
      exact ih (addressable_entryFpn _)
    · rw [if_neg hpresent, tables_of_absent hpresent, Option.bind_none]
      exact ⟨rfl, fun g hg => absurd hg (by simp)⟩

/-- **`translate_address` looks up a leaf.** -/
theorem translateAddress_walk {mm : MmStruct} {r : AddrT} (hr : mm.pgd = baseOf r) (hra : Addressable r)
    (vaddr : AddrT) :
    translateAddress k mm mp vaddr
      = (walk (tables k mp) r (leafPath vaddr)).map fun x => baseOf x + (vaddr &&& 0xFFF#64) := by
  have hwalks := @walkTables_walk k mp (upperPath vaddr) r hra
  obtain ⟨hwalk, haddr⟩ := hwalks
  rw [translateAddress, hr, upper_getPdFromAddress, hwalk, leafPath, walk_concat]
  cases hg : walk (tables k mp) r (upperPath vaddr) with
  | none => rfl
  | some g =>
    rw [Option.map_some, Option.bind_some, pt_getPdFromAddress]
    show (if entryPresent (get32bitEntry k mp (entryAddr g (levelIdx 12 vaddr))) then _ else _) = _
    by_cases hpresent : entryPresent (get32bitEntry k mp (entryAddr g (levelIdx 12 vaddr))) = true
    · rw [if_pos hpresent, tables_of_present (haddr g hg) hpresent]
      rfl
    · rw [if_neg hpresent, tables_of_absent hpresent]
      rfl

theorem pagingPagePresent_setWidth (entry : AddrT) :
    pagingPagePresent (entry.setWidth 32) = entryPresent entry := by
  have hwide : (entry.setWidth 32 &&& pagingPtePresentMask).setWidth 64
      = entry &&& pagingPtePresentMask.setWidth 64 := by
    apply BitVec.eq_of_getLsbD_eq
    intro i hi
    simp only [BitVec.getLsbD_setWidth, BitVec.getLsbD_and]
    by_cases h32 : i < 32
    · simp [hi, h32]
    · simp [BitVec.getLsbD_of_ge pagingPtePresentMask i (Nat.le_of_not_lt h32)]
  unfold pagingPagePresent entryPresent
  rw [← hwide, Bool.eq_iff_iff, bne_iff_ne, bne_iff_ne, not_iff_not]
  constructor
  · intro h
    rw [h]
    rfl
  · intro h
    have hnarrow := congrArg (BitVec.setWidth 32) h
    rwa [BitVec.setWidth_setWidth_of_le _ (by decide), BitVec.setWidth_eq] at hnarrow

/-- **`pte_get_entry` reads the entry of a leaf.** -/
theorem pteGetEntry_walk {mm : MmStruct} {r : AddrT} (hr : mm.pgd = baseOf r) (hra : Addressable r)
    (pgn : AddrT) :
    pteGetEntry k mm mp pgn
      = match walk (tables k mp) r (upperPath (pgn <<< 12)) with
        | none   => 0
        | some g => (get32bitEntry k mp (entryAddr g (levelIdx 12 (pgn <<< 12)))).setWidth 32 := by
  have hwalks := @walkTables_walk k mp (upperPath (pgn <<< 12)) r hra
  rw [pteGetEntry, getPteAddress, hr, getPdFromPagenum, upper_getPdFromAddress, hwalks.1]
  cases hg : walk (tables k mp) r (upperPath (pgn <<< 12)) with
  | none => rfl
  | some g =>
    rw [Option.map_some, pt_getPdFromAddress]
    rfl

/-- It has the present bit set exactly when the leaf is there. -/
theorem pteGetEntry_present {mm : MmStruct} {r : AddrT} (hr : mm.pgd = baseOf r) (hra : Addressable r)
    (pgn : AddrT) :
    pagingPagePresent (pteGetEntry k mm mp pgn) = (walk (tables k mp) r (leafPath (pgn <<< 12))).isSome := by
  obtain ⟨-, haddr⟩ := @walkTables_walk k mp (upperPath (pgn <<< 12)) r hra
  rw [pteGetEntry_walk hr hra, leafPath, walk_concat]
  cases hg : walk (tables k mp) r (upperPath (pgn <<< 12)) with
  | none =>
    show pagingPagePresent 0 = false
    decide
  | some g =>
    show pagingPagePresent (BitVec.setWidth 32 _) = (tables k mp g _).isSome
    rw [pagingPagePresent_setWidth]
    by_cases hpresent : entryPresent (get32bitEntry k mp (entryAddr g (levelIdx 12 (pgn <<< 12)))) = true
    · rw [hpresent, tables_of_present (haddr g hg) hpresent]
      rfl
    · rw [tables_of_absent hpresent]
      simpa using hpresent

/-- Taking a frame off the list does not touch the tables. -/
theorem tables_freeFpList (h : mp.rdmflg = true) (l : List AddrT) :
    tables k { mp with freeFpList := l } = tables k mp := by
  funext f i
  refine tables_congr h ?_ fun _ _ _ => rfl
  exact h

/-- **Levels 1 to 4 of `pte_set_fpn` are a descent**, when the free frames at the front, as many as tables are
    missing, survive an entry. -/
theorem allocTables_descend (is : List (Fin 512)) :
    ∀ {mp : MemphyStruct} {f : AddrT}, mp.rdmflg = true → Addressable f →
      (∀ x ∈ mp.freeFpList.take (missing (tables k mp) f is), Survives k x) →
      ∃ o mp', allocTables k mp (baseOf f) (is.map idxOf) = (o.map baseOf, mp') ∧
        descend (tables k mp) mp.freeFpList f is = (o, tables k mp', mp'.freeFpList) ∧
        mp'.rdmflg = true ∧ (∀ x ∈ mp'.freeFpList, x ∈ mp.freeFpList) ∧ ∀ g, o = some g → Addressable g := by
  induction is with
  | nil =>
    intro mp f h hf _
    refine ⟨some f, mp, rfl, rfl, h, fun _ hx => hx, ?_⟩
    rintro g hg
    obtain rfl := Option.some.inj hg
    exact hf
  | cons i is ih =>
    intro mp f h hf hpool
    rw [List.map_cons, allocTables, entryAddr_eq]
    by_cases hpresent : entryPresent (get32bitEntry k mp (entryAddr f i)) = true
    · -- the table is there
      rw [if_pos hpresent, descend_of_some (tables_of_present hf hpresent)]
      simp only [missing, tables_of_present hf hpresent] at hpool
      exact ih h (addressable_entryFpn _) hpool
    · rw [if_neg hpresent]
      have hnone := tables_of_absent (f := f) (i := i) hpresent
      simp only [missing, hnone] at hpool
      cases hget : memphyGetFreefp mp with
      | none =>
        -- no frame is left
        have hlist := memphyGetFreefp_eq_none.mp hget
        refine ⟨none, mp, rfl, ?_, h, fun _ hx => hx, fun g hg => absurd hg (by simp)⟩
        rw [hlist, descend_of_none_nil hnone]
      | some got =>
        -- a frame becomes the missing table
        obtain ⟨fpn, mp₁⟩ := got
        obtain ⟨hlist, hmp₁⟩ := memphyGetFreefp_eq_some hget
        rw [hlist, List.take_succ_cons] at hpool
        have hfpn : Survives k fpn := hpool fpn List.mem_cons_self
        have h₁ : mp₁.rdmflg = true := by rw [hmp₁]; exact h
        have htables₁ : tables k mp₁ = tables k mp := by rw [hmp₁]; exact tables_freeFpList h _
        have hbits := getLsbD_tableEntry hfpn.1
        have hwrite : tables k (putEntryBytes mp₁ (entryAddr f i) (tableEntry fpn))
            = write (tables k mp) f i fpn := by
          rw [tables_putEntryBytes h₁ hf (decode_byteOf hfpn hbits.1 hbits.2), htables₁]
        -- so many are missing below the new table at most
        have hpool₁ : ∀ x ∈ (putEntryBytes mp₁ (entryAddr f i) (tableEntry fpn)).freeFpList.take
            (missing (tables k (putEntryBytes mp₁ (entryAddr f i) (tableEntry fpn))) fpn is), Survives k x := by
          intro x hx
          rw [freeFpList_putEntryBytes] at hx
          apply hpool x
          exact List.mem_cons_of_mem fpn ((List.take_prefix_take_left (missing_le _ is fpn)).subset hx)
        have h₂ : (putEntryBytes mp₁ (entryAddr f i) (tableEntry fpn)).rdmflg = true := by
          rw [rdmflg_putEntryBytes]
          exact h₁
        obtain ⟨o, mp', halloc, hdesc, hrdm, hsub, hend⟩ :=
          ih h₂ hfpn.addressable hpool₁
        refine ⟨o, mp', ?_, ?_, hrdm, fun x hx => ?_, hend⟩
        · rw [← halloc]
          dsimp only
          rw [entryBase_eq, entryFpn_tableEntry hfpn.1]
        · rw [hlist, descend_of_none_cons hnone, ← hwrite, ← hdesc, freeFpList_putEntryBytes]
        · have hx' := hsub x hx
          rw [freeFpList_putEntryBytes] at hx'
          rw [hlist]
          exact List.mem_cons_of_mem fpn hx'

/-- **`pte_set_fpn` is an insertion**, when the free frames that it takes survive an entry. It is the one of the
    frame number when that survives, too. -/
theorem pteSetFpn_insert {mm : MmStruct} {r : AddrT} (pgn fpn : AddrT) (hr : mm.pgd = baseOf r)
    (hra : Addressable r) (h : mp.rdmflg = true)
    (hpool : ∀ x ∈ mp.freeFpList.take (missing (tables k mp) r (upperPath (pgn <<< 12))), Survives k x) :
    ∃ ok mp' x, pteSetFpn k mm mp pgn fpn = (if ok then 0 else -1, mp') ∧
      Radix.insert (tables k mp) mp.freeFpList r (upperPath (pgn <<< 12)) (levelIdx 12 (pgn <<< 12)) x
        = (ok, tables k mp', mp'.freeFpList) ∧
      (Survives k fpn → x = fpn) ∧ mp'.rdmflg = true ∧ ∀ x ∈ mp'.freeFpList, x ∈ mp.freeFpList := by
  obtain ⟨o, mp₁, halloc, hdesc, h₁, hsub, hend⟩ :=
    allocTables_descend (k := k) (upperPath (pgn <<< 12)) h hra hpool
  rw [pteSetFpn, hr, getPdFromPagenum, upper_getPdFromAddress, halloc]
  unfold Radix.insert
  rw [hdesc]
  cases o with
  | none => exact ⟨false, mp₁, fpn, rfl, rfl, fun _ => rfl, h₁, hsub⟩
  | some g =>
    have hga : Addressable g := hend g rfl
    rw [Option.map_some, pt_getPdFromAddress]
    have hbits := getLsbD_leafEntry (get32bitEntry k mp₁ (entryAddr g (levelIdx 12 (pgn <<< 12)))) fpn
    have hpresent := present_byteOf (k := k) hbits.1
    refine ⟨true, _, _, rfl, ?_, fun hfpn => (decode_byteOf hfpn hbits.1 hbits.2).2,
      by rw [rdmflg_putEntryBytes]; exact h₁, ?_⟩
    · rw [entryAddr_eq, tables_putEntryBytes h₁ hga ⟨hpresent, rfl⟩, freeFpList_putEntryBytes]
    · intro x hx
      rw [freeFpList_putEntryBytes] at hx
      exact hsub x hx

/-- Without a free frame, `init_mm` changes nothing. -/
theorem initMm_of_nil (mm : MmStruct) (h : mp.freeFpList = []) (link : List VmRgStruct) :
    initMm mm mp link = (-1, mm, mp) := by
  rw [initMm, memphyGetFreefp_eq_none.mpr h]

section

variable {mm mm' : MmStruct} {mp' : MemphyStruct} {link : List VmRgStruct} {stat : ℤ}

/-- With a free frame, `init_mm` returns 0. -/
theorem initMm_stat (hinit : initMm mm mp link = (stat, mm', mp')) (hfree : mp.freeFpList ≠ []) : stat = 0 := by
  unfold initMm at hinit
  cases hget : memphyGetFreefp mp with
  | none => exact absurd (memphyGetFreefp_eq_none.mp hget) hfree
  | some got =>
    rw [hget] at hinit
    exact (Prod.mk.inj hinit).1.symm

/-- An `init_mm` that fails has taken nothing. -/
theorem initMm_failed (hinit : initMm mm mp link = (stat, mm', mp')) (hstat : stat ≠ 0) :
    mp.freeFpList = [] ∧ mm' = mm ∧ mp' = mp := by
  have hnil : mp.freeFpList = [] := by
    by_contra hfree
    exact hstat (initMm_stat hinit hfree)
  rw [initMm_of_nil mm hnil] at hinit
  obtain ⟨hmm, hmp⟩ := Prod.mk.inj (Prod.mk.inj hinit).2
  exact ⟨hnil, hmm.symm, hmp.symm⟩

/-- An `init_mm` that succeeds has taken the frame of the PGD, and cleared it. -/
theorem initMm_clears (hinit : initMm mm mp link = (0, mm', mp')) :
    ∃ fpn, mp.freeFpList = fpn :: mp'.freeFpList ∧ mm'.pgd = baseOf fpn ∧
      mp' = clearLoop (baseOf fpn) 0 paging64Pagesz { mp with freeFpList := mp'.freeFpList } := by
  unfold initMm at hinit
  cases hget : memphyGetFreefp mp with
  | none =>
    rw [hget] at hinit
    exact absurd (congrArg Prod.fst hinit) (by simp)
  | some got =>
    obtain ⟨fpn, mp₁⟩ := got
    obtain ⟨hlist, hmp₁⟩ := memphyGetFreefp_eq_some hget
    rw [hget] at hinit
    obtain ⟨rfl, rfl⟩ := Prod.mk.inj (Prod.mk.inj hinit).2
    refine ⟨fpn, ?_, rfl, ?_⟩
    · rw [freeFpList_clearLoop]
      exact hlist
    · rw [freeFpList_clearLoop, ← hmp₁]
      rfl

theorem initMm_takes (hinit : initMm mm mp link = (0, mm', mp')) :
    ∃ fpn, mp.freeFpList = fpn :: mp'.freeFpList ∧ mm'.pgd = baseOf fpn := by
  obtain ⟨fpn, hlist, hpgd, -⟩ := initMm_clears hinit
  exact ⟨fpn, hlist, hpgd⟩

end

/-- **`init_mm` takes one frame and clears it.** -/
theorem initMm_cases (mm : MmStruct) (h : mp.rdmflg = true) (link : List VmRgStruct) :
    (mp.freeFpList = [] ∧ initMm mm mp link = (-1, mm, mp)) ∨
      ∃ fpn mm' mp', initMm mm mp link = (0, mm', mp') ∧ mm'.pgd = baseOf fpn ∧
        mp.freeFpList = fpn :: mp'.freeFpList ∧ mp'.rdmflg = true ∧
        (Addressable fpn → (∀ i, tables k mp' fpn i = none) ∧
          ∀ g, g ≠ fpn → tables k mp' g = tables k mp g) := by
  unfold initMm
  cases hget : memphyGetFreefp mp with
  | none => exact .inl ⟨memphyGetFreefp_eq_none.mp hget, rfl⟩
  | some got =>
    right
    obtain ⟨fpn, mp₁⟩ := got
    obtain ⟨hlist, hmp₁⟩ := memphyGetFreefp_eq_some hget
    have h₁ : mp₁.rdmflg = true := by rw [hmp₁]; exact h
    have htables₁ : tables k mp₁ = tables k mp := by rw [hmp₁]; exact tables_freeFpList h _
    refine ⟨fpn, _, _, rfl, rfl, ?_, ?_, fun hf => ?_⟩
    · rw [freeFpList_clearLoop, hlist]
    · rw [rdmflg_clearLoop]
      exact h₁
    · obtain ⟨hclear, hothers⟩ := tables_clear (k := k) h₁ hf
      exact ⟨hclear, fun g hg => by rw [← htables₁]; exact hothers g hg⟩

end LamiaAtrium
