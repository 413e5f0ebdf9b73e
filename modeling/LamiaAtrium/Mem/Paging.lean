import LamiaAtrium.Mem.Memphy

/-!
# `Mem.Paging` — `mm64.c`: five-level page tables in a storage device

A page table is 512 entries of four bytes, least significant first, in one 4096-byte frame of the RAM
device. `struct mm_struct` only holds the address of the top level.

* `get32bitEntry` and `putEntryBytes` are the byte loops.
* `walkTables` is the descent that `translate_address` and `get_pte_address` write out level by level, and
  `allocTables` the one of `pte_set_fpn`, which takes missing tables from the free list.
* What `malloc` leaves behind is a parameter, as in `Mem.Memphy`.
-/

namespace LamiaAtrium

/-! ## Indices -/

/-- `PAGING64_ADDR_PGD(addr)`. -/
def pagingAddrPgd (addr : AddrT) : AddrT := (addr &&& genmask64 56 48) >>> 48

/-- `PAGING64_ADDR_P4D(addr)`. -/
def pagingAddrP4d (addr : AddrT) : AddrT := (addr &&& genmask64 47 39) >>> 39

/-- `PAGING64_ADDR_PUD(addr)`. -/
def pagingAddrPud (addr : AddrT) : AddrT := (addr &&& genmask64 38 30) >>> 30

/-- `PAGING64_ADDR_PMD(addr)`. -/
def pagingAddrPmd (addr : AddrT) : AddrT := (addr &&& genmask64 29 21) >>> 21

/-- `PAGING64_ADDR_PT(addr)`. -/
def pagingAddrPt (addr : AddrT) : AddrT := (addr &&& genmask64 20 12) >>> 12

/-- The five results of `get_pd_from_address`. -/
structure PdIndices where
  pgd : AddrT
  p4d : AddrT
  pud : AddrT
  pmd : AddrT
  pt : AddrT

/-- `get_pd_from_address`. -/
def getPdFromAddress (addr : AddrT) : PdIndices :=
  ⟨pagingAddrPgd addr, pagingAddrP4d addr, pagingAddrPud addr, pagingAddrPmd addr, pagingAddrPt addr⟩

/-- `get_pd_from_pagenum`. -/
def getPdFromPagenum (pgn : AddrT) : PdIndices := getPdFromAddress (pgn <<< 12)

/-- The indices of the four levels above the page table. -/
def PdIndices.upper (i : PdIndices) : List AddrT := [i.pgd, i.p4d, i.pud, i.pmd]

/-! ## Entries -/

/-- `n` turns of the loop of `get_32bit_entry`, from byte `i` on. -/
def get32bitLoop (k : CharKind) (mp : MemphyStruct) (base : AddrT) : ℕ → ℕ → AddrT → AddrT
  | _, 0,     entry => entry
  | i, n + 1, entry =>
    match memphyRead mp (base + BitVec.ofNat 64 i) with
    | none        => -1
    | some (b, _) => get32bitLoop k mp base (i + 1) n (entry ||| (k.extend b <<< (i * 8)))

/-- `get_32bit_entry`; a failed read makes it `-1`. -/
def get32bitEntry (k : CharKind) (mp : MemphyStruct) (base : AddrT) : AddrT := get32bitLoop k mp base 0 4 0

/-- `n` turns of the write loop, from byte `i` on. -/
def putBytesLoop (addr v : AddrT) : ℕ → ℕ → MemphyStruct → MemphyStruct
  | _, 0,     mp => mp
  | i, n + 1, mp =>
    putBytesLoop addr v (i + 1) n
      (memphyWriteIgn mp (addr + BitVec.ofNat 64 i) (((v >>> (i * 8)) &&& 0xFF#64).setWidth 8))

/-- `for (i = 0; i < 4; i++) MEMPHY_write(mram, addr + i, (v >> (i * 8)) & 0xFF);` -/
def putEntryBytes (mp : MemphyStruct) (addr v : AddrT) : MemphyStruct := putBytesLoop addr v 0 4 mp

/-- `entry & PAGING_PTE_PRESENT_MASK`. -/
def entryPresent (entry : AddrT) : Bool := entry &&& pagingPtePresentMask.setWidth 64 != 0

/-- `(entry & 0x1FFF) * PAGING64_PAGESZ`. -/
def entryBase (entry : AddrT) : AddrT := (entry &&& 0x1FFF#64) * BitVec.ofNat 64 paging64Pagesz

/-- A new table entry: `entry = 0; SETBIT(entry, PRESENT); SETVAL(entry, fpn, FPN)`. -/
def tableEntry (fpn : AddrT) : AddrT := setval (setbit 0 pagingPtePresentMask) fpn pagingPteFpnMask 0

/-! ## Walks -/

/-- The walk from the table at `base`; `none` when an entry on the way is not present. -/
def walkTables (k : CharKind) (mp : MemphyStruct) : AddrT → List AddrT → Option AddrT
  | base, []        => some base
  | base, idx :: is =>
    if entryPresent (get32bitEntry k mp (base + idx * 4)) then
      walkTables k mp (entryBase (get32bitEntry k mp (base + idx * 4))) is
    else none

/-- `translate_address`. -/
def translateAddress (k : CharKind) (mm : MmStruct) (mp : MemphyStruct) (vaddr : AddrT) : Option AddrT :=
  match walkTables k mp mm.pgd (getPdFromAddress vaddr).upper with
  | none => none
  | some ptBase =>
    let ptEntry := get32bitEntry k mp (ptBase + (getPdFromAddress vaddr).pt * 4)
    if entryPresent ptEntry then some (entryBase ptEntry + (vaddr &&& 0xFFF#64)) else none

/-- `get_pte_address`. -/
def getPteAddress (k : CharKind) (mm : MmStruct) (mp : MemphyStruct) (pgn : AddrT) : Option AddrT :=
  match walkTables k mp mm.pgd (getPdFromPagenum pgn).upper with
  | none        => none
  | some ptBase => some (ptBase + (getPdFromPagenum pgn).pt * 4)

/-- `pte_get_entry`. -/
def pteGetEntry (k : CharKind) (mm : MmStruct) (mp : MemphyStruct) (pgn : AddrT) : BitVec 32 :=
  match getPteAddress k mm mp pgn with
  | none   => 0
  | some a => (get32bitEntry k mp a).setWidth 32

/-- `pte_set_entry`. -/
def pteSetEntry (k : CharKind) (mm : MmStruct) (mp : MemphyStruct) (pgn : AddrT) (pteVal : BitVec 32) :
    ℤ × MemphyStruct :=
  match getPteAddress k mm mp pgn with
  | none         => (-1, mp)
  | some pteAddr => (0, putEntryBytes mp pteAddr (pteVal.setWidth 64))

/-! ## Mapping -/

/-- Levels 1 to 4 of `pte_set_fpn`: the base of the last table, after missing tables were taken from the
    free list and linked; nothing when the list runs out. The new entry is not read back. -/
def allocTables (k : CharKind) : MemphyStruct → AddrT → List AddrT → Option AddrT × MemphyStruct
  | mp, base, []        => (some base, mp)
  | mp, base, idx :: is =>
    if entryPresent (get32bitEntry k mp (base + idx * 4)) then
      allocTables k mp (entryBase (get32bitEntry k mp (base + idx * 4))) is
    else
      match memphyGetFreefp mp with
      | none => (none, mp)
      | some (fpn, mp) =>
        allocTables k (putEntryBytes mp (base + idx * 4) (tableEntry fpn)) (entryBase (tableEntry fpn)) is

/-- The new value of a leaf entry in `pte_set_fpn`. -/
def leafEntry (pteValue fpn : AddrT) : AddrT :=
  setval (clrbit (setbit pteValue pagingPtePresentMask) pagingPteSwappedMask) fpn pagingPteFpnMask 0

/-- `pte_set_fpn`. -/
def pteSetFpn (k : CharKind) (mm : MmStruct) (mp : MemphyStruct) (pgn fpn : AddrT) : ℤ × MemphyStruct :=
  match allocTables k mp mm.pgd (getPdFromPagenum pgn).upper with
  | (none, mp) => (-1, mp)
  | (some ptBase, mp) =>
    let pteAddr := ptBase + (getPdFromPagenum pgn).pt * 4
    (0, putEntryBytes mp pteAddr (leafEntry (get32bitEntry k mp pteAddr) fpn))

/-- The new value of a leaf entry in `pte_set_swap`: the present bit is set, too. -/
def swapEntry (pteValue swptyp swpoff : AddrT) : AddrT :=
  setval (setval (setbit (setbit pteValue pagingPtePresentMask) pagingPteSwappedMask) swptyp
    pagingPteSwptypMask 0) swpoff pagingPteSwpoffMask 5

/-- `pte_set_swap`; `swptyp` is an `int`. -/
def pteSetSwap (k : CharKind) (mm : MmStruct) (mp : MemphyStruct) (pgn : AddrT) (swptyp : BitVec 32)
    (swpoff : AddrT) : ℤ × MemphyStruct :=
  match getPteAddress k mm mp pgn with
  | none => (-1, mp)
  | some pteAddr =>
    (0, putEntryBytes mp pteAddr (swapEntry (get32bitEntry k mp pteAddr) (swptyp.signExtend 64) swpoff))

/-- `n` turns of the loop of `vmap_pgd_memset`, from page `pgn` on. -/
def vmapPgdLoop (k : CharKind) (mm : MmStruct) : ℕ → MemphyStruct → AddrT → ℤ × MemphyStruct
  | 0,     mp, _   => (0, mp)
  | n + 1, mp, pgn =>
    match pteSetFpn k mm mp pgn 0 with
    | (stat, mp) => if stat ≠ 0 then (-1, mp) else vmapPgdLoop k mm n mp (pgn + 1)

/-- `vmap_pgd_memset`: maps `pgnum` pages to frame `0`. -/
def vmapPgdMemset (k : CharKind) (mm : MmStruct) (mp : MemphyStruct) (addr : AddrT) (pgnum : ℤ) :
    ℤ × MemphyStruct :=
  vmapPgdLoop k mm pgnum.toNat mp (addr >>> 12)

/-- `n` turns of the loop of `__swap_cp_page`, from cell `i` on; `junk` is what `data` holds before the
    first successful read. -/
def swapCpLoop (mpsrc : MemphyStruct) (srcfpn dstfpn : AddrT) : ℕ → ℕ → BYTE → MemphyStruct → MemphyStruct
  | _, 0,     _,    mpdst => mpdst
  | i, n + 1, data, mpdst =>
    let data := ((memphyRead mpsrc (srcfpn * BitVec.ofNat 64 pagingPagesz + BitVec.ofNat 64 i)).map
      Prod.fst).getD data
    swapCpLoop mpsrc srcfpn dstfpn (i + 1) n data
      (memphyWriteIgn mpdst (dstfpn * BitVec.ofNat 64 pagingPagesz + BitVec.ofNat 64 i) data)

/-- `__swap_cp_page`, for two distinct devices. -/
def swapCpPage (mpsrc : MemphyStruct) (srcfpn : AddrT) (mpdst : MemphyStruct) (dstfpn : AddrT) (junk : BYTE) :
    MemphyStruct :=
  swapCpLoop mpsrc srcfpn dstfpn 0 pagingPagesz junk mpdst

/-! ## A new address space -/

/-- `n` turns of the loop that clears the PGD, from byte `i` on. -/
def clearLoop (base : AddrT) : ℕ → ℕ → MemphyStruct → MemphyStruct
  | _, 0,     mp => mp
  | i, n + 1, mp => clearLoop base (i + 1) n (memphyWriteIgn mp (base + BitVec.ofNat 64 i) 0)

/-- The area that `init_mm` starts with; `link` is what its `vm_freerg_list` held. -/
def vma0 (link : List VmRgStruct) : VmAreaStruct := ⟨0, 0, 0, 0, ⟨0, 0⟩ :: link⟩

/-- `init_mm`. `mm` is the structure as `malloc` returned it, and stays so when no frame is free. -/
def initMm (mm : MmStruct) (mp : MemphyStruct) (link : List VmRgStruct) : ℤ × MmStruct × MemphyStruct :=
  match memphyGetFreefp mp with
  | none => (-1, mm, mp)
  | some (fpn, mp) =>
    (0, ⟨fpn * BitVec.ofNat 64 paging64Pagesz, [vma0 link], Vector.replicate _ ⟨0, 0⟩, []⟩,
      clearLoop (fpn * BitVec.ofNat 64 paging64Pagesz) 0 paging64Pagesz mp)

end LamiaAtrium
