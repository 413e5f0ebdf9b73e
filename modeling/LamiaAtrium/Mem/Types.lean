import Mathlib.Data.BitVec

/-!
# `Mem.Types` — the data types of `common.h` and `os-mm.h`, the macros of `mm.h`, `mm64.h`, `bitops.h`

The build is the `MM64` one: `addr_t` is 64 bits wide and all address arithmetic wraps.

* A null-terminated C list is a `List`; a `NULL` pointer to its head is `[]`.
* `BYTE` is plain `char`. Whether it is signed is up to the compiler, so reading one into a wider integer
  takes a `CharKind`.
* Undefined behaviour that a function can run into is a `Fault`.
-/

namespace LamiaAtrium

/-- `addr_t` (and `arg_t`): `uint64_t`. -/
abbrev AddrT := BitVec 64

/-- `BYTE`: plain `char`. -/
abbrev BYTE := BitVec 8

/-- Is plain `char` signed? -/
inductive CharKind where
  | signed
  | unsigned
deriving DecidableEq

/-- A `BYTE` converted to an integer type of `w` bits. -/
def CharKind.extend (k : CharKind) {w : ℕ} (b : BYTE) : BitVec w :=
  match k with
  | .signed => b.signExtend w
  | .unsigned => b.setWidth w

/-- Undefined behaviour. -/
inductive Fault where
  | nullDeref
  | outOfBounds
deriving DecidableEq

/-- A sequence of two calls that ends well. -/
theorem bind_eq_ok {ε α β : Type} {x : Except ε α} {f : α → Except ε β} {b : β} :
    x >>= f = .ok b ↔ ∃ a, x = .ok a ∧ f a = .ok b := by
  cases x with
  | error e => simp [bind, Except.bind]
  | ok a => simp [bind, Except.bind]

/-! ## Instructions -/

/-- `enum ins_opcode_t`. -/
inductive InsOpcodeT where
  | calc
  | alloc
  | free
  | read
  | write
  | syscall
deriving DecidableEq

/-- `struct inst_t`; an `arg_t` is 64 bits wide. -/
structure InstT where
  opcode : InsOpcodeT
  arg0 : BitVec 64
  arg1 : BitVec 64
  arg2 : BitVec 64
  arg3 : BitVec 64
deriving DecidableEq

/-! ## Masks and field macros -/

/-- `BIT(nr)`. -/
def bit (nr : ℕ) : BitVec 32 := 1#32 <<< nr

/-- `GENMASK(h, l)` with `BITS_PER_LONG = 32`. -/
def genmask (h l : ℕ) : BitVec 32 := (~~~0#32 <<< l) &&& (~~~0#32 >>> (32 - h - 1))

/-- `GENMASK64(h, l)`. -/
def genmask64 (h l : ℕ) : AddrT := (~~~0#64 <<< l) &&& (~~~0#64 >>> (64 - h - 1))

/-- `SETBIT(v, mask)`. -/
def setbit (v : AddrT) (mask : BitVec 32) : AddrT := v ||| mask.setWidth 64

/-- `CLRBIT(v, mask)`: the complement is taken in 32 bits and then widened. -/
def clrbit (v : AddrT) (mask : BitVec 32) : AddrT := v &&& (~~~mask).setWidth 64

/-- `SETVAL(v, value, mask, offst)`. -/
def setval (v value : AddrT) (mask : BitVec 32) (offst : ℕ) : AddrT :=
  (v &&& (~~~mask).setWidth 64) ||| ((value <<< offst) &&& mask.setWidth 64)

/-- `PAGING_PTE_PRESENT_MASK`. -/
def pagingPtePresentMask : BitVec 32 := bit 31

/-- `PAGING_PTE_SWAPPED_MASK`. -/
def pagingPteSwappedMask : BitVec 32 := bit 30

/-- `PAGING_PTE_FPN_MASK`. -/
def pagingPteFpnMask : BitVec 32 := genmask 12 0

/-- `PAGING_PTE_SWPTYP_MASK`. -/
def pagingPteSwptypMask : BitVec 32 := genmask 4 0

/-- `PAGING_PTE_SWPOFF_MASK`. -/
def pagingPteSwpoffMask : BitVec 32 := genmask 25 5

/-- `PAGING_PAGESZ`: the unit in which a device is cut into frames and swapped. -/
def pagingPagesz : ℕ := 256

/-- `PAGING64_PAGESZ`: the unit in which frame numbers are turned into addresses. -/
def paging64Pagesz : ℕ := 4096

/-- `PAGING_MAX_PGN`: the pages of 22 address bits. -/
def pagingMaxPgn : ℕ := ((bit 22).toNat + pagingPagesz - 1) / pagingPagesz

/-- `PAGING_MAX_SYMTBL_SZ`. -/
def pagingMaxSymtblSz : ℕ := 30

/-- `PAGING_PAGE_PRESENT(pte)`. -/
def pagingPagePresent (pte : BitVec 32) : Bool := pte &&& pagingPtePresentMask != 0

/-- `PAGING_FPN(pte)`. -/
def pagingFpn (pte : BitVec 32) : BitVec 32 := (pte &&& pagingPteFpnMask) >>> 0

/-- `PAGING_SWP(pte)`: the swap offset. -/
def pagingSwp (pte : BitVec 32) : BitVec 32 := (pte &&& pagingPteSwpoffMask) >>> 5

/-- `GETVAL(pte, PAGING_PTE_SWPTYP_MASK, PAGING_PTE_SWPTYP_LOBIT)`. -/
def pteSwptyp (pte : BitVec 32) : BitVec 32 := (pte &&& pagingPteSwptypMask) >>> 0

/-- `PAGING_PGN(x)`: bits 8 to 21, the page number of the 32-bit scheme. -/
def pagingPgn (x : BitVec 32) : BitVec 32 := (x &&& genmask 21 8) >>> 8

/-- An `int` that is not negative stays what it is when it is widened. -/
theorem signExtend_of_lt {v : BitVec 32} (h : v.toNat < 2 ^ 31) : v.signExtend 64 = v.setWidth 64 := by
  apply BitVec.signExtend_eq_setWidth_of_msb_false
  rw [BitVec.msb_eq_decide]
  simpa using h

/-! ## The structures of `os-mm.h` -/

/-- `struct vm_rg_struct`; `rg_next` is the list it is in. -/
structure VmRgStruct where
  rgStart : AddrT
  rgEnd : AddrT
deriving DecidableEq

/-- `struct vm_area_struct`; `vm_next` is the list it is in, `vm_mm` is never read. -/
structure VmAreaStruct where
  vmId : BitVec 64
  vmStart : AddrT
  vmEnd : AddrT
  sbrk : AddrT
  vmFreergList : List VmRgStruct

/-- `struct mm_struct`. `p4d`, `pud`, `pmd`, `pt` are set to `NULL` and never read. -/
structure MmStruct where
  pgd : AddrT
  mmap : List VmAreaStruct
  symrgtbl : Vector VmRgStruct pagingMaxSymtblSz
  fifoPgn : List AddrT

/-- `struct memphy_struct`; `used_fp_list` is never read. `storage` is the memory behind the pointer, at
    every index: the device does not check indices against `maxsz`. -/
structure MemphyStruct where
  storage : AddrT → BYTE
  maxsz : ℤ
  rdmflg : Bool
  cursor : ℤ
  freeFpList : List AddrT

/-- A structure as `malloc` may return it. -/
def rawMm : MmStruct := ⟨0, [], Vector.replicate _ ⟨0, 0⟩, []⟩

/-- A device structure before `init_memphy`. -/
def rawMp : MemphyStruct := ⟨fun _ => 0, 0, false, 0, []⟩

end LamiaAtrium
