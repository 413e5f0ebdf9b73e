import LamiaAtrium.Mem.Correctness.Space
import LamiaAtrium.Mem.Correctness.Status
import LamiaAtrium.Mem.Correctness.Store

/-!
# `Mem.Correctness.Operands` — the register and the offset of an instruction

* The register: `InTable` computations stay inside `symrgtbl`. `symtblSafe_iff`: ALLOC, FREE, READ and WRITE reach the
  table by four routes, with a check that lets index 30 through, one that is not used, or none; `RefusesRegister` says
  which of them refuse a register that does not exist.
* The address: `accessAddr` is what is handed to `pg_getval` or `pg_setval` (`run_read`, `run_write`).
  `accessInside_iff`: nothing compares it with the region, and it is an `int`.
-/

namespace LamiaAtrium

/-! ## Computations that stay inside the table -/

/-- The computation does not leave an array. -/
def InTable {α : Type} (r : Except Fault α) : Prop := r ≠ .error .outOfBounds

theorem inTable_ok {α : Type} (a : α) : InTable (.ok a) := by
  intro h
  cases h

theorem inTable_nullDeref {α : Type} : InTable (.error .nullDeref : Except Fault α) := by
  intro h
  cases h

theorem inTable_bind {α β : Type} {r : Except Fault α} {f : α → Except Fault β} (hr : InTable r)
    (hf : ∀ a, r = .ok a → InTable (f a)) : InTable (r >>= f) := by
  cases r with
  | error e => exact fun h => hr (congrArg Except.error (Except.error.inj h))
  | ok a => exact hf a rfl

section

variable {k : CharKind} {sched : SchedState ℕ} {s : Kernel} {x : ℕ} {mm : MmStruct} {junk : BYTE}

theorem inTable_mmOf : InTable (s.mmOf x) := by
  unfold Kernel.mmOf
  cases s.mm x with
  | none => exact inTable_nullDeref
  | some mm => exact inTable_ok mm

theorem inTable_getVmaLoop (vmaid : BitVec 32) (l : List VmAreaStruct) : ∀ i, InTable (getVmaLoop vmaid i l) := by
  induction l with
  | nil =>
    intro i
    exact inTable_nullDeref
  | cons vma rest ih =>
    intro i
    rw [getVmaLoop]
    split
    · exact ih (i + 1)
    · exact inTable_ok i

theorem inTable_getVmaByNum (vmaid : BitVec 32) : InTable (getVmaByNum mm vmaid) := by
  unfold getVmaByNum
  split
  · exact inTable_ok none
  · have hloop := inTable_getVmaLoop vmaid mm.mmap 0
    cases hl : getVmaLoop vmaid 0 mm.mmap with
    | error e =>
      rw [hl] at hloop
      exact fun h => hloop (congrArg Except.error (Except.error.inj h))
    | ok i => exact inTable_ok (some i)

theorem inTable_areaAt (vma : Option ℕ) : InTable (areaAt mm vma) := by
  unfold areaAt
  split
  · exact inTable_nullDeref
  · split
    · exact inTable_nullDeref
    · exact inTable_ok _

theorem inTable_getFreeVmrgArea (vmaid size : BitVec 32) : InTable (getFreeVmrgArea mm vmaid size) := by
  unfold getFreeVmrgArea
  refine inTable_bind (inTable_getVmaByNum vmaid) fun vma _ => ?_
  refine inTable_bind (inTable_areaAt vma) fun area _ => ?_
  exact inTable_ok _

theorem inTable_enlist (rg : VmRgStruct) : InTable (enlistVmFreergList mm rg) := by
  unfold enlistVmFreergList
  split
  · exact inTable_nullDeref
  · split
    · exact inTable_ok _
    · exact inTable_ok _

theorem inTable_pgGetpage (pgn : BitVec 32) : InTable (s.pgGetpage k x pgn) := by
  unfold Kernel.pgGetpage
  refine inTable_bind inTable_mmOf fun mm _ => ?_
  split
  · exact inTable_ok _
  · refine inTable_bind ?_ fun victim _ => ?_
    · rcases findVictimPage_cases mm with ⟨-, hv⟩ | ⟨vicpgn, -, hv⟩ | ⟨vicpgn, rest, -, -, hv⟩
      · rw [hv]
        exact inTable_ok _
      · rw [hv]
        exact inTable_nullDeref
      · rw [hv]
        exact inTable_ok _
    · split
      · exact inTable_ok _
      · split
        · exact inTable_ok _
        · exact inTable_ok _

theorem inTable_symrgAt {i : ℕ} (hi : i < pagingMaxSymtblSz) : InTable (symrgAt mm i) := by
  rw [symrgAt, dif_pos hi]
  exact inTable_ok _

theorem inTable_setSymrg {i : ℕ} (hi : i < pagingMaxSymtblSz) (rg : VmRgStruct) : InTable (setSymrg mm i rg) := by
  rw [setSymrg, dif_pos hi]
  exact inTable_ok _

/-- What `get_symrg_byid` returns is the index itself. -/
theorem getSymrgById_eq_some {rgid : BitVec 32} {i : ℕ} (h : getSymrgById rgid = some i) : i = rgid.toNat := by
  unfold getSymrgById at h
  split at h
  · cases h
  · exact (Option.some.inj h).symm

/-! ### The four routes, for a register that exists -/

variable {rgid : BitVec 32}

theorem inTable_liballoc (hreg : rgid.toNat < pagingMaxSymtblSz) (size : AddrT) :
    InTable (s.liballoc k sched x size rgid junk) := by
  unfold Kernel.liballoc Kernel.alloc
  refine inTable_bind ?_ fun _ _ => inTable_ok _
  refine inTable_bind inTable_mmOf fun mm _ => ?_
  refine inTable_bind (inTable_getVmaByNum 0) fun vma _ => ?_
  refine inTable_bind (inTable_getFreeVmrgArea 0 _) fun found _ => ?_
  obtain ⟨newrg, mm₁⟩ := found
  cases newrg with
  | some rgnode => exact inTable_bind (inTable_setSymrg hreg rgnode) fun _ _ => inTable_ok _
  | none =>
    refine inTable_bind (inTable_areaAt vma) fun area _ => ?_
    obtain ⟨stat, regs, hsys⟩ := Kernel.syscall_inc k sched (s.setMm x mm₁) (pidOf x) ((0 : BitVec 32).signExtend 64)
      size junk
    rw [hsys]
    refine inTable_bind (inTable_ok _) fun _ _ => ?_
    refine inTable_bind inTable_mmOf fun mm₂ _ => ?_
    exact inTable_bind (inTable_setSymrg hreg _) fun _ _ => inTable_ok _

theorem inTable_libfree (hreg : rgid.toNat < pagingMaxSymtblSz) : InTable (s.libfree x rgid) := by
  unfold Kernel.libfree Kernel.free
  split
  · exact inTable_ok _
  · rename_i i hi
    obtain rfl := getSymrgById_eq_some hi
    refine inTable_bind inTable_mmOf fun mm _ => ?_
    refine inTable_bind (inTable_symrgAt hreg) fun rgnode _ => ?_
    split
    · exact inTable_ok _
    · refine inTable_bind (inTable_setSymrg hreg _) fun mm₁ _ => ?_
      exact inTable_bind (inTable_enlist rgnode) fun _ _ => inTable_ok _

theorem inTable_libread (hreg : rgid.toNat < pagingMaxSymtblSz) (offset : AddrT) :
    InTable (s.libread k x rgid offset junk) := by
  unfold Kernel.libread Kernel.read
  refine inTable_bind ?_ fun _ _ => inTable_ok _
  split
  · exact inTable_nullDeref
  · rename_i i hi
    obtain rfl := getSymrgById_eq_some hi
    refine inTable_bind inTable_mmOf fun mm _ => ?_
    refine inTable_bind (inTable_symrgAt hreg) fun currg _ => ?_
    refine inTable_bind ?_ fun _ _ => inTable_ok _
    exact inTable_bind (inTable_pgGetpage _) fun _ _ => inTable_ok _

theorem inTable_libwrite (hreg : rgid.toNat < pagingMaxSymtblSz) (data : BYTE) (offset : AddrT) :
    InTable (s.libwrite k x data rgid offset) := by
  unfold Kernel.libwrite Kernel.write
  refine inTable_bind inTable_mmOf fun mm _ => ?_
  refine inTable_bind (inTable_getVmaByNum 0) fun vma _ => ?_
  split
  · rename_i i _ hi _
    obtain rfl := getSymrgById_eq_some hi
    refine inTable_bind (inTable_symrgAt hreg) fun currg _ => ?_
    refine inTable_bind ?_ fun _ _ => inTable_ok _
    exact inTable_bind (inTable_pgGetpage _) fun _ _ => inTable_ok _
  · exact inTable_ok _

/-! ### Which instructions refuse a register -/

/-- `__free` refuses an index that `get_symrg_byid` refuses, and the region `[0, 0)`. -/
def FreeRefuses (mm : MmStruct) (rgid : BitVec 32) : Prop :=
  getSymrgById rgid = none ∨ ∃ i, getSymrgById rgid = some i ∧ symrgAt mm i = .ok ⟨0, 0⟩

/-- `__write` refuses such an index, too, and an address space without areas. -/
def WriteRefuses (mm : MmStruct) (rgid : BitVec 32) : Prop :=
  getVmaByNum mm 0 = .ok none ∨ (getSymrgById rgid = none ∧ ∃ vma, getVmaByNum mm 0 = .ok vma)

theorem libfree_of_refuses (hm : s.mm x = some mm) (h : FreeRefuses mm rgid) : s.libfree x rgid = .ok (-1, s) := by
  unfold Kernel.libfree Kernel.free
  rcases h with hnone | ⟨i, hi, hrg⟩
  · rw [hnone]
  · rw [hi, Kernel.mmOf_eq_ok.mpr hm]
    dsimp only [bind, Except.bind]
    rw [hrg]
    exact if_pos ⟨rfl, rfl⟩

theorem refuses_of_libfree (hm : s.mm x = some mm) {stat : ℤ} {t : Kernel} (h : s.libfree x rgid = .ok (stat, t))
    (hstat : stat ≠ 0) : FreeRefuses mm rgid := by
  unfold Kernel.libfree Kernel.free at h
  split at h
  · rename_i hnone
    exact .inl hnone
  · rename_i i hi
    obtain ⟨mm', hm', h⟩ := bind_eq_ok.mp h
    obtain rfl := Option.some.inj (hm.symm.trans (Kernel.mmOf_eq_ok.mp hm'))
    obtain ⟨rgnode, hrg, h⟩ := bind_eq_ok.mp h
    split at h
    · rename_i hzero
      obtain ⟨rgStart, rgEnd⟩ := rgnode
      obtain ⟨rfl, rfl⟩ := hzero
      exact .inr ⟨i, hi, hrg⟩
    · obtain ⟨mm₁, -, h⟩ := bind_eq_ok.mp h
      obtain ⟨enlisted, -, h⟩ := bind_eq_ok.mp h
      exact absurd (congrArg Prod.fst (Except.ok.inj h)).symm hstat

theorem libwrite_of_refuses (hm : s.mm x = some mm) (h : WriteRefuses mm rgid) (data : BYTE) (offset : AddrT) :
    s.libwrite k x data rgid offset = .ok (-1, s) := by
  unfold Kernel.libwrite Kernel.write
  rw [Kernel.mmOf_eq_ok.mpr hm]
  dsimp only [bind, Except.bind]
  rcases h with harea | ⟨hnone, vma, harea⟩
  · rw [harea]
    cases getSymrgById rgid with
    | none => rfl
    | some i => rfl
  · rw [harea, hnone]

theorem refuses_of_libwrite (hm : s.mm x = some mm) {data : BYTE} {offset : AddrT} {stat : ℤ} {t : Kernel}
    (h : s.libwrite k x data rgid offset = .ok (stat, t)) (hstat : stat ≠ 0) : WriteRefuses mm rgid := by
  unfold Kernel.libwrite Kernel.write at h
  obtain ⟨mm', hm', h⟩ := bind_eq_ok.mp h
  obtain rfl := Option.some.inj (hm.symm.trans (Kernel.mmOf_eq_ok.mp hm'))
  obtain ⟨vma, harea, h⟩ := bind_eq_ok.mp h
  cases hi : getSymrgById rgid with
  | none => exact .inr ⟨hi, vma, harea⟩
  | some i =>
    cases vma with
    | none => exact .inl harea
    | some j =>
      rw [hi] at h
      obtain ⟨currg, -, h⟩ := bind_eq_ok.mp h
      obtain ⟨set, -, h⟩ := bind_eq_ok.mp h
      exact absurd (congrArg Prod.fst (Except.ok.inj h)).symm hstat

/-- The instruction refuses the register; ALLOC and READ never do. -/
def RefusesRegister (mm : MmStruct) (rgid : BitVec 32) : InsOpcodeT → Prop
  | .free  => FreeRefuses mm rgid
  | .write => WriteRefuses mm rgid
  | _      => False

/-- The register argument of an instruction that reaches `symrgtbl`. -/
def registerArg (ins : InstT) : Option (BitVec 64) :=
  match ins.opcode with
  | .alloc => some ins.arg1
  | .free  => some ins.arg0
  | .read  => some ins.arg0
  | .write => some ins.arg1
  | _      => none

/-- **Safe indexing**: the instruction stays inside the table, and with an argument that is no register it fails and
    leaves the address space as it is. -/
structure SymtblSafe (k : CharKind) (sched : SchedState ℕ) (s : Kernel) (x : ℕ) (mm : MmStruct) (ins : InstT)
    (reg : BitVec 64) (junk : BYTE) : Prop where
  inTable : InTable (s.run k sched x ins junk)
  refused : pagingMaxSymtblSz ≤ reg.toNat →
    ∃ stat t, s.run k sched x ins junk = .ok (stat, t) ∧ stat ≠ 0 ∧ t.mm x = some mm

theorem run_read_stat {ins : InstT} (hop : ins.opcode = .read) {stat : ℤ} {t : Kernel}
    (h : s.run k sched x ins junk = .ok (stat, t)) : stat = 0 := by
  unfold Kernel.run at h
  rw [hop] at h
  obtain ⟨⟨stat', data, t'⟩, hread, h⟩ := bind_eq_ok.mp h
  obtain ⟨rfl, -⟩ := Prod.mk.inj (Except.ok.inj h)
  exact libread_stat hread

/-- An instruction that fails has refused its register. -/
theorem refusesRegister_of_run (hm : s.mm x = some mm) {ins : InstT} {reg : BitVec 64}
    (hreg : registerArg ins = some reg) {stat : ℤ} {t : Kernel} (h : s.run k sched x ins junk = .ok (stat, t))
    (hstat : stat ≠ 0) :
    RefusesRegister mm (reg.setWidth 32) ins.opcode := by
  obtain ⟨opcode, arg0, arg1, arg2, arg3⟩ := ins
  cases opcode with
  | «calc» => cases hreg
  | alloc => exact absurd (alloc_stat h) hstat
  | free =>
    obtain rfl := Option.some.inj hreg
    exact refuses_of_libfree hm h hstat
  | read => exact absurd (run_read_stat rfl h) hstat
  | write =>
    obtain rfl := Option.some.inj hreg
    exact refuses_of_libwrite hm h hstat
  | syscall => cases hreg

/-- And one that refuses its register fails, and changes nothing. -/
theorem run_of_refusesRegister (hm : s.mm x = some mm) {ins : InstT} {reg : BitVec 64}
    (hreg : registerArg ins = some reg) (h : RefusesRegister mm (reg.setWidth 32) ins.opcode) :
    s.run k sched x ins junk = .ok (-1, s) := by
  obtain ⟨opcode, arg0, arg1, arg2, arg3⟩ := ins
  cases opcode with
  | free =>
    obtain rfl := Option.some.inj hreg
    exact libfree_of_refuses hm h
  | write =>
    obtain rfl := Option.some.inj hreg
    exact libwrite_of_refuses hm h _ _
  | _ => exact h.elim

theorem inTable_run {ins : InstT} {reg : BitVec 64} (hreg : registerArg ins = some reg)
    (hlt : reg.toNat < pagingMaxSymtblSz) : InTable (s.run k sched x ins junk) := by
  have hnarrow : (reg.setWidth 32 : BitVec 32).toNat < pagingMaxSymtblSz := by
    rw [BitVec.toNat_setWidth]
    exact (Nat.mod_le _ _).trans_lt hlt
  obtain ⟨opcode, arg0, arg1, arg2, arg3⟩ := ins
  cases opcode with
  | «calc» => cases hreg
  | alloc =>
    obtain rfl := Option.some.inj hreg
    exact inTable_liballoc hnarrow _
  | free =>
    obtain rfl := Option.some.inj hreg
    exact inTable_libfree hnarrow
  | read =>
    obtain rfl := Option.some.inj hreg
    exact inTable_bind (inTable_libread hnarrow _) fun _ _ => inTable_ok _
  | write =>
    obtain rfl := Option.some.inj hreg
    exact inTable_libwrite hnarrow _ _
  | syscall => cases hreg

end

/-- **Indexing is safe exactly for the registers that exist**, and for the others where the instruction refuses
    them. -/
theorem symtblSafe_iff (k : CharKind) (sched : SchedState ℕ) (s : Kernel) (x : ℕ) (mm : MmStruct)
    (hm : s.mm x = some mm) (ins : InstT) (reg : BitVec 64) (hreg : registerArg ins = some reg) (junk : BYTE) :
    SymtblSafe k sched s x mm ins reg junk ↔
      reg.toNat < pagingMaxSymtblSz ∨ RefusesRegister mm (reg.setWidth 32) ins.opcode := by
  constructor
  · rintro ⟨-, hrefused⟩
    rcases Nat.lt_or_ge reg.toNat pagingMaxSymtblSz with hlt | hge
    · exact .inl hlt
    · obtain ⟨stat, t, hrun, hstat, -⟩ := hrefused hge
      exact .inr (refusesRegister_of_run hm hreg hrun hstat)
  · rintro (hlt | hrefuses)
    · exact ⟨inTable_run hreg hlt, fun hge => absurd hlt (Nat.not_lt.mpr hge)⟩
    · have hrun : s.run k sched x ins junk = .ok (-1, s) := run_of_refusesRegister hm hreg hrefuses
      refine ⟨?_, fun _ => ⟨-1, s, hrun, by decide, hm⟩⟩
      rw [hrun]
      exact inTable_ok _

/-- FREE of a register that does not exist. -/
theorem symtblSafe_iff_free : SymtblSafe .signed .static twoListed 0 listedMm
    ⟨.free, 31, 0, 0, 0⟩ 31 0 :=
  (symtblSafe_iff .signed .static twoListed 0 listedMm rfl ⟨.free, 31, 0, 0, 0⟩ 31 rfl 0).mpr
    (.inr (.inl (by decide)))

/-- READ of register 30, which the check of `get_symrg_byid` lets through. -/
theorem symtblSafe_fails : ¬ ∀ k sched (s : Kernel) x mm ins reg junk, s.mm x = some mm →
    registerArg ins = some reg → SymtblSafe k sched s x mm ins reg junk := by
  intro h
  have hsafe := h .signed .static twoListed 0 listedMm ⟨.read, 30, 0, 0, 0⟩ 30 0 rfl rfl
  apply hsafe.inTable
  have hrg : symrgAt listedMm 30 = .error .outOfBounds := dif_neg (by decide)
  have hid : getSymrgById ((30 : BitVec 64).setWidth 32) = some 30 := by decide
  show (twoListed.libread .signed 0 ((30 : BitVec 64).setWidth 32) 0 0 >>= _) = _
  unfold Kernel.libread Kernel.read
  rw [hid, Kernel.mmOf_eq_ok.mpr rfl]
  dsimp only [bind, Except.bind]
  rw [hrg]

/-! ## The address of an access -/

/-- The offset of a READ or a WRITE. -/
def offsetArg (ins : InstT) : Option AddrT :=
  match ins.opcode with
  | .read  => some ins.arg1
  | .write => some ins.arg2
  | _      => none

/-- `currg->rg_start + offset`, as the `int` that it becomes. -/
def regionAddr (mm : MmStruct) (rgid : BitVec 32) (offset : AddrT) : Option (BitVec 32) :=
  match getSymrgById rgid with
  | none   => none
  | some i =>
    match symrgAt mm i with
    | .ok currg => some ((currg.rgStart + offset).setWidth 32)
    | .error _  => none

/-- Does the instruction come as far as the address? `__write` wants an area besides. -/
def ReachesAddr (mm : MmStruct) : InsOpcodeT → Prop
  | .write => ∃ i, getVmaByNum mm 0 = .ok (some i)
  | _      => True

/-- **The address that a READ or a WRITE accesses.** -/
def Accesses (mm : MmStruct) (ins : InstT) (a : BitVec 32) : Prop :=
  ∃ reg offset, registerArg ins = some reg ∧ offsetArg ins = some offset ∧ ReachesAddr mm ins.opcode ∧
    regionAddr mm (reg.setWidth 32) offset = some a

section

variable {k : CharKind} {sched : SchedState ℕ} {s : Kernel} {x : ℕ} {mm : MmStruct} {junk : BYTE}

theorem regionAddr_eq_some {rgid : BitVec 32} {offset : AddrT} {a : BitVec 32}
    (h : regionAddr mm rgid offset = some a) :
    ∃ i currg, getSymrgById rgid = some i ∧ symrgAt mm i = .ok currg ∧ a = (currg.rgStart + offset).setWidth 32 := by
  unfold regionAddr at h
  split at h
  · cases h
  · rename_i i hi
    split at h
    · rename_i currg hrg
      exact ⟨i, currg, hi, hrg, (Option.some.inj h).symm⟩
    · cases h

/-- **That is what `pg_getval` or `pg_setval` gets.** -/
theorem run_of_accesses (hm : s.mm x = some mm) {ins : InstT} {a : BitVec 32} (h : Accesses mm ins a) :
    s.run k sched x ins junk = (do let (_, _, t) ← s.pgGetval k x a junk; .ok (0, t)) ∨
      s.run k sched x ins junk = (do let (_, t) ← s.pgSetval k x a (ins.arg0.setWidth 8); .ok (0, t)) := by
  obtain ⟨reg, offset, hreg, hoffset, hreach, haddr⟩ := h
  obtain ⟨i, currg, hi, hrg, rfl⟩ := regionAddr_eq_some haddr
  obtain ⟨opcode, arg0, arg1, arg2, arg3⟩ := ins
  cases opcode with
  | read =>
    obtain rfl := Option.some.inj hreg
    obtain rfl := Option.some.inj hoffset
    left
    show (s.libread k x (arg0.setWidth 32) arg1 junk >>= _) = _
    unfold Kernel.libread Kernel.read
    rw [hi, Kernel.mmOf_eq_ok.mpr hm]
    dsimp only [bind, Except.bind]
    rw [hrg]
    dsimp only
    cases s.pgGetval k x ((currg.rgStart + arg1).setWidth 32) junk with
    | error e => rfl
    | ok r => rfl
  | write =>
    obtain rfl := Option.some.inj hreg
    obtain rfl := Option.some.inj hoffset
    obtain ⟨j, harea⟩ := hreach
    right
    show s.libwrite k x (arg0.setWidth 8) (arg1.setWidth 32) arg2 = _
    unfold Kernel.libwrite Kernel.write
    rw [Kernel.mmOf_eq_ok.mpr hm]
    dsimp only [bind, Except.bind]
    rw [harea, hi]
    dsimp only
    rw [hrg]
  | _ => cases hoffset

end

/-- Register `rgid` holds region `rg`, which has a byte at the offset; the sum does not wrap around. -/
def InBounds (mm : MmStruct) (rgid : BitVec 32) (offset : AddrT) (rg : VmRgStruct) : Prop :=
  ∃ r : Fin pagingMaxSymtblSz, rgid.toNat = r ∧ mm.symrgtbl.get r = rg ∧
    rg.rgStart.toNat + offset.toNat < rg.rgEnd.toNat

/-- The `int` address, widened again, is in the region. -/
def HitsRegion (rg : VmRgStruct) (a : BitVec 32) : Prop := rg.rgStart ≤ a.signExtend 64 ∧ a.signExtend 64 < rg.rgEnd

/-- **An access stays inside its region**: out of bounds the instruction fails and keeps pages, lists and pools as
    they are, and in bounds the address is one of the region. -/
structure AccessInside (k : CharKind) (sched : SchedState ℕ) (s : Kernel) (x : ℕ) (mm : MmStruct) (ins : InstT)
    (rgid : BitVec 32) (offset : AddrT) (junk : BYTE) : Prop where
  refused : (¬ ∃ rg, InBounds mm rgid offset rg) →
    ∃ stat t, s.run k sched x ins junk = .ok (stat, t) ∧ stat ≠ 0 ∧ FaultKeeps k s t
  inside : ∀ rg a, InBounds mm rgid offset rg → Accesses mm ins a → HitsRegion rg a

section

variable {k : CharKind} {sched : SchedState ℕ} {s : Kernel} {x : ℕ} {mm : MmStruct} {junk : BYTE}

/-- In bounds there is an address. -/
theorem InBounds.regionAddr_eq {rgid : BitVec 32} {offset : AddrT} {rg : VmRgStruct} (h : InBounds mm rgid offset rg) :
    regionAddr mm rgid offset = some ((rg.rgStart + offset).setWidth 32) := by
  obtain ⟨r, hr, rfl, -⟩ := h
  have hrgid : rgid = BitVec.ofNat 32 r := by
    rw [← hr, BitVec.ofNat_toNat, BitVec.setWidth_eq]
  have hrg : symrgAt mm r = .ok (mm.symrgtbl.get r) := dif_pos r.isLt
  rw [regionAddr, hrgid, getSymrgById_register]
  dsimp only
  rw [hrg]

theorem InBounds.unique {rgid : BitVec 32} {offset : AddrT} {rg rg' : VmRgStruct} (h : InBounds mm rgid offset rg)
    (h' : InBounds mm rgid offset rg') : rg = rg' := by
  obtain ⟨r, hr, rfl, -⟩ := h
  obtain ⟨r', hr', rfl, -⟩ := h'
  rw [Fin.ext (hr.symm.trans hr')]

/-- What an instruction in bounds accesses. -/
theorem InBounds.accesses_iff {ins : InstT} {reg : BitVec 64} {offset : AddrT} (hreg : registerArg ins = some reg)
    (hoffset : offsetArg ins = some offset) {rg : VmRgStruct} (h : InBounds mm (reg.setWidth 32) offset rg)
    {a : BitVec 32} : Accesses mm ins a ↔ ReachesAddr mm ins.opcode ∧ a = (rg.rgStart + offset).setWidth 32 := by
  constructor
  · rintro ⟨reg', offset', hreg', hoffset', hreach, haddr⟩
    obtain rfl := Option.some.inj (hreg.symm.trans hreg')
    obtain rfl := Option.some.inj (hoffset.symm.trans hoffset')
    exact ⟨hreach, (Option.some.inj (h.regionAddr_eq.symm.trans haddr)).symm⟩
  · rintro ⟨hreach, rfl⟩
    exact ⟨reg, offset, hreg, hoffset, hreach, h.regionAddr_eq⟩

end

/-- **An access stays inside its region exactly when** it is in bounds, and the sum hits the region as an `int`, too
    (if the instruction comes that far), or it is not, and the instruction refuses the register. -/
theorem accessInside_iff (k : CharKind) (sched : SchedState ℕ) (s : Kernel) (x : ℕ) (mm : MmStruct)
    (hm : s.mm x = some mm) (ins : InstT) (reg : BitVec 64) (offset : AddrT) (hreg : registerArg ins = some reg)
    (hoffset : offsetArg ins = some offset) (junk : BYTE) :
    AccessInside k sched s x mm ins (reg.setWidth 32) offset junk ↔
      (∃ rg, InBounds mm (reg.setWidth 32) offset rg ∧
        (ReachesAddr mm ins.opcode → HitsRegion rg ((rg.rgStart + offset).setWidth 32))) ∨
      ((¬ ∃ rg, InBounds mm (reg.setWidth 32) offset rg) ∧ RefusesRegister mm (reg.setWidth 32) ins.opcode) := by
  constructor
  · rintro ⟨hrefused, hinside⟩
    by_cases hin : ∃ rg, InBounds mm (reg.setWidth 32) offset rg
    · obtain ⟨rg, hrg⟩ := hin
      refine .inl ⟨rg, hrg, fun hreach => ?_⟩
      exact hinside rg _ hrg ((hrg.accesses_iff hreg hoffset).mpr ⟨hreach, rfl⟩)
    · obtain ⟨stat, t, hrun, hstat, -⟩ := hrefused hin
      exact .inr ⟨hin, refusesRegister_of_run hm hreg hrun hstat⟩
  · rintro (⟨rg, hrg, hhits⟩ | ⟨hout, hrefuses⟩)
    · refine ⟨fun hout => absurd ⟨rg, hrg⟩ hout, fun rg' a hrg' haccess => ?_⟩
      obtain rfl := hrg.unique hrg'
      obtain ⟨hreach, rfl⟩ := (hrg.accesses_iff hreg hoffset).mp haccess
      exact hhits hreach
    · refine ⟨fun _ => ?_, fun rg' a hrg' _ => absurd ⟨rg', hrg'⟩ hout⟩
      exact ⟨-1, s, run_of_refusesRegister hm hreg hrefuses, by decide, faultKeeps_refl k s⟩

/-- The process of `three_hundred` reads byte 200 of its 300. -/
theorem accessInside_iff_read : ∃ (s : Kernel) (mm : MmStruct), s.mm 0 = some mm ∧ mm.symrgtbl.get regA = ⟨0, 300⟩ ∧
    AccessInside .signed .static s 0 mm ⟨.read, 0, 200, 0, 0⟩ ((0 : BitVec 64).setWidth 32) 200 0 := by
  obtain ⟨s, m, -, hm, -, hget, -⟩ := three_hundred
  refine ⟨s, m, hm, hget, ?_⟩
  refine (accessInside_iff .signed .static s 0 m hm ⟨.read, 0, 200, 0, 0⟩ 0 200 rfl rfl 0).mpr (.inl ?_)
  refine ⟨⟨0, 300⟩, ⟨regA, by decide, hget, by decide⟩, fun _ => ?_⟩
  exact ⟨by decide, by decide⟩

/-- **It reads byte 300 of 300**, and is told that all went well. -/
theorem accessInside_fails : ¬ ∀ k sched (s : Kernel) x mm ins reg offset junk,
    (regionSystem k x fun _ => True).Reachable s → s.mm x = some mm → registerArg ins = some reg →
      offsetArg ins = some offset → AccessInside k sched s x mm ins (reg.setWidth 32) offset junk := by
  intro h
  obtain ⟨s, m, hs, hm, -, hget, -⟩ := three_hundred
  have hinside := h .signed .static s 0 m ⟨.read, 0, 300, 0, 0⟩ 0 300 0 hs hm rfl rfl
  have hout : ¬ ∃ rg, InBounds m ((0 : BitVec 64).setWidth 32) 300 rg := by
    rintro ⟨rg, r, hr, hrg, hlt⟩
    obtain rfl : regA = r := Fin.ext (by rw [← hr]; decide)
    rw [← hrg, hget] at hlt
    exact absurd hlt (by decide)
  obtain ⟨stat, t, hrun, hstat, -⟩ := hinside.refused hout
  exact hstat (run_read_stat rfl hrun)

end LamiaAtrium
