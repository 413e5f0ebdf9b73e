import LamiaAtrium.Mem.RunAccess
import LamiaAtrium.Mem.Correctness.Bounds
import LamiaAtrium.Mem.Correctness.Regions
import LamiaAtrium.Mem.Correctness.Replacement
import LamiaAtrium.Mem.Correctness.Rollback

/-!
# `Mem.Correctness.Status` — which failures below `run` reach the CPU

`cpu.h` promises that `run` returns 0 only for an instruction that has been executed successfully.

* The `Failures` functions list, for each function below `run`, the operations that it performs and that report
  failure, in the order of the source.
* `StatusReaches`: an instruction below which an operation has failed returns something else than 0.
* `Served`: what an instruction has to find so that nothing below it fails. `statusReaches_iff` says that there is no
  other way for its status to be right: every function between these operations and `run` drops what they return.
  Only a SYSCALL whose process is not in the queues returns the `-1` of `__sys_memmap`.
* The four operations of `libmem.c` end with `print_pgtbl`, which reads page table entries and returns 0 whatever the
  device says (`libFailures`). So even ALLOC and FREE, which work on the regions alone, fail on a sequential device.
-/

namespace LamiaAtrium

/-- An operation that can report failure; `memop` is a number that `__sys_memmap` does not know. -/
inductive MemOp where
  | memphyRead
  | memphyWrite
  | vmapPgdMemset
  | incVmaLimit
  | memop
  | sysMemmap
  | pgGetpage

/-! ## What fails -/

/-- `MEMPHY_read`. -/
def memphyReadFailures (mp : MemphyStruct) (addr : AddrT) : List MemOp :=
  if (memphyRead mp addr).isSome then [] else [.memphyRead]

/-- `MEMPHY_write`. -/
def memphyWriteFailures (mp : MemphyStruct) (addr : AddrT) (data : BYTE) : List MemOp :=
  if (memphyWrite mp addr data).isSome then [] else [.memphyWrite]

/-- `n` turns of the loop of `get_32bit_entry`, from byte `i` on. It returns at the first failure. -/
def get32bitFailures (mp : MemphyStruct) (base : AddrT) : ℕ → ℕ → List MemOp
  | _, 0     => []
  | i, n + 1 =>
    match memphyRead mp (base + BitVec.ofNat 64 i) with
    | none   => [.memphyRead]
    | some _ => get32bitFailures mp base (i + 1) n

/-- `n` turns of the loop that writes an entry, from byte `i` on. It goes on after a failure. -/
def putBytesFailures (addr v : AddrT) : ℕ → ℕ → MemphyStruct → List MemOp
  | _, 0,     _  => []
  | i, n + 1, mp =>
    memphyWriteFailures mp (addr + BitVec.ofNat 64 i) (byteOf v i) ++
      putBytesFailures addr v (i + 1) n (memphyWriteIgn mp (addr + BitVec.ofNat 64 i) (byteOf v i))

/-- The descent of `get_pte_address`. -/
def walkFailures (k : CharKind) (mp : MemphyStruct) : AddrT → List AddrT → List MemOp
  | _, []           => []
  | base, idx :: is =>
    get32bitFailures mp (base + idx * 4) 0 4 ++
      if entryPresent (get32bitEntry k mp (base + idx * 4)) then
        walkFailures k mp (entryBase (get32bitEntry k mp (base + idx * 4))) is
      else []

/-- `pte_get_entry`. -/
def pteGetFailures (k : CharKind) (mm : MmStruct) (mp : MemphyStruct) (pgn : AddrT) : List MemOp :=
  walkFailures k mp mm.pgd (getPdFromPagenum pgn).upper ++
    match getPteAddress k mm mp pgn with
    | none   => []
    | some a => get32bitFailures mp a 0 4

/-- Levels 1 to 4 of `pte_set_fpn`. -/
def allocTablesFailures (k : CharKind) : MemphyStruct → AddrT → List AddrT → List MemOp
  | _, _, []            => []
  | mp, base, idx :: is =>
    get32bitFailures mp (base + idx * 4) 0 4 ++
      if entryPresent (get32bitEntry k mp (base + idx * 4)) then
        allocTablesFailures k mp (entryBase (get32bitEntry k mp (base + idx * 4))) is
      else
        match memphyGetFreefp mp with
        | none           => []
        | some (fpn, mp) =>
          putBytesFailures (base + idx * 4) (tableEntry fpn) 0 4 mp ++
            allocTablesFailures k (putEntryBytes mp (base + idx * 4) (tableEntry fpn)) (entryBase (tableEntry fpn)) is

/-- `pte_set_fpn`. -/
def pteSetFpnFailures (k : CharKind) (mm : MmStruct) (mp : MemphyStruct) (pgn fpn : AddrT) : List MemOp :=
  allocTablesFailures k mp mm.pgd (getPdFromPagenum pgn).upper ++
    match allocTables k mp mm.pgd (getPdFromPagenum pgn).upper with
    | (none, _)         => []
    | (some ptBase, mp) =>
      let pteAddr := ptBase + (getPdFromPagenum pgn).pt * 4
      get32bitFailures mp pteAddr 0 4 ++ putBytesFailures pteAddr (leafEntry (get32bitEntry k mp pteAddr) fpn) 0 4 mp

/-- `n` turns of the loop of `vmap_pgd_memset`, from page `pgn` on. -/
def vmapPgdLoopFailures (k : CharKind) (mm : MmStruct) : ℕ → MemphyStruct → AddrT → List MemOp
  | 0,     _,  _   => []
  | n + 1, mp, pgn =>
    pteSetFpnFailures k mm mp pgn 0 ++
      match pteSetFpn k mm mp pgn 0 with
      | (stat, mp) => if stat ≠ 0 then [.vmapPgdMemset] else vmapPgdLoopFailures k mm n mp (pgn + 1)

/-- `n` turns of the loop of `__swap_cp_page`, from cell `i` on. -/
def swapCpFailures (mpsrc : MemphyStruct) (srcfpn dstfpn : AddrT) : ℕ → ℕ → BYTE → MemphyStruct → List MemOp
  | _, 0,     _,    _     => []
  | i, n + 1, data, mpdst =>
    let data' := ((memphyRead mpsrc (srcfpn * BitVec.ofNat 64 pagingPagesz + BitVec.ofNat 64 i)).map
      Prod.fst).getD data
    memphyReadFailures mpsrc (srcfpn * BitVec.ofNat 64 pagingPagesz + BitVec.ofNat 64 i) ++
      memphyWriteFailures mpdst (dstfpn * BitVec.ofNat 64 pagingPagesz + BitVec.ofNat 64 i) data' ++
        swapCpFailures mpsrc srcfpn dstfpn (i + 1) n data'
          (memphyWriteIgn mpdst (dstfpn * BitVec.ofNat 64 pagingPagesz + BitVec.ofNat 64 i) data')

/-- The entries on the way of `print_pgtbl`. It goes on after a failure. -/
def printFailures (k : CharKind) (mp : MemphyStruct) : AddrT → List AddrT → List MemOp
  | _, []           => []
  | base, idx :: is =>
    get32bitFailures mp (base + idx * 4) 0 4 ++
      printFailures k mp (entryBase (get32bitEntry k mp (base + idx * 4))) is

namespace Kernel

/-- `__sys_memmap`. -/
def sysMemmapFailures (k : CharKind) (sched : SchedState ℕ) (s : Kernel) (pid : BitVec 32) (regs : ScRegs)
    (junk : BYTE) : List MemOp :=
  match findPcbByPid sched pid with
  | none => [.sysMemmap]
  | some caller =>
    match (regs.a1.setWidth 32 : BitVec 32) with
    | 1#32 => -- SYSMEM_MAP_OP
      match s.mm caller with
      | none    => []
      | some mm => vmapPgdLoopFailures k mm (regs.a3.setWidth 32).toInt.toNat s.mram (regs.a2 >>> 12)
    | 2#32 => -- SYSMEM_INC_OP
      if (s.incVmaLimit caller (regs.a2.setWidth 32) regs.a3).1 = 0 then [] else [.incVmaLimit]
    | 3#32 => swapCpFailures s.mram regs.a2 regs.a3 0 pagingPagesz junk s.activeMswp -- SYSMEM_SWP_OP
    | 4#32 => memphyReadFailures s.mram regs.a2 -- SYSMEM_IO_READ
    | 5#32 => memphyWriteFailures s.mram regs.a2 (regs.a3.setWidth 8) -- SYSMEM_IO_WRITE
    | _    => [.memop]

/-- `__alloc`, which makes its system call when no free region is large enough. -/
def allocFailures (k : CharKind) (sched : SchedState ℕ) (s : Kernel) (x : ℕ) (vmaid : BitVec 32) (size : AddrT)
    (junk : BYTE) : List MemOp :=
  match s.mm x with
  | none    => []
  | some mm =>
    match getFreeVmrgArea mm vmaid (size.setWidth 32) with
    | .ok (none, mm) => (s.setMm x mm).sysMemmapFailures k sched (pidOf x) ⟨2, vmaid.signExtend 64, size⟩ junk
    | _              => []

/-- `print_pgtbl(proc, 0, -1)`. -/
def dumpFailures (k : CharKind) (s : Kernel) (x : ℕ) : List MemOp :=
  match s.mm x with
  | none    => []
  | some mm => printFailures k s.mram mm.pgd (getPdFromAddress 0).upper

/-- An operation of `libmem.c`, after which `print_pgtbl` follows unless its status `val` is `-1`. -/
def libFailures (k : CharKind) (x : ℕ) (failures : List MemOp) (r : Except Fault (ℤ × Kernel)) : List MemOp :=
  failures ++
    match r with
    | .error _     => []
    | .ok (val, t) => if val = -1 then [] else t.dumpFailures k x

/-- `pg_getpage`. The entry is read once more at the end. -/
def pgGetpageFailures (k : CharKind) (s : Kernel) (mm : MmStruct) (pgn : BitVec 32) : List MemOp :=
  pteGetFailures k mm s.mram (pgn.signExtend 64) ++
    if resident k s mm pgn then pteGetFailures k mm s.mram (pgn.signExtend 64)
    else
      match findVictimPage mm with
      | .error _     => []
      | .ok (none, _) => [.pgGetpage]
      | .ok (some _, _) =>
        match memphyGetFreefp s.activeMswp with
        | none   => [.pgGetpage]
        | some _ => pteGetFailures k mm s.mram (pgn.signExtend 64)

/-- The page that `__read` and `__write` go to, and its address space. -/
def regionPage (s : Kernel) (x : ℕ) (rgid : BitVec 32) (offset : AddrT) : Option (MmStruct × BitVec 32) :=
  match s.mm x, getSymrgById rgid with
  | some mm, some i =>
    match symrgAt mm i with
    | .ok currg => some (mm, pagingPgn ((currg.rgStart + offset).setWidth 32))
    | .error _  => none
  | _, _ => none

/-- `__read`. -/
def readFailures (k : CharKind) (s : Kernel) (x : ℕ) (rgid : BitVec 32) (offset : AddrT) : List MemOp :=
  match s.regionPage x rgid offset with
  | none           => []
  | some (mm, pgn) => s.pgGetpageFailures k mm pgn

/-- `__write`, which wants an area besides. -/
def writeFailures (k : CharKind) (s : Kernel) (x : ℕ) (vmaid rgid : BitVec 32) (offset : AddrT) : List MemOp :=
  match s.regionPage x rgid offset with
  | none           => []
  | some (mm, pgn) =>
    match getVmaByNum mm vmaid with
    | .ok (some _) => s.pgGetpageFailures k mm pgn
    | _            => []

/-- `liballoc`. -/
def liballocFailures (k : CharKind) (sched : SchedState ℕ) (s : Kernel) (x : ℕ) (size : AddrT) (regIndex : BitVec 32)
    (junk : BYTE) : List MemOp :=
  libFailures k x (s.allocFailures k sched x 0 size junk) (s.liballoc k sched x size regIndex junk)

/-- `libfree`. -/
def libfreeFailures (k : CharKind) (s : Kernel) (x : ℕ) (regIndex : BitVec 32) : List MemOp :=
  libFailures k x [] (s.libfree x regIndex)

/-- `libread`, which prints whatever the status is. -/
def libreadFailures (k : CharKind) (s : Kernel) (x : ℕ) (source : BitVec 32) (offset : AddrT) (junk : BYTE) :
    List MemOp :=
  s.readFailures k x source offset ++
    match s.libread k x source offset junk with
    | .error _      => []
    | .ok (_, _, t) => t.dumpFailures k x

/-- `libwrite`. -/
def libwriteFailures (k : CharKind) (s : Kernel) (x : ℕ) (data : BYTE) (destination : BitVec 32) (offset : AddrT) :
    List MemOp :=
  libFailures k x (s.writeFailures k x 0 destination offset) (s.libwrite k x data destination offset)

/-- **The operations below `run` that report failure.** -/
def runFailures (k : CharKind) (sched : SchedState ℕ) (s : Kernel) (x : ℕ) (ins : InstT) (junk : BYTE) :
    List MemOp :=
  match ins.opcode with
  | .calc    => []
  | .alloc   => s.liballocFailures k sched x ins.arg0 (ins.arg1.setWidth 32) junk
  | .free    => s.libfreeFailures k x (ins.arg0.setWidth 32)
  | .read    => s.libreadFailures k x (ins.arg0.setWidth 32) ins.arg1 junk
  | .write   => s.libwriteFailures k x (ins.arg0.setWidth 8) (ins.arg1.setWidth 32) ins.arg2
  | .syscall =>
    match (ins.arg0.setWidth 32 : BitVec 32) with
    | 17#32 => s.sysMemmapFailures k sched (pidOf x) ⟨ins.arg1, ins.arg2, ins.arg3⟩ junk
    | _     => []

end Kernel

/-! ## A random access device refuses nothing, a sequential one everything -/

section

variable {k : CharKind} {mp : MemphyStruct} {m : MmStruct}

theorem memphyReadFailures_eq_nil_iff {a : AddrT} : memphyReadFailures mp a = [] ↔ mp.rdmflg = true := by
  unfold memphyReadFailures memphyRead memphySeqRead
  cases mp.rdmflg <;> simp

theorem memphyWriteFailures_eq_nil_iff {a : AddrT} {data : BYTE} :
    memphyWriteFailures mp a data = [] ↔ mp.rdmflg = true := by
  unfold memphyWriteFailures memphyWrite memphySeqWrite
  cases mp.rdmflg <;> simp

theorem get32bitFailures_of_rdm (h : mp.rdmflg = true) (base : AddrT) (n : ℕ) :
    ∀ i, get32bitFailures mp base i n = [] := by
  induction n with
  | zero =>
    intro i
    rfl
  | succ n ih =>
    intro i
    rw [get32bitFailures, memphyRead_of_rdm h]
    exact ih (i + 1)

theorem get32bitFailures_of_seq (h : mp.rdmflg = false) (base : AddrT) : get32bitFailures mp base 0 4 ≠ [] := by
  have hread : memphyRead mp (base + BitVec.ofNat 64 0) = none := by simp [memphyRead, memphySeqRead, h]
  rw [get32bitFailures, hread]
  exact List.cons_ne_nil _ _

theorem putBytesFailures_of_rdm (addr v : AddrT) (n : ℕ) : ∀ {i : ℕ} {mp : MemphyStruct}, mp.rdmflg = true →
    putBytesFailures addr v i n mp = [] := by
  induction n with
  | zero =>
    intro i mp _
    rfl
  | succ n ih =>
    intro i mp h
    rw [putBytesFailures, memphyWriteFailures_eq_nil_iff.mpr h, ih (by rw [rdmflg_memphyWriteIgn, h])]
    rfl

theorem walkFailures_of_rdm (h : mp.rdmflg = true) (is : List AddrT) : ∀ base, walkFailures k mp base is = [] := by
  induction is with
  | nil =>
    intro base
    rfl
  | cons idx is ih =>
    intro base
    rw [walkFailures, get32bitFailures_of_rdm h, List.nil_append]
    split
    · exact ih _
    · rfl

/-- **`pte_get_entry`** reads one entry at least. -/
theorem pteGetFailures_eq_nil_iff {pgn : AddrT} : pteGetFailures k m mp pgn = [] ↔ mp.rdmflg = true := by
  constructor
  · intro hnil
    by_contra hrdm
    have hseq : mp.rdmflg = false := Bool.eq_false_iff.mpr hrdm
    rw [pteGetFailures, PdIndices.upper, walkFailures, List.append_assoc, List.append_eq_nil_iff] at hnil
    exact get32bitFailures_of_seq hseq _ hnil.1
  · intro h
    rw [pteGetFailures, walkFailures_of_rdm h, List.nil_append]
    split
    · rfl
    · exact get32bitFailures_of_rdm h _ _ _

/-- **`print_pgtbl`** reads four entries. -/
theorem printFailures_of_rdm (h : mp.rdmflg = true) (is : List AddrT) : ∀ base, printFailures k mp base is = [] := by
  induction is with
  | nil =>
    intro base
    rfl
  | cons idx is ih =>
    intro base
    rw [printFailures, get32bitFailures_of_rdm h, ih]
    rfl

theorem dumpFailures_of_rdm {s : Kernel} {x : ℕ} (h : s.mram.rdmflg = true) : s.dumpFailures k x = [] := by
  unfold Kernel.dumpFailures
  split
  · rfl
  · exact printFailures_of_rdm h _ _

theorem dumpFailures_eq_nil_iff {s : Kernel} {x : ℕ} (hm : (s.mm x).isSome) :
    s.dumpFailures k x = [] ↔ s.mram.rdmflg = true := by
  refine ⟨fun hnil => ?_, dumpFailures_of_rdm⟩
  by_contra hrdm
  have hseq : s.mram.rdmflg = false := Bool.eq_false_iff.mpr hrdm
  obtain ⟨mm, hm⟩ := Option.isSome_iff_exists.mp hm
  rw [Kernel.dumpFailures, hm] at hnil
  dsimp only at hnil
  rw [PdIndices.upper, printFailures, List.append_eq_nil_iff] at hnil
  exact get32bitFailures_of_seq hseq _ hnil.1

theorem allocTablesFailures_of_rdm (is : List AddrT) : ∀ {mp : MemphyStruct} {base : AddrT}, mp.rdmflg = true →
    allocTablesFailures k mp base is = [] ∧ (allocTables k mp base is).2.rdmflg = true := by
  induction is with
  | nil =>
    intro mp base h
    exact ⟨rfl, h⟩
  | cons idx is ih =>
    intro mp base h
    rw [allocTablesFailures, allocTables, get32bitFailures_of_rdm h, List.nil_append]
    by_cases hpresent : entryPresent (get32bitEntry k mp (base + idx * 4)) = true
    · rw [if_pos hpresent, if_pos hpresent]
      exact ih h
    · rw [if_neg hpresent, if_neg hpresent]
      cases hget : memphyGetFreefp mp with
      | none => exact ⟨rfl, h⟩
      | some got =>
        obtain ⟨fpn, mp₁⟩ := got
        have h₁ : mp₁.rdmflg = true := by
          rw [(memphyGetFreefp_eq_some hget).2]
          exact h
        dsimp only
        rw [putBytesFailures_of_rdm _ _ _ h₁, List.nil_append]
        exact ih (by rw [rdmflg_putEntryBytes, h₁])

theorem pteSetFpnFailures_of_rdm (h : mp.rdmflg = true) (pgn fpn : AddrT) :
    pteSetFpnFailures k m mp pgn fpn = [] ∧ (pteSetFpn k m mp pgn fpn).2.rdmflg = true := by
  obtain ⟨hnil, hrdm⟩ := @allocTablesFailures_of_rdm k (getPdFromPagenum pgn).upper mp m.pgd h
  rw [pteSetFpnFailures, pteSetFpn, hnil, List.nil_append]
  generalize allocTables k mp m.pgd (getPdFromPagenum pgn).upper = result at hrdm
  obtain ⟨o, mp₁⟩ := result
  cases o with
  | none => exact ⟨rfl, hrdm⟩
  | some ptBase =>
    dsimp only at hrdm ⊢
    rw [get32bitFailures_of_rdm hrdm, putBytesFailures_of_rdm _ _ _ hrdm, rdmflg_putEntryBytes]
    exact ⟨rfl, hrdm⟩

theorem vmapPgdLoopFailures_of_rdm (n : ℕ) : ∀ {mp : MemphyStruct} {pgn : AddrT}, mp.rdmflg = true →
    (vmapPgdLoopFailures k m n mp pgn = [] ↔ (vmapPgdLoop k m n mp pgn).1 = 0) := by
  induction n with
  | zero =>
    intro mp pgn _
    exact ⟨fun _ => rfl, fun _ => rfl⟩
  | succ n ih =>
    intro mp pgn h
    obtain ⟨hnil, hrdm⟩ := @pteSetFpnFailures_of_rdm k mp m h pgn 0
    rw [vmapPgdLoopFailures, vmapPgdLoop, hnil, List.nil_append]
    generalize pteSetFpn k m mp pgn 0 = result at hrdm
    obtain ⟨stat, mp₁⟩ := result
    dsimp only at hrdm ⊢
    by_cases hstat : stat = 0
    · rw [if_neg (not_not.mpr hstat), if_neg (not_not.mpr hstat)]
      exact ih hrdm
    · rw [if_pos hstat, if_pos hstat]
      exact ⟨fun hc => absurd hc (List.cons_ne_nil _ _), fun hc => absurd hc (by simp)⟩

/-- **`vmap_pgd_memset`** fails when a page fails, or when it reads an entry that it cannot read. -/
theorem vmapPgdLoopFailures_eq_nil_iff {addr : AddrT} {pgnum : ℤ} :
    vmapPgdLoopFailures k m pgnum.toNat mp (addr >>> 12) = [] ↔
      pgnum ≤ 0 ∨ mp.rdmflg = true ∧ (vmapPgdMemset k m mp addr pgnum).1 = 0 := by
  cases hrdm : mp.rdmflg with
  | true =>
    rw [vmapPgdLoopFailures_of_rdm _ hrdm, vmapPgdMemset]
    constructor
    · exact fun hzero => .inr ⟨rfl, hzero⟩
    · rintro (hnone | ⟨-, hzero⟩)
      · rw [Int.toNat_of_nonpos hnone]
        rfl
      · exact hzero
  | false =>
    constructor
    · intro hnil
      by_contra hsome
      obtain ⟨n, hn⟩ : ∃ n, pgnum.toNat = n + 1 := ⟨pgnum.toNat - 1, by omega⟩
      rw [hn, vmapPgdLoopFailures, List.append_eq_nil_iff, pteSetFpnFailures, List.append_eq_nil_iff, PdIndices.upper,
        allocTablesFailures, List.append_eq_nil_iff] at hnil
      exact get32bitFailures_of_seq hrdm _ hnil.1.1.1
    · rintro (hnone | ⟨hc, -⟩)
      · rw [Int.toNat_of_nonpos hnone]
        rfl
      · cases hc

theorem swapCpFailures_of_rdm {mpsrc : MemphyStruct} (hsrc : mpsrc.rdmflg = true) (srcfpn dstfpn : AddrT) (n : ℕ) :
    ∀ {i : ℕ} {data : BYTE} {mpdst : MemphyStruct}, mpdst.rdmflg = true →
      swapCpFailures mpsrc srcfpn dstfpn i n data mpdst = [] := by
  induction n with
  | zero =>
    intro i data mpdst _
    rfl
  | succ n ih =>
    intro i data mpdst hdst
    rw [swapCpFailures, memphyReadFailures_eq_nil_iff.mpr hsrc, memphyWriteFailures_eq_nil_iff.mpr hdst,
      ih (by rw [rdmflg_memphyWriteIgn, hdst])]
    rfl

/-- **`__swap_cp_page`** reads the one device and writes the other. -/
theorem swapCpFailures_eq_nil_iff {mpsrc mpdst : MemphyStruct} {srcfpn dstfpn : AddrT} {n : ℕ} {data : BYTE} :
    swapCpFailures mpsrc srcfpn dstfpn 0 (n + 1) data mpdst = [] ↔
      mpsrc.rdmflg = true ∧ mpdst.rdmflg = true := by
  constructor
  · intro hnil
    rw [swapCpFailures, List.append_eq_nil_iff, List.append_eq_nil_iff, memphyReadFailures_eq_nil_iff,
      memphyWriteFailures_eq_nil_iff] at hnil
    exact hnil.1
  · rintro ⟨hsrc, hdst⟩
    exact swapCpFailures_of_rdm hsrc _ _ _ hdst

end

/-! ## What reaches the CPU -/

/-- **An instruction below which an operation has reported failure returns a status that says so.** -/
def StatusReaches (k : CharKind) (sched : SchedState ℕ) (s : Kernel) (x : ℕ) (ins : InstT) (junk : BYTE) : Prop :=
  s.runFailures k sched x ins junk ≠ [] → ∃ stat t, s.run k sched x ins junk = .ok (stat, t) ∧ stat ≠ 0

/-- The page is there, or the fault finds a victim and a swap frame. With a single page on the list the fault does
    not come back at all. -/
def PageServed (k : CharKind) (s : Kernel) (mm : MmStruct) (pgn : BitVec 32) : Prop :=
  s.mram.rdmflg = true ∧
    (resident k s mm pgn = true ∨ mm.fifoPgn.length = 1 ∨ mm.fifoPgn ≠ [] ∧ s.activeMswp.freeFpList ≠ [])

/-- `__sys_memmap` knows the operation, the devices that it accesses are random access devices, and the pages that
    it sets find their tables. -/
def MemopServed (k : CharKind) (s : Kernel) (caller : ℕ) (regs : ScRegs) : Prop :=
  match (regs.a1.setWidth 32 : BitVec 32) with
  | 1#32 => ∀ mm, s.mm caller = some mm → (regs.a3.setWidth 32 : BitVec 32).toInt ≤ 0 ∨
      s.mram.rdmflg = true ∧ (vmapPgdMemset k mm s.mram regs.a2 (regs.a3.setWidth 32).toInt).1 = 0
  | 2#32 => True
  | 3#32 => s.mram.rdmflg = true ∧ s.activeMswp.rdmflg = true
  | 4#32 => s.mram.rdmflg = true
  | 5#32 => s.mram.rdmflg = true
  | _    => False

/-- **What an instruction needs to find** so that nothing below it fails. -/
def Served (k : CharKind) (sched : SchedState ℕ) (s : Kernel) (x : ℕ) (ins : InstT) : Prop :=
  match ins.opcode with
  | .calc => True
  | .alloc =>
    (Kernel.findPcbByPid sched (pidOf x) ≠ none ∨
      ∀ mm mm', s.mm x = some mm → getFreeVmrgArea mm 0 (ins.arg0.setWidth 32) ≠ .ok (none, mm')) ∧
    (s.Allocates x (ins.arg1.setWidth 32) → s.mram.rdmflg = true)
  | .free => s.Frees x (ins.arg0.setWidth 32) → s.mram.rdmflg = true
  | .read => ∀ mm pgn, s.regionPage x (ins.arg0.setWidth 32) ins.arg1 = some (mm, pgn) → PageServed k s mm pgn
  | .write => ∀ mm pgn, s.regionPage x (ins.arg1.setWidth 32) ins.arg2 = some (mm, pgn) →
      (∃ i, getVmaByNum mm 0 = .ok (some i)) → PageServed k s mm pgn
  | .syscall => (ins.arg0.setWidth 32 : BitVec 32) = 17 → ∀ caller,
      Kernel.findPcbByPid sched (pidOf x) = some caller → MemopServed k s caller ⟨ins.arg1, ins.arg2, ins.arg3⟩

section

variable {k : CharKind} {sched : SchedState ℕ} {s : Kernel} {x : ℕ} {ins : InstT} {junk : BYTE}

/-- An instruction that always returns 0 must not fail. -/
theorem statusReaches_iff_nil (hzero : ∀ stat t, s.run k sched x ins junk = .ok (stat, t) → stat = 0) :
    StatusReaches k sched s x ins junk ↔ s.runFailures k sched x ins junk = [] := by
  constructor
  · intro h
    by_contra hfails
    obtain ⟨stat, t, hrun, hstat⟩ := h hfails
    exact hstat (hzero stat t hrun)
  · exact fun hnil hfails => absurd hnil hfails

theorem pgGetpageFailures_eq_nil_iff {mm : MmStruct} {pgn : BitVec 32} :
    s.pgGetpageFailures k mm pgn = [] ↔ PageServed k s mm pgn := by
  unfold Kernel.pgGetpageFailures PageServed
  rw [List.append_eq_nil_iff, pteGetFailures_eq_nil_iff]
  apply and_congr_right
  intro hrdm
  have hread : pteGetFailures k mm s.mram (pgn.signExtend 64) = [] := pteGetFailures_eq_nil_iff.mpr hrdm
  by_cases hres : resident k s mm pgn = true
  · rw [if_pos hres]
    exact ⟨fun _ => .inl hres, fun _ => hread⟩
  rw [if_neg hres, or_iff_right hres]
  rcases findVictimPage_cases mm with ⟨hnil, hv⟩ | ⟨vicpgn, hone, hv⟩ | ⟨vicpgn, rest, hrest, hlist, hv⟩
  · rw [hv, hnil]
    constructor
    · exact fun hc => absurd hc (List.cons_ne_nil _ _)
    · rintro (hc | ⟨hc, -⟩)
      · exact absurd hc (by simp)
      · exact absurd rfl hc
  · rw [hv, hone]
    exact ⟨fun _ => .inl rfl, fun _ => rfl⟩
  · have hpos : 0 < rest.length := List.length_pos_iff.mpr hrest
    have hlen : mm.fifoPgn.length ≠ 1 := by
      rw [hlist, List.length_append, List.length_singleton]
      omega
    have hne : mm.fifoPgn ≠ [] := by
      rw [hlist]
      exact List.append_ne_nil_of_right_ne_nil _ (List.cons_ne_nil _ _)
    rw [hv, or_iff_right hlen, and_iff_right hne]
    cases hget : memphyGetFreefp s.activeMswp with
    | none =>
      have hfree := memphyGetFreefp_eq_none.mp hget
      exact ⟨fun hc => absurd hc (List.cons_ne_nil _ _), fun hc => absurd hfree hc⟩
    | some got =>
      refine ⟨fun _ hfree => ?_, fun _ => hread⟩
      rw [memphyGetFreefp_eq_none.mpr hfree] at hget
      cases hget

theorem sysMemmapFailures_eq_nil_iff {pid : BitVec 32} {caller : ℕ} {regs : ScRegs}
    (hfind : Kernel.findPcbByPid sched pid = some caller) :
    s.sysMemmapFailures k sched pid regs junk = [] ↔ MemopServed k s caller regs := by
  unfold Kernel.sysMemmapFailures MemopServed
  rw [hfind]
  dsimp only
  split
  · cases s.mm caller with
    | none => exact ⟨fun _ mm hm => (nomatch hm), fun _ => rfl⟩
    | some mm =>
      dsimp only
      rw [vmapPgdLoopFailures_eq_nil_iff]
      constructor
      · rintro h mm' hm
        obtain rfl := Option.some.inj hm
        exact h
      · exact fun h => h mm rfl
  · exact ⟨fun _ => trivial, fun _ => rfl⟩
  · exact swapCpFailures_eq_nil_iff
  · exact memphyReadFailures_eq_nil_iff
  · exact memphyWriteFailures_eq_nil_iff
  · exact ⟨fun hc => absurd hc (List.cons_ne_nil _ _), False.elim⟩

theorem alloc_stat {stat : ℤ} {t : Kernel} {regIndex : BitVec 32} {size : AddrT}
    (h : s.liballoc k sched x size regIndex junk = .ok (stat, t)) : stat = 0 := (Kernel.liballoc_spec h).1

theorem libread_stat {source : BitVec 32} {offset : AddrT} {stat : ℤ} {data : BitVec 32} {t : Kernel}
    (h : s.libread k x source offset junk = .ok (stat, data, t)) : stat = 0 := by
  unfold Kernel.libread at h
  obtain ⟨⟨val, data', t'⟩, hread, h⟩ := bind_eq_ok.mp h
  obtain ⟨rfl, -⟩ := Prod.mk.inj (Except.ok.inj h)
  unfold Kernel.read at hread
  split at hread
  · cases hread
  · obtain ⟨mm, -, hread⟩ := bind_eq_ok.mp hread
    obtain ⟨currg, -, hread⟩ := bind_eq_ok.mp hread
    obtain ⟨value, -, hread⟩ := bind_eq_ok.mp hread
    exact (congrArg Prod.fst (Except.ok.inj hread)).symm

/-- `__write` refuses only a region or an area that is not there. -/
theorem libwrite_stat {data : BYTE} {destination : BitVec 32} {offset : AddrT} {stat : ℤ} {t : Kernel}
    {mm : MmStruct} {pgn : BitVec 32} (hpage : s.regionPage x destination offset = some (mm, pgn)) {i : ℕ}
    (harea : getVmaByNum mm 0 = .ok (some i)) (h : s.libwrite k x data destination offset = .ok (stat, t)) :
    stat = 0 := by
  unfold Kernel.regionPage at hpage
  cases hm : s.mm x with
  | none =>
    rw [hm] at hpage
    cases hpage
  | some mm' =>
    cases hrg : getSymrgById destination with
    | none =>
      rw [hm, hrg] at hpage
      cases hpage
    | some j =>
      rw [hm, hrg] at hpage
      dsimp only at hpage
      cases hsym : symrgAt mm' j with
      | error fault =>
        rw [hsym] at hpage
        cases hpage
      | ok currg =>
        rw [hsym] at hpage
        obtain ⟨rfl, -⟩ := Prod.mk.inj (Option.some.inj hpage)
        unfold Kernel.libwrite Kernel.write at h
        obtain ⟨mm₁, hm₁, h⟩ := bind_eq_ok.mp h
        obtain rfl := Option.some.inj (hm.symm.trans (Kernel.mmOf_eq_ok.mp hm₁))
        rw [hrg] at h
        obtain ⟨vma, hvma, h⟩ := bind_eq_ok.mp h
        obtain rfl := Except.ok.inj (harea.symm.trans hvma)
        obtain ⟨currg', -, h⟩ := bind_eq_ok.mp h
        obtain ⟨set, -, h⟩ := bind_eq_ok.mp h
        exact (congrArg Prod.fst (Except.ok.inj h)).symm

theorem allocFailures_eq_nil_iff {size : AddrT} : s.allocFailures k sched x 0 size junk = [] ↔
    Kernel.findPcbByPid sched (pidOf x) ≠ none ∨
      ∀ mm mm', s.mm x = some mm → getFreeVmrgArea mm 0 (size.setWidth 32) ≠ .ok (none, mm') := by
  unfold Kernel.allocFailures
  cases hm : s.mm x with
  | none => exact ⟨fun _ => .inr fun mm mm' hc => (nomatch hc), fun _ => rfl⟩
  | some mm =>
    dsimp only
    cases hfree : getFreeVmrgArea mm 0 (size.setWidth 32) with
    | error fault =>
      refine ⟨fun _ => .inr fun mm' mm'' hm' => ?_, fun _ => rfl⟩
      obtain rfl := Option.some.inj hm'
      rw [hfree]
      exact fun hc => nomatch hc
    | ok found =>
      obtain ⟨newrg, mm₁⟩ := found
      cases newrg with
      | some rgnode =>
        refine ⟨fun _ => .inr fun mm' mm'' hm' => ?_, fun _ => rfl⟩
        obtain rfl := Option.some.inj hm'
        rw [hfree]
        exact fun hc => nomatch hc
      | none =>
        -- the system call only fails without its process
        dsimp only
        cases hfind : Kernel.findPcbByPid sched (pidOf x) with
        | none =>
          have hfails : (s.setMm x mm₁).sysMemmapFailures k sched (pidOf x)
              ⟨2, (0 : BitVec 32).signExtend 64, size⟩ junk = [.sysMemmap] := by rw [Kernel.sysMemmapFailures, hfind]
          rw [hfails]
          refine ⟨fun hc => absurd hc (List.cons_ne_nil _ _), ?_⟩
          rintro (hc | hnever)
          · exact absurd rfl hc
          · exact absurd hfree (hnever mm mm₁ rfl)
        | some caller =>
          refine ⟨fun _ => .inl (Option.some_ne_none caller), fun _ => ?_⟩
          exact (sysMemmapFailures_eq_nil_iff hfind).mpr trivial

theorem readFailures_eq_nil_iff {rgid : BitVec 32} {offset : AddrT} : s.readFailures k x rgid offset = [] ↔
    ∀ mm pgn, s.regionPage x rgid offset = some (mm, pgn) → PageServed k s mm pgn := by
  unfold Kernel.readFailures
  cases s.regionPage x rgid offset with
  | none => exact ⟨fun _ mm pgn hc => (nomatch hc), fun _ => rfl⟩
  | some page =>
    obtain ⟨mm, pgn⟩ := page
    dsimp only
    rw [pgGetpageFailures_eq_nil_iff]
    constructor
    · intro h mm' pgn' hsame
      obtain ⟨rfl, rfl⟩ := Prod.mk.inj (Option.some.inj hsame)
      exact h
    · exact fun h => h mm pgn rfl

theorem writeFailures_eq_nil_iff {rgid : BitVec 32} {offset : AddrT} : s.writeFailures k x 0 rgid offset = [] ↔
    ∀ mm pgn, s.regionPage x rgid offset = some (mm, pgn) → (∃ i, getVmaByNum mm 0 = .ok (some i)) →
      PageServed k s mm pgn := by
  unfold Kernel.writeFailures
  cases s.regionPage x rgid offset with
  | none => exact ⟨fun _ mm pgn hc => (nomatch hc), fun _ => rfl⟩
  | some page =>
    obtain ⟨mm, pgn⟩ := page
    dsimp only
    have hpage : (∀ mm' pgn', some (mm, pgn) = some (mm', pgn') → (∃ i, getVmaByNum mm' 0 = .ok (some i)) →
        PageServed k s mm' pgn') ↔ ((∃ i, getVmaByNum mm 0 = .ok (some i)) → PageServed k s mm pgn) := by
      refine ⟨fun h => h mm pgn rfl, fun h mm' pgn' hsame => ?_⟩
      obtain ⟨rfl, rfl⟩ := Prod.mk.inj (Option.some.inj hsame)
      exact h
    rw [hpage]
    cases getVmaByNum mm 0 with
    | error fault => exact ⟨fun _ hc => (nomatch hc), fun _ => rfl⟩
    | ok vma =>
      cases vma with
      | none => exact ⟨fun _ hc => absurd hc (by simp), fun _ => rfl⟩
      | some i =>
        dsimp only
        rw [pgGetpageFailures_eq_nil_iff]
        exact ⟨fun h _ => h, fun h => h ⟨i, rfl⟩⟩

/-- `liballoc`: what it prints at the end is all that it reads. -/
theorem liballocFailures_eq_nil_iff {size : AddrT} {rgid : BitVec 32} :
    s.liballocFailures k sched x size rgid junk = [] ↔
      (Kernel.findPcbByPid sched (pidOf x) ≠ none ∨
        ∀ mm mm', s.mm x = some mm → getFreeVmrgArea mm 0 (size.setWidth 32) ≠ .ok (none, mm')) ∧
      (s.Allocates x rgid → s.mram.rdmflg = true) := by
  unfold Kernel.liballocFailures Kernel.libFailures
  rw [List.append_eq_nil_iff, allocFailures_eq_nil_iff]
  apply and_congr_right'
  by_cases hallocates : s.Allocates x rgid
  · obtain ⟨t, hrun⟩ := @Kernel.Allocates.liballoc k sched s x size rgid junk hallocates
    obtain ⟨-, -, hm⟩ := Kernel.liballoc_spec hrun
    obtain ⟨⟨val, addr, u⟩, halloc, hend⟩ := bind_eq_ok.mp hrun
    obtain ⟨-, rfl⟩ := Prod.mk.inj (Except.ok.inj hend)
    rw [hrun]
    dsimp only
    rw [if_neg (by decide), dumpFailures_eq_nil_iff hm, (keepsDevices_of_alloc halloc).mram]
    exact ⟨fun h _ => h, fun h => h hallocates⟩
  · refine iff_of_true ?_ fun h => absurd h hallocates
    cases hrun : s.liballoc k sched x size rgid junk with
    | error fault => rfl
    | ok result => exact absurd (Kernel.liballoc_spec hrun).2.1 hallocates

/-- `libfree`. -/
theorem libfreeFailures_eq_nil_iff {rgid : BitVec 32} :
    s.libfreeFailures k x rgid = [] ↔ (s.Frees x rgid → s.mram.rdmflg = true) := by
  unfold Kernel.libfreeFailures Kernel.libFailures
  rw [List.nil_append]
  by_cases hfrees : s.Frees x rgid
  · obtain ⟨t, hrun⟩ := hfrees.libfree
    obtain hc | ⟨-, -, hmram, hm⟩ := Kernel.libfree_spec hrun
    · exact absurd hc (by decide)
    rw [hrun]
    dsimp only
    rw [if_neg (by decide), dumpFailures_eq_nil_iff hm, hmram]
    exact ⟨fun h _ => h, fun h => h hfrees⟩
  · refine iff_of_true ?_ fun h => absurd h hfrees
    cases hrun : s.libfree x rgid with
    | error fault => rfl
    | ok result =>
      obtain ⟨stat, t⟩ := result
      obtain rfl | ⟨-, hc, -⟩ := Kernel.libfree_spec hrun
      · exact if_pos rfl
      · exact absurd hc hfrees

/-- A READ that returns has gone to a page. -/
theorem regionPage_of_libread {source : BitVec 32} {offset : AddrT} {stat : ℤ} {data : BitVec 32} {t : Kernel}
    (h : s.libread k x source offset junk = .ok (stat, data, t)) :
    ∃ mm pgn, s.regionPage x source offset = some (mm, pgn) := by
  obtain ⟨⟨val, data', u⟩, hread, -⟩ := bind_eq_ok.mp h
  unfold Kernel.read at hread
  unfold Kernel.regionPage
  cases hid : getSymrgById source with
  | none =>
    rw [hid] at hread
    cases hread
  | some i =>
    rw [hid] at hread
    obtain ⟨mm, hm, hread⟩ := bind_eq_ok.mp hread
    obtain ⟨currg, hrg, -⟩ := bind_eq_ok.mp hread
    rw [Kernel.mmOf_eq_ok.mp hm]
    dsimp only
    rw [hrg]
    exact ⟨_, _, rfl⟩

/-- `libread`: a page that is served can be printed as well. -/
theorem libreadFailures_eq_nil_iff {source : BitVec 32} {offset : AddrT} :
    s.libreadFailures k x source offset junk = [] ↔
      ∀ mm pgn, s.regionPage x source offset = some (mm, pgn) → PageServed k s mm pgn := by
  rw [Kernel.libreadFailures, List.append_eq_nil_iff, readFailures_eq_nil_iff]
  apply and_iff_left_of_imp
  intro hserved
  cases hrun : s.libread k x source offset junk with
  | error fault => rfl
  | ok result =>
    obtain ⟨stat, data, t⟩ := result
    obtain ⟨mm, pgn, hpage⟩ := regionPage_of_libread hrun
    refine dumpFailures_of_rdm ?_
    rw [(keepsBytes_of_libread hrun).mram.rdmflg]
    exact (hserved mm pgn hpage).1

/-- A WRITE that is not refused has gone to a page, and has found an area. -/
theorem regionPage_of_libwrite {data : BYTE} {destination : BitVec 32} {offset : AddrT} {stat : ℤ} {t : Kernel}
    (h : s.libwrite k x data destination offset = .ok (stat, t)) (hstat : stat ≠ -1) :
    ∃ mm pgn i, s.regionPage x destination offset = some (mm, pgn) ∧ getVmaByNum mm 0 = .ok (some i) := by
  unfold Kernel.libwrite Kernel.write at h
  obtain ⟨mm, hm, h⟩ := bind_eq_ok.mp h
  obtain ⟨vma, harea, h⟩ := bind_eq_ok.mp h
  unfold Kernel.regionPage
  rw [Kernel.mmOf_eq_ok.mp hm]
  split at h
  · rename_i i j hid
    obtain ⟨currg, hrg, -⟩ := bind_eq_ok.mp h
    rw [hid]
    dsimp only
    rw [hrg]
    exact ⟨mm, _, j, rfl, harea⟩
  · exact absurd (congrArg Prod.fst (Except.ok.inj h)).symm hstat

/-- `libwrite`. -/
theorem libwriteFailures_eq_nil_iff {data : BYTE} {destination : BitVec 32} {offset : AddrT} :
    s.libwriteFailures k x data destination offset = [] ↔ ∀ mm pgn, s.regionPage x destination offset = some (mm, pgn) →
      (∃ i, getVmaByNum mm 0 = .ok (some i)) → PageServed k s mm pgn := by
  unfold Kernel.libwriteFailures Kernel.libFailures
  rw [List.append_eq_nil_iff, writeFailures_eq_nil_iff]
  apply and_iff_left_of_imp
  intro hserved
  cases hrun : s.libwrite k x data destination offset with
  | error fault => rfl
  | ok result =>
    obtain ⟨stat, t⟩ := result
    dsimp only
    by_cases hstat : stat = -1
    · exact if_pos hstat
    rw [if_neg hstat]
    obtain ⟨mm, pgn, i, hpage, harea⟩ := regionPage_of_libwrite hrun hstat
    refine dumpFailures_of_rdm ?_
    rw [(keepsBytes_of_libwrite hrun).mram.rdmflg]
    exact (hserved mm pgn hpage ⟨i, harea⟩).1

/-- An instruction that calls `__sys_memmap`. -/
theorem statusReaches_sysMemmap {regs : ScRegs} :
    (s.sysMemmapFailures k sched (pidOf x) regs junk ≠ [] →
        ∃ stat t, s.libsyscall k sched x 17 regs.a1 regs.a2 regs.a3 junk = .ok (stat, t) ∧ stat ≠ 0) ↔
      ∀ caller, Kernel.findPcbByPid sched (pidOf x) = some caller → MemopServed k s caller regs := by
  cases hfind : Kernel.findPcbByPid sched (pidOf x) with
  | none =>
    -- its status is what `run` returns
    refine ⟨fun _ caller hc => (nomatch hc), fun _ _ => ⟨-1, s, ?_, by decide⟩⟩
    rw [libsyscall_eq_ok]
    exact ⟨regs, by rw [Kernel.sysMemmap, hfind]⟩
  | some caller =>
    rw [← not_imp_not, not_not, sysMemmapFailures_eq_nil_iff hfind]
    constructor
    · rintro h caller' hsame
      obtain rfl := Option.some.inj hsame
      apply h
      rintro ⟨stat, t, hcall, hstat⟩
      obtain ⟨regs', hsys⟩ := (libsyscall_eq_ok ..).mp hcall
      exact hstat (sysMemmap_stat hfind hsys)
    · exact fun h _ => h caller rfl

/-- **The status of an instruction is right exactly when nothing below it fails.** -/
theorem statusReaches_iff_served : StatusReaches k sched s x ins junk ↔ Served k sched s x ins := by
  obtain ⟨opcode, arg0, arg1, arg2, arg3⟩ := ins
  match opcode with
  | .calc => exact ⟨fun _ => trivial, fun _ hfails => absurd rfl hfails⟩
  | .alloc =>
    have hzero : ∀ stat t, s.run k sched x ⟨.alloc, arg0, arg1, arg2, arg3⟩ junk = .ok (stat, t) → stat = 0 :=
      fun stat t hrun => @alloc_stat k sched s x junk stat t _ _ hrun
    rw [statusReaches_iff_nil hzero]
    exact liballocFailures_eq_nil_iff
  | .free =>
    refine Iff.trans ⟨fun h => ?_, fun hnil hfails => absurd hnil hfails⟩ libfreeFailures_eq_nil_iff
    by_contra hfails
    obtain ⟨stat, t, hrun, hstat⟩ := h hfails
    -- only a FREE that goes through prints
    refine hfails (libfreeFailures_eq_nil_iff.mpr fun hfrees => ?_)
    obtain ⟨u, hfree⟩ := hfrees.libfree
    exact absurd (congrArg Prod.fst (Except.ok.inj (hrun.symm.trans hfree))) hstat
  | .read =>
    have hzero : ∀ stat t, s.run k sched x ⟨.read, arg0, arg1, arg2, arg3⟩ junk = .ok (stat, t) → stat = 0 := by
      intro stat t hrun
      obtain ⟨⟨stat', data, t'⟩, hread, hrun⟩ := bind_eq_ok.mp hrun
      obtain ⟨rfl, -⟩ := Prod.mk.inj (Except.ok.inj hrun)
      exact libread_stat hread
    rw [statusReaches_iff_nil hzero]
    exact libreadFailures_eq_nil_iff
  | .write =>
    refine Iff.trans ⟨fun h => ?_, fun hnil hfails => absurd hnil hfails⟩ libwriteFailures_eq_nil_iff
    by_contra hfails
    obtain ⟨stat, t, hrun, hstat⟩ := h hfails
    -- so it has a region and an area
    have hwrites : ∃ mm pgn i, s.regionPage x (arg1.setWidth 32) arg2 = some (mm, pgn) ∧
        getVmaByNum mm 0 = .ok (some i) := by
      by_contra hnone
      refine hfails (libwriteFailures_eq_nil_iff.mpr ?_)
      rintro mm pgn hpage ⟨i, harea⟩
      exact absurd ⟨mm, pgn, i, hpage, harea⟩ hnone
    obtain ⟨mm, pgn, i, hpage, harea⟩ := hwrites
    exact hstat (libwrite_stat hpage harea hrun)
  | .syscall =>
    unfold StatusReaches Served Kernel.runFailures Kernel.run
    dsimp only
    by_cases hnr : (arg0.setWidth 32 : BitVec 32) = 17
    · rw [hnr]
      simp only [forall_const]
      exact statusReaches_sysMemmap
    · split
      · rename_i hc
        exact absurd hc hnr
      · exact ⟨fun _ hc => absurd hc hnr, fun _ hfails => absurd rfl hfails⟩

end

/-- **When the status of an instruction is right**: it finds all that it needs. For the pages that a system call
    sets, where the tables are owned, that is a free frame for every table that the range needs. -/
theorem statusReaches_iff (k : CharKind) (sched : SchedState ℕ) (s : Kernel) (x : ℕ) (ins : InstT) (junk : BYTE) :
    (StatusReaches k sched s x ins junk ↔ Served k sched s x ins) ∧
      ∀ root caller mm addr pgnum, Owned k root s.mm s.mram → s.mm caller = some mm →
        ((vmapPgdMemset k mm s.mram addr pgnum).1 = 0 ↔
          neededTables k mm s.mram (addr >>> 12) pgnum.toNat ≤ s.mram.freeFpList.length) :=
  ⟨statusReaches_iff_served, fun _ _ _ addr pgnum howned hm => vmapPgdMemset_eq_zero_iff howned hm addr pgnum⟩

/-- **A process reads before it has allocated anything**: the page is not there and there is no victim, but the
    instruction has been executed successfully. -/
theorem status_lost : ¬ ∀ (k : CharKind) (cfg : Config) (ram swp : DeviceBoot) (s : OsState cfg.numCpus Kernel),
    (osSystem cfg (kernelMachine k ram swp)).Reachable s → ∀ x ins junk, StatusReaches k s.sched s.mem x ins junk := by
  intro hall
  have hsize : 2 ≤ numfpOf 512 ∧ numfpOf 512 ≤ 8192 := by decide
  obtain ⟨-, m, mram, hinit, -⟩ := first_process hsize.1 hsize.2
  obtain ⟨-, hsym, hfifo⟩ := initMm_area hinit
  obtain ⟨s, h, hmem, -⟩ := oneCall_dispatched ⟨.read, 0, 0, 0, 0⟩ hinit
  have hm : s.mem.mm 0 = some m := by
    rw [hmem]
    exact Kernel.mm_setMm_self ..
  have hserved := statusReaches_iff_served.mp (hall .unsigned (oneCall ⟨.read, 0, 0, 0, 0⟩) (zeroDevice 512)
    (zeroDevice 512) s h 0 ⟨.read, 0, 0, 0, 0⟩ 0)
  have hpage : s.mem.regionPage 0 0 0 = some (m, 0) := by
    have hrg : symrgAt m 0 = .ok ⟨0, 0⟩ := by
      unfold symrgAt
      rw [hsym]
      rfl
    have hid : getSymrgById 0 = some 0 := by decide
    unfold Kernel.regionPage
    rw [hm, hid]
    dsimp only
    rw [hrg]
    rfl
  obtain ⟨-, hres | hone | ⟨hne, -⟩⟩ := hserved m 0 hpage
  · obtain ⟨hrooted, -⟩ := rooted_initMemphy (k := .unsigned) (fun _ => 0) (show (1 : ℤ) ≠ 0 by decide)
      (formatted_zeroDevice hsize.1)
    have habsent := hrooted.absent_after_initMm hinit ((0 : BitVec 32).signExtend 64)
    have hram : s.mem.mram = mram := by rw [hmem]; rfl
    rw [resident, hram, habsent] at hres
    cases hres
  · rw [hfifo] at hone
    cases hone
  · exact hne hfifo

end LamiaAtrium
