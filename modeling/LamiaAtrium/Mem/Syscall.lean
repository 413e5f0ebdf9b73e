import LamiaAtrium.Mem.Paging
import LamiaAtrium.Sched.Sched

/-!
# `Mem.Syscall` — `sys_mem.c`, `syscall.c`, `libstd.c`: the system calls

* `Kernel` is what the `krnl_t` structures lead to: an address space for each process, and the RAM and the
  swap device that all of them share.
* A system call names its process by `pid`, and `find_pcb_by_pid` looks that up in the queues of the
  scheduler.
* Functions that can run into undefined behaviour return `Except Fault`.
-/

namespace LamiaAtrium

/-- The address spaces and the devices. `mm x` is `krnl->mm` of process `x`, once the loader has set it. -/
structure Kernel where
  mm : ℕ → Option MmStruct
  mram : MemphyStruct
  activeMswp : MemphyStruct

/-- `struct sc_regs`; the other three registers are never read. -/
structure ScRegs where
  a1 : BitVec 64
  a2 : BitVec 64
  a3 : BitVec 64

/-- `proc->pid`: the loader counts from one. -/
def pidOf (x : ℕ) : BitVec 32 := BitVec.ofNat 32 (x + 1)

namespace Kernel

/-- `caller->krnl->mm`, about to be dereferenced. -/
def mmOf (s : Kernel) (x : ℕ) : Except Fault MmStruct :=
  match s.mm x with
  | some mm => .ok mm
  | none    => .error .nullDeref

/-- Replace the address space of process `x`. -/
def setMm (s : Kernel) (x : ℕ) (mm : MmStruct) : Kernel := { s with mm := Function.update s.mm x (some mm) }

@[simp] theorem mm_setMm_self (s : Kernel) (x : ℕ) (mm : MmStruct) : (s.setMm x mm).mm x = some mm :=
  Function.update_self ..

theorem mm_setMm_of_ne (s : Kernel) {x y : ℕ} (mm : MmStruct) (h : y ≠ x) : (s.setMm x mm).mm y = s.mm y :=
  Function.update_of_ne h ..

@[simp] theorem mram_setMm (s : Kernel) (x : ℕ) (mm : MmStruct) : (s.setMm x mm).mram = s.mram := rfl

@[simp] theorem activeMswp_setMm (s : Kernel) (x : ℕ) (mm : MmStruct) :
    (s.setMm x mm).activeMswp = s.activeMswp := rfl

theorem mmOf_eq_ok {s : Kernel} {x : ℕ} {mm : MmStruct} : s.mmOf x = .ok mm ↔ s.mm x = some mm := by
  unfold mmOf
  cases s.mm x <;> simp

/-! ## `__sys_memmap` -/

/-- `inc_vma_limit`: everything but the `return 0` is commented out. -/
def incVmaLimit (s : Kernel) (_caller : ℕ) (_vmaid : BitVec 32) (_incSz : AddrT) : ℤ × Kernel := (0, s)

/-- `__mm_swap_page`. -/
def mmSwapPage (s : Kernel) (vicfpn swpfpn : AddrT) (junk : BYTE) : ℤ × Kernel :=
  (0, { s with activeMswp := swapCpPage s.mram vicfpn s.activeMswp swpfpn junk })

@[simp] theorem mm_mmSwapPage (s : Kernel) (vicfpn swpfpn : AddrT) (junk : BYTE) :
    (s.mmSwapPage vicfpn swpfpn junk).2.mm = s.mm := by rw [mmSwapPage]

@[simp] theorem mram_mmSwapPage (s : Kernel) (vicfpn swpfpn : AddrT) (junk : BYTE) :
    (s.mmSwapPage vicfpn swpfpn junk).2.mram = s.mram := by rw [mmSwapPage]

@[simp] theorem activeMswp_mmSwapPage (s : Kernel) (vicfpn swpfpn : AddrT) (junk : BYTE) :
    (s.mmSwapPage vicfpn swpfpn junk).2.activeMswp = swapCpPage s.mram vicfpn s.activeMswp swpfpn junk := by
  rw [mmSwapPage]

/-- One pass of `find_pcb_by_pid`. -/
def findInQueue (q : QueueT ℕ) (pid : BitVec 32) : Option ℕ := q.toList.find? fun y => pidOf y == pid

/-- `find_pcb_by_pid`: the running list, then the ready queue (not the ready queues of the levels). -/
def findPcbByPid (sched : SchedState ℕ) (pid : BitVec 32) : Option ℕ :=
  match findInQueue sched.runningList pid with
  | some y => some y
  | none   => findInQueue sched.readyQueue pid

/-- `__sys_memmap`; `junk` is what the uninitialised `value` holds. -/
def sysMemmap (k : CharKind) (sched : SchedState ℕ) (s : Kernel) (pid : BitVec 32) (regs : ScRegs)
    (junk : BYTE) : Except Fault (ℤ × ScRegs × Kernel) :=
  match findPcbByPid sched pid with
  | none => .ok (-1, regs, s)
  | some caller =>
    match (regs.a1.setWidth 32 : BitVec 32) with
    | 1#32 => do -- SYSMEM_MAP_OP
      let mm ← s.mmOf caller
      .ok (0, regs, { s with mram := (vmapPgdMemset k mm s.mram regs.a2 (regs.a3.setWidth 32).toInt).2 })
    | 2#32 => -- SYSMEM_INC_OP
      .ok (0, regs, (s.incVmaLimit caller (regs.a2.setWidth 32) regs.a3).2)
    | 3#32 => -- SYSMEM_SWP_OP
      .ok (0, regs, (s.mmSwapPage regs.a2 regs.a3 junk).2)
    | 4#32 => -- SYSMEM_IO_READ
      let value := ((memphyRead s.mram regs.a2).map Prod.fst).getD junk
      .ok (0, { regs with a3 := k.extend value }, s)
    | 5#32 => -- SYSMEM_IO_WRITE
      .ok (0, regs, { s with mram := memphyWriteIgn s.mram regs.a2 (regs.a3.setWidth 8) })
    | _ => .ok (0, regs, s)

/-! ## The table -/

/-- `syscall`: number 0 lists the calls, number 17 is `__sys_memmap`, every other one does nothing. -/
def syscall (k : CharKind) (sched : SchedState ℕ) (s : Kernel) (pid nr : BitVec 32) (regs : ScRegs)
    (junk : BYTE) : Except Fault (ℤ × ScRegs × Kernel) :=
  match nr with
  | 0#32  => .ok (0, regs, s)
  | 17#32 => sysMemmap k sched s pid regs junk
  | _     => .ok (0, regs, s)

/-- The system call of `__alloc` changes nothing, whether it finds the process or not. -/
theorem syscall_inc (k : CharKind) (sched : SchedState ℕ) (s : Kernel) (pid : BitVec 32)
    (a b : BitVec 64) (junk : BYTE) :
    ∃ stat regs, s.syscall k sched pid 17 ⟨2, a, b⟩ junk = .ok (stat, regs, s) := by
  show ∃ stat regs, s.sysMemmap k sched pid ⟨2, a, b⟩ junk = .ok (stat, regs, s)
  unfold sysMemmap
  cases findPcbByPid sched pid with
  | none => exact ⟨_, _, rfl⟩
  | some caller => exact ⟨_, _, rfl⟩

/-- `libsyscall`. -/
def libsyscall (k : CharKind) (sched : SchedState ℕ) (s : Kernel) (x : ℕ) (syscallIdx : BitVec 32)
    (a1 a2 a3 : BitVec 64) (junk : BYTE) : Except Fault (ℤ × Kernel) := do
  let (stat, _, s) ← syscall k sched s (pidOf x) syscallIdx ⟨a1, a2, a3⟩ junk
  .ok (stat, s)

end Kernel

end LamiaAtrium
