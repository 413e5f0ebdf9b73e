import LamiaAtrium.Mem.Libmem
import LamiaAtrium.Os.Os

/-!
# `Mem.Run` — `run` of `cpu.c`, and the memory behind the threads of `os.c`

`Kernel.run` is the switch of `run` over the opcodes. `kernelMachine` is the `Machine` of `Os.Os` that has
the kernel for its memory: loading a process is `init_mm`, and one instruction is one `Kernel.run`. What
`malloc` and uninitialised locals hold may be anything, and an instruction with undefined behaviour has no
successor.

`Machine.system` lets the loads and instructions of all processes interleave freely, and
`memReachable_of_os` says that whatever the threads of `os.c` do to memory is one of its runs.
-/

namespace LamiaAtrium

/-- `calc`: `(unsigned long) proc & 0UL`. -/
def Kernel.calc : ℤ := 0

/-- The switch of `run`. `junk` is what the uninitialised locals of the callees hold; the value read goes to
    the copy `ins` of the instruction, which is dropped. -/
def Kernel.run (k : CharKind) (sched : SchedState ℕ) (s : Kernel) (x : ℕ) (ins : InstT) (junk : BYTE) :
    Except Fault (ℤ × Kernel) :=
  match ins.opcode with
  | .calc    => .ok (Kernel.calc, s)
  | .alloc   => s.liballoc k sched x ins.arg0 (ins.arg1.setWidth 32) junk
  | .free    => s.libfree x (ins.arg0.setWidth 32)
  | .read    => do
    let (stat, _, s) ← s.libread k x (ins.arg0.setWidth 32) ins.arg1 junk
    .ok (stat, s)
  | .write   => s.libwrite k x (ins.arg0.setWidth 8) (ins.arg1.setWidth 32) ins.arg2
  | .syscall => s.libsyscall k sched x (ins.arg0.setWidth 32) ins.arg1 ins.arg2 ins.arg3 junk

/-- What `main` passes to `init_memphy`, and what the structure and the blocks of `malloc` held before. -/
structure DeviceBoot where
  mp : MemphyStruct
  block : AddrT → BYTE
  link : List AddrT
  maxSize : AddrT

/-- `init_memphy` with `rdmflag = 1`. -/
def DeviceBoot.device (d : DeviceBoot) : MemphyStruct := initMemphy d.mp d.block d.link d.maxSize 1

/-- A device of `maxSize` bytes, in memory that was zero before. -/
def zeroDevice (maxSize : AddrT) : DeviceBoot := ⟨rawMp, fun _ => 0, [], maxSize⟩

/-- The devices that `main` sets up: `mram`, and `mswp[0]` as the active swap device. -/
def Kernel.boot (ram swp : DeviceBoot) : Kernel := ⟨fun _ => none, ram.device, swp.device⟩

/-- `krnl->mm = malloc(..); init_mm(krnl->mm, proc);` The status is ignored. -/
inductive Kernel.Loads (x : ℕ) (s : Kernel) : Kernel → Prop where
  | initMm {stat m₀ m mram link} : initMm m₀ s.mram link = (stat, m, mram) →
      Kernel.Loads x s ({ s with mram }.setMm x m)

/-- The kernel as the memory of the threads. -/
def kernelMachine (k : CharKind) (ram swp : DeviceBoot) : Machine Kernel where
  start s := s = .boot ram swp
  load := Kernel.Loads
  exec sched x ins s t := ∃ junk stat, s.run k sched x ins junk = .ok (stat, t)

/-! ## Memory without the threads -/

/-- A load, or an instruction together with the queues that it sees. -/
inductive MemEvent where
  | load (x : ℕ)
  | exec (x : ℕ) (ins : InstT) (sched : SchedState ℕ)

/-- Any interleaving of loads and instructions. -/
def Machine.system {M : Type} (mach : Machine M) : Lts.System M MemEvent where
  init := mach.start
  step s e t :=
    match e with
    | .load x           => mach.load x s t
    | .exec x ins sched => mach.exec sched x ins s t

theorem mem_of_run {n : ℕ} {M : Type} {cfg : Config} {mach : Machine M} {s t : OsState n M} {x : ℕ}
    (h : Run cfg mach s x t) : t.mem = s.mem ∨ ∃ ins, mach.exec s.sched x ins s.mem t.mem := by
  cases h with
  | atEnd _ => exact .inl rfl
  | @exec ins m _ hexec => exact .inr ⟨ins, hexec⟩

/-- A step of the threads leaves memory alone, or is one of its steps. -/
theorem mem_of_osStep {n now : ℕ} {M : Type} {cfg : Config} {mach : Machine M} {s t : OsState n M}
    {e : OsEvent n} (h : OsStep cfg mach now s e t) :
    t.mem = s.mem ∨ ∃ l, mach.system.step s.mem l t.mem := by
  cases h with
  | cpu hcpu =>
    cases hcpu with
    | run _ _ hrun =>
      rcases mem_of_run hrun with hsame | ⟨ins, hexec⟩
      · exact .inl hsame
      · exact .inr ⟨.exec _ ins s.sched, hexec⟩
    | _ => exact .inl rfl
  | ld hld =>
    cases hld with
    | initMm _ hload => exact .inr ⟨.load s.i, hload⟩
    | _ => exact .inl rfl

/-- **What the threads do to memory is a run of the machine.** -/
theorem memReachable_of_os {M : Type} {cfg : Config} {mach : Machine M} {s : OsState cfg.numCpus M}
    (h : (osSystem cfg mach).Reachable s) : mach.system.Reachable s.mem := by
  induction h with
  | init hs =>
    obtain ⟨m, hm, rfl⟩ := hs
    exact .init hm
  | @step s l t _ hst ih =>
    obtain ⟨now, hos⟩ := hst
    rcases mem_of_osStep hos with hsame | ⟨e, hmem⟩
    · rw [hsame]
      exact ih
    · exact ih.step hmem

end LamiaAtrium
