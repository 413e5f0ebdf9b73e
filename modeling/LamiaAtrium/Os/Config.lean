import LamiaAtrium.Mem.Run

/-!
# `Os.Config` — `read_config` of `os.c`

A `ConfigFile` is what `read_config` has stored, in the types that it stores it in. It checks nothing, so the
values may be any. `ConfigFile.config` is what the threads make of them, `ConfigFile.ram` and `ConfigFile.swp`
what `main` makes of them: a priority is narrowed to the 32 bits of `proc->prio`, and a size of type `int` is
passed as an `addr_t`.
-/

namespace LamiaAtrium

/-- `PAGING_MAX_MMSWP`. -/
def pagingMaxMmswp : ℕ := 4

/-- The statics that `read_config` fills in, and the code that `load` finds at `path[i]`. -/
structure ConfigFile where
  timeSlot : BitVec 32
  numCpus : BitVec 32
  numProcesses : BitVec 32
  memramsz : BitVec 32
  memswpsz : Fin pagingMaxMmswp → BitVec 32
  startTime : ℕ → BitVec 64
  prio : ℕ → BitVec 64
  code : ℕ → List InstT

/-- What a device structure and its blocks held before `init_memphy`: `link` is the unset link of
    `memphyFormat`. -/
structure RawDevice where
  mp : MemphyStruct
  block : AddrT → BYTE
  link : List AddrT

/-- Memory that was zero before. -/
def zeroMemory : RawDevice := ⟨rawMp, fun _ => 0, []⟩

namespace ConfigFile

/-- `proc->prio = ld_processes.prio[i]`: an `unsigned long` is stored in an `uint32_t`. -/
def procPrio (f : ConfigFile) (i : ℕ) : BitVec 32 := (f.prio i).setWidth 32

/-- The configuration of the threads. A negative number of threads or processes is none. -/
def config (f : ConfigFile) : Config where
  timeSlot := f.timeSlot.toInt
  numCpus := f.numCpus.toInt.toNat
  numProcesses := f.numProcesses.toInt.toNat
  startTime i := (f.startTime i).toNat
  prio i := (f.procPrio i).toNat
  code := f.code

/-- `init_memphy(&mram, memramsz, rdmflag)`. -/
def ram (f : ConfigFile) (d : RawDevice) : DeviceBoot := ⟨d.mp, d.block, d.link, f.memramsz.signExtend 64⟩

/-- `init_memphy(&mswp[0], memswpsz[0], rdmflag)`. -/
def swp (f : ConfigFile) (d : RawDevice) : DeviceBoot :=
  ⟨d.mp, d.block, d.link, (f.memswpsz ⟨0, Nat.succ_pos 3⟩).signExtend 64⟩

/-- The memory that `main` sets up. -/
def machine (f : ConfigFile) (k : CharKind) (dram dswp : RawDevice) : Machine Kernel :=
  kernelMachine k (f.ram dram) (f.swp dswp)

/-- A size survives the way through `addr_t`. -/
theorem setWidth_size (v : BitVec 32) : ((v.signExtend 64).setWidth 32 : BitVec 32) = v := by
  apply BitVec.eq_of_getLsbD_eq
  intro i hi
  rw [BitVec.getLsbD_setWidth, BitVec.getLsbD_signExtend, if_pos hi]
  simp [hi, Nat.lt_trans hi]

theorem numfpOf_memramsz (f : ConfigFile) (d : RawDevice) :
    numfpOf (f.ram d).maxSize = f.memramsz.toInt.tdiv pagingPagesz := by
  show ((f.memramsz.signExtend 64).setWidth 32).toInt.tdiv _ = _
  rw [setWidth_size]

theorem maxsz_ram (f : ConfigFile) (d : RawDevice) : (f.ram d).device.maxsz = f.memramsz.toInt := by
  rw [DeviceBoot.device, initMemphy_maxsz]
  exact congrArg BitVec.toInt (setWidth_size f.memramsz)

theorem maxsz_swp (f : ConfigFile) (d : RawDevice) :
    (f.swp d).device.maxsz = (f.memswpsz ⟨0, Nat.succ_pos 3⟩).toInt := by
  rw [DeviceBoot.device, initMemphy_maxsz]
  exact congrArg BitVec.toInt (setWidth_size (f.memswpsz ⟨0, Nat.succ_pos 3⟩))

end ConfigFile

end LamiaAtrium
