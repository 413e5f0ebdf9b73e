import LamiaAtrium.Lib.Mask
import LamiaAtrium.Mem.Run

/-!
# `Mem.Correctness.ByteStore` — the devices as byte stores

A store of bytes gives back at every address what was written there last (`lastWritten`), and a device starts with
zeros.

* `StoresBytes`: `MEMPHY_read` and `MEMPHY_write` behave so, and on a sequential device the cursor follows. The guard
  of the sequential paths is the wrong way round, so a sequential device refuses every call (`storesBytes_iff`).
* `IoStoresBytes`: so do the system calls SYSMEM_IO_READ and SYSMEM_IO_WRITE on the RAM. What is read goes back to a
  register through a plain `char`, which is signed: bytes from 128 on come back negative (`ioStoresBytes_iff`).
-/

namespace LamiaAtrium

/-! ## Calls on a device -/

/-- A call of `MEMPHY_write` or `MEMPHY_read`. -/
inductive DevCall where
  | write (addr : AddrT) (data : BYTE)
  | read (addr : AddrT)

/-- The address that the call goes to. -/
def DevCall.addr : DevCall → AddrT
  | .write a _ => a
  | .read a    => a

/-- The device after a call; one that fails leaves it as it was. -/
def devAfter (mp : MemphyStruct) : DevCall → MemphyStruct
  | .write a b => memphyWriteIgn mp a b
  | .read a    => ((memphyRead mp a).map Prod.snd).getD mp

/-- The byte that the calls have last written at `addr`, and `b` when there is none. -/
def lastWritten (addr : AddrT) : BYTE → List DevCall → BYTE
  | b, []               => b
  | b, .write a v :: cs => lastWritten addr (if a = addr then v else b) cs
  | b, .read _ :: cs    => lastWritten addr b cs

/-- What a call has to do after the calls `past`: it returns 0, a read gives the byte last written, a write leaves
    the other addresses alone, and the cursor of a sequential device ends at the address. -/
def CallStores (past : List DevCall) (mp : MemphyStruct) : DevCall → Prop
  | .read a    => ∃ mp', memphyRead mp a = some (lastWritten a 0 past, mp') ∧
      (mp.rdmflg = false → mp'.cursor = a.toNat)
  | .write a b => ∃ mp', memphyWrite mp a b = some mp' ∧ (∀ a', a' ≠ a → mp'.storage a' = mp.storage a') ∧
      (mp.rdmflg = false → mp'.cursor = a.toNat)

/-- **The device is a byte store** for a sequence of calls. -/
def StoresBytes (mp : MemphyStruct) (cs : List DevCall) : Prop :=
  ∀ past c rest, cs = past ++ c :: rest → CallStores past (past.foldl devAfter mp) c

section

variable {mp : MemphyStruct}

theorem devAfter_read (mp : MemphyStruct) (a : AddrT) : devAfter mp (.read a) = mp := by
  rw [devAfter]
  cases hread : memphyRead mp a with
  | none => rfl
  | some got =>
    obtain ⟨b, mp'⟩ := got
    rw [memphyRead_state hread]
    rfl

@[simp] theorem rdmflg_devAfter (mp : MemphyStruct) (c : DevCall) : (devAfter mp c).rdmflg = mp.rdmflg := by
  cases c with
  | write a b => exact rdmflg_memphyWriteIgn mp a b
  | read a => rw [devAfter_read]

theorem rdmflg_foldl_devAfter (cs : List DevCall) : ∀ mp : MemphyStruct,
    (cs.foldl devAfter mp).rdmflg = mp.rdmflg := by
  induction cs with
  | nil => exact fun _ => rfl
  | cons c cs ih =>
    intro mp
    rw [List.foldl_cons, ih, rdmflg_devAfter]

/-- **A random-access device holds at every address what was written there last.** -/
theorem storage_foldl_devAfter (addr : AddrT) (cs : List DevCall) : ∀ {mp : MemphyStruct}, mp.rdmflg = true →
    (cs.foldl devAfter mp).storage addr = lastWritten addr (mp.storage addr) cs := by
  induction cs with
  | nil =>
    intro mp _
    rfl
  | cons c cs ih =>
    intro mp h
    rw [List.foldl_cons, ih (by rw [rdmflg_devAfter, h])]
    cases c with
    | write a b =>
      rw [lastWritten, devAfter, memphyWriteIgn_of_rdm h]
      by_cases ha : a = addr
      · subst ha
        simp
      · simp [ha, Function.update_of_ne (Ne.symm ha)]
    | read a => rw [lastWritten, devAfter_read]

/-- A sequential device refuses every call. -/
theorem not_callStores_of_seq (h : mp.rdmflg = false) (past : List DevCall) (c : DevCall) :
    ¬ CallStores past mp c := by
  cases c with
  | write a b => simp [CallStores, memphyWrite, memphySeqWrite, h]
  | read a => simp [CallStores, memphyRead, memphySeqRead, h]

end

section

variable (mp : MemphyStruct) (block : AddrT → BYTE) (link : List AddrT) (maxSize : AddrT) (randomflg : ℤ)

/-- Below its size a device starts with zeros. -/
theorem storage_initMemphy_of_lt {a : AddrT}
    (ha : (a.toNat : ℤ) < (initMemphy mp block link maxSize randomflg).maxsz) :
    (initMemphy mp block link maxSize randomflg).storage a = 0 := by
  rw [initMemphy_maxsz] at ha
  have hle : (maxSize.setWidth 32).toInt ≤ (maxSize.toNat : ℤ) := by
    have htoNat : (maxSize.setWidth 32).toInt ≤ ((maxSize.setWidth 32).toNat : ℤ) := by
      rw [BitVec.toInt_eq_toNat_cond]
      split <;> omega
    rw [BitVec.toNat_setWidth] at htoNat
    have := Nat.mod_le maxSize.toNat (2 ^ 32)
    omega
  rw [initMemphy_storage, if_pos (BitVec.lt_def.mpr (by omega))]

/-- **A device that `init_memphy` has set up is a byte store exactly when** it is a random-access device, or nobody
    calls it. -/
theorem storesBytes_iff (cs : List DevCall)
    (hcs : ∀ c ∈ cs, (c.addr.toNat : ℤ) < (initMemphy mp block link maxSize randomflg).maxsz) :
    StoresBytes (initMemphy mp block link maxSize randomflg) cs ↔ randomflg ≠ 0 ∨ cs = [] := by
  have hrdm := initMemphy_rdmflg mp block link maxSize randomflg
  constructor
  · intro h
    by_cases hflag : randomflg = 0
    · right
      cases cs with
      | nil => rfl
      | cons c cs =>
        refine absurd (h [] c cs rfl) (not_callStores_of_seq ?_ [] c)
        rw [List.foldl_nil, hrdm, hflag]
        rfl
    · exact .inl hflag
  · rintro (hflag | rfl)
    · rw [decide_eq_true hflag] at hrdm
      intro past c rest hsplit
      have hnow : (past.foldl devAfter (initMemphy mp block link maxSize randomflg)).rdmflg = true := by
        rw [rdmflg_foldl_devAfter, hrdm]
      have hc : c ∈ cs := by
        rw [hsplit]
        simp
      cases c with
      | write a b =>
        refine ⟨_, memphyWrite_of_rdm hnow a b, ?_, fun hseq => absurd (hseq.symm.trans hnow) Bool.false_ne_true⟩
        intro a' ha'
        exact Function.update_of_ne ha' ..
      | read a =>
        have hzero := storage_initMemphy_of_lt mp block link maxSize randomflg (hcs (.read a) hc)
        have hbyte := storage_foldl_devAfter a past hrdm
        rw [show (initMemphy mp block link maxSize randomflg).storage a = 0 from hzero] at hbyte
        exact ⟨_, hbyte ▸ memphyRead_of_rdm hnow a, fun hseq => absurd (hseq.symm.trans hnow) Bool.false_ne_true⟩
    · intro past c rest hsplit
      exact absurd hsplit (by simp)

end

/-- A random-access device of four bytes: a byte written at 1 is read there, and 2 still holds 0. -/
theorem storesBytes_iff_rdm :
    StoresBytes (initMemphy rawMp (fun _ => 7) [] 4 1) [.write 1 200, .read 1, .read 2] :=
  (storesBytes_iff rawMp (fun _ => 7) [] 4 1 [.write 1 200, .read 1, .read 2]
    (by rw [initMemphy_maxsz]; decide)).mpr (.inl (by decide))

/-- A sequential device of four bytes does not even read its first byte. -/
theorem storesBytes_fails : ¬ ∀ (mp : MemphyStruct) (block : AddrT → BYTE) (link : List AddrT) (maxSize : AddrT)
    (randomflg : ℤ) (cs : List DevCall),
    (∀ c ∈ cs, (c.addr.toNat : ℤ) < (initMemphy mp block link maxSize randomflg).maxsz) →
      StoresBytes (initMemphy mp block link maxSize randomflg) cs := by
  intro hall
  have h := hall rawMp (fun _ => 0) [] 4 0 [.read 0] (by rw [initMemphy_maxsz]; decide)
  refine not_callStores_of_seq ?_ [] (.read 0) (h [] (.read 0) [] rfl)
  rw [List.foldl_nil, initMemphy_rdmflg]
  rfl

/-! ## System calls on the RAM -/

/-- A SYSMEM_IO_READ (4) or SYSMEM_IO_WRITE (5) that a running process issues, with an address on the RAM. -/
structure IoCall (d : DeviceBoot) where
  sched : SchedState ℕ
  caller : ℕ
  regs : ScRegs
  junk : BYTE
  running : caller ∈ sched.runningList.toList
  memop : (regs.a1.setWidth 32 : BitVec 32) = 4 ∨ (regs.a1.setWidth 32 : BitVec 32) = 5
  inRange : (regs.a2.toNat : ℤ) < d.device.maxsz

namespace IoCall

open Kernel

variable {d : DeviceBoot}

/-- The system call, where `char` is signed. -/
def exec (s : Kernel) (c : IoCall d) : Except Fault (ℤ × ScRegs × Kernel) :=
  s.sysMemmap .signed c.sched (pidOf c.caller) c.regs c.junk

/-- The kernel after the call. -/
def after (s : Kernel) (c : IoCall d) : Kernel :=
  match c.exec s with
  | .ok (_, _, t) => t
  | .error _      => s

/-- What the call means for the bytes of the RAM: the low byte of `a3` is written, or a byte is read. -/
def dev (c : IoCall d) : DevCall :=
  if (c.regs.a1.setWidth 32 : BitVec 32) = 5 then .write c.regs.a2 (c.regs.a3.setWidth 8) else .read c.regs.a2

/-- The process behind the call is found. -/
theorem found (c : IoCall d) : ∃ y, findPcbByPid c.sched (pidOf c.caller) = some y := by
  have hsome : (findInQueue c.sched.runningList (pidOf c.caller)).isSome = true := by
    rw [findInQueue, List.find?_isSome]
    exact ⟨c.caller, c.running, by simp⟩
  obtain ⟨y, hy⟩ := Option.isSome_iff_exists.mp hsome
  exact ⟨y, by rw [findPcbByPid, hy]⟩

theorem exec_read (s : Kernel) {c : IoCall d} (hop : (c.regs.a1.setWidth 32 : BitVec 32) = 4) :
    c.exec s = .ok (0, { c.regs with
      a3 := (((memphyRead s.mram c.regs.a2).map Prod.fst).getD c.junk).signExtend 64 }, s) := by
  obtain ⟨y, hy⟩ := c.found
  rw [exec, Kernel.sysMemmap, hy, hop]
  rfl

theorem exec_write (s : Kernel) {c : IoCall d} (hop : (c.regs.a1.setWidth 32 : BitVec 32) = 5) :
    c.exec s = .ok (0, c.regs, { s with mram := memphyWriteIgn s.mram c.regs.a2 (c.regs.a3.setWidth 8) }) := by
  obtain ⟨y, hy⟩ := c.found
  rw [exec, Kernel.sysMemmap, hy, hop]
  rfl

/-- On the RAM, a system call is a call of the device. -/
theorem mram_after (s : Kernel) (c : IoCall d) : (c.after s).mram = devAfter s.mram c.dev := by
  rcases c.memop with hop | hop
  · rw [after, exec_read s hop, dev, if_neg (by rw [hop]; decide), devAfter_read]
  · rw [after, exec_write s hop, dev, if_pos hop, devAfter]

theorem mram_foldl_after (cs : List (IoCall d)) : ∀ s : Kernel,
    (cs.foldl after s).mram = (cs.map dev).foldl devAfter s.mram := by
  induction cs with
  | nil => exact fun _ => rfl
  | cons c cs ih =>
    intro s
    rw [List.foldl_cons, ih, mram_after, List.map_cons, List.foldl_cons]

end IoCall

/-- **The RAM is a byte store for the processes**: a SYSMEM_IO_READ returns the byte last written, in 0..255. -/
def IoStoresBytes {d : DeviceBoot} (s : Kernel) (cs : List (IoCall d)) : Prop :=
  ∀ past c rest, cs = past ++ c :: rest → (c.regs.a1.setWidth 32 : BitVec 32) = 4 →
    ∃ regs t, c.exec (past.foldl IoCall.after s) = .ok (0, regs, t) ∧
      regs.a3 = (lastWritten c.regs.a2 0 (past.map IoCall.dev)).setWidth 64

/-- **The RAM is a byte store for the processes exactly when** no byte that they read is 128 or more. -/
theorem ioStoresBytes_iff (d : DeviceBoot) (mm : ℕ → Option MmStruct) (swp : MemphyStruct) (cs : List (IoCall d)) :
    IoStoresBytes ⟨mm, d.device, swp⟩ cs ↔
      ∀ past c rest, cs = past ++ c :: rest → (c.regs.a1.setWidth 32 : BitVec 32) = 4 →
        (lastWritten c.regs.a2 0 (past.map IoCall.dev)).toNat < 128 := by
  have hboot : d.device.rdmflg = true := initMemphy_rdmflg ..
  have hread : ∀ (past : List (IoCall d)) (c : IoCall d), (c.regs.a1.setWidth 32 : BitVec 32) = 4 →
      c.exec (past.foldl IoCall.after ⟨mm, d.device, swp⟩) = .ok (0, { c.regs with
        a3 := (lastWritten c.regs.a2 0 (past.map IoCall.dev)).signExtend 64 },
        past.foldl IoCall.after ⟨mm, d.device, swp⟩) := by
    intro past c hop
    have hmram := IoCall.mram_foldl_after past ⟨mm, d.device, swp⟩
    have hzero : d.device.storage c.regs.a2 = 0 := storage_initMemphy_of_lt d.mp d.block d.link d.maxSize 1 c.inRange
    have hbyte := storage_foldl_devAfter c.regs.a2 (past.map IoCall.dev) hboot
    rw [hzero] at hbyte
    rw [IoCall.exec_read _ hop, hmram, memphyRead_of_rdm (by rw [rdmflg_foldl_devAfter, hboot]), hbyte]
    rfl
  constructor
  · intro h past c rest hsplit hop
    obtain ⟨regs, t, hexec, ha3⟩ := h past c rest hsplit hop
    rw [hread past c hop] at hexec
    obtain ⟨rfl, -⟩ := Prod.mk.inj (Prod.mk.inj (Except.ok.inj hexec)).2
    exact (Mask.signExtend_eq_setWidth_iff (by decide) (by decide) _).mp ha3
  · intro h past c rest hsplit hop
    have hsmall := h past c rest hsplit hop
    exact ⟨_, _, hread past c hop, (Mask.signExtend_eq_setWidth_iff (by decide) (by decide) _).mpr hsmall⟩

/-- A running list that holds process 0. -/
def oneRunning : SchedState ℕ := { (SchedState.static : SchedState ℕ) with runningList := QueueT.zero.enqueue 0 }

/-- On a RAM of four bytes, process 0 writes 200 at address 1. -/
def writes200 : IoCall (zeroDevice 4) :=
  ⟨oneRunning, 0, ⟨5, 1, 200⟩, 0, by decide, .inr (by decide), by rw [DeviceBoot.device, initMemphy_maxsz]; decide⟩

/-- It reads address 1. -/
def readsBack : IoCall (zeroDevice 4) :=
  ⟨oneRunning, 0, ⟨4, 1, 0⟩, 0, by decide, .inl (by decide), by rw [DeviceBoot.device, initMemphy_maxsz]; decide⟩

/-- What it reads is not 200 but -56. -/
theorem ioStoresBytes_fails : ¬ ∀ (d : DeviceBoot) (mm : ℕ → Option MmStruct) (swp : MemphyStruct)
    (cs : List (IoCall d)), IoStoresBytes ⟨mm, d.device, swp⟩ cs := by
  intro hall
  obtain ⟨regs, t, hexec, ha3⟩ := hall (zeroDevice 4) (fun _ => none) rawMp [writes200, readsBack] [writes200] readsBack
    [] rfl (by decide)
  have hlow : regs.a3 = (200#8).signExtend 64 := by
    rw [IoCall.exec_read _ (by decide), IoCall.mram_foldl_after] at hexec
    obtain ⟨rfl, -⟩ := Prod.mk.inj (Prod.mk.inj (Except.ok.inj hexec)).2
    rfl
  rw [hlow] at ha3
  exact absurd ha3 (by decide)

end LamiaAtrium
