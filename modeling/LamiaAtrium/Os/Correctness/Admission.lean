import LamiaAtrium.Mem.Correctness.Conserved
import LamiaAtrium.Mem.Correctness.Regions
import LamiaAtrium.Mem.MapRam
import LamiaAtrium.Os.Config
import LamiaAtrium.Os.Correctness.Running

/-!
# `Os.Correctness.Admission` — the processes that `ld_routine` admits

* `OwnerState` adds to the threads the log of who has taken which frame of `mram`. `taken_of_reachable`: the log
  and the free list together are the frames of `MEMPHY_format`. `owner_of_reachable`: every run has its log.
* `WellFormed` is what `add_proc` should get: a priority that names a queue, and an address space as `init_mm` sets
  it up, whose PGD is in a frame of its own.
* `ld_routine` looks neither at the priority nor at what `init_mm` returns. `LoadOk` leaves out the loads for which
  that matters, and `admitted_wellFormed` is the result; `admission_fails` is the other side.
-/

namespace LamiaAtrium

variable {n : ℕ}

/-! ## Who has taken what -/

/-- The threads, and who has taken which frame of `mram` so far, in order. -/
structure OwnerState (n : ℕ) where
  os : OsState n Kernel
  owner : List (ℕ × AddrT)

/-- Whom a step takes frames for: the process that is loaded, or the one whose instruction is executed. -/
inductive TakesFor (s t : OsState n Kernel) : ℕ → Prop where
  | load : s.ld = .initMm → t.ld = .add → TakesFor s t s.i
  | exec {x ins} : t.executed x = s.executed x ++ [ins] → TakesFor s t x

/-- The log goes on with the frames that leave the free list. -/
inductive Logs (s t : OwnerState n) : Prop where
  | same : t.os.mem.mram.freeFpList = s.os.mem.mram.freeFpList → t.owner = s.owner → Logs s t
  | take {x taken} : TakesFor s.os t.os x → s.os.mem.mram.freeFpList = taken ++ t.os.mem.mram.freeFpList →
      t.owner = s.owner ++ taken.map (Prod.mk x) → Logs s t

/-- The threads with their log, when all their steps meet `C`. -/
def ownerSystem (cfg : Config) (mach : Machine Kernel)
    (C : OsState cfg.numCpus Kernel → OsState cfg.numCpus Kernel → Prop) :
    Lts.System (OwnerState cfg.numCpus) (OsEvent cfg.numCpus) where
  init s := (osSystem cfg mach).init s.os ∧ s.owner = []
  step s e t := ((osSystem cfg mach).restrict C).step s.os e t.os ∧ Logs s t

theorem Logs.mono {s t : OwnerState n} (h : Logs s t) {p : ℕ × AddrT} (hp : p ∈ s.owner) : p ∈ t.owner := by
  cases h with
  | same _ howner => rwa [howner]
  | take _ _ howner =>
    rw [howner]
    exact List.mem_append_left _ hp

/-- What leaves the free list is in the log. -/
theorem Logs.frames {s t : OwnerState n} (h : Logs s t) :
    t.owner.map Prod.snd ++ t.os.mem.mram.freeFpList = s.owner.map Prod.snd ++ s.os.mem.mram.freeFpList := by
  cases h with
  | same hfree howner => rw [hfree, howner]
  | @take x taken _ hfree howner =>
    have hsnd : (taken.map (Prod.mk x)).map Prod.snd = taken := by
      rw [List.map_map]
      exact List.map_id taken
    rw [hfree, howner, List.map_append, hsnd, List.append_assoc]

/-- The frame that a load takes is logged for the process that is loaded. -/
theorem Logs.of_load {s t : OwnerState n} (h : Logs s t) (hexecuted : t.os.executed = s.os.executed) {frame : AddrT}
    (hlist : s.os.mem.mram.freeFpList = frame :: t.os.mem.mram.freeFpList) : (s.os.i, frame) ∈ t.owner := by
  cases h with
  | same hsame _ =>
    rw [hlist] at hsame
    exact absurd hsame.symm (List.cons_ne_self _ _)
  | @take x taken htakes htaken howner =>
    have hframe : taken = [frame] := by
      rw [hlist] at htaken
      change [frame] ++ t.os.mem.mram.freeFpList = taken ++ t.os.mem.mram.freeFpList at htaken
      exact (List.append_cancel_right htaken).symm
    have hx : x = s.os.i := by
      cases htakes with
      | load _ _ => rfl
      | exec hnew =>
        -- a load executes nothing
        rw [hexecuted] at hnew
        exact absurd hnew (by simp)
    rw [howner, hframe, hx]
    exact List.mem_append_right _ (List.mem_singleton.mpr rfl)

section

variable {cfg : Config} {mach : Machine Kernel} {C : OsState cfg.numCpus Kernel → OsState cfg.numCpus Kernel → Prop}

theorem os_of_owner {s : OwnerState cfg.numCpus} (h : (ownerSystem cfg mach C).Reachable s) :
    ((osSystem cfg mach).restrict C).Reachable s.os := by
  induction h with
  | init hs => exact .init hs.1
  | step _ hst ih => exact ih.step hst.1

/-- **The log and the free list** together are the frames that there were at the start. -/
theorem taken_of_reachable {frames : List AddrT} (hstart : ∀ m, mach.start m → m.mram.freeFpList = frames)
    {s : OwnerState cfg.numCpus} (h : (ownerSystem cfg mach C).Reachable s) :
    s.owner.map Prod.snd ++ s.os.mem.mram.freeFpList = frames := by
  refine h.invariant (I := fun s => s.owner.map Prod.snd ++ s.os.mem.mram.freeFpList = frames) ?_ ?_
  · rintro ⟨os, owner⟩ ⟨⟨m, hm, rfl⟩, rfl⟩
    exact hstart m hm
  · rintro s e t hs ⟨-, hlogs⟩
    rw [hlogs.frames]
    exact hs

end

/-! ## Frames only leave the free list -/

theorem vmapPgdLoop_taken {k : CharKind} {m : MmStruct} (len : ℕ) : ∀ (mp : MemphyStruct) (pgn : AddrT),
    ∃ taken, mp.freeFpList = taken ++ (vmapPgdLoop k m len mp pgn).2.freeFpList := by
  induction len with
  | zero =>
    intro mp pgn
    exact ⟨[], rfl⟩
  | succ len ih =>
    intro mp pgn
    rw [vmapPgdLoop]
    cases hset : pteSetFpn k m mp pgn 0 with
    | mk stat mp₁ =>
      obtain ⟨⟨taken, htaken⟩, -⟩ := pteSetFpn_cases hset
      dsimp only
      split
      · exact ⟨taken, htaken⟩
      · obtain ⟨taken', htaken'⟩ := ih mp₁ (pgn + 1)
        exact ⟨taken ++ taken', by rw [List.append_assoc, ← htaken', htaken]⟩

theorem run_taken {k : CharKind} {sched : SchedState ℕ} {s t : Kernel} {x : ℕ} {ins : InstT} {junk : BYTE}
    {stat : ℤ} (h : s.run k sched x ins junk = .ok (stat, t)) :
    ∃ taken, s.mram.freeFpList = taken ++ t.mram.freeFpList := by
  rcases run_cases h with hkeep | ⟨-, -, caller, -, ⟨-, mm, -, rfl⟩ | ⟨-, rfl⟩⟩
  · exact ⟨[], by rw [hkeep.mram, List.nil_append]⟩
  · exact vmapPgdLoop_taken ..
  · exact ⟨[], by rw [freeFpList_memphyWriteIgn, List.nil_append]⟩

theorem loads_taken {s t : Kernel} {x : ℕ} (h : Kernel.Loads x s t) :
    ∃ taken, s.mram.freeFpList = taken ++ t.mram.freeFpList := by
  cases h with
  | @initMm stat m₀ m mram link hinit =>
    by_cases hstat : stat = 0
    · subst hstat
      obtain ⟨frame, hlist, -⟩ := initMm_takes hinit
      exact ⟨[frame], hlist⟩
    · obtain ⟨-, -, rfl⟩ := initMm_failed hinit hstat
      exact ⟨[], rfl⟩

/-- **Every run has its log.** -/
theorem owner_of_reachable {k : CharKind} {cfg : Config} {ram swp : DeviceBoot}
    {C : OsState cfg.numCpus Kernel → OsState cfg.numCpus Kernel → Prop} {s : OsState cfg.numCpus Kernel}
    (h : ((osSystem cfg (kernelMachine k ram swp)).restrict C).Reachable s) :
    ∃ owner, (ownerSystem cfg (kernelMachine k ram swp) C).Reachable ⟨s, owner⟩ := by
  induction h with
  | init hs => exact ⟨[], .init ⟨hs, rfl⟩⟩
  | @step s e t _ hst ih =>
    obtain ⟨owner, ih⟩ := ih
    obtain ⟨now, hos⟩ := hst.1
    have hlog : ∃ owner', Logs ⟨s, owner⟩ ⟨t, owner'⟩ := by
      cases hos.memory with
      | same hmem _ => exact ⟨owner, .same (by rw [hmem]) rfl⟩
      | load hpc hpc' _ _ hload =>
        obtain ⟨taken, htaken⟩ := loads_taken hload
        exact ⟨_, .take (.load hpc hpc') htaken rfl⟩
      | exec hexecuted _ hexec =>
        obtain ⟨junk, stat, hrun⟩ := hexec
        obtain ⟨taken, htaken⟩ := run_taken hrun
        exact ⟨_, .take (.exec hexecuted) htaken rfl⟩
    obtain ⟨owner', hlog⟩ := hlog
    exact ⟨owner', ih.step ⟨hst, hlog⟩⟩

/-! ## Well-formed processes -/

/-- What `init_mm` makes of a structure when the PGD is in `frame`. -/
structure Initialised (m : MmStruct) (frame : AddrT) : Prop where
  pgd : m.pgd = baseOf frame
  mmap : m.mmap = [vma0 []]
  symrgtbl : m.symrgtbl = Vector.replicate _ ⟨0, 0⟩
  fifoPgn : m.fifoPgn = []

/-- The PGD of process `x` is in `frame`, which is one of `frames`, was taken for `x`, and is nobody else's. -/
structure OwnsPgd (frames : List AddrT) (s : OwnerState n) (x : ℕ) (frame : AddrT) : Prop where
  known : frame ∈ frames
  taken : (x, frame) ∈ s.owner
  notFree : frame ∉ s.os.mem.mram.freeFpList
  sole : ∀ y, (y, frame) ∈ s.owner → y = x
  notShared : ∀ y m, y ≠ x → s.os.mem.mm y = some m → m.pgd ≠ baseOf frame

/-- **Process `x` is well formed**, where `frames` are the frames of `MEMPHY_format`. -/
structure WellFormed (cfg : Config) (frames : List AddrT) (s : OwnerState n) (x : ℕ) : Prop where
  prio : cfg.prio x < maxPrio
  mm : ∃ m frame, s.os.mem.mm x = some m ∧ Initialised m frame ∧ OwnsPgd frames s x frame

/-- **The condition on a load**: the priority names a queue, there is a frame for the PGD, and `malloc` returns an
    area whose `vm_freerg_list` is `NULL`. -/
def LoadOk (cfg : Config) (s t : OsState n Kernel) : Prop :=
  s.ld = .initMm → t.ld = .add →
    cfg.prio s.i < maxPrio ∧ s.mem.mram.freeFpList ≠ [] ∧
      ∃ stat m₀ m mram, initMm m₀ s.mem.mram [] = (stat, m, mram) ∧ t.mem = ({ s.mem with mram }).setMm s.i m

/-- **Every address space has taken its PGD**, and the next process to be added is initialised. -/
structure Rightful (cfg : Config) (s : OwnerState n) : Prop where
  roots : ∀ y m, s.os.mem.mm y = some m → ∃ frame, m.pgd = baseOf frame ∧ (y, frame) ∈ s.owner
  next : s.os.ld = .add → cfg.prio s.os.i < maxPrio ∧
    ∃ m frame, s.os.mem.mm s.os.i = some m ∧ Initialised m frame ∧ (s.os.i, frame) ∈ s.owner

section

variable {k : CharKind} {cfg : Config} {ram swp : DeviceBoot}

/-- **A CPU** keeps every PGD, and the address space of the process that is being loaded. -/
theorem CpuStep.mm {s t : OsState cfg.numCpus Kernel} {c : Fin cfg.numCpus} {e : OsEvent cfg.numCpus}
    (hs : (osSystem cfg (kernelMachine k ram swp)).Reachable s)
    (h : CpuStep cfg (kernelMachine k ram swp) s c e t) :
    (∀ p, (t.mem.mm p).map MmStruct.pgd = (s.mem.mm p).map MmStruct.pgd) ∧ t.mem.mm s.i = s.mem.mm s.i := by
  cases h with
  | @run x _ hpc hproc hrun =>
    cases hrun with
    | atEnd _ => exact ⟨fun _ => rfl, rfl⟩
    | exec _ hexec =>
      obtain ⟨junk, stat, hexec⟩ := hexec
      obtain ⟨hpgd, hothers⟩ := run_mm hexec
      -- whoever runs was loaded before
      have hheld : (s.cpu c).held = some x := by
        rw [Cpu.held_of_owns (by rw [hpc]; rfl)]
        exact hproc
      have hlt := (held_live hs hheld).1
      exact ⟨hpgd, hothers s.i (Nat.ne_of_gt hlt)⟩
  | _ => exact ⟨fun _ => rfl, rfl⟩

/-- A step that keeps every PGD. -/
theorem Rightful.roots_of_pgd {s t : OwnerState n} (h : Rightful cfg s) (hlogs : Logs s t)
    (hpgd : ∀ p, (t.os.mem.mm p).map MmStruct.pgd = (s.os.mem.mm p).map MmStruct.pgd) (y : ℕ) (m : MmStruct)
    (hm : t.os.mem.mm y = some m) : ∃ frame, m.pgd = baseOf frame ∧ (y, frame) ∈ t.owner := by
  have hsome := hpgd y
  rw [hm] at hsome
  obtain ⟨m', hm', hsame⟩ := Option.map_eq_some_iff.mp hsome.symm
  obtain ⟨frame, hbase, hown⟩ := h.roots y m' hm'
  exact ⟨frame, hsame ▸ hbase, hlogs.mono hown⟩

/-- **A load** that meets the condition. -/
theorem Rightful.load {s t : OwnerState n} (h : Rightful cfg s) (hpc : s.os.ld = .initMm) (hpc' : t.os.ld = .add)
    (hi : t.os.i = s.os.i) (hexecuted : t.os.executed = s.os.executed) (hok : LoadOk cfg s.os t.os)
    (hlogs : Logs s t) : Rightful cfg t := by
  obtain ⟨hprio, hframe, stat, m₀, m, mram, hinit, hmem⟩ := hok hpc hpc'
  obtain rfl := initMm_stat hinit hframe
  obtain ⟨frame, hlist, hpgd⟩ := initMm_takes hinit
  obtain ⟨hmmap, hsym, hfifo⟩ := initMm_area hinit
  have hfree : t.os.mem.mram.freeFpList = mram.freeFpList := by rw [hmem]; rfl
  have hm : t.os.mem.mm s.os.i = some m := by
    rw [hmem]
    exact Kernel.mm_setMm_self ..
  have hown := hlogs.of_load hexecuted (hlist.trans (congrArg (frame :: ·) hfree.symm))
  refine ⟨fun y m' hm' => ?_, fun _ => ?_⟩
  · by_cases hy : y = s.os.i
    · subst hy
      obtain rfl : m = m' := Option.some.inj (hm.symm.trans hm')
      exact ⟨frame, hpgd, hown⟩
    · rw [hmem, Kernel.mm_setMm_of_ne _ _ hy] at hm'
      obtain ⟨frame', hbase, hown'⟩ := h.roots y m' hm'
      exact ⟨frame', hbase, hlogs.mono hown'⟩
  · rw [hi]
    exact ⟨hprio, m, frame, hm, ⟨hpgd, hmmap, hsym, hfifo⟩, hown⟩

theorem rightful_step {now : ℕ} {s t : OwnerState cfg.numCpus} {e : OsEvent cfg.numCpus}
    (hs : (osSystem cfg (kernelMachine k ram swp)).Reachable s.os) (h : Rightful cfg s)
    (hst : OsStep cfg (kernelMachine k ram swp) now s.os e t.os) (hok : LoadOk cfg s.os t.os) (hlogs : Logs s t) :
    Rightful cfg t := by
  obtain ⟨os, owner⟩ := t
  dsimp only at hst hok
  cases hst with
  | cpu hcpu =>
    obtain ⟨-, hld, hi⟩ := hcpu.loader
    obtain ⟨hpgd, hnext⟩ := hcpu.mm hs
    refine ⟨h.roots_of_pgd hlogs hpgd, fun hadd => ?_⟩
    obtain ⟨hprio, m, frame, hm, hinit, hown⟩ := h.next (hld ▸ hadd)
    dsimp only
    rw [hi, hnext]
    exact ⟨hprio, m, frame, hm, hinit, hlogs.mono hown⟩
  | ld hld =>
    cases hld with
    | initMm hpc _ => exact h.load hpc rfl rfl rfl hok hlogs
    | _ => exact ⟨h.roots_of_pgd hlogs fun _ => rfl, fun hadd => LdPc.noConfusion hadd⟩

theorem rightful_of_reachable {s : OwnerState cfg.numCpus}
    (hs : (ownerSystem cfg (kernelMachine k ram swp) (LoadOk cfg)).Reachable s) : Rightful cfg s := by
  refine hs.invariant_of (I := Rightful cfg)
    (J := fun s => (osSystem cfg (kernelMachine k ram swp)).Reachable s.os) (fun s hs => (os_of_owner hs).of_restrict)
    ?_ ?_
  · rintro ⟨os, owner⟩ ⟨⟨m, rfl, rfl⟩, rfl⟩
    exact ⟨fun y m hm => absurd hm (by simp [OsState.start, Kernel.boot]), fun hadd => LdPc.noConfusion hadd⟩
  · rintro s e t hreach h ⟨⟨⟨now, hst⟩, hok⟩, hlogs⟩
    exact rightful_step hreach h hst hok hlogs

/-- Distinct frames have one owner each. -/
theorem Rightful.wellFormed {s : OwnerState n} (h : Rightful cfg s) {frames : List AddrT}
    (hframes : s.owner.map Prod.snd ++ s.os.mem.mram.freeFpList = frames) (hnodup : frames.Nodup)
    (haddr : ∀ f ∈ frames, Addressable f) (hadd : s.os.ld = .add) : WellFormed cfg frames s s.os.i := by
  obtain ⟨hprio, m, frame, hm, hinit, hown⟩ := h.next hadd
  rw [← hframes, List.nodup_append] at hnodup
  obtain ⟨hnodup, -, hdisjoint⟩ := hnodup
  have hknown : ∀ {y f}, (y, f) ∈ s.owner → f ∈ frames := by
    intro y f hyf
    rw [← hframes]
    exact List.mem_append_left _ (List.mem_map_of_mem hyf)
  have hsole : ∀ y, (y, frame) ∈ s.owner → y = s.os.i := by
    intro y hy
    exact congrArg Prod.fst (List.inj_on_of_nodup_map hnodup hy hown rfl)
  refine ⟨hprio, m, frame, hm, hinit, hknown hown, hown, fun hfree => ?_, hsole, fun y m' hy hm' hpgd => ?_⟩
  · exact hdisjoint frame (List.mem_map_of_mem hown) frame hfree rfl
  · obtain ⟨frame', hbase, hown'⟩ := h.roots y m' hm'
    obtain rfl : frame' = frame :=
      baseOf_inj (haddr _ (hknown hown')) (haddr _ (hknown hown)) (hbase.symm.trans hpgd)
    exact hy (hsole y hown')

end

/-! ## Every run -/

/-- **A RAM of two frames** is formatted. -/
theorem ConfigFile.formatted_ram (f : ConfigFile) (d : RawDevice) (h : 512 ≤ f.memramsz.toInt) :
    Formatted d.mp d.link (f.ram d).maxSize := by
  left
  rw [f.numfpOf_memramsz]
  show 2 ≤ f.memramsz.toInt.tdiv 256
  rw [Int.tdiv_eq_ediv_of_nonneg (by omega)]
  omega

/-- **Every process that `add_proc` gets is well formed**, in every run whose loads meet the condition, and whatever
    the configuration file says. -/
theorem admitted_wellFormed (k : CharKind) (f : ConfigFile) (dram dswp : RawDevice)
    (hformat : Formatted dram.mp dram.link (f.ram dram).maxSize) (s : OsState f.config.numCpus Kernel)
    (hs : ((osSystem f.config (f.machine k dram dswp)).restrict (LoadOk f.config)).Reachable s) (hadd : s.ld = .add) :
    (∃ owner, (ownerSystem f.config (f.machine k dram dswp) (LoadOk f.config)).Reachable ⟨s, owner⟩) ∧
      ∀ owner, (ownerSystem f.config (f.machine k dram dswp) (LoadOk f.config)).Reachable ⟨s, owner⟩ →
        WellFormed f.config (f.ram dram).device.freeFpList ⟨s, owner⟩ s.i := by
  refine ⟨owner_of_reachable hs, fun owner howner => ?_⟩
  obtain ⟨hrooted, -⟩ := rooted_initMemphy (k := k) dram.block (show (1 : ℤ) ≠ 0 by decide) hformat
  have hframes : owner.map Prod.snd ++ s.mem.mram.freeFpList = (f.ram dram).device.freeFpList :=
    taken_of_reachable (fun m hm => by rw [hm]; rfl) howner
  exact (rightful_of_reachable howner).wellFormed hframes hrooted.forest.nodup hrooted.free hadd

/-- One CPU, one process without code, and its priority and the size of RAM as the file has them. -/
def oneFile (memramsz : BitVec 32) (prio : BitVec 64) : ConfigFile :=
  ⟨1, 1, 1, memramsz, fun _ => 0, fun _ => 0, fun _ => prio, fun _ => []⟩

/-- The memory that `main` sets up for it. -/
def oneFileMachine (memramsz : BitVec 32) (prio : BitVec 64) : Machine Kernel :=
  (oneFile memramsz prio).machine .unsigned zeroMemory zeroMemory

/-- RAM as `init_memphy` leaves it. -/
def oneFileRam (memramsz : BitVec 32) (prio : BitVec 64) : MemphyStruct :=
  ((oneFile memramsz prio).ram zeroMemory).device

/-- The loader before its first `init_mm`. -/
def oneFileStart (memramsz : BitVec 32) (prio : BitVec 64) : OsState (oneFile memramsz prio).config.numCpus Kernel :=
  { OsState.start _ (.boot ((oneFile memramsz prio).ram zeroMemory) ((oneFile memramsz prio).swp zeroMemory)) with
    ld := .initMm }

/-- **The loader goes on to `add_proc`**, whatever `init_mm` returns. -/
theorem oneFile_loaded {memramsz : BitVec 32} {prio : BitVec 64}
    {C : OsState (oneFile memramsz prio).config.numCpus Kernel → OsState _ Kernel → Prop}
    (hquiet : ∀ s t, s.ld ≠ .initMm → C s t) {stat : ℤ} {m : MmStruct} {mram : MemphyStruct}
    (hinit : initMm rawMm (oneFileRam memramsz prio) [] = (stat, m, mram))
    (hload : ∀ t, t.mem = ({ (oneFileStart memramsz prio).mem with mram }).setMm 0 m →
      C (oneFileStart memramsz prio) t) :
    ∃ s, ((osSystem (oneFile memramsz prio).config (oneFileMachine memramsz prio)).restrict C).Reachable s ∧
      s.ld = .add ∧ s.i = 0 ∧ s.mem.mm 0 = some m := by
  let T := (osSystem (oneFile memramsz prio).config (oneFileMachine memramsz prio)).restrict C
  have h : T.Reachable (.start _ (oneFileStart memramsz prio).mem) := .init ⟨_, rfl, rfl⟩
  have h := h.step ⟨⟨0, .ld (.load rfl Nat.one_pos)⟩, hquiet _ _ LdPc.noConfusion⟩
  have h := h.step ⟨⟨0, .ld (.onTime rfl (Nat.not_lt_zero 0))⟩, hquiet _ _ LdPc.noConfusion⟩
  have h := h.step ⟨⟨0, .ld (.initMm (s := oneFileStart memramsz prio) rfl (.initMm hinit))⟩, hload _ rfl⟩
  exact ⟨_, h, rfl, rfl, Kernel.mm_setMm_self ..⟩

/-- With 16 frames and priority 0, a process without code is admitted in good order. -/
theorem admitted_wellFormed_one : ∃ s : OwnerState (oneFile 4096 0).config.numCpus, s.os.ld = .add ∧
    WellFormed (oneFile 4096 0).config (oneFileRam 4096 0).freeFpList s 0 := by
  have hformat := (oneFile 4096 0).formatted_ram zeroMemory (by decide)
  have hlist : (oneFileRam 4096 0).freeFpList = _ := freeFpList_of_formatted _ _ hformat
  have hfree : (oneFileRam 4096 0).freeFpList ≠ [] := by
    rw [hlist]
    decide
  obtain ⟨⟨stat, m, mram⟩, hinit⟩ : ∃ r, initMm rawMm (oneFileRam 4096 0) [] = r := ⟨_, rfl⟩
  have hprio : (oneFile 4096 0).config.prio 0 < maxPrio := by decide
  obtain ⟨s, h, hadd, hi, -⟩ := oneFile_loaded (C := LoadOk (oneFile 4096 0).config)
    (fun s t hpc hpc' => absurd hpc' hpc) hinit
    fun t hmem _ _ => ⟨hprio, hfree, stat, rawMm, m, mram, hinit, hmem⟩
  obtain ⟨⟨owner, howner⟩, hwell⟩ :=
    admitted_wellFormed .unsigned (oneFile 4096 0) zeroMemory zeroMemory hformat s h hadd
  refine ⟨⟨s, owner⟩, hadd, ?_⟩
  rw [← hi]
  exact hwell owner howner

/-- Every process that `add_proc` gets is well formed, in every run. -/
def AdmitsWellFormed (k : CharKind) (f : ConfigFile) (dram dswp : RawDevice) : Prop :=
  ∀ s : OwnerState f.config.numCpus, (ownerSystem f.config (f.machine k dram dswp) fun _ _ => True).Reachable s →
    s.os.ld = .add → WellFormed f.config (f.ram dram).device.freeFpList s s.os.i

/-- The process of `oneFile` gets as far as `add_proc`. -/
theorem AdmitsWellFormed.loaded {memramsz : BitVec 32} {prio : BitVec 64}
    (h : AdmitsWellFormed .unsigned (oneFile memramsz prio) zeroMemory zeroMemory) :
    ∃ s : OwnerState (oneFile memramsz prio).config.numCpus,
      WellFormed (oneFile memramsz prio).config (oneFileRam memramsz prio).freeFpList s 0 := by
  obtain ⟨⟨stat, m, mram⟩, hinit⟩ : ∃ r, initMm rawMm (oneFileRam memramsz prio) [] = r := ⟨_, rfl⟩
  obtain ⟨s, hs, hadd, hi, -⟩ :=
    oneFile_loaded (C := fun _ _ => True) (fun _ _ _ => trivial) hinit fun _ _ => trivial
  obtain ⟨owner, howner⟩ := owner_of_reachable hs
  refine ⟨⟨s, owner⟩, ?_⟩
  rw [← hi]
  exact h _ howner hadd

/-- **A priority of 140, and a RAM without a frame.** -/
theorem admission_fails : ¬ AdmitsWellFormed .unsigned (oneFile 4096 140) zeroMemory zeroMemory ∧
    ¬ AdmitsWellFormed .unsigned (oneFile 0 0) zeroMemory zeroMemory := by
  constructor
  · intro hall
    obtain ⟨s, hwell⟩ := hall.loaded
    exact absurd hwell.prio (by decide)
  · intro hall
    obtain ⟨s, hwell⟩ := hall.loaded
    obtain ⟨m, frame, -, -, howns⟩ := hwell.mm
    have hnone : (oneFileRam 0 0).freeFpList = [] := by
      rw [oneFileRam, DeviceBoot.device, initMemphy_freeFpList]
      rfl
    rw [hnone] at howns
    exact absurd howns.known List.not_mem_nil

end LamiaAtrium
