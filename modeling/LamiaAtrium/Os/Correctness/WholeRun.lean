import LamiaAtrium.Loader.Correctness.Stale
import LamiaAtrium.Mem.Correctness.Safety
import LamiaAtrium.Os.Correctness.BootText

/-!
# `Os.Correctness.WholeRun` — from the text of the input files to the end of every program

The reading of the input files, the threads, the slot barrier, the scheduler and the memory put together.

* `simulator_completes`: with programs that fit into memory, the simulator with its own memory below the threads brings
  every process to the end of its program, and never leaves the objects that it works on.
* `FitToRun` is about the input as it is written: a CPU, priorities in range, registers and bytes that exist, devices
  that `malloc` can be asked for, and a RAM with room for the page tables. `sameRead_of_carries` takes these conditions
  over to what `load` makes of the files.
* `runs_as_written`: from any text of such an input on, every process executes the program that is written in its file.
-/

namespace LamiaAtrium

/-! ## The simulator with its memory -/

/-- A size that `init_memphy` can ask `malloc` for: one that is negative as an `int` is nearly all of the address space,
    and `memset` writes through whatever comes back. -/
def DeviceBoot.Obtainable (d : DeviceBoot) : Prop := d.maxSize.toNat < 2 ^ 31

/-- The storage of the devices is the blocks that `init_memphy` has asked for. -/
structure OnBlocks (ram swp : DeviceBoot) (s : Kernel) : Prop where
  mram : s.mram.maxsz = ram.maxSize.toNat
  activeMswp : s.activeMswp.maxsz = swp.maxSize.toNat

/-- Then `maxsz` is the size of the block. -/
theorem DeviceBoot.Obtainable.maxsz {d : DeviceBoot} (h : d.Obtainable) : d.device.maxsz = d.maxSize.toNat := by
  unfold DeviceBoot.Obtainable at h
  have hsame : (d.maxSize.setWidth 32 : BitVec 32).toNat = d.maxSize.toNat := by
    rw [BitVec.toNat_setWidth]
    omega
  rw [DeviceBoot.device, initMemphy_maxsz, BitVec.toInt_eq_toNat_of_lt (by rw [hsame]; omega), hsame]

section

variable {k : CharKind} {cfg : Config} {ram swp : DeviceBoot}

theorem onBlocks_of_reachable (hram : ram.Obtainable) (hswp : swp.Obtainable) {s : OsState cfg.numCpus Kernel}
    (hs : (osSystem cfg (kernelMachine k ram swp)).Reachable s) : OnBlocks ram swp s.mem :=
  ⟨(sizes_of_reachable hs).mram.trans hram.maxsz, (sizes_of_reachable hs).activeMswp.trans hswp.maxsz⟩

/-- From every state on, somebody works until everybody is through. -/
theorem completes_of_fits (hn : 0 < cfg.numCpus) (hprio : ∀ x < cfg.numProcesses, cfg.prio x < maxPrio)
    (hfew : FewPerLevel cfg) (hfits : FitsMemory k cfg ram swp) {s : BootState cfg.numCpus Kernel}
    (hs : (bootSystem cfg (kernelMachine k ram swp)).Reachable s) :
    MemorySafe k cfg ram swp s.os ∧ ∃ steps t, steps ≤ enoughSteps cfg 0 + 1 ∧
      (bootSystem cfg (kernelMachine k ram swp)).Counted BootState.Spurious s steps 0 t ∧
      ∀ x < cfg.numProcesses, t.os.executed x = cfg.code x ∧ x ∈ t.os.reaped := by
  have hsafe : ∀ u, (bootSystem cfg (kernelMachine k ram swp)).Reachable u → MemorySafe k cfg ram swp u.os :=
    fun u hu => memorySafe_of_fits hfits (osReachable_of_boot hu)
  refine ⟨hsafe s hs, ?_⟩
  have hlive := fun u (hu : (bootSystem cfg (kernelMachine k ram swp)).Reachable u) =>
    (never_stuck hprio hu).imp_left fun h => h.resolve_right (hsafe u hu).noCrash
  obtain ⟨steps, t, hle, hrun, hend⟩ := Lts.System.Counted.ends_or_works hlive hs (enoughSteps cfg 0 + 1)
  have hfin : t.os.finished cfg := by
    refine finished_of_counted hn hfew hs hrun (hend.symm.imp_right fun h => ?_)
    rw [h]
    exact Nat.lt_succ_self _
  exact ⟨steps, t, hle, hrun, fun x hx =>
    ⟨executed_of_finished (osReachable_of_boot (hrun.reachable hs)) hfin hx, hfin x hx⟩⟩

end

/-- **The simulator completes.** Take any configuration with a CPU, with priorities in range none of which is that of
    more than `MAX_QUEUE_SIZE` processes, with programs that fit into memory, and with devices that `malloc` can be
    asked for. Then in every state that the simulator reaches, with its own memory below the threads, whatever is about
    to run stays on the objects that it works on, down to the bytes of the two blocks, and the simulator can go from
    there, in a bounded number of steps, to a state in which every process has executed its whole program and been
    freed. -/
theorem simulator_completes (k : CharKind) (cfg : Config) (ram swp : DeviceBoot) (hn : 0 < cfg.numCpus)
    (hprio : ∀ x < cfg.numProcesses, cfg.prio x < maxPrio) (hfew : FewPerLevel cfg)
    (hfits : FitsMemory k cfg ram swp) (hram : ram.Obtainable) (hswp : swp.Obtainable)
    (s : BootState cfg.numCpus Kernel) (hs : (bootSystem cfg (kernelMachine k ram swp)).Reachable s) :
    MemorySafe k cfg ram swp s.os ∧ OnBlocks ram swp s.os.mem ∧ ∃ steps t, steps ≤ enoughSteps cfg 0 + 1 ∧
      (bootSystem cfg (kernelMachine k ram swp)).Counted BootState.Spurious s steps 0 t ∧
      ∀ x < cfg.numProcesses, t.os.executed x = cfg.code x ∧ x ∈ t.os.reaped := by
  obtain ⟨hsafe, hall⟩ := completes_of_fits hn hprio hfew hfits hs
  exact ⟨hsafe, onBlocks_of_reachable hram hswp (osReachable_of_boot hs), hall⟩

/-- A process that maps a page, in a RAM of 1 MiB. -/
theorem simulator_completes_map : ∃ t : BootState (oneCall ⟨.syscall, 17, 1, 0, 1⟩).numCpus Kernel,
    t.os.executed 0 = [⟨.syscall, 17, 1, 0, 1⟩] ∧ 0 ∈ t.os.reaped := by
  have hfew : FewPerLevel (oneCall ⟨.syscall, 17, 1, 0, 1⟩) := fun p =>
    (List.length_filter_le _ _).trans (by rw [List.length_range]; exact Nat.succ_pos 49)
  have hsize : (zeroDevice 1048576).Obtainable := by
    show (1048576 : BitVec 64).toNat < 2 ^ 31
    decide
  obtain ⟨-, -, steps, t, -, -, hall⟩ := simulator_completes .unsigned (oneCall ⟨.syscall, 17, 1, 0, 1⟩)
    (zeroDevice 1048576) (zeroDevice 1048576) Nat.one_pos (fun _ _ => Nat.succ_pos 139) hfew fitsMemory_mapper hsize
    hsize ⟨.start _ (.boot (zeroDevice 1048576) (zeroDevice 1048576)), .start _⟩ (.init ⟨⟨_, rfl, rfl⟩, rfl⟩)
  exact ⟨t, hall 0 Nat.one_pos⟩

/-! ## Instructions as they are written -/

/-- The instruction, with zeros for the arguments that are not written. -/
def SrcInst.inst (i : SrcInst) : InstT where
  opcode := i.opcode
  arg0 := i.args[0]?.getD 0
  arg1 := i.args[1]?.getD 0
  arg2 := i.args[2]?.getD 0
  arg3 := i.args[3]?.getD 0

theorem usedArgs_le_arity (op : InsOpcodeT) : usedArgs op ≤ op.arity := by
  cases op <;> simp [usedArgs, InsOpcodeT.arity]

/-- An argument that is written is the one that has been loaded. -/
theorem arg_of_carries {i : SrcInst} {ins : InstT} (h : Carries i ins) {j : ℕ} (hj : j < i.args.length) :
    ins.arg j = i.inst.arg j := by
  have hget := congrArg (fun l => l[j]?) h.2
  rw [List.getElem?_take, if_pos hj] at hget
  have hfour : j < 4 := hj.trans_le (by rw [i.arity]; cases i.opcode <;> simp [InsOpcodeT.arity])
  interval_cases j <;> simp [InstT.arg, SrcInst.inst, ← hget]

/-- **To `run`, what has been loaded is what is written.** -/
theorem sameRead_of_carries {i : SrcInst} {ins : InstT} (h : Carries i ins) : SameRead ins i.inst := by
  refine ⟨h.1, fun j hj => arg_of_carries h ?_⟩
  rw [h.1] at hj
  rw [i.arity]
  exact hj.trans_le (usedArgs_le_arity i.opcode)

theorem overruns_congr {a b : InstT} (h : SameRead a b) : Overruns a ↔ Overruns b := by
  obtain ⟨op, a0, a1, a2, a3⟩ := a
  obtain ⟨op', b0, b1, b2, b3⟩ := b
  obtain ⟨hop, hargs⟩ := h
  dsimp only at hop hargs
  subst hop
  cases op with
  | «calc» | syscall => exact Iff.rfl
  | free | read =>
    obtain rfl : a0 = b0 := hargs 0 (by simp [usedArgs])
    exact Iff.rfl
  | alloc | write =>
    obtain rfl : a1 = b1 := hargs 1 (by simp [usedArgs])
    exact Iff.rfl

theorem framesFor_congr {a b : InstT} (h : SameRead a b) : framesFor a = framesFor b := by
  obtain ⟨op, a0, a1, a2, a3⟩ := a
  obtain ⟨op', b0, b1, b2, b3⟩ := b
  obtain ⟨hop, hargs⟩ := h
  dsimp only at hop hargs
  subst hop
  cases op with
  | syscall =>
    obtain rfl : a0 = b0 := hargs 0 (by simp [usedArgs])
    obtain rfl : a1 = b1 := hargs 1 (by simp [usedArgs])
    obtain rfl : a3 = b3 := hargs 3 (by simp [usedArgs])
    rfl
  | _ => simp [framesFor]

theorem codeFrames_of_carries {is : List SrcInst} {code : List InstT} (h : List.Forall₂ Carries is code) :
    codeFrames code = (is.map fun i => framesFor i.inst).sum := by
  induction h with
  | nil => rfl
  | cons hone _ ih =>
    rw [codeFrames, List.map_cons, List.sum_cons, framesFor_congr (sameRead_of_carries hone), List.map_cons,
      List.sum_cons, ← ih]
    rfl

theorem staysInside_congr {a b : InstT} (h : SameRead a b) (tables : ℕ) (ramsz swpsz : ℤ) :
    StaysInside tables ramsz swpsz a ↔ StaysInside tables ramsz swpsz b := by
  obtain ⟨op, a0, a1, a2, a3⟩ := a
  obtain ⟨op', b0, b1, b2, b3⟩ := b
  obtain ⟨hop, hargs⟩ := h
  dsimp only at hop hargs
  subst hop
  cases op with
  | syscall =>
    obtain rfl : a0 = b0 := hargs 0 (by simp [usedArgs])
    obtain rfl : a1 = b1 := hargs 1 (by simp [usedArgs])
    obtain rfl : a2 = b2 := hargs 2 (by simp [usedArgs])
    obtain rfl : a3 = b3 := hargs 3 (by simp [usedArgs])
    exact Iff.rfl
  | _ => exact ⟨fun _ hc => (by cases hc), fun _ hc => (by cases hc)⟩

/-- What holds of the instructions that are written, as far as `run` reads them, holds of those that are loaded. -/
theorem forall_of_carries {P : InstT → Prop} (hP : ∀ {a b}, SameRead a b → (P a ↔ P b)) {is : List SrcInst}
    {code : List InstT} (h : List.Forall₂ Carries is code) (his : ∀ i ∈ is, P i.inst) : ∀ ins ∈ code, P ins := by
  induction h with
  | nil => exact List.forall_mem_nil _
  | cons hone _ ih =>
    rw [List.forall_mem_cons] at his ⊢
    exact ⟨(hP (sameRead_of_carries hone)).mpr his.1, ih his.2⟩

/-! ## Configurations as they are written -/

/-- The frames for the tables of a program. -/
def SrcProcess.frames (p : SrcProcess) : ℕ := (p.code.map fun i => framesFor i.inst).sum

/-- The priority that the scheduler works with. -/
def SrcProcess.level (p : SrcProcess) : ℕ := (p.prio.setWidth 32).toNat

/-- The frames of RAM. -/
def SrcConfig.ramFrames (src : SrcConfig) : ℕ := (src.memramsz.toInt.tdiv pagingPagesz).toNat

/-- The frames for all page tables: a PGD for each process, and what the programs want. -/
def SrcConfig.tableFrames (src : SrcConfig) : ℕ := src.procs.length + (src.procs.map SrcProcess.frames).sum

/-- The size of the first swap device. -/
def SrcConfig.swapsz (src : SrcConfig) : BitVec 32 := src.memswpsz[0]?.getD 0

/-- An input that is fit to run. -/
structure FitToRun (k : CharKind) (src : SrcConfig) : Prop where
  cpus : 0 < src.numCpus.toInt
  levels : ∀ p ∈ src.procs, p.level < maxPrio
  few : ∀ l : Fin maxPrio, (src.procs.map SrcProcess.level).count (l : ℕ) ≤ maxQueueSize
  registers : ∀ p ∈ src.procs, ∀ i ∈ p.code, ¬ Overruns i.inst
  calls : ∀ p ∈ src.procs, ∀ i ∈ p.code, StaysInside src.tableFrames src.memramsz.toInt src.swapsz.toInt i.inst
  two : 2 ≤ src.ramFrames
  room : (src.tableFrames : ℤ) * paging64Pagesz ≤ src.memramsz.toInt
  survives : ∀ f < src.tableFrames, Survives k (BitVec.ofNat 64 f)
  swaps : ∀ sz ∈ src.memswpsz, 0 ≤ sz.toInt

section

variable {k : CharKind} {src : SrcConfig} {f : ConfigFile}

/-- What the threads get for the processes is what is written, one after the other. -/
theorem map_range_of_written {α : Type} (h : AsWritten src f) (g : ℕ → α) (g' : SrcProcess → α)
    (heq : ∀ i p, src.procs[i]? = some p → g i = g' p) :
    (List.range f.config.numProcesses).map g = src.procs.map g' := by
  refine List.ext_getElem (by rw [List.length_map, List.length_range, List.length_map, h.numProcesses]) ?_
  intro i hi hi'
  rw [List.length_map] at hi'
  rw [List.getElem_map, List.getElem_range, List.getElem_map]
  exact heq i _ (List.getElem?_eq_getElem hi')

theorem written_of_lt (h : AsWritten src f) {i : ℕ} (hi : i < f.config.numProcesses) :
    ∃ p ∈ src.procs, src.procs[i]? = some p := by
  rw [h.numProcesses] at hi
  exact ⟨_, List.getElem_mem hi, List.getElem?_eq_getElem hi⟩

theorem few_of_written (h : AsWritten src f) (hrun : FitToRun k src) : FewPerLevel f.config := by
  intro l
  have hmap := map_range_of_written h f.config.prio SrcProcess.level h.prio
  have hcount := hrun.few l
  rw [← hmap, List.count, List.countP_map, List.countP_eq_length_filter] at hcount
  exact le_of_eq_of_le (congrArg List.length (List.filter_congr fun x _ => rfl)) hcount

theorem framesNeeded_of_written (h : AsWritten src f) : framesNeeded f.config = src.tableFrames := by
  have hmap := map_range_of_written h (fun x => codeFrames (f.config.code x)) SrcProcess.frames
    fun i p hp => codeFrames_of_carries (h.code i p hp)
  rw [framesNeeded, SrcConfig.tableFrames, ← hmap, h.numProcesses]
  rfl

/-- What the instructions of all programs satisfy as they are written. -/
theorem code_of_written (h : AsWritten src f) {P : InstT → Prop} (hP : ∀ {a b}, SameRead a b → (P a ↔ P b))
    (hsrc : ∀ p ∈ src.procs, ∀ i ∈ p.code, P i.inst) : ∀ x < f.config.numProcesses, ∀ ins ∈ f.config.code x, P ins := by
  intro x hx
  obtain ⟨p, hmem, hp⟩ := written_of_lt h hx
  exact forall_of_carries hP (h.code x p hp) (hsrc p hmem)

theorem swapsz_of_written (h : AsWritten src f) : f.memswpsz ⟨0, Nat.succ_pos 3⟩ = src.swapsz := by
  rw [SrcConfig.swapsz, ← h.memswpsz, List.getElem?_ofFn]
  rfl

theorem formatted_of_written (h : AsWritten src f) (hrun : FitToRun k src) (d : RawDevice) :
    Formatted (f.ram d).mp (f.ram d).link (f.ram d).maxSize := by
  have htwo := hrun.two
  unfold SrcConfig.ramFrames at htwo
  rw [← h.memramsz, ← f.numfpOf_memramsz d] at htwo
  exact .inl (by omega)

/-- **What fits as it is written fits as it is loaded.** -/
theorem fitsMemory_of_written (h : AsWritten src f) (hrun : FitToRun k src) (dram dswp : RawDevice) :
    FitsMemory k f.config (f.ram dram) (f.swp dswp) := by
  constructor
  · exact formatted_of_written h hrun dram
  · rw [framesNeeded_of_written h, f.maxsz_ram, h.memramsz]
    exact hrun.room
  · rw [framesNeeded_of_written h]
    exact hrun.survives
  · exact code_of_written h (fun hsame => not_congr (overruns_congr hsame)) hrun.registers
  · rw [framesNeeded_of_written h, f.maxsz_ram, f.maxsz_swp, h.memramsz, swapsz_of_written h]
    exact code_of_written h (fun hsame => staysInside_congr hsame _ _ _) hrun.calls

/-- A size that is written as a number that is not negative. -/
theorem toNat_signExtend_lt {v : BitVec 32} (h : 0 ≤ v.toInt) : (v.signExtend 64).toNat < 2 ^ 31 := by
  have hmsb : v.msb = false := by
    rw [BitVec.msb_eq_false_iff_two_mul_lt]
    rw [BitVec.toInt_eq_toNat_cond] at h
    split at h <;> omega
  have hlt := BitVec.toNat_lt_of_msb_false hmsb
  rw [BitVec.signExtend_eq_setWidth_of_msb_false hmsb, BitVec.toNat_setWidth]
  omega

theorem obtainable_ram (h : AsWritten src f) (hrun : FitToRun k src) (d : RawDevice) : (f.ram d).Obtainable := by
  have hroom := hrun.room
  rw [← h.memramsz] at hroom
  exact toNat_signExtend_lt ((by positivity : (0 : ℤ) ≤ src.tableFrames * paging64Pagesz).trans hroom)

theorem obtainable_swp (h : AsWritten src f) (hrun : FitToRun k src) (d : RawDevice) : (f.swp d).Obtainable := by
  refine toNat_signExtend_lt (hrun.swaps _ ?_)
  rw [← h.memswpsz]
  exact List.mem_ofFn.mpr ⟨_, rfl⟩

end

/-- **Every process executes what is written in its file.** Take any input that is fit to run, any text of it, and files
    that list its programs. Whatever `malloc` hands out and the stack holds, the input is read, and in every state that
    any interleaving of the simulator that `main` then starts reaches, whatever is about to run stays on the objects
    that it works on, and the simulator can go on, in a bounded number of steps, until every process has executed the
    instructions of its file, in their order, and been freed. -/
theorem runs_as_written (k : CharKind) (src : SrcConfig) (text : List Char) (hspells : Spells src text)
    (files : List Char → Option (List Char)) (hfiles : HoldPrograms files src) (hfit : FitToRun k src)
    (raw : RawArgs) (heap : ℕ → Heap) (stack : ℕ → Stack) (dram dswp : RawDevice) :
    ∃ f, bootConfig files raw heap stack text = .ok f ∧
      ∀ s, (bootSystem f.config (f.machine k dram dswp)).Reachable s →
        MemorySafe k f.config (f.ram dram) (f.swp dswp) s.os ∧ OnBlocks (f.ram dram) (f.swp dswp) s.os.mem ∧
        ∃ steps t, steps ≤ enoughSteps f.config 0 + 1 ∧
          (bootSystem f.config (f.machine k dram dswp)).Counted BootState.Spurious s steps 0 t ∧
          ∀ i p, src.procs[i]? = some p → List.Forall₂ Carries p.code (t.os.executed i) ∧ i ∈ t.os.reaped := by
  obtain ⟨f, hboot, hwritten⟩ := bootConfig_of_spells hspells hfiles raw heap stack
  refine ⟨f, hboot, fun s hs => ?_⟩
  have hcpus : 0 < f.config.numCpus := by
    have hpos := hfit.cpus
    rw [hwritten.numCpus]
    omega
  have hlevels : ∀ x < f.config.numProcesses, f.config.prio x < maxPrio := by
    intro x hx
    obtain ⟨p, hmem, hp⟩ := written_of_lt hwritten hx
    rw [hwritten.prio x p hp]
    exact hfit.levels p hmem
  have hblocks := onBlocks_of_reachable (obtainable_ram hwritten hfit dram) (obtainable_swp hwritten hfit dswp)
    (osReachable_of_boot hs)
  obtain ⟨hsafe, steps, t, hle, hcounted, hall⟩ := completes_of_fits hcpus hlevels (few_of_written hwritten hfit)
    (fitsMemory_of_written hwritten hfit dram dswp) hs
  refine ⟨hsafe, hblocks, steps, t, hle, hcounted, fun i p hp => ?_⟩
  obtain ⟨hi, -⟩ := List.getElem?_eq_some_iff.mp hp
  obtain ⟨hexecuted, hreaped⟩ := hall i (hwritten.numProcesses ▸ hi)
  rw [hexecuted]
  exact ⟨hwritten.code i p hp, hreaped⟩

/-- `calcConfig` is fit to run. -/
theorem calcConfig_fit : FitToRun .unsigned calcConfig where
  cpus := by decide
  levels := by simp [calcConfig, calcProcess, SrcProcess.level, maxPrio]
  few l := by
    refine (List.count_le_length).trans ?_
    simp [calcConfig, maxQueueSize]
  registers := by simp [calcConfig, calcProcess, Overruns, SrcInst.inst]
  calls := by simp [calcConfig, calcProcess, StaysInside, SrcInst.inst]
  two := by decide
  room := by decide
  survives f hf := by
    have hone : calcConfig.tableFrames = 1 := by decide
    rw [hone] at hf
    obtain rfl : f = 0 := by omega
    exact survives_zero .unsigned
  swaps := by simp [calcConfig]

theorem runs_as_written_calc : ∃ (f : ConfigFile) (t : BootState f.config.numCpus Kernel),
    List.Forall₂ Carries [⟨.calc, [], rfl⟩] (t.os.executed 0) ∧ 0 ∈ t.os.reaped := by
  obtain ⟨f, -, hrun⟩ := runs_as_written .unsigned calcConfig calcText calcText_spells calcFiles calcFiles_hold
    calcConfig_fit ⟨fun _ => 7, fun _ => [], fun _ => 9⟩ (fun _ => ⟨5, 6, fun _ => ⟨.free, 1, 2, 3, 4⟩⟩)
    (fun _ => ⟨[], []⟩) zeroMemory zeroMemory
  obtain ⟨-, -, steps, t, -, -, hall⟩ := hrun ⟨.start _ (.boot (f.ram zeroMemory) (f.swp zeroMemory)), .start _⟩
    (.init ⟨⟨_, rfl, rfl⟩, rfl⟩)
  exact ⟨f, t, hall 0 calcProcess rfl⟩

end LamiaAtrium
