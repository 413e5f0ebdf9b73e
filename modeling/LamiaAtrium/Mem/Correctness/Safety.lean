import LamiaAtrium.Mem.Correctness.PartOf
import LamiaAtrium.Mem.Correctness.Entries
import LamiaAtrium.Mem.Correctness.Crashes

/-!
# `Mem.Correctness.Safety` — when every access of the simulator is inside the storage

A device has sixteen times as many frames as `mm64.c` has room for, and most of them are outside. They are handed out in
order, so as long as the page tables of all programs fit into the storage, no frame outside is ever used.

* `FitsMemory`: the tables of the programs fit, and the programs name registers and bytes that exist.
* `Reserved`: the first `framesNeeded` frames are a device of their own, all tables are in it, and what is left of it is
  enough for what the programs still want. `Reserved.step`, `reserved_of_reachable`: so it is in every run.
* `memory_safe`: so no access of any run leaves the storage.
-/

namespace LamiaAtrium

open Radix

section

variable {k : CharKind} {m : MmStruct}

/-! ## Sizes -/

theorem maxsz_vmapPgdLoop (n : ℕ) : ∀ (mp : MemphyStruct) (pgn : AddrT),
    (vmapPgdLoop k m n mp pgn).2.maxsz = mp.maxsz := by
  induction n with
  | zero =>
    intro mp pgn
    rfl
  | succ n ih =>
    intro mp pgn
    have hone := @maxsz_pteSetFpn k mp m pgn 0
    rw [vmapPgdLoop]
    generalize pteSetFpn k m mp pgn 0 = q at hone ⊢
    obtain ⟨stat, mp₁⟩ := q
    dsimp only at hone ⊢
    split
    · exact hone
    · exact (ih mp₁ (pgn + 1)).trans hone

theorem maxsz_swapCpLoop (src : MemphyStruct) (srcfpn dstfpn : AddrT) (n : ℕ) : ∀ (i : ℕ) (data : BYTE)
    (dst : MemphyStruct), (swapCpLoop src srcfpn dstfpn i n data dst).maxsz = dst.maxsz := by
  induction n with
  | zero =>
    intro i data dst
    rfl
  | succ n ih =>
    intro i data dst
    rw [swapCpLoop, ih, maxsz_memphyWriteIgn]

/-- The sizes of the two devices stay. -/
structure KeepsSizes (s t : Kernel) : Prop where
  mram : t.mram.maxsz = s.mram.maxsz
  activeMswp : t.activeMswp.maxsz = s.activeMswp.maxsz

theorem KeepsBytes.keepsSizes {s t : Kernel} (h : KeepsBytes s t) : KeepsSizes s t := ⟨h.mram.maxsz, h.activeMswp.maxsz⟩

theorem KeepsSizes.trans {s t u : Kernel} (h : KeepsSizes s t) (h' : KeepsSizes t u) : KeepsSizes s u :=
  ⟨h'.mram.trans h.mram, h'.activeMswp.trans h.activeMswp⟩

theorem keepsSizes_of_sysMemmap {sched : SchedState ℕ} {s t : Kernel} {pid : BitVec 32} {regs regs' : ScRegs}
    {junk : BYTE} {stat : ℤ} (h : s.sysMemmap k sched pid regs junk = .ok (stat, regs', t)) : KeepsSizes s t := by
  unfold Kernel.sysMemmap at h
  split at h
  · cases h
    exact ⟨rfl, rfl⟩
  · split at h
    · -- map
      obtain ⟨mm, -, h⟩ := bind_eq_ok.mp h
      cases h
      exact ⟨maxsz_vmapPgdLoop .., rfl⟩
    · cases h
      exact ⟨rfl, rfl⟩
    · -- swap
      cases h
      exact ⟨rfl, maxsz_swapCpLoop ..⟩
    · cases h
      exact ⟨rfl, rfl⟩
    · cases h
      exact ⟨maxsz_memphyWriteIgn .., rfl⟩
    · cases h
      exact ⟨rfl, rfl⟩

theorem keepsSizes_of_run {sched : SchedState ℕ} {s t : Kernel} {x : ℕ} {ins : InstT} {junk : BYTE} {stat : ℤ}
    (h : s.run k sched x ins junk = .ok (stat, t)) : KeepsSizes s t := by
  by_cases hop : ins.opcode = .syscall
  · rcases sysMemmap_of_run h hop with hkeep | ⟨-, regs', hsys⟩
    · exact hkeep.keepsSizes
    · exact keepsSizes_of_sysMemmap hsys
  · exact (keepsBytes_of_run h hop).keepsSizes

theorem keepsSizes_of_loads {s t : Kernel} {x : ℕ} (h : Kernel.Loads x s t) : KeepsSizes s t := by
  cases h with
  | initMm hinit => exact ⟨maxsz_initMm hinit, rfl⟩

/-- **The devices are as large as they were.** -/
theorem sizes_of_reachable {cfg : Config} {ram swp : DeviceBoot} {s : OsState cfg.numCpus Kernel}
    (hs : (osSystem cfg (kernelMachine k ram swp)).Reachable s) : KeepsSizes (.boot ram swp) s.mem := by
  induction hs with
  | init hinit =>
    obtain ⟨m, rfl, rfl⟩ := hinit
    exact ⟨rfl, rfl⟩
  | step hs hst ih =>
    obtain ⟨now, hos⟩ := hst
    cases hos.effect with
    | quiet hmem _ _ =>
      rw [hmem]
      exact ih
    | load _ _ _ _ hload => exact ih.trans (keepsSizes_of_loads hload)
    | exec _ _ _ hexec =>
      obtain ⟨junk, stat, hrun⟩ := hexec
      exact ih.trans (keepsSizes_of_run hrun)

end

/-! ## Programs that fit -/

/-- The system calls that name bytes of the devices name those that there are, and a physical write none of the first
    `tables` frames. -/
def StaysInside (tables : ℕ) (ramsz swpsz : ℤ) (ins : InstT) : Prop :=
  ins.opcode = .syscall → ins.arg0.setWidth 32 = 17#32 →
    match (ins.arg1.setWidth 32 : BitVec 32) with
    | 3#32 => ((ins.arg2.toNat : ℤ) + 1) * pagingPagesz ≤ ramsz ∧ ((ins.arg3.toNat : ℤ) + 1) * pagingPagesz ≤ swpsz
    | 4#32 => (ins.arg2.toNat : ℤ) < ramsz
    | 5#32 => (tables : ℤ) * paging64Pagesz ≤ ins.arg2.toNat ∧ (ins.arg2.toNat : ℤ) < ramsz
    | _    => True

/-- **The tables of all programs fit into RAM**, at the addresses that `mm64.c` gives them, and no program reaches
    beyond its registers or the devices. -/
structure FitsMemory (k : CharKind) (cfg : Config) (ram swp : DeviceBoot) : Prop where
  formatted : Formatted ram.mp ram.link ram.maxSize
  room : (framesNeeded cfg : ℤ) * paging64Pagesz ≤ ram.device.maxsz
  survives : ∀ f < framesNeeded cfg, Survives k (BitVec.ofNat 64 f)
  registers : NoOverrun cfg
  calls : ∀ x < cfg.numProcesses, ∀ ins ∈ cfg.code x,
    StaysInside (framesNeeded cfg) ram.device.maxsz swp.device.maxsz ins

/-- **The first frames are a device of their own**, with all tables, and what is left of them is enough. -/
structure Reserved (k : CharKind) (cfg : Config) (root : ℕ → Option AddrT) (spare : List AddrT) (mp : MemphyStruct)
    (s : OsState cfg.numCpus Kernel) : Prop where
  part : PartOf spare mp s.mem.mram
  owned : Owned k root s.mem.mm mp
  inside : Inside k root mp
  entries : EntriesInside k mp
  size : mp.maxsz = framesNeeded cfg * paging64Pagesz
  left : framesNeeded cfg ≤ mp.freeFpList.length + s.loaded +
    ∑ x ∈ Finset.range cfg.numProcesses, codeFrames (s.executed x)

/-- `ins` is the next instruction of process `x`. -/
structure Pending (cfg : Config) {M : Type} (s : OsState cfg.numCpus M) (x : ℕ) (ins : InstT) : Prop where
  lt : x < cfg.numProcesses
  begins : s.executed x ++ [ins] <+: cfg.code x

section

variable {k : CharKind} {cfg : Config} {ram swp : DeviceBoot} {s t : OsState cfg.numCpus Kernel} {x : ℕ} {ins : InstT}
  {root : ℕ → Option AddrT} {spare : List AddrT} {mp : MemphyStruct}

/-- What a CPU is about to run. -/
theorem pending_of_run (hs : (osSystem cfg (kernelMachine k ram swp)).Reachable s) {c : Fin cfg.numCpus}
    (hpc : (s.cpu c).pc = .run) (hproc : (s.cpu c).proc = some x) (hins : (cfg.code x)[s.procPc x]? = some ins) :
    Pending cfg s x ins := by
  refine ⟨(added_of_run hs hpc hproc).trans_le (i_le_numProcesses hs), ?_⟩
  have hnext : (cfg.code x).take (s.procPc x + 1) = s.executed x ++ [ins] := by
    rw [List.take_add_one, hins, (orderly_of_reachable hs).executed x]
    rfl
  rw [← hnext]
  exact List.take_prefix _ _

/-- What a step has run. -/
theorem pending_of_exec (hs : (osSystem cfg (kernelMachine k ram swp)).Reachable s)
    (ht : (osSystem cfg (kernelMachine k ram swp)).Reachable t) {c : Fin cfg.numCpus} (hheld : (s.cpu c).held = some x)
    (hexecuted : t.executed = Function.update s.executed x (s.executed x ++ [ins])) : Pending cfg s x ins := by
  refine ⟨(held_live hs hheld).1.trans_le (i_le_numProcesses hs), ?_⟩
  have hafter := (orderly_of_reachable ht).executed x
  rw [hexecuted, Function.update_self] at hafter
  rw [hafter]
  exact List.take_prefix _ _

theorem Pending.mem (h : Pending cfg s x ins) : ins ∈ cfg.code x :=
  h.begins.subset (List.mem_append_right _ List.mem_cons_self)

/-- An instruction that is still to be executed has not been paid for yet. -/
theorem Pending.frames_le (h : Pending cfg s x ins) (hs : (osSystem cfg (kernelMachine k ram swp)).Reachable s) :
    ∑ y ∈ Finset.range cfg.numProcesses, codeFrames (s.executed y) + framesFor ins
      ≤ ∑ y ∈ Finset.range cfg.numProcesses, codeFrames (cfg.code y) := by
  rw [← sum_codeFrames_append s.executed h.lt]
  refine Finset.sum_le_sum fun y _ => ?_
  by_cases hy : y = x
  · subst hy
    rw [Function.update_self, List.prefix_iff_eq_take.mp h.begins]
    exact codeFrames_take_le _ _
  · rw [Function.update_of_ne hy, (orderly_of_reachable hs).executed y]
    exact codeFrames_take_le _ _

theorem loaded_le (hs : (osSystem cfg (kernelMachine k ram swp)).Reachable s) : s.loaded ≤ cfg.numProcesses := by
  unfold OsState.loaded
  split
  · rename_i hpc
    exact lt_of_loading hs (by rw [hpc]; rfl)
  · exact i_le_numProcesses hs

/-- **The tables that an instruction may want are left.** -/
theorem Reserved.room (h : Reserved k cfg root spare mp s) (hins : Pending cfg s x ins)
    (hs : (osSystem cfg (kernelMachine k ram swp)).Reachable s) : framesFor ins ≤ mp.freeFpList.length := by
  have hleft := h.left
  have hcode := hins.frames_le hs
  have hloaded := loaded_le hs
  unfold framesNeeded at hleft
  omega

/-- And so is the PGD of a process that is about to be loaded. -/
theorem Reserved.room_load (h : Reserved k cfg root spare mp s)
    (hs : (osSystem cfg (kernelMachine k ram swp)).Reachable s) (hpc : s.ld = .initMm) : mp.freeFpList ≠ [] := by
  have hleft := h.left
  have hcode := codeFrames_executed_le hs
  have hi : s.i < cfg.numProcesses := lt_of_loading hs (by rw [hpc]; rfl)
  have hloaded : s.loaded = s.i := by
    rw [OsState.loaded, hpc]
    rfl
  unfold framesNeeded at hleft
  rw [← List.length_pos_iff]
  omega

/-- The frames are cut smaller than they are used. -/
theorem FitsMemory.enough (h : FitsMemory k cfg ram swp) : framesNeeded cfg ≤ (numfpOf ram.maxSize).toNat := by
  have hroom := h.room
  have hsize := maxsz_lt ram.maxSize
  rw [DeviceBoot.device, initMemphy_maxsz] at hroom
  unfold paging64Pagesz at hroom
  omega

/-- No device has more bytes than it was asked for. -/
theorem maxsz_le_maxSize (maxSize : AddrT) : (maxSize.setWidth 32 : BitVec 32).toInt ≤ maxSize.toNat := by
  rw [BitVec.toInt_eq_toNat_cond, BitVec.toNat_setWidth]
  split <;> omega

/-- The bytes that the first frames are used for are zero at first. -/
theorem FitsMemory.blank (h : FitsMemory k cfg ram swp) {a : AddrT} (ha : a.toNat < framesNeeded cfg * 4096) :
    ram.device.storage a = 0 := by
  have hroom := h.room
  have hnarrow := maxsz_le_maxSize ram.maxSize
  rw [DeviceBoot.device, initMemphy_maxsz] at hroom
  unfold paging64Pagesz at hroom
  rw [DeviceBoot.device, initMemphy_storage, if_pos]
  rw [BitVec.lt_def]
  omega

/-! ## The first frames -/

/-- A device of the first `n` frames, with room for them. -/
def firstFrames (n : ℕ) (mp : MemphyStruct) : MemphyStruct :=
  { mp with maxsz := n * paging64Pagesz, freeFpList := mp.freeFpList.take n }

theorem FitsMemory.freeFpList_eq (h : FitsMemory k cfg ram swp) :
    ram.device.freeFpList = (List.range (numfpOf ram.maxSize).toNat).map (BitVec.ofNat 64) :=
  freeFpList_of_formatted _ _ h.formatted

theorem FitsMemory.mem_first (h : FitsMemory k cfg ram swp) {f : AddrT}
    (hf : f ∈ (firstFrames (framesNeeded cfg) ram.device).freeFpList) : f.toNat < framesNeeded cfg ∧ Survives k f := by
  rw [firstFrames, h.freeFpList_eq, ← List.map_take, List.take_range, List.mem_map] at hf
  obtain ⟨i, hi, rfl⟩ := hf
  have hlt : i < framesNeeded cfg := (List.mem_range.mp hi).trans_le (min_le_left _ _)
  refine ⟨?_, h.survives i hlt⟩
  rw [BitVec.toNat_ofNat]
  exact (Nat.mod_le _ _).trans_lt hlt

theorem FitsMemory.owned_first (h : FitsMemory k cfg ram swp) :
    Owned k (fun _ => none) (fun _ => none) (firstFrames (framesNeeded cfg) ram.device) := by
  obtain ⟨hdevice, -⟩ := rooted_initMemphy (k := k) ram.block (show (1 : ℤ) ≠ 0 by decide) h.formatted
  have hnodup : (firstFrames (framesNeeded cfg) ram.device).freeFpList.Nodup :=
    hdevice.forest.nodup.sublist (List.take_sublist _ _)
  have hrdm : (firstFrames (framesNeeded cfg) ram.device).rdmflg = true := hdevice.rdm
  have hrooted := rooted_start (k := k) hrdm (fun f hf => (h.mem_first hf).2.addressable) hnodup
  refine hrooted.owned_of_blank (fun f hf => (h.mem_first hf).2) fun f hf a ha => h.blank ?_
  have hlt := (h.mem_first hf).1
  omega

theorem FitsMemory.inside_first (h : FitsMemory k cfg ram swp) :
    Inside k (fun _ => none) (firstFrames (framesNeeded cfg) ram.device) := by
  refine ⟨fun f hf => ?_, fun hr => absurd hr (by simp)⟩
  have hlt := (h.mem_first hf).1
  unfold FrameInside firstFrames paging64Pagesz
  dsimp only
  omega

theorem FitsMemory.entries_first (h : FitsMemory k cfg ram swp) :
    EntriesInside k (firstFrames (framesNeeded cfg) ram.device) := by
  intro f i hf hin
  have hlt : (f.toNat : ℤ) * paging64Pagesz + paging64Pagesz ≤ framesNeeded cfg * paging64Pagesz := hin
  have hi := i.isLt
  rw [get32bitEntry_of_blank h.owned_first.rdm fun c hc => h.blank ?_]
  · exact hin.zero
  · unfold paging64Pagesz at hlt
    rw [toNat_entryAddr_add hf i hc]
    omega

/-! ## Every run -/

theorem reserved_start (h : FitsMemory k cfg ram swp) : ∃ root spare mp,
    Reserved k cfg root spare mp (.start cfg.numCpus (.boot ram swp)) := by
  have henough := h.enough
  have hlength : (firstFrames (framesNeeded cfg) ram.device).freeFpList.length = framesNeeded cfg := by
    rw [firstFrames, h.freeFpList_eq]
    simp [henough]
  refine ⟨_, ram.device.freeFpList.drop (framesNeeded cfg), firstFrames (framesNeeded cfg) ram.device,
    ⟨rfl, rfl, ?_⟩, h.owned_first, h.inside_first, h.entries_first, rfl, ?_⟩
  · exact (List.take_append_drop _ _).symm
  · rw [hlength]
    omega

/-- **An instruction** keeps the tables where they are. -/
theorem Reserved.exec (hfits : FitsMemory k cfg ram swp) (h : Reserved k cfg root spare mp s)
    (hs : (osSystem cfg (kernelMachine k ram swp)).Reachable s) (hins : Pending cfg s x ins)
    (hloaded : s.loaded ≤ t.loaded)
    (hexecuted : t.executed = Function.update s.executed x (s.executed x ++ [ins])) {junk : BYTE} {stat : ℤ}
    (hrun : s.mem.run k s.sched x ins junk = .ok (stat, t.mem)) : ∃ mp', Reserved k cfg root spare mp' t := by
  have hroom := h.room hins hs
  have hleft := h.left
  have htotal : ∑ y ∈ Finset.range cfg.numProcesses, codeFrames (t.executed y)
      = ∑ y ∈ Finset.range cfg.numProcesses, codeFrames (s.executed y) + framesFor ins := by
    rw [hexecuted, sum_codeFrames_append s.executed hins.lt]
  rcases run_cases hrun with hkeep | ⟨hop, hnr, caller, -, ⟨hmap, m, hm, hmem⟩ | ⟨hwrite, hmem⟩⟩
  · refine ⟨mp, ?_, h.owned.of_pgd hkeep.pgd, h.inside, h.entries, h.size, by omega⟩
    rw [hkeep.mram]
    exact h.part
  · -- map
    have hframes : framesFor ins = 4 * (ins.arg3.setWidth 32 : BitVec 32).toInt.toNat := if_pos ⟨hop, hnr, hmap⟩
    rw [hframes] at hroom htotal
    obtain ⟨hpart, -⟩ := h.part.vmapPgdLoop (k := k) (m := m) _ hroom
    obtain ⟨howned, hinside, hentries⟩ :=
      h.owned.vmapPgdLoop_inside hm (ins.arg3.setWidth 32 : BitVec 32).toInt.toNat h.inside h.entries
    have htakes := vmapPgdLoop_takes (k := k) m (ins.arg3.setWidth 32 : BitVec 32).toInt.toNat mp (ins.arg2 >>> 12)
    refine ⟨(vmapPgdLoop k m (ins.arg3.setWidth 32 : BitVec 32).toInt.toNat mp (ins.arg2 >>> 12)).2, ?_, ?_, hinside,
      hentries, (maxsz_vmapPgdLoop ..).trans h.size, by omega⟩
    · rw [hmem]
      exact hpart
    · rw [hmem]
      exact howned
  · -- a physical write
    have hbeyond : mp.maxsz ≤ ins.arg2.toNat := by
      have hstays := hfits.calls x hins.lt ins hins.mem hop hnr
      rw [hwrite] at hstays
      rw [h.size]
      exact hstays.1
    obtain ⟨howned, hinside⟩ := h.owned.ioWrite_beyond h.inside hbeyond (ins.arg3.setWidth 8)
    refine ⟨memphyWriteIgn mp ins.arg2 (ins.arg3.setWidth 8), ?_, ?_, hinside,
      h.entries.ioWrite_beyond h.owned.rdm hbeyond _, (maxsz_memphyWriteIgn ..).trans h.size, ?_⟩
    · rw [hmem]
      exact h.part.write _ _
    · rw [hmem]
      exact howned
    · rw [freeFpList_memphyWriteIgn]
      omega

/-- **A load** takes the PGD from the first frames. -/
theorem Reserved.load (h : Reserved k cfg root spare mp s) (hframe : mp.freeFpList ≠ [])
    (hloaded : t.loaded = s.loaded + 1) (hexecuted : t.executed = s.executed) (hload : Kernel.Loads x s.mem t.mem) :
    ∃ root' mp', Reserved k cfg root' spare mp' t := by
  have hleft := h.left
  generalize hmem : t.mem = u at hload
  cases hload with
  | @initMm stat m₀ m mram link hinit =>
    obtain ⟨mp₁, hinit', hpart⟩ := h.part.initMm hframe hinit
    obtain ⟨r, howned, hinside, hsize⟩ := h.owned.initMm_inside h.inside x hinit'
    obtain ⟨_, -, hlist, -⟩ := h.owned.after_initMm x hinit'
    rw [hlist, List.length_cons] at hleft
    refine ⟨_, mp₁, ?_, ?_, hinside, h.entries.initMm h.owned hinit', hsize.trans h.size, ?_⟩
    · rw [hmem]
      exact hpart
    · rw [hmem]
      exact howned
    · rw [hexecuted]
      omega

theorem Reserved.step (hfits : FitsMemory k cfg ram swp) (h : Reserved k cfg root spare mp s)
    (hs : (osSystem cfg (kernelMachine k ram swp)).Reachable s) {now : ℕ} {e : OsEvent cfg.numCpus}
    (hst : OsStep cfg (kernelMachine k ram swp) now s e t) : ∃ root' mp', Reserved k cfg root' spare mp' t := by
  have ht : (osSystem cfg (kernelMachine k ram swp)).Reachable t := hs.step ⟨now, hst⟩
  have hmono := loaded_mono hst
  have hleft := h.left
  cases hst.effect with
  | quiet hmem hexecuted _ =>
    refine ⟨root, mp, ?_, ?_, h.inside, h.entries, h.size, ?_⟩
    · rw [hmem]
      exact h.part
    · rw [hmem]
      exact h.owned
    · rw [hexecuted]
      omega
  | load hpc hpc' hexecuted hi hload =>
    have hbefore : s.loaded = s.i := by rw [OsState.loaded, hpc]; rfl
    have hafter : t.loaded = s.i + 1 := by rw [OsState.loaded, hpc', hi]; rfl
    exact h.load (h.room_load hs hpc) (by omega) hexecuted hload
  | exec hheld _ hexecuted hexec =>
    obtain ⟨junk, stat, hrun⟩ := hexec
    obtain ⟨mp', h'⟩ := h.exec hfits hs (pending_of_exec hs ht hheld hexecuted) hmono hexecuted hrun
    exact ⟨root, mp', h'⟩

/-- **In every run the tables are in the first frames.** -/
theorem reserved_of_reachable (hfits : FitsMemory k cfg ram swp)
    (hs : (osSystem cfg (kernelMachine k ram swp)).Reachable s) : ∃ root spare mp, Reserved k cfg root spare mp s := by
  induction hs with
  | init hinit =>
    obtain ⟨m, rfl, rfl⟩ := hinit
    exact reserved_start hfits
  | step hs hst ih =>
    obtain ⟨now, hos⟩ := hst
    obtain ⟨root, spare, mp, h⟩ := ih
    obtain ⟨root', mp', h'⟩ := h.step hfits hs hos
    exact ⟨root', spare, mp', h'⟩

end

/-! ## Accesses -/

theorem Within.mono {mp mp' : MemphyStruct} {l : List AddrT} (h : Within mp l) (hsz : mp.maxsz ≤ mp'.maxsz) :
    Within mp' l := fun a ha => (h a ha).trans_le hsz

/-- The frames that swapping names. -/
theorem copyInside_of_room {mp : MemphyStruct} {fpn : AddrT} (h : ((fpn.toNat : ℤ) + 1) * pagingPagesz ≤ mp.maxsz)
    (hsz : mp.maxsz < 2 ^ 31) : CopyInside mp fpn := by
  intro i hi
  unfold pagingPagesz at h hi ⊢
  rw [BitVec.toNat_add, BitVec.toNat_mul, BitVec.toNat_ofNat, BitVec.toNat_ofNat]
  omega

/-- A size is an `int`. -/
theorem maxsz_device_lt (d : DeviceBoot) : d.device.maxsz < 2 ^ 31 := by
  rw [DeviceBoot.device, initMemphy_maxsz]
  exact BitVec.toInt_lt

section

variable {k : CharKind} {cfg : Config} {ram swp : DeviceBoot} {s : OsState cfg.numCpus Kernel} {x : ℕ} {ins : InstT}
  {root : ℕ → Option AddrT} {spare : List AddrT} {mp : MemphyStruct}

/-- The first frames are storage. -/
theorem Reserved.maxsz_le (h : Reserved k cfg root spare mp s) (hfits : FitsMemory k cfg ram swp)
    (hs : (osSystem cfg (kernelMachine k ram swp)).Reachable s) : mp.maxsz ≤ s.mem.mram.maxsz := by
  rw [h.size, (sizes_of_reachable hs).mram]
  exact hfits.room

/-- READ and WRITE look at page tables only. -/
theorem Reserved.regionAccess_within (h : Reserved k cfg root spare mp s) (hsz : mp.maxsz ≤ s.mem.mram.maxsz)
    (rgid : BitVec 32) (offset : AddrT) : Within s.mem.mram (regionAccess k s.mem x rgid offset) := by
  unfold regionAccess
  split
  · rename_i m i hm _
    split
    · rw [h.part.pteGetEntryAccess]
      exact (h.owned.pteGetEntryAccess_within h.inside hm _).mono hsz
    · exact within_nil _
  · exact within_nil _

/-- `print_pgtbl` looks at the first frames only. -/
theorem Reserved.dumpAccess_within (h : Reserved k cfg root spare mp s) (hsz : mp.maxsz ≤ s.mem.mram.maxsz) :
    Within s.mem.mram (dumpAccess k s.mem x) := by
  unfold dumpAccess
  split
  · exact within_nil _
  · rename_i m hm
    rw [h.part.printPgtblAccess]
    exact (h.owned.printPgtblAccess_within h.inside h.entries hm 0).mono hsz

/-- **A system call of a program that fits** stays on the devices. -/
theorem Reserved.callInside (h : Reserved k cfg root spare mp s) (hfits : FitsMemory k cfg ram swp)
    (hs : (osSystem cfg (kernelMachine k ram swp)).Reachable s) (hins : Pending cfg s x ins)
    (hop : ins.opcode = .syscall) (hnr : ins.arg0.setWidth 32 = 17#32) (caller : ℕ) :
    CallInside k s.mem caller ⟨ins.arg1, ins.arg2, ins.arg3⟩ := by
  have hstays := hfits.calls x hins.lt ins hins.mem hop hnr
  have hroom := h.room hins hs
  have hram : s.mem.mram.maxsz = ram.device.maxsz := (sizes_of_reachable hs).mram
  have hswp : s.mem.activeMswp.maxsz = swp.device.maxsz := (sizes_of_reachable hs).activeMswp
  unfold CallInside
  split
  · -- map
    rename_i hmap
    have hframes : framesFor ins = 4 * (ins.arg3.setWidth 32 : BitVec 32).toInt.toNat := if_pos ⟨hop, hnr, hmap⟩
    rw [hframes] at hroom
    intro m hm
    obtain ⟨-, hlist⟩ := @PartOf.vmapPgdLoop k spare m _ _ _ (ins.arg2 >>> 12) h.part hroom
    rw [← within_vmapPgdAccess, hlist]
    exact ((within_vmapPgdAccess _).mpr (h.owned.pagesInside hm _ h.inside)).mono (h.maxsz_le hfits hs)
  · -- swap
    rename_i hswap
    replace hswap : (ins.arg1.setWidth 32 : BitVec 32) = 3#32 := hswap
    rw [hswap, ← hram, ← hswp] at hstays
    refine ⟨copyInside_of_room hstays.1 ?_, copyInside_of_room hstays.2 ?_⟩
    · rw [hram]
      exact maxsz_device_lt ram
    · rw [hswp]
      exact maxsz_device_lt swp
  · -- physical read
    rename_i hread
    replace hread : (ins.arg1.setWidth 32 : BitVec 32) = 4#32 := hread
    rw [hread, ← hram] at hstays
    exact hstays
  · -- physical write
    rename_i hwrite
    replace hwrite : (ins.arg1.setWidth 32 : BitVec 32) = 5#32 := hwrite
    rw [hwrite, ← hram] at hstays
    exact hstays.2
  · trivial

/-- **An instruction of a program that fits** stays on the devices. -/
theorem Reserved.runAccess_within (h : Reserved k cfg root spare mp s) (hfits : FitsMemory k cfg ram swp)
    (hs : (osSystem cfg (kernelMachine k ram swp)).Reachable s) (hins : Pending cfg s x ins) :
    Within s.mem.mram (runAccess k s.sched s.mem x ins).mram ∧
      Within s.mem.activeMswp (runAccess k s.sched s.mem x ins).activeMswp := by
  have hsz := h.maxsz_le hfits hs
  have hdump := h.dumpAccess_within (x := x) hsz
  unfold runAccess
  split
  · exact ⟨within_nil _, within_nil _⟩
  · exact ⟨hdump, within_nil _⟩
  · exact ⟨hdump, within_nil _⟩
  · exact ⟨within_append.mpr ⟨h.regionAccess_within hsz _ _, hdump⟩, within_nil _⟩
  · exact ⟨within_append.mpr ⟨h.regionAccess_within hsz _ _, hdump⟩, within_nil _⟩
  · rename_i hop
    split
    · rename_i hnr
      cases hfind : Kernel.findPcbByPid s.sched (pidOf x) with
      | none =>
        unfold sysMemmapAccess
        rw [hfind]
        exact ⟨within_nil _, within_nil _⟩
      | some caller => exact sysMemmapAccess_within hfind (h.callInside hfits hs hins hop hnr caller)
    · exact ⟨within_nil _, within_nil _⟩

/-- **`init_mm`**, when a process is about to be loaded. -/
theorem Reserved.initMmAccess_within (h : Reserved k cfg root spare mp s) (hfits : FitsMemory k cfg ram swp)
    (hs : (osSystem cfg (kernelMachine k ram swp)).Reachable s) (hpc : s.ld = .initMm) :
    Within s.mem.mram (initMmAccess s.mem.mram) := by
  rw [h.part.initMmAccess (h.room_load hs hpc)]
  exact (LamiaAtrium.initMmAccess_within fun f hf => ⟨h.inside.free f hf, h.owned.free f hf⟩).mono
    (h.maxsz_le hfits hs)

end

/-- Whatever is about to run stays on what it works on: nobody dereferences `NULL` or leaves `symrgtbl`, and neither a
    load nor an instruction leaves the storage of a device. -/
structure MemorySafe (k : CharKind) (cfg : Config) (ram swp : DeviceBoot) (s : OsState cfg.numCpus Kernel) : Prop where
  noCrash : ¬ Crashes cfg (kernelMachine k ram swp) s
  load : s.ld = .initMm → Within s.mem.mram (initMmAccess s.mem.mram)
  exec : ∀ c x ins, (s.cpu c).pc = .run → (s.cpu c).proc = some x → (cfg.code x)[s.procPc x]? = some ins →
    Within s.mem.mram (runAccess k s.sched s.mem x ins).mram ∧
      Within s.mem.activeMswp (runAccess k s.sched s.mem x ins).activeMswp

/-- **Programs that fit** stay on what they work on. -/
theorem memorySafe_of_fits {k : CharKind} {cfg : Config} {ram swp : DeviceBoot} (hfits : FitsMemory k cfg ram swp)
    {s : OsState cfg.numCpus Kernel} (hs : (osSystem cfg (kernelMachine k ram swp)).Reachable s) :
    MemorySafe k cfg ram swp s := by
  obtain ⟨root, spare, mp, h⟩ := reserved_of_reachable hfits hs
  constructor
  · exact not_crashes_of_noOverrun (finds_of_enough hfits.formatted hfits.enough hs) hfits.registers
  · exact h.initMmAccess_within hfits hs
  · intro c x ins hpc hproc hins
    exact h.runAccess_within hfits hs (pending_of_run hs hpc hproc hins)

/-- **Programs that fit are memory safe.** When the page tables that all programs may want fit into RAM at the addresses
    that `mm64.c` gives to frames, and the programs name registers and bytes of the devices that exist, then in every
    state that any interleaving of the threads reaches, nobody is about to dereference `NULL` or to leave `symrgtbl`,
    and whatever is about to run, a load or an instruction, touches bytes of the storage of RAM and swap only. -/
theorem memory_safe (k : CharKind) (cfg : Config) (ram swp : DeviceBoot) (hfits : FitsMemory k cfg ram swp)
    (s : OsState cfg.numCpus Kernel) (hs : (osSystem cfg (kernelMachine k ram swp)).Reachable s) :
    ¬ Crashes cfg (kernelMachine k ram swp) s ∧
      (s.ld = .initMm → Within s.mem.mram (initMmAccess s.mem.mram)) ∧
      ∀ c x ins, (s.cpu c).pc = .run → (s.cpu c).proc = some x → (cfg.code x)[s.procPc x]? = some ins →
        Within s.mem.mram (runAccess k s.sched s.mem x ins).mram ∧
          Within s.mem.activeMswp (runAccess k s.sched s.mem x ins).activeMswp := by
  have h := memorySafe_of_fits hfits hs
  exact ⟨h.noCrash, h.load, h.exec⟩

/-- A process that maps a page fits into a RAM of 1 MiB. -/
theorem fitsMemory_mapper : FitsMemory .unsigned (oneCall ⟨.syscall, 17, 1, 0, 1⟩) (zeroDevice 1048576)
    (zeroDevice 1048576) := by
  have hneed : framesNeeded (oneCall ⟨.syscall, 17, 1, 0, 1⟩) = 5 := by
    simp [framesNeeded, oneCall, codeFrames, framesFor]
  refine ⟨formatted_zeroDevice (by decide), ?_, fun f hf => ⟨?_, fun hk => by cases hk⟩, ?_, ?_⟩
  · rw [hneed, DeviceBoot.device, initMemphy_maxsz]
    simp [zeroDevice, paging64Pagesz]
  · rw [hneed] at hf
    rw [BitVec.toNat_ofNat]
    omega
  · intro x _ ins hins
    obtain rfl := List.mem_singleton.mp hins
    exact not_false
  · intro x _ ins hins
    obtain rfl := List.mem_singleton.mp hins
    exact fun _ _ => trivial

/-- It is about to map its page. -/
theorem memory_safe_map : ∃ s : OsState (oneCall ⟨.syscall, 17, 1, 0, 1⟩).numCpus Kernel,
    s.mem.mm 0 ≠ none ∧
      ¬ Crashes (oneCall ⟨.syscall, 17, 1, 0, 1⟩)
        (kernelMachine .unsigned (zeroDevice 1048576) (zeroDevice 1048576)) s ∧
      Within s.mem.mram (runAccess .unsigned s.sched s.mem 0 ⟨.syscall, 17, 1, 0, 1⟩).mram := by
  have hsize : 2 ≤ numfpOf 1048576 ∧ numfpOf 1048576 ≤ 8192 := by decide
  obtain ⟨-, m, mram, hinit, -⟩ := first_process hsize.1 hsize.2
  obtain ⟨s, hs, hmem, hcpu, hpc, -⟩ := oneCall_dispatched ⟨.syscall, 17, 1, 0, 1⟩ hinit
  obtain ⟨hcrash, -, haccess⟩ := memory_safe .unsigned (oneCall ⟨.syscall, 17, 1, 0, 1⟩) (zeroDevice 1048576)
    (zeroDevice 1048576) fitsMemory_mapper s hs
  refine ⟨s, ?_, hcrash, (haccess (callCpu _) 0 ⟨.syscall, 17, 1, 0, 1⟩ ?_ ?_ ?_).1⟩
  · rw [hmem, Kernel.mm_setMm_self]
    exact Option.some_ne_none m
  · rw [hcpu]
  · rw [hcpu]
  · rw [hpc]
    rfl

end LamiaAtrium
