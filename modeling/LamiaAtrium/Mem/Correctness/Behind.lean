import LamiaAtrium.Mem.Correctness.Safety
import LamiaAtrium.Os.Correctness.OverMemory

/-!
# `Mem.Correctness.Behind` — the memory behind the storage

`malloc` gives a device its `maxsz` bytes, and what lies behind them belongs to somebody else.

* `unchanged_of_reachable`: in every run of programs that fit, the bytes behind the storage are the ones before.
* `nothing_behind_matters`: and the same run exists whatever they are.
-/

namespace LamiaAtrium

/-! ## Behind the storage -/

/-- A byte of the storage of a device. -/
def DeviceBoot.Stored (d : DeviceBoot) (a : AddrT) : Prop := (a.toNat : ℤ) < d.device.maxsz

/-- What lies behind the storage is no part of a device. -/
theorem DeviceBoot.agreeOn (d : DeviceBoot) (block : AddrT → BYTE) :
    AgreeOn d.Stored d.device { d with block := block }.device := by
  refine ⟨?_, ?_, fun a ha => ?_⟩
  · rw [DeviceBoot.device, DeviceBoot.device, initMemphy_rdmflg, initMemphy_rdmflg]
  · rw [DeviceBoot.device, DeviceBoot.device, initMemphy_freeFpList, initMemphy_freeFpList]
  · unfold DeviceBoot.Stored at ha
    rw [DeviceBoot.device, initMemphy_maxsz] at ha
    have hlt : a < d.maxSize := by
      have hnarrow := maxsz_le_maxSize d.maxSize
      rw [BitVec.lt_def]
      omega
    rw [DeviceBoot.device, DeviceBoot.device, initMemphy_storage, initMemphy_storage, if_pos hlt, if_pos hlt]

section

variable {k : CharKind} {cfg : Config} {ram swp : DeviceBoot} {s : OsState cfg.numCpus Kernel}

/-- The bytes that are not storage are the ones before. -/
structure Unchanged (ram swp : DeviceBoot) (s : Kernel) : Prop where
  mram : ∀ a, ¬ ram.Stored a → s.mram.storage a = ram.device.storage a
  activeMswp : ∀ a, ¬ swp.Stored a → s.activeMswp.storage a = swp.device.storage a

/-- An instruction that is about to run touches storage only. -/
theorem stored_of_pending (hfits : FitsMemory k cfg ram swp)
    (hs : (osSystem cfg (kernelMachine k ram swp)).Reachable s) {x : ℕ} {ins : InstT} (hins : Pending cfg s x ins) :
    (∀ a ∈ (runAccess k s.sched s.mem x ins).mram, ram.Stored a) ∧
      ∀ a ∈ (runAccess k s.sched s.mem x ins).activeMswp, swp.Stored a := by
  obtain ⟨root, spare, mp, h⟩ := reserved_of_reachable hfits hs
  obtain ⟨hram, hswp⟩ := h.runAccess_within hfits hs hins
  have hsizes := sizes_of_reachable hs
  exact ⟨hram.of_maxsz hsizes.mram.symm, hswp.of_maxsz hsizes.activeMswp.symm⟩

/-- **The bytes behind the storage are never written.** -/
theorem unchanged_of_reachable (hfits : FitsMemory k cfg ram swp)
    (hs : (osSystem cfg (kernelMachine k ram swp)).Reachable s) : Unchanged ram swp s.mem := by
  induction hs with
  | init hinit =>
    obtain ⟨m, rfl, rfl⟩ := hinit
    exact ⟨fun _ _ => rfl, fun _ _ => rfl⟩
  | @step s e t hs hst ih =>
    have ht := hs.step hst
    obtain ⟨now, hos⟩ := hst
    cases hos.effect with
    | quiet hmem _ _ =>
      rw [hmem]
      exact ih
    | load hpc _ _ _ hload =>
      obtain ⟨root, spare, mp, h⟩ := reserved_of_reachable hfits hs
      obtain ⟨hram, hswp⟩ := loads_frame (h.part.rdmflg.trans h.owned.rdm) hload
      have hwithin := (h.initMmAccess_within hfits hs hpc).of_maxsz (sizes_of_reachable hs).mram.symm
      refine ⟨fun a ha => ?_, fun a ha => ?_⟩
      · rw [hram a fun hmem => ha (hwithin a hmem)]
        exact ih.mram a ha
      · rw [hswp]
        exact ih.activeMswp a ha
    | exec hheld _ hexecuted hexec =>
      obtain ⟨junk, stat, hrun⟩ := hexec
      obtain ⟨hram, hswp⟩ := run_frame hrun
      obtain ⟨hram', hswp'⟩ := stored_of_pending hfits hs (pending_of_exec hs ht hheld hexecuted)
      refine ⟨fun a ha => ?_, fun a ha => ?_⟩
      · rw [hram a fun hmem => ha (hram' a hmem)]
        exact ih.mram a ha
      · rw [hswp a fun hmem => ha (hswp' a hmem)]
        exact ih.activeMswp a ha

/-- The steps of the kernel that are taken over one memory are taken over the other. -/
theorem follows_of_agrees (hfits : FitsMemory k cfg ram swp)
    (hs : (osSystem cfg (kernelMachine k ram swp)).Reachable s) (ram' swp' : DeviceBoot) {m : Kernel}
    (h : Agrees ram.Stored swp.Stored s.mem m) :
    Follows cfg (kernelMachine k ram swp) (kernelMachine k ram' swp') (Agrees ram.Stored swp.Stored) s m := by
  refine ⟨fun _ u hload => loads_agrees h hload, ?_⟩
  rintro c x ins u hpc hproc hins ⟨junk, stat, hrun⟩
  obtain ⟨hram, -⟩ := stored_of_pending hfits hs (pending_of_run hs hpc hproc hins)
  obtain ⟨u', hrun', hagree⟩ := run_agrees h hram hrun
  exact ⟨u', ⟨junk, stat, hrun'⟩, hagree⟩

end

/-- **What lies behind the storage is neither written nor read.** When programs fit, every byte that is no storage of
    RAM or of the swap device holds in every reachable state what it held when the devices were set up, and whatever it
    were instead, the simulator could reach the same state: the same threads, queues and address spaces, the same free
    lists, and the same bytes of storage. -/
theorem nothing_behind_matters (k : CharKind) (cfg : Config) (ram swp : DeviceBoot) (hfits : FitsMemory k cfg ram swp)
    (block block' : AddrT → BYTE) (s : OsState cfg.numCpus Kernel)
    (hs : (osSystem cfg (kernelMachine k ram swp)).Reachable s) :
    Unchanged ram swp s.mem ∧
      ∃ m, (osSystem cfg (kernelMachine k { ram with block := block } { swp with block := block' })).Reachable
        (s.withMem m) ∧ Agrees ram.Stored swp.Stored s.mem m := by
  refine ⟨unchanged_of_reachable hfits hs, reachable_withMem ?_ ?_ hs⟩
  · rintro m rfl
    exact ⟨_, rfl, rfl, ram.agreeOn block, swp.agreeOn block'⟩
  · exact fun s m hs h => follows_of_agrees hfits hs _ _ h

/-- A RAM of 1 MiB between memory that is zero, and between memory that is not. -/
theorem nothing_behind_matters_map : ∃ (s : OsState (oneCall ⟨.syscall, 17, 1, 0, 1⟩).numCpus Kernel) (m : Kernel),
    s.mem.mm 0 ≠ none ∧ m.mm = s.mem.mm ∧
      (osSystem (oneCall ⟨.syscall, 17, 1, 0, 1⟩) (kernelMachine .unsigned
        { zeroDevice 1048576 with block := fun _ => 255 } { zeroDevice 1048576 with block := fun _ => 255 })).Reachable
          (s.withMem m) := by
  have hsize : 2 ≤ numfpOf 1048576 ∧ numfpOf 1048576 ≤ 8192 := by decide
  obtain ⟨-, m, mram, hinit, -⟩ := first_process hsize.1 hsize.2
  obtain ⟨s, hs, hmem, -⟩ := oneCall_dispatched ⟨.syscall, 17, 1, 0, 1⟩ hinit
  obtain ⟨-, m', hs', hagree⟩ := nothing_behind_matters .unsigned (oneCall ⟨.syscall, 17, 1, 0, 1⟩)
    (zeroDevice 1048576) (zeroDevice 1048576) fitsMemory_mapper (fun _ => 255) (fun _ => 255) s hs
  refine ⟨s, m', ?_, hagree.mm, hs'⟩
  rw [hmem, Kernel.mm_setMm_self]
  exact Option.some_ne_none m

end LamiaAtrium
