import LamiaAtrium.Mem.Correctness.Isolation
import LamiaAtrium.Os.Correctness.Alive

/-!
# `Mem.Correctness.Enough` — when RAM has enough frames

* `run_takes`: an instruction takes `framesFor` frames at most, four for each page that it maps. The pages themselves
  take none: all of them are mapped to frame 0.
* `Budget` is what a run has taken so far: a PGD for each process that has been loaded, and what the instructions
  executed so far have taken. `finds_of_enough`: so with a RAM that has a PGD for each process and the tables for all
  programs, every `init_mm` finds its frame.
-/

namespace LamiaAtrium

/-! ## What an instruction takes -/

/-- Four tables for each page of a `SYSMEM_MAP_OP`. -/
def framesFor (ins : InstT) : ℕ :=
  if ins.opcode = .syscall ∧ ins.arg0.setWidth 32 = 17#32 ∧ (ins.arg1.setWidth 32 : BitVec 32) = 1#32 then
    4 * (ins.arg3.setWidth 32 : BitVec 32).toInt.toNat
  else 0

/-- What a program takes. -/
def codeFrames (code : List InstT) : ℕ := (code.map framesFor).sum

theorem codeFrames_append (code : List InstT) (ins : InstT) :
    codeFrames (code ++ [ins]) = codeFrames code + framesFor ins := by
  simp [codeFrames]

theorem codeFrames_take_le (code : List InstT) (n : ℕ) : codeFrames (code.take n) ≤ codeFrames code := by
  have hsum := List.sum_take_add_sum_drop (code.map framesFor) n
  unfold codeFrames
  rw [List.map_take]
  omega

/-- One more instruction of one of `n` programs. -/
theorem sum_codeFrames_append (executed : ℕ → List InstT) {n x : ℕ} (hx : x < n) (ins : InstT) :
    ∑ y ∈ Finset.range n, codeFrames (Function.update executed x (executed x ++ [ins]) y)
      = ∑ y ∈ Finset.range n, codeFrames (executed y) + framesFor ins := by
  have hmem : x ∈ Finset.range n := Finset.mem_range.mpr hx
  have hrest : ∑ y ∈ (Finset.range n).erase x, codeFrames (Function.update executed x (executed x ++ [ins]) y)
      = ∑ y ∈ (Finset.range n).erase x, codeFrames (executed y) :=
    Finset.sum_congr rfl fun y hy => by rw [Function.update_of_ne (Finset.ne_of_mem_erase hy)]
  rw [← Finset.add_sum_erase _ _ hmem, ← Finset.add_sum_erase _ (fun y => codeFrames (executed y)) hmem, hrest,
    Function.update_self, codeFrames_append]
  omega

section

variable {k : CharKind}

/-- One frame for each missing table. -/
theorem allocTables_takes (is : List AddrT) : ∀ (mp : MemphyStruct) (base : AddrT),
    mp.freeFpList.length ≤ (allocTables k mp base is).2.freeFpList.length + is.length := by
  induction is with
  | nil =>
    intro mp base
    exact le_rfl
  | cons idx is ih =>
    intro mp base
    rw [allocTables]
    split
    · have hrest := ih mp (entryBase (get32bitEntry k mp (base + idx * 4)))
      rw [List.length_cons]
      omega
    · unfold memphyGetFreefp
      cases hfree : mp.freeFpList with
      | nil => simp
      | cons fpn rest =>
        have hrest := ih (putEntryBytes { mp with freeFpList := rest } (base + idx * 4) (tableEntry fpn))
          (entryBase (tableEntry fpn))
        rw [freeFpList_putEntryBytes] at hrest
        rw [List.length_cons, List.length_cons]
        dsimp only at hrest ⊢
        omega

theorem pteSetFpn_takes (mm : MmStruct) (mp : MemphyStruct) (pgn fpn : AddrT) :
    mp.freeFpList.length ≤ (pteSetFpn k mm mp pgn fpn).2.freeFpList.length + 4 := by
  have hwalk := allocTables_takes (k := k) (getPdFromPagenum pgn).upper mp mm.pgd
  unfold pteSetFpn
  split
  · rename_i heq
    rw [heq] at hwalk
    exact hwalk
  · rename_i heq
    rw [heq] at hwalk
    rw [freeFpList_putEntryBytes]
    exact hwalk

theorem vmapPgdLoop_takes (mm : MmStruct) (n : ℕ) : ∀ (mp : MemphyStruct) (pgn : AddrT),
    mp.freeFpList.length ≤ (vmapPgdLoop k mm n mp pgn).2.freeFpList.length + 4 * n := by
  induction n with
  | zero =>
    intro mp pgn
    exact le_rfl
  | succ n ih =>
    intro mp pgn
    have hone := pteSetFpn_takes (k := k) mm mp pgn 0
    rw [vmapPgdLoop]
    split
    rename_i stat mp' heq
    rw [heq] at hone
    split
    · dsimp only at hone ⊢
      omega
    · have hrest := ih mp' (pgn + 1)
      dsimp only at hone
      omega

/-- **What an instruction takes.** -/
theorem run_takes {sched : SchedState ℕ} {s t : Kernel} {x : ℕ} {ins : InstT} {junk : BYTE} {stat : ℤ}
    (h : s.run k sched x ins junk = .ok (stat, t)) :
    s.mram.freeFpList.length ≤ t.mram.freeFpList.length + framesFor ins := by
  rcases run_cases h with hkeep | ⟨hop, hnr, caller, -, ⟨hmap, mm, -, rfl⟩ | ⟨-, rfl⟩⟩
  · rw [hkeep.mram]
    exact Nat.le_add_right _ _
  · rw [framesFor, if_pos ⟨hop, hnr, hmap⟩]
    exact vmapPgdLoop_takes mm _ _ _
  · show _ ≤ (memphyWriteIgn s.mram ins.arg2 (ins.arg3.setWidth 8)).freeFpList.length + _
    rw [freeFpList_memphyWriteIgn]
    exact Nat.le_add_right _ _

/-- `init_mm` takes one frame. -/
theorem loads_takes {s t : Kernel} {x : ℕ} (h : Kernel.Loads x s t) :
    s.mram.freeFpList.length ≤ t.mram.freeFpList.length + 1 := by
  cases h with
  | @initMm stat m₀ m mram link hinit =>
    show _ ≤ mram.freeFpList.length + 1
    unfold initMm memphyGetFreefp at hinit
    cases hfree : s.mram.freeFpList with
    | nil => exact Nat.zero_le _
    | cons fpn rest =>
      rw [hfree] at hinit
      obtain ⟨-, hpair⟩ := Prod.mk.inj hinit
      obtain ⟨-, rfl⟩ := Prod.mk.inj hpair
      rw [freeFpList_clearLoop, List.length_cons]

end

/-! ## Who is there -/

section

variable {cfg : Config} {k : CharKind} {ram swp : DeviceBoot} {s : OsState cfg.numCpus Kernel} {x : ℕ}

/-- A process that has been added has its address space. -/
theorem isSome_of_added (hs : (osSystem cfg (kernelMachine k ram swp)).Reachable s) (hx : x < s.i) :
    (s.mem.mm x).isSome := by
  rw [isSome_mm_iff hs]
  unfold OsState.loaded
  split <;> omega

/-- A process that a CPU is about to run has been added. -/
theorem added_of_run (hs : (osSystem cfg (kernelMachine k ram swp)).Reachable s) {c : Fin cfg.numCpus}
    (hpc : (s.cpu c).pc = .run) (hproc : (s.cpu c).proc = some x) : x < s.i := by
  have hheld : (s.cpu c).held = some x := by
    rw [Cpu.held_of_owns (by rw [hpc]; rfl), hproc]
  exact (held_live hs hheld).1

end

/-! ## What a run takes -/

/-- The frames for all PGDs and all programs. -/
def framesNeeded (cfg : Config) : ℕ := cfg.numProcesses + ∑ x ∈ Finset.range cfg.numProcesses, codeFrames (cfg.code x)

/-- Of `total` frames, those that are not free any more are accounted for. -/
def Budget (cfg : Config) (total : ℕ) (s : OsState cfg.numCpus Kernel) : Prop :=
  total ≤ s.mem.mram.freeFpList.length + s.loaded + ∑ x ∈ Finset.range cfg.numProcesses, codeFrames (s.executed x)

section

variable {cfg : Config} {k : CharKind} {ram swp : DeviceBoot} {s t : OsState cfg.numCpus Kernel}

theorem loaded_mono {M : Type} {mach : Machine M} {now : ℕ} {s t : OsState cfg.numCpus M} {e : OsEvent cfg.numCpus}
    (h : OsStep cfg mach now s e t) : s.loaded ≤ t.loaded := by
  cases h.memory with
  | same _ hloaded => exact hloaded.ge
  | load _ _ hloaded hloaded' _ => exact hloaded.le.trans ((Nat.le_succ _).trans hloaded'.ge)
  | exec _ hloaded _ => exact hloaded.ge

theorem Budget.step {total now : ℕ} {e : OsEvent cfg.numCpus}
    (hs : (osSystem cfg (kernelMachine k ram swp)).Reachable s) (h : Budget cfg total s)
    (hst : OsStep cfg (kernelMachine k ram swp) now s e t) : Budget cfg total t := by
  have hloaded := loaded_mono hst
  unfold Budget at h ⊢
  cases hst.effect with
  | quiet hmem hexecuted _ =>
    rw [hmem, hexecuted]
    omega
  | load hpc hpc' hexecuted hi hload =>
    have htakes := loads_takes hload
    have hbefore : s.loaded = s.i := by rw [OsState.loaded, hpc]; rfl
    have hafter : t.loaded = s.i + 1 := by rw [OsState.loaded, hpc', hi]; rfl
    rw [hexecuted]
    omega
  | @exec c x ins hheld _ hexecuted hexec =>
    obtain ⟨junk, stat, hrun⟩ := hexec
    have htakes := run_takes hrun
    have hx : x < cfg.numProcesses := (held_live hs hheld).1.trans_le (i_le_numProcesses hs)
    rw [hexecuted, sum_codeFrames_append s.executed hx]
    omega

/-- **What has been taken so far.** -/
theorem budget_of_reachable (hformat : Formatted ram.mp ram.link ram.maxSize)
    (hs : (osSystem cfg (kernelMachine k ram swp)).Reachable s) : Budget cfg (numfpOf ram.maxSize).toNat s := by
  induction hs with
  | init hinit =>
    obtain ⟨m, rfl, rfl⟩ := hinit
    have hfree : (numfpOf ram.maxSize).toNat = ram.device.freeFpList.length := by
      rw [DeviceBoot.device, freeFpList_of_formatted _ _ hformat, List.length_map, List.length_range]
    unfold Budget
    rw [hfree]
    exact (Nat.le_add_right _ _).trans (Nat.le_add_right _ _)
  | step hs hst ih =>
    obtain ⟨now, hos⟩ := hst
    exact ih.step hs hos

/-- The programs have not taken more than they ever will. -/
theorem codeFrames_executed_le (hs : (osSystem cfg (kernelMachine k ram swp)).Reachable s) :
    ∑ x ∈ Finset.range cfg.numProcesses, codeFrames (s.executed x)
      ≤ ∑ x ∈ Finset.range cfg.numProcesses, codeFrames (cfg.code x) :=
  Finset.sum_le_sum fun x _ => by
    rw [(orderly_of_reachable hs).executed x]
    exact codeFrames_take_le _ _

/-- A process that is about to be loaded finds a frame. -/
theorem free_of_enough (hformat : Formatted ram.mp ram.link ram.maxSize)
    (henough : framesNeeded cfg ≤ (numfpOf ram.maxSize).toNat)
    (hs : (osSystem cfg (kernelMachine k ram swp)).Reachable s) (hleft : s.loaded < cfg.numProcesses) :
    s.mem.mram.freeFpList ≠ [] := by
  have hbudget := budget_of_reachable hformat hs
  have hcode := codeFrames_executed_le hs
  unfold Budget at hbudget
  unfold framesNeeded at henough
  rw [← List.length_pos_iff]
  omega

/-- **Every `init_mm` finds its frame.** -/
theorem finds_of_enough (hformat : Formatted ram.mp ram.link ram.maxSize)
    (henough : framesNeeded cfg ≤ (numfpOf ram.maxSize).toNat)
    (hs : (osSystem cfg (kernelMachine k ram swp)).Reachable s) :
    ((osSystem cfg (kernelMachine k ram swp)).restrict (MemoryMeets LoadFinds)).Reachable s := by
  induction hs with
  | init hinit => exact .init hinit
  | step hs hst ih =>
    refine ih.step ⟨hst, fun hpc _ => ?_, fun _ _ _ => trivial⟩
    refine free_of_enough hformat henough hs ?_
    rw [OsState.loaded, hpc]
    exact lt_of_loading hs (by rw [hpc]; rfl)

end

end LamiaAtrium
