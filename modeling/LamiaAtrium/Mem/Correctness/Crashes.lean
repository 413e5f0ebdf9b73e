import LamiaAtrium.Mem.Correctness.Enough
import LamiaAtrium.Mem.Correctness.Operands

/-!
# `Mem.Correctness.Crashes` — which instructions run into undefined behaviour

* `returns_run_iff`: in an address space that `init_mm` has set up, an instruction dereferences `NULL` or leaves
  `symrgtbl` exactly when it `Overruns`, whatever the regions, the page tables, the devices and the queues are. The
  four routes to the table (`liballoc`, `libfree`, `libread`, `libwrite`) have one lemma each, and so have the system
  calls.
* `crashes_iff`: so `Crashes` of the simulator, in any reachable state, is about the operands of the instructions that
  are about to run, and about nothing else.
* `not_crashes_of_noOverrun`: with programs that do not overrun it never does.
-/

namespace LamiaAtrium

/-- The computation runs into no undefined behaviour. -/
def Returns {α : Type} (r : Except Fault α) : Prop := ∃ a, r = .ok a

theorem returns_ok {α : Type} (a : α) : Returns (.ok a : Except Fault α) := ⟨a, rfl⟩

theorem Returns.bind {α β : Type} {r : Except Fault α} {f : α → Except Fault β} (hr : Returns r)
    (hf : ∀ a, r = .ok a → Returns (f a)) : Returns (r >>= f) := by
  obtain ⟨a, ha⟩ := hr
  rw [ha]
  exact hf a ha

/-- ALLOC uses its register as it is, and READ does not look at what `get_symrg_byid` returns. FREE and WRITE do, and
    are left with the one index that it lets through. -/
def Overruns (ins : InstT) : Prop :=
  match ins.opcode with
  | .alloc => pagingMaxSymtblSz ≤ (ins.arg1.setWidth 32 : BitVec 32).toNat
  | .read  => pagingMaxSymtblSz ≤ (ins.arg0.setWidth 32 : BitVec 32).toNat
  | .free  => (ins.arg0.setWidth 32 : BitVec 32).toNat = pagingMaxSymtblSz
  | .write => (ins.arg1.setWidth 32 : BitVec 32).toNat = pagingMaxSymtblSz
  | _      => False

instance : DecidablePred Overruns
  | ⟨.alloc, _, arg1, _, _⟩ => inferInstanceAs (Decidable (pagingMaxSymtblSz ≤ (arg1.setWidth 32 : BitVec 32).toNat))
  | ⟨.read, arg0, _, _, _⟩  => inferInstanceAs (Decidable (pagingMaxSymtblSz ≤ (arg0.setWidth 32 : BitVec 32).toNat))
  | ⟨.free, arg0, _, _, _⟩  => inferInstanceAs (Decidable ((arg0.setWidth 32 : BitVec 32).toNat = pagingMaxSymtblSz))
  | ⟨.write, _, arg1, _, _⟩ => inferInstanceAs (Decidable ((arg1.setWidth 32 : BitVec 32).toNat = pagingMaxSymtblSz))
  | ⟨.calc, _, _, _, _⟩     => inferInstanceAs (Decidable False)
  | ⟨.syscall, _, _, _, _⟩  => inferInstanceAs (Decidable False)

/-! ## Instructions -/

theorem getSymrgById_of_gt {rgid : BitVec 32} (h : pagingMaxSymtblSz < rgid.toNat) : getSymrgById rgid = none := by
  refine if_pos ?_
  rw [BitVec.toInt_eq_toNat_cond]
  have hlt := rgid.isLt
  split <;> omega

theorem getSymrgById_of_le {rgid : BitVec 32} (h : rgid.toNat ≤ pagingMaxSymtblSz) :
    getSymrgById rgid = some rgid.toNat := by
  refine if_neg ?_
  have hsize : pagingMaxSymtblSz = 30 := rfl
  rw [BitVec.toInt_eq_toNat_cond, if_pos (by omega)]
  omega

/-- A register that exists. -/
theorem register_eq {rgid : BitVec 32} (h : rgid.toNat < pagingMaxSymtblSz) :
    rgid = BitVec.ofNat 32 (⟨rgid.toNat, h⟩ : Fin pagingMaxSymtblSz) := by
  simp

section

variable {k : CharKind} {sched : SchedState ℕ} {s : Kernel} {x : ℕ} {mm : MmStruct} {rgid : BitVec 32}

theorem returns_liballoc_iff (hm : s.mm x = some mm) (h : SetUp mm) (size : AddrT) (junk : BYTE) :
    Returns (s.liballoc k sched x size rgid junk) ↔ rgid.toNat < pagingMaxSymtblSz := by
  constructor
  · rintro ⟨⟨stat, t⟩, hrun⟩
    exact lt_of_liballoc hrun
  · intro hr
    obtain ⟨vma, harea⟩ := h.area
    rw [register_eq hr, liballoc_eq k sched hm harea]
    exact returns_ok _

theorem returns_libfree_iff (hm : s.mm x = some mm) (h : SetUp mm) :
    Returns (s.libfree x rgid) ↔ rgid.toNat ≠ pagingMaxSymtblSz := by
  constructor
  · rintro ⟨⟨stat, t⟩, hrun⟩ hr
    unfold Kernel.libfree Kernel.free at hrun
    rw [getSymrgById_of_le hr.le] at hrun
    obtain ⟨m, -, hrun⟩ := bind_eq_ok.mp hrun
    obtain ⟨rg, hget, -⟩ := bind_eq_ok.mp hrun
    exact absurd (lt_of_symrgAt hget) hr.not_lt
  · intro hr
    rcases Nat.lt_or_gt_of_ne hr with hlt | hgt
    · obtain ⟨vma, harea⟩ := h.area
      rw [register_eq hlt, libfree_eq hm harea]
      exact returns_ok _
    · rw [libfree_of_refuses hm (.inl (getSymrgById_of_gt hgt))]
      exact returns_ok _

theorem returns_libread_iff (hm : s.mm x = some mm) (h : SetUp mm) (offset : AddrT) (data : BYTE) :
    Returns (s.libread k x rgid offset data) ↔ rgid.toNat < pagingMaxSymtblSz := by
  constructor
  · rintro ⟨⟨stat, dest, t⟩, hrun⟩
    by_contra hge
    obtain ⟨⟨v, data', u⟩, hread, -⟩ := bind_eq_ok.mp hrun
    unfold Kernel.read at hread
    rcases Nat.lt_or_eq_of_le (Nat.not_lt.mp hge) with hgt | heq
    · -- a register that the check refuses: its `NULL` is dereferenced
      rw [getSymrgById_of_gt hgt] at hread
      cases hread
    · rw [getSymrgById_of_le heq.ge] at hread
      obtain ⟨m, -, hread⟩ := bind_eq_ok.mp hread
      obtain ⟨rg, hget, -⟩ := bind_eq_ok.mp hread
      exact hge (lt_of_symrgAt hget)
  · intro hr
    rw [register_eq hr, libread_of_noPage hm h.fifo]
    exact returns_ok _

theorem returns_libwrite_iff (hm : s.mm x = some mm) (h : SetUp mm) (data : BYTE) (offset : AddrT) :
    Returns (s.libwrite k x data rgid offset) ↔ rgid.toNat ≠ pagingMaxSymtblSz := by
  obtain ⟨vma, harea⟩ := h.area
  constructor
  · rintro ⟨⟨stat, t⟩, hrun⟩ hr
    unfold Kernel.libwrite Kernel.write at hrun
    rw [Kernel.mmOf_eq_ok.mpr hm, getSymrgById_of_le hr.le] at hrun
    simp only [bind, Except.bind, harea.getVmaByNum_eq] at hrun
    rw [symrgAt, dif_neg hr.not_lt] at hrun
    cases hrun
  · intro hr
    rcases Nat.lt_or_gt_of_ne hr with hlt | hgt
    · rw [register_eq hlt, libwrite_of_noPage hm harea h.fifo]
      exact returns_ok _
    · rw [libwrite_of_refuses hm (.inr ⟨getSymrgById_of_gt hgt, _, harea.getVmaByNum_eq⟩)]
      exact returns_ok _

/-- A system call wants an address space behind the process that it finds. -/
theorem returns_libsyscall (hfound : ∀ y, Kernel.findPcbByPid sched (pidOf x) = some y → (s.mm y).isSome)
    (idx : BitVec 32) (a1 a2 a3 : BitVec 64) (junk : BYTE) :
    Returns (s.libsyscall k sched x idx a1 a2 a3 junk) := by
  refine Returns.bind ?_ fun _ _ => returns_ok _
  unfold Kernel.syscall
  split
  · exact returns_ok _
  · unfold Kernel.sysMemmap
    split
    · exact returns_ok _
    · rename_i y hy
      split
      · obtain ⟨m, hm⟩ := Option.isSome_iff_exists.mp (hfound y hy)
        exact Returns.bind ⟨m, Kernel.mmOf_eq_ok.mpr hm⟩ fun _ _ => returns_ok _
      all_goals exact returns_ok _
  · exact returns_ok _

/-- **Which instructions run into undefined behaviour.** -/
theorem returns_run_iff (hm : s.mm x = some mm) (h : SetUp mm)
    (hfound : ∀ y, Kernel.findPcbByPid sched (pidOf x) = some y → (s.mm y).isSome) (ins : InstT) (junk : BYTE) :
    Returns (s.run k sched x ins junk) ↔ ¬ Overruns ins := by
  unfold Kernel.run Overruns
  cases ins.opcode with
  | «calc» => exact iff_of_true (returns_ok _) not_false
  | alloc => exact (returns_liballoc_iff hm h _ _).trans Nat.not_le.symm
  | free => exact returns_libfree_iff hm h
  | read =>
    refine Iff.trans ⟨?_, ?_⟩ ((returns_libread_iff (k := k) hm h ins.arg1 junk).trans Nat.not_le.symm)
    · rintro ⟨r, hrun⟩
      obtain ⟨a, hread, -⟩ := bind_eq_ok.mp hrun
      exact ⟨a, hread⟩
    · exact fun hread => hread.bind fun _ _ => returns_ok _
  | write => exact returns_libwrite_iff hm h _ _
  | syscall => exact iff_of_true (returns_libsyscall hfound _ _ _ _ _) not_false

end

/-! ## The threads -/

section

variable {cfg : Config} {k : CharKind} {ram swp : DeviceBoot} {s : OsState cfg.numCpus Kernel}

/-- Whoever is on the running list has been loaded. -/
theorem found_loaded (hs : (osSystem cfg (kernelMachine k ram swp)).Reachable s) {pid : BitVec 32} {y : ℕ}
    (hfound : Kernel.findPcbByPid s.sched pid = some y) : (s.mem.mm y).isSome := by
  have hlisted := listed_of_reachable hs
  have hmem : y ∈ s.sched.runningList.toList := by
    unfold Kernel.findPcbByPid Kernel.findInQueue at hfound
    rw [hlisted.ready] at hfound
    split at hfound
    · rename_i z hz
      obtain rfl := Option.some.inj hfound
      exact List.mem_of_find?_eq_some hz
    · cases hfound
  have hplaces := (hlisted.served y hmem).trans ((served_le_places s y).trans (places_le hs y))
  have hlt : y < s.i := by
    by_contra hge
    rw [if_neg hge] at hplaces
    omega
  exact isSome_of_added hs hlt

/-- In every run in which `init_mm` finds its frames, every process has been set up. -/
theorem allSetUp_of_os (hs : ((osSystem cfg (kernelMachine k ram swp)).restrict (MemoryMeets LoadFinds)).Reachable s) :
    AllSetUp s.mem := by
  obtain ⟨es, hrun⟩ := (memGuarded_of_os hs).run
  obtain ⟨a, -, -, hsetUp⟩ := (kernel_simulates k ram swp).run hrun
  exact hsetUp

/-- What the CPUs are about to run is defined, or it overruns. -/
theorem exec_iff_of_run (hs : ((osSystem cfg (kernelMachine k ram swp)).restrict (MemoryMeets LoadFinds)).Reachable s)
    {c : Fin cfg.numCpus} {x : ℕ} (hpc : (s.cpu c).pc = .run) (hproc : (s.cpu c).proc = some x) (ins : InstT) :
    (∀ m, ¬ (kernelMachine k ram swp).exec s.sched x ins s.mem m) ↔ Overruns ins := by
  have hos := hs.of_restrict
  have hsome := isSome_of_added hos (added_of_run hos hpc hproc)
  obtain ⟨mm, hm⟩ := Option.isSome_iff_exists.mp hsome
  have hreturns : ∀ junk, Returns (s.mem.run k s.sched x ins junk) ↔ ¬ Overruns ins :=
    returns_run_iff hm (allSetUp_of_os hs x mm hm) (fun y hy => found_loaded hos hy) ins
  constructor
  · intro hno
    by_contra hins
    obtain ⟨⟨stat, t⟩, hrun⟩ := (hreturns 0).mpr hins
    exact hno t ⟨0, stat, hrun⟩
  · rintro hins m ⟨junk, stat, hrun⟩
    exact (hreturns junk).mp ⟨_, hrun⟩ hins

/-- `init_mm` always returns. -/
theorem loads_returns (s : Kernel) (x : ℕ) : ∃ t, Kernel.Loads x s t := by
  obtain ⟨stat, m, mram, hinit⟩ : ∃ stat m mram, initMm rawMm s.mram [] = (stat, m, mram) := ⟨_, _, _, rfl⟩
  exact ⟨_, .initMm hinit⟩

theorem crashes_iff_overruns
    (hs : ((osSystem cfg (kernelMachine k ram swp)).restrict (MemoryMeets LoadFinds)).Reachable s) :
    Crashes cfg (kernelMachine k ram swp) s ↔ ∃ c x ins, (s.cpu c).pc = .run ∧ (s.cpu c).proc = some x ∧
      (cfg.code x)[s.procPc x]? = some ins ∧ Overruns ins := by
  constructor
  · rintro (⟨-, hno⟩ | ⟨c, x, ins, hpc, hproc, hins, hno⟩)
    · obtain ⟨t, hload⟩ := loads_returns s.mem s.i
      exact absurd hload (hno t)
    · exact ⟨c, x, ins, hpc, hproc, hins, (exec_iff_of_run hs hpc hproc ins).mp hno⟩
  · rintro ⟨c, x, ins, hpc, hproc, hins, hover⟩
    exact .inr ⟨c, x, ins, hpc, hproc, hins, (exec_iff_of_run hs hpc hproc ins).mpr hover⟩

end

/-- **When the simulator crashes.** In every run in which `init_mm` finds its frames, a thread is about to dereference
    `NULL` or to leave an array exactly when a CPU is about to run an instruction that overruns. Loads, page faults,
    swaps and system calls never do it, whatever their arguments. -/
theorem crashes_iff (k : CharKind) (cfg : Config) (ram swp : DeviceBoot) (s : OsState cfg.numCpus Kernel)
    (hs : ((osSystem cfg (kernelMachine k ram swp)).restrict (MemoryMeets LoadFinds)).Reachable s) :
    Crashes cfg (kernelMachine k ram swp) s ↔ ∃ c x ins, (s.cpu c).pc = .run ∧ (s.cpu c).proc = some x ∧
      (cfg.code x)[s.procPc x]? = some ins ∧ Overruns ins :=
  crashes_iff_overruns hs

/-- FREE of register 30 crashes. -/
theorem crashes_iff_free : ∃ s : OsState (oneCall ⟨.free, 30, 0, 0, 0⟩).numCpus Kernel,
    Crashes (oneCall ⟨.free, 30, 0, 0, 0⟩) (kernelMachine .unsigned (zeroDevice 512) (zeroDevice 512)) s := by
  have hsize : 2 ≤ numfpOf 512 ∧ numfpOf 512 ≤ 8192 ∧ (numfpOf 512).toNat = 2 := by decide
  obtain ⟨-, m, mram, hinit, -⟩ := first_process hsize.1 hsize.2.1
  obtain ⟨s, hs, -, hcpu, hpc, -⟩ := oneCall_dispatched ⟨.free, 30, 0, 0, 0⟩ hinit
  have hneed : framesNeeded (oneCall ⟨.free, 30, 0, 0, 0⟩) ≤ (numfpOf (zeroDevice 512).maxSize).toNat := by
    show framesNeeded _ ≤ (numfpOf 512).toNat
    rw [hsize.2.2]
    decide
  refine ⟨s, (crashes_iff .unsigned (oneCall ⟨.free, 30, 0, 0, 0⟩) (zeroDevice 512) (zeroDevice 512) s
    (finds_of_enough (formatted_zeroDevice hsize.1) hneed hs)).mpr ⟨callCpu _, 0, ⟨.free, 30, 0, 0, 0⟩, ?_⟩⟩
  rw [hcpu, hpc]
  exact ⟨rfl, rfl, rfl, by decide⟩

/-! ## Programs that do not overrun -/

/-- No program overruns. -/
def NoOverrun (cfg : Config) : Prop := ∀ x < cfg.numProcesses, ∀ ins ∈ cfg.code x, ¬ Overruns ins

theorem not_crashes_of_noOverrun {k : CharKind} {cfg : Config} {ram swp : DeviceBoot} {s : OsState cfg.numCpus Kernel}
    (hs : ((osSystem cfg (kernelMachine k ram swp)).restrict (MemoryMeets LoadFinds)).Reachable s)
    (hcode : NoOverrun cfg) : ¬ Crashes cfg (kernelMachine k ram swp) s := by
  rw [crashes_iff_overruns hs]
  rintro ⟨c, x, ins, hpc, hproc, hins, hover⟩
  have hx := (added_of_run hs.of_restrict hpc hproc).trans_le (i_le_numProcesses hs.of_restrict)
  exact hcode x hx ins (List.mem_of_getElem? hins) hover

end LamiaAtrium
