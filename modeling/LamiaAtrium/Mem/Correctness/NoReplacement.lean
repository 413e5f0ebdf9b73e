import LamiaAtrium.Mem.Correctness.Crashes

/-!
# `Mem.Correctness.NoReplacement` — no page is ever replaced

`find_victim_page` takes its victims from `fifo_pgn`, and only `vmap_page_range` and a page fault that has found a
victim put pages there. The instructions never come to the first, so nothing ever comes to the second.

* `swapPool_of_run`: an instruction leaves the free frames of the swap device alone.
* `never_replaces`: in any run, the code of `pg_getpage` from the victim on is not reached, and READ and WRITE, which
  go through `pg_getpage`, change nothing at all.
-/

namespace LamiaAtrium

theorem freeFpList_swapCpLoop (mpsrc : MemphyStruct) (srcfpn dstfpn : AddrT) (n : ℕ) :
    ∀ i data mpdst, (swapCpLoop mpsrc srcfpn dstfpn i n data mpdst).freeFpList = mpdst.freeFpList := by
  induction n with
  | zero => exact fun _ _ _ => rfl
  | succ n ih =>
    intro i data mpdst
    rw [swapCpLoop, ih, freeFpList_memphyWriteIgn]

section

variable {k : CharKind} {sched : SchedState ℕ} {s t : Kernel} {x : ℕ} {mm : MmStruct}

/-- No system call takes a frame of the swap device. -/
theorem swapPool_of_libsyscall {idx : BitVec 32} {a1 a2 a3 : BitVec 64} {junk : BYTE} {stat : ℤ}
    (hrun : s.libsyscall k sched x idx a1 a2 a3 junk = .ok (stat, t)) :
    t.activeMswp.freeFpList = s.activeMswp.freeFpList := by
  obtain ⟨⟨v, regs, u⟩, hsys, hrun⟩ := bind_eq_ok.mp hrun
  cases hrun
  unfold Kernel.syscall at hsys
  split at hsys
  · cases hsys
    rfl
  · unfold Kernel.sysMemmap at hsys
    split at hsys
    · cases hsys
      rfl
    · split at hsys
      · obtain ⟨m, -, hsys⟩ := bind_eq_ok.mp hsys
        cases hsys
        rfl
      · cases hsys
        rfl
      · -- a copy writes bytes of the device
        obtain ⟨-, hregs⟩ := Prod.mk.inj (Except.ok.inj hsys)
        rw [← (Prod.mk.inj hregs).2, Kernel.activeMswp_mmSwapPage, swapCpPage,
          freeFpList_swapCpLoop]
      all_goals
        cases hsys
        rfl
  · cases hsys
    rfl

/-- **An instruction takes no frame of the swap device**, in an address space that `init_mm` has set up. -/
theorem swapPool_of_run (hm : s.mm x = some mm) (h : SetUp mm) {ins : InstT} {junk : BYTE} {stat : ℤ}
    (hrun : s.run k sched x ins junk = .ok (stat, t)) : t.activeMswp.freeFpList = s.activeMswp.freeFpList := by
  obtain ⟨vma, harea⟩ := h.area
  unfold Kernel.run at hrun
  cases hop : ins.opcode with
  | «calc» =>
    rw [hop] at hrun
    cases hrun
    rfl
  | alloc =>
    rw [hop] at hrun
    dsimp only at hrun
    have hr := lt_of_liballoc hrun
    rw [register_eq hr, liballoc_eq k sched hm harea] at hrun
    obtain ⟨-, rfl⟩ := Prod.mk.inj (Except.ok.inj hrun)
    rfl
  | free =>
    rw [hop] at hrun
    dsimp only at hrun
    rcases Nat.lt_or_gt_of_ne ((returns_libfree_iff hm h).mp ⟨_, hrun⟩) with hlt | hgt
    · rw [register_eq hlt, libfree_eq hm harea] at hrun
      split at hrun
      · obtain ⟨-, rfl⟩ := Prod.mk.inj (Except.ok.inj hrun)
        rfl
      · obtain ⟨-, rfl⟩ := Prod.mk.inj (Except.ok.inj hrun)
        rfl
    · rw [libfree_of_refuses hm (.inl (getSymrgById_of_gt hgt))] at hrun
      cases hrun
      rfl
  | read =>
    rw [hop] at hrun
    obtain ⟨⟨v, dest, u⟩, hread, hrun⟩ := bind_eq_ok.mp hrun
    cases hrun
    rw [eq_of_libread hm h hread]
  | write =>
    rw [hop] at hrun
    rw [eq_of_libwrite hm h hrun]
  | syscall =>
    rw [hop] at hrun
    exact swapPool_of_libsyscall hrun

/-- A READ or a WRITE that returns has changed nothing. -/
theorem eq_of_access (hm : s.mm x = some mm) (h : SetUp mm) {ins : InstT}
    (hop : ins.opcode = .read ∨ ins.opcode = .write) {junk : BYTE} {stat : ℤ}
    (hrun : s.run k sched x ins junk = .ok (stat, t)) : t = s := by
  unfold Kernel.run at hrun
  rcases hop with hop | hop
  · rw [hop] at hrun
    obtain ⟨⟨v, dest, u⟩, hread, hrun⟩ := bind_eq_ok.mp hrun
    cases hrun
    exact eq_of_libread hm h hread
  · rw [hop] at hrun
    exact eq_of_libwrite hm h hrun

end

section

variable {cfg : Config} {k : CharKind} {ram swp : DeviceBoot} {s : OsState cfg.numCpus Kernel}

/-- **The free frames of the swap device stay.** -/
theorem swapPool_of_reachable
    (hs : ((osSystem cfg (kernelMachine k ram swp)).restrict (MemoryMeets LoadFinds)).Reachable s) :
    s.mem.activeMswp.freeFpList = swp.device.freeFpList := by
  induction hs with
  | init hinit =>
    obtain ⟨m, rfl, rfl⟩ := hinit
    rfl
  | @step s e t hs hst ih =>
    obtain ⟨⟨now, hos⟩, -⟩ := hst
    cases hos.effect with
    | quiet hmem _ _ =>
      rw [hmem]
      exact ih
    | load _ _ _ _ hload =>
      refine Eq.trans ?_ ih
      generalize t.mem = u at hload
      cases hload
      rfl
    | @exec c x ins hheld _ _ hexec =>
      obtain ⟨junk, stat, hrun⟩ := hexec
      have hsome := isSome_of_added hs.of_restrict (held_live hs.of_restrict hheld).1
      obtain ⟨mm, hm⟩ := Option.isSome_iff_exists.mp hsome
      exact (swapPool_of_run hm (allSetUp_of_os hs x mm hm) hrun).trans ih

end

/-- **No page is ever replaced.** In every run in which `init_mm` finds its frames, no process has a page that could be
    replaced, the swap device has all its frames free, and a READ or a WRITE that returns leaves every address space and
    every byte of the devices as it was. -/
theorem never_replaces (k : CharKind) (cfg : Config) (ram swp : DeviceBoot) (s : OsState cfg.numCpus Kernel)
    (hs : ((osSystem cfg (kernelMachine k ram swp)).restrict (MemoryMeets LoadFinds)).Reachable s) :
    (∀ x mm, s.mem.mm x = some mm → mm.fifoPgn = []) ∧ s.mem.activeMswp.freeFpList = swp.device.freeFpList ∧
      ∀ x ins junk stat t, x < s.i → ins.opcode = .read ∨ ins.opcode = .write →
        s.mem.run k s.sched x ins junk = .ok (stat, t) → t = s.mem := by
  have hsetUp := allSetUp_of_os hs
  refine ⟨fun x mm hm => (hsetUp x mm hm).fifo, swapPool_of_reachable hs, ?_⟩
  intro x ins junk stat t hx hop hrun
  have hsome := isSome_of_added hs.of_restrict hx
  obtain ⟨mm, hm⟩ := Option.isSome_iff_exists.mp hsome
  exact eq_of_access hm (hsetUp x mm hm) hop hrun

/-- The process of `oneCall` is about to write. -/
theorem never_replaces_write : ∃ (s : OsState (oneCall ⟨.write, 5, 0, 0, 0⟩).numCpus Kernel) (mm : MmStruct),
    s.mem.mm 0 = some mm ∧ mm.fifoPgn = [] := by
  have hsize : 2 ≤ numfpOf 512 ∧ numfpOf 512 ≤ 8192 ∧ (numfpOf 512).toNat = 2 := by decide
  obtain ⟨-, m, mram, hinit, -⟩ := first_process hsize.1 hsize.2.1
  obtain ⟨s, hs, hmem, -⟩ := oneCall_dispatched ⟨.write, 5, 0, 0, 0⟩ hinit
  have hneed : framesNeeded (oneCall ⟨.write, 5, 0, 0, 0⟩) ≤ (numfpOf (zeroDevice 512).maxSize).toNat := by
    show framesNeeded _ ≤ (numfpOf 512).toNat
    rw [hsize.2.2]
    decide
  have hm : s.mem.mm 0 = some m := by rw [hmem, Kernel.mm_setMm_self]
  exact ⟨s, m, hm, (never_replaces .unsigned (oneCall ⟨.write, 5, 0, 0, 0⟩) (zeroDevice 512) (zeroDevice 512) s
    (finds_of_enough (formatted_zeroDevice hsize.1) hneed hs)).1 0 m hm⟩

end LamiaAtrium
