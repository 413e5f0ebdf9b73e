import LamiaAtrium.Lib.Runs
import LamiaAtrium.Mem.Correctness.Conserved
import LamiaAtrium.Mem.Correctness.Regions
import LamiaAtrium.Os.Correctness.Running

/-!
# `Mem.Correctness.Isolation` — what a process is allocated depends on its own instructions only

* `AddrSpace` is the abstract view of an address space: the free regions and the regions of the registers.
  `AddrSpace.exec` is what an instruction means to it; only ALLOC and FREE mean anything.
* `exec_of_run`: an instruction of the kernel does that to the process that executes it, and nothing to the others.
  READ and WRITE change nothing because no page is ever enlisted for replacement.
* `kernel_is_side_by_side`: the kernel, in any interleaving, is such address spaces side by side.
* `regions_of_progress`: so two processes with the same code are allocated the same regions when they are equally far,
  whatever the two simulators look like otherwise.
-/

namespace LamiaAtrium

open Lts.System

/-! ## The abstract view -/

/-- An address space as ALLOC and FREE see it. -/
structure AddrSpace where
  free : List VmRgStruct
  live : Vector VmRgStruct pagingMaxSymtblSz

namespace AddrSpace

/-- After `init_mm`; `link` is what `vm_freerg_list` held. -/
def initial (link : List VmRgStruct) : AddrSpace := ⟨⟨0, 0⟩ :: link, Vector.replicate _ ⟨0, 0⟩⟩

/-- First fit, or else the addresses from 0 on. -/
def alloc (a : AddrSpace) (size : AddrT) (r : Fin pagingMaxSymtblSz) : AddrSpace :=
  ⟨(carve (intSize size) a.free).2, a.live.set r (newRegion size a.free) r.isLt⟩

/-- A region that is not empty goes to the front of the free list. -/
def release (a : AddrSpace) (r : Fin pagingMaxSymtblSz) : AddrSpace :=
  if a.live.get r = ⟨0, 0⟩ then a
  else
    ⟨if (a.live.get r).rgEnd ≤ (a.live.get r).rgStart then a.free else a.live.get r :: a.free,
      a.live.set r ⟨0, 0⟩ r.isLt⟩

/-- What an instruction does to the address space of its process, when it does not fault. -/
def exec (a : AddrSpace) (ins : InstT) : AddrSpace :=
  match ins.opcode with
  | .alloc =>
    if h : (ins.arg1.setWidth 32).toNat < pagingMaxSymtblSz then a.alloc ins.arg0 ⟨(ins.arg1.setWidth 32).toNat, h⟩
    else a
  | .free =>
    if h : (ins.arg0.setWidth 32).toNat < pagingMaxSymtblSz then a.release ⟨(ins.arg0.setWidth 32).toNat, h⟩ else a
  | _ => a

end AddrSpace

/-- The address space behind a `struct mm_struct`. -/
def MmStruct.addrSpace (mm : MmStruct) : AddrSpace := ⟨freeRegions mm, mm.symrgtbl⟩

/-- A process that `init_mm` has set up: it has its one area, and no page is enlisted. -/
structure SetUp (mm : MmStruct) : Prop where
  area : ∃ vma, OneArea mm vma
  fifo : mm.fifoPgn = []

theorem setUp_of_initMm {m₀ m : MmStruct} {mp mp' : MemphyStruct} {link : List VmRgStruct}
    (h : initMm m₀ mp link = (0, m, mp')) : SetUp m ∧ m.addrSpace = .initial link := by
  obtain ⟨hmmap, hsym, hfifo⟩ := initMm_area h
  refine ⟨⟨⟨vma0 link, hmmap, rfl, rfl⟩, hfifo⟩, ?_⟩
  rw [MmStruct.addrSpace, freeRegions, hmmap, hsym]
  simp [AddrSpace.initial, vma0]

/-! ## Instructions -/

section

variable {k : CharKind} {sched : SchedState ℕ} {s t : Kernel} {x : ℕ} {mm : MmStruct}

/-- An allocation that returns has recorded its region in the table. -/
theorem lt_of_liballoc {size : AddrT} {rgid : BitVec 32} {junk : BYTE} {stat : ℤ}
    (h : s.liballoc k sched x size rgid junk = .ok (stat, t)) : rgid.toNat < pagingMaxSymtblSz := by
  obtain ⟨-, ⟨_, _, -, -, hr⟩, -⟩ := Kernel.liballoc_spec h
  exact hr

theorem SetUp.addrSpace_eq (h : SetUp mm) : ∃ vma, OneArea mm vma ∧ mm.addrSpace = ⟨vma.vmFreergList, mm.symrgtbl⟩ := by
  obtain ⟨vma, harea⟩ := h.area
  refine ⟨vma, harea, ?_⟩
  rw [MmStruct.addrSpace, harea.freeRegions_eq]

/-- ALLOC. -/
theorem alloc_of_liballoc (hm : s.mm x = some mm) (h : SetUp mm) {size : AddrT} {rgid : BitVec 32} {junk : BYTE}
    {stat : ℤ} (hrun : s.liballoc k sched x size rgid junk = .ok (stat, t)) :
    ∃ (hr : rgid.toNat < pagingMaxSymtblSz) (mm' : MmStruct), t.mm x = some mm' ∧ SetUp mm' ∧
      mm'.addrSpace = mm.addrSpace.alloc size ⟨rgid.toNat, hr⟩ := by
  have hr := lt_of_liballoc hrun
  obtain ⟨vma, harea, hspace⟩ := h.addrSpace_eq
  have hrgid : rgid = BitVec.ofNat 32 (⟨rgid.toNat, hr⟩ : Fin pagingMaxSymtblSz) := by simp
  rw [hrgid, liballoc_eq k sched hm harea] at hrun
  obtain ⟨-, rfl⟩ := Prod.mk.inj (Except.ok.inj hrun)
  refine ⟨hr, _, Kernel.mm_setMm_self .., ⟨⟨_, rfl, harea.vmId, harea.sbrk⟩, h.fifo⟩, ?_⟩
  rw [hspace]
  simp [MmStruct.addrSpace, freeRegions, afterAlloc, AddrSpace.alloc]

/-- FREE. -/
theorem release_of_libfree (hm : s.mm x = some mm) (h : SetUp mm) {rgid : BitVec 32} {stat : ℤ}
    (hrun : s.libfree x rgid = .ok (stat, t)) :
    ∃ mm' : MmStruct, t.mm x = some mm' ∧ SetUp mm' ∧
      mm'.addrSpace = if hr : rgid.toNat < pagingMaxSymtblSz then mm.addrSpace.release ⟨rgid.toNat, hr⟩
        else mm.addrSpace := by
  obtain ⟨vma, harea, hspace⟩ := h.addrSpace_eq
  by_cases hr : rgid.toNat < pagingMaxSymtblSz
  · rw [dif_pos hr]
    have hrgid : rgid = BitVec.ofNat 32 (⟨rgid.toNat, hr⟩ : Fin pagingMaxSymtblSz) := by simp
    rw [hrgid, libfree_eq hm harea] at hrun
    have hlive : mm.addrSpace.live = mm.symrgtbl := by rw [hspace]
    rw [AddrSpace.release, hlive]
    split at hrun
    · -- the register holds no region
      rename_i hnone
      obtain ⟨-, rfl⟩ := Prod.mk.inj (Except.ok.inj hrun)
      exact ⟨mm, hm, h, (if_pos hnone).symm⟩
    · rename_i hsome
      obtain ⟨-, rfl⟩ := Prod.mk.inj (Except.ok.inj hrun)
      refine ⟨_, Kernel.mm_setMm_self .., ⟨⟨_, rfl, harea.vmId, harea.sbrk⟩, h.fifo⟩, ?_⟩
      rw [if_neg hsome, hspace]
      simp [MmStruct.addrSpace, freeRegions, afterFree]
  · -- a register index that `get_symrg_byid` lets through is at most one too large
    rw [dif_neg hr]
    unfold Kernel.libfree Kernel.free at hrun
    split at hrun
    · obtain ⟨-, rfl⟩ := Prod.mk.inj (Except.ok.inj hrun)
      exact ⟨mm, hm, h, rfl⟩
    · rename_i i hi
      obtain ⟨m, -, hrun⟩ := bind_eq_ok.mp hrun
      obtain ⟨rg, hget, -⟩ := bind_eq_ok.mp hrun
      have hlt := lt_of_symrgAt hget
      unfold getSymrgById at hi
      split at hi
      · cases hi
      · rw [← Option.some.inj hi] at hlt
        exact absurd hlt hr

/-- A page fault of a process with nothing to replace changes nothing. -/
theorem pgGetpage_of_setUp (hm : s.mm x = some mm) (h : SetUp mm) {pgn : BitVec 32} {fpn : Option (BitVec 32)}
    (hrun : s.pgGetpage k x pgn = .ok (fpn, t)) : t = s := by
  obtain ⟨m, hmm, hrun⟩ := bind_eq_ok.mp hrun
  rw [Kernel.mmOf_eq_ok, hm] at hmm
  obtain rfl := Option.some.inj hmm
  dsimp only at hrun
  split at hrun
  · cases hrun
    rfl
  · rw [findVictimPage_nil h.fifo] at hrun
    cases hrun
    rfl

/-- READ. -/
theorem eq_of_libread (hm : s.mm x = some mm) (h : SetUp mm) {source : BitVec 32} {offset : AddrT} {data : BYTE}
    {stat : ℤ} {dest : BitVec 32} (hrun : s.libread k x source offset data = .ok (stat, dest, t)) : t = s := by
  obtain ⟨⟨v, data', u⟩, hread, hrun⟩ := bind_eq_ok.mp hrun
  cases hrun
  unfold Kernel.read at hread
  split at hread
  · cases hread
  · obtain ⟨m, -, hread⟩ := bind_eq_ok.mp hread
    obtain ⟨currg, -, hread⟩ := bind_eq_ok.mp hread
    obtain ⟨⟨v, d, u⟩, hget, hread⟩ := bind_eq_ok.mp hread
    obtain ⟨⟨fpn, w⟩, hpage, hget⟩ := bind_eq_ok.mp hget
    cases hget
    cases hread
    exact pgGetpage_of_setUp hm h hpage

/-- WRITE. -/
theorem eq_of_libwrite (hm : s.mm x = some mm) (h : SetUp mm) {data : BYTE} {destination : BitVec 32} {offset : AddrT}
    {stat : ℤ} (hrun : s.libwrite k x data destination offset = .ok (stat, t)) : t = s := by
  obtain ⟨m, -, hrun⟩ := bind_eq_ok.mp hrun
  obtain ⟨vma, -, hrun⟩ := bind_eq_ok.mp hrun
  split at hrun
  · obtain ⟨currg, -, hrun⟩ := bind_eq_ok.mp hrun
    obtain ⟨⟨v, u⟩, hset, hrun⟩ := bind_eq_ok.mp hrun
    obtain ⟨⟨fpn, w⟩, hpage, hset⟩ := bind_eq_ok.mp hset
    cases hset
    cases hrun
    exact pgGetpage_of_setUp hm h hpage
  · cases hrun
    rfl

/-- No system call changes an address space. -/
theorem mm_libsyscall {idx : BitVec 32} {a1 a2 a3 : BitVec 64} {junk : BYTE} {stat : ℤ}
    (hrun : s.libsyscall k sched x idx a1 a2 a3 junk = .ok (stat, t)) : t.mm = s.mm := by
  obtain ⟨⟨v, regs, u⟩, hsys, hrun⟩ := bind_eq_ok.mp hrun
  cases hrun
  unfold Kernel.syscall at hsys
  split at hsys
  · cases hsys
    rfl
  · unfold Kernel.sysMemmap at hsys
    split at hsys
    · cases hsys
      rfl
    · split at hsys
      · obtain ⟨m, -, hsys⟩ := bind_eq_ok.mp hsys
        cases hsys
        rfl
      · cases hsys
        rfl
      · -- swapping a page out writes to a device
        obtain ⟨-, hregs⟩ := Prod.mk.inj (Except.ok.inj hsys)
        rw [← (Prod.mk.inj hregs).2, Kernel.mm_mmSwapPage]
      all_goals
        cases hsys
        rfl
  · cases hsys
    rfl

/-- **What an instruction does to the address space of its process.** -/
theorem exec_of_run (hm : s.mm x = some mm) (h : SetUp mm) {ins : InstT} {junk : BYTE} {stat : ℤ}
    (hrun : s.run k sched x ins junk = .ok (stat, t)) :
    ∃ mm', t.mm x = some mm' ∧ SetUp mm' ∧ mm'.addrSpace = mm.addrSpace.exec ins := by
  unfold Kernel.run at hrun
  unfold AddrSpace.exec
  cases hop : ins.opcode with
  | «calc» =>
    rw [hop] at hrun
    cases hrun
    exact ⟨mm, hm, h, rfl⟩
  | alloc =>
    rw [hop] at hrun
    obtain ⟨hr, mm', hm', hsetUp, hspace⟩ := alloc_of_liballoc hm h hrun
    refine ⟨mm', hm', hsetUp, ?_⟩
    dsimp only
    rw [hspace, dif_pos hr]
  | free =>
    rw [hop] at hrun
    exact release_of_libfree hm h hrun
  | read =>
    rw [hop] at hrun
    obtain ⟨⟨v, dest, u⟩, hread, hrun⟩ := bind_eq_ok.mp hrun
    cases hrun
    rw [eq_of_libread hm h hread]
    exact ⟨mm, hm, h, rfl⟩
  | write =>
    rw [hop] at hrun
    rw [eq_of_libwrite hm h hrun]
    exact ⟨mm, hm, h, rfl⟩
  | syscall =>
    rw [hop] at hrun
    rw [mm_libsyscall hrun]
    exact ⟨mm, hm, h, rfl⟩

end

/-! ## Any interleaving -/

/-- What happens to an address space: it is set up, or its process executes an instruction. -/
inductive SpaceAct where
  | load
  | exec (ins : InstT)

/-- One address space by itself. Setting it up may find anything in the memory of `malloc`. -/
def spaceMachine : Lts.System (Option AddrSpace) SpaceAct where
  init a := a = none
  step a c b :=
    match c with
    | .load     => ∃ link, b = some (.initial link)
    | .exec ins => b = a.map fun space => space.exec ins

/-- The process that an event of memory is about. -/
def MemEvent.own : MemEvent → Option (ℕ × SpaceAct)
  | .load x       => some (x, .load)
  | .exec x ins _ => some (x, .exec ins)

/-- The address spaces of a kernel. -/
def Kernel.spaces (s : Kernel) (x : ℕ) : Option AddrSpace := (s.mm x).map MmStruct.addrSpace

/-- `init_mm` finds a frame. -/
def LoadFinds (s : Kernel) : MemEvent → Prop
  | .load _   => s.mram.freeFpList ≠ []
  | .exec ..  => True

/-- Every process has been set up. -/
def AllSetUp (s : Kernel) : Prop := ∀ x mm, s.mm x = some mm → SetUp mm

section

variable {k : CharKind} {ram swp : DeviceBoot} {s t : Kernel}

theorem spaces_setMm (s : Kernel) (x : ℕ) (mm : MmStruct) :
    (s.setMm x mm).spaces = Function.update s.spaces x (some mm.addrSpace) := by
  funext y
  unfold Kernel.spaces
  by_cases hy : y = x
  · subst hy
    rw [Kernel.mm_setMm_self, Function.update_self, Option.map_some]
  · rw [Kernel.mm_setMm_of_ne _ _ hy, Function.update_of_ne hy]

/-- A load gives its process an initial address space, and keeps the others. -/
theorem spaces_of_loads {x : ℕ} (h : Kernel.Loads x s t) (hframe : s.mram.freeFpList ≠ []) (hs : AllSetUp s) :
    AllSetUp t ∧ ∃ link, t.spaces = Function.update s.spaces x (some (.initial link)) := by
  cases h with
  | @initMm stat m₀ m mram link hinit =>
    obtain rfl := initMm_stat hinit hframe
    obtain ⟨hsetUp, hspace⟩ := setUp_of_initMm hinit
    refine ⟨fun y mm hy => ?_, link, ?_⟩
    · by_cases hyx : y = x
      · subst hyx
        rw [Kernel.mm_setMm_self] at hy
        exact Option.some.inj hy ▸ hsetUp
      · rw [Kernel.mm_setMm_of_ne _ _ hyx] at hy
        exact hs y mm hy
    · rw [spaces_setMm, hspace]
      rfl

/-- An instruction changes the address space of its process as it says, and keeps the others. -/
theorem spaces_of_run {sched : SchedState ℕ} {x : ℕ} {ins : InstT} {junk : BYTE} {stat : ℤ}
    (h : s.run k sched x ins junk = .ok (stat, t)) (hs : AllSetUp s) :
    AllSetUp t ∧ t.spaces = Function.update s.spaces x ((s.spaces x).map fun space => space.exec ins) := by
  have hothers := (run_mm h).2
  cases hm : s.mm x with
  | none =>
    have hnone : t.mm x = none := by
      rw [← Option.map_eq_none_iff, (run_mm h).1 x, hm, Option.map_none]
    have hsame : t.mm = s.mm := by
      funext y
      by_cases hy : y = x
      · rw [hy, hnone, hm]
      · exact hothers y hy
    have hspaces : t.spaces = s.spaces := by
      unfold Kernel.spaces
      rw [hsame]
    refine ⟨fun y mm hy => hs y mm (hsame ▸ hy), ?_⟩
    rw [hspaces, Kernel.spaces, hm, Option.map_none, Option.map_none]
    refine (Function.update_eq_self_iff.mpr ?_).symm
    rw [Kernel.spaces, hm, Option.map_none]
  | some mm =>
    obtain ⟨mm', hm', hsetUp, hspace⟩ := exec_of_run hm (hs x mm hm) h
    refine ⟨fun y m hy => ?_, ?_⟩
    · by_cases hyx : y = x
      · subst hyx
        rw [hm'] at hy
        exact Option.some.inj hy ▸ hsetUp
      · exact hs y m (hothers y hyx ▸ hy)
    · funext y
      by_cases hyx : y = x
      · subst hyx
        rw [Function.update_self, Kernel.spaces, Kernel.spaces, hm', hm, Option.map_some, Option.map_some,
          Option.map_some, hspace]
      · rw [Function.update_of_ne hyx, Kernel.spaces, Kernel.spaces, hothers y hyx]

/-- **The kernel is address spaces side by side.** -/
theorem kernel_simulates (k : CharKind) (ram swp : DeviceBoot) :
    Simulates ((kernelMachine k ram swp).system.guard LoadFinds) (sideBySide spaceMachine MemEvent.own)
      fun s a => a = s.spaces ∧ AllSetUp s where
  init := by
    rintro s rfl
    exact ⟨_, fun _ => rfl, rfl, fun x mm hx => absurd hx (by simp [Kernel.boot])⟩
  step := by
    rintro s e t a ⟨rfl, hs⟩ ⟨hst, hok⟩
    cases e with
    | load x =>
      obtain ⟨ht, link, hspaces⟩ := spaces_of_loads hst hok hs
      refine ⟨_, fun y => ⟨?_, fun hy => ?_⟩, rfl, ht⟩
      · rintro rfl
        exact ⟨link, by rw [hspaces, Function.update_self]⟩
      · rw [hspaces, Function.update_of_ne hy]
    | exec x ins sched =>
      obtain ⟨junk, stat, hrun⟩ := hst
      obtain ⟨ht, hspaces⟩ := spaces_of_run hrun hs
      refine ⟨_, fun y => ⟨?_, fun hy => ?_⟩, rfl, ht⟩
      · rintro rfl
        show t.spaces y = _
        rw [hspaces, Function.update_self]
      · rw [hspaces, Function.update_of_ne hy]

end

/-- **Nobody's regions depend on anybody else.** In every interleaving of loads and instructions, in which `init_mm`
    finds its frames, the address space of a process is the result of its own loads and instructions, in their order. -/
theorem kernel_is_side_by_side (k : CharKind) (ram swp : DeviceBoot) (es : List MemEvent) (s : Kernel)
    (hs : ((kernelMachine k ram swp).system.guard LoadFinds).Run es s) (x : ℕ) :
    spaceMachine.Run (es.filterMap (ownOf MemEvent.own x)) (s.spaces x) := by
  obtain ⟨a, hrun, rfl, -⟩ := (kernel_simulates k ram swp).run hs
  exact hrun.component x

/-- A process is loaded and allocates. -/
theorem kernel_is_side_by_side_one : ∃ (es : List MemEvent) (s : Kernel), es.filterMap (ownOf MemEvent.own 0)
    = [.load, .exec ⟨.alloc, 100, 0, 0, 0⟩] ∧ (s.spaces 0).isSome ∧
      spaceMachine.Run (es.filterMap (ownOf MemEvent.own 0)) (s.spaces 0) := by
  obtain ⟨hfree, m, mram, hinit, -⟩ := @first_process 512 (by decide) (by decide)
  let T := (kernelMachine .unsigned (zeroDevice 512) (zeroDevice 512)).system.guard LoadFinds
  let s₁ := ({ Kernel.boot (zeroDevice 512) (zeroDevice 512) with mram }).setMm 0 m
  have hm : s₁.mm 0 = some m := Kernel.mm_setMm_self ..
  have harea : OneArea m (vma0 []) := ⟨(initMm_area hinit).1, rfl, rfl⟩
  have hrun := liballoc_eq .unsigned SchedState.static.initScheduler hm harea 100 ⟨0, by decide⟩ 0
  have h : T.Run [] (.boot (zeroDevice 512) (zeroDevice 512)) := .init rfl
  have h := h.step (l := MemEvent.load 0) ⟨.initMm hinit, hfree⟩
  have h := h.step (l := MemEvent.exec 0 ⟨.alloc, 100, 0, 0, 0⟩ SchedState.static.initScheduler) ⟨⟨0, _, hrun⟩, trivial⟩
  refine ⟨_, _, rfl, ?_, kernel_is_side_by_side .unsigned (zeroDevice 512) (zeroDevice 512) _ _ h 0⟩
  rw [Kernel.spaces, Kernel.mm_setMm_self]
  rfl

/-! ## The threads -/

/-- What a step of the threads does to memory and to the record of what has been executed. -/
inductive Effect {cfg : Config} {M : Type} (mach : Machine M) (s t : OsState cfg.numCpus M) : Prop where
  | quiet : t.mem = s.mem → t.executed = s.executed → s.i ≤ t.i → Effect mach s t
  | load : s.ld = .initMm → t.ld = .add → t.executed = s.executed → t.i = s.i → mach.load s.i s.mem t.mem →
      Effect mach s t
  | exec {c x ins} : (s.cpu c).held = some x → t.i = s.i →
      t.executed = Function.update s.executed x (s.executed x ++ [ins]) → mach.exec s.sched x ins s.mem t.mem →
      Effect mach s t

theorem OsStep.effect {cfg : Config} {M : Type} {mach : Machine M} {now : ℕ} {s t : OsState cfg.numCpus M}
    {e : OsEvent cfg.numCpus} (h : OsStep cfg mach now s e t) : Effect mach s t := by
  cases h with
  | @cpu c _ _ hcpu =>
    cases hcpu with
    | @run x u hpc hproc hrun =>
      have hheld : (s.cpu c).held = some x := by
        rw [Cpu.held_of_owns (by rw [hpc]; rfl), hproc]
      cases hrun with
      | atEnd _ => exact .quiet rfl rfl le_rfl
      | exec _ hexec => exact .exec hheld rfl rfl hexec
    | _ => exact .quiet rfl rfl le_rfl
  | ld hld =>
    cases hld with
    | initMm hpc hload => exact .load hpc rfl rfl rfl hload
    | add _ _ => exact .quiet rfl rfl (Nat.le_succ _)
    | _ => exact .quiet rfl rfl le_rfl

/-- `init_mm` finds a frame for the PGD, and what `vm_freerg_list` holds before is `links`. -/
def LoadsLinked (links : ℕ → List VmRgStruct) {n : ℕ} (s t : OsState n Kernel) : Prop :=
  s.ld = .initMm → t.ld = .add →
    s.mem.mram.freeFpList ≠ [] ∧ ∀ mm, t.mem.mm s.i = some mm → mm.mmap = [vma0 (links s.i)]

/-- The address spaces are where the instructions executed so far have left them. -/
structure Followed (links : ℕ → List VmRgStruct) {n : ℕ} (s : OsState n Kernel) : Prop where
  fresh : ∀ x, s.i ≤ x → s.executed x = []
  spaces : ∀ x mm, s.mem.mm x = some mm →
    SetUp mm ∧ mm.addrSpace = (s.executed x).foldl AddrSpace.exec (.initial (links x))

section

variable {cfg : Config} {k : CharKind} {ram swp : DeviceBoot} {links : ℕ → List VmRgStruct}

theorem Followed.step {now : ℕ} {s t : OsState cfg.numCpus Kernel} {e : OsEvent cfg.numCpus}
    (hs : (osSystem cfg (kernelMachine k ram swp)).Reachable s) (h : Followed links s)
    (hst : OsStep cfg (kernelMachine k ram swp) now s e t) (hlinked : LoadsLinked links s t) : Followed links t := by
  cases hst.effect with
  | quiet hmem hexecuted hi =>
    refine ⟨fun x hx => ?_, fun x mm hx => ?_⟩
    · rw [hexecuted]
      exact h.fresh x (hi.trans hx)
    · rw [hexecuted]
      exact h.spaces x mm (hmem ▸ hx)
  | load hpc hpc' hexecuted hi hload =>
    obtain ⟨hframe, hlink⟩ := hlinked hpc hpc'
    refine ⟨fun x hx => ?_, fun x mm hx => ?_⟩
    · rw [hexecuted]
      exact h.fresh x (hi ▸ hx)
    · rw [hexecuted]
      generalize t.mem = u at hload hlink hx
      cases hload with
      | @initMm stat m₀ m mram link hinit =>
        by_cases hxi : x = s.i
        · -- nothing has been executed for a process that is not added yet
          subst hxi
          obtain rfl := initMm_stat hinit hframe
          rw [h.fresh s.i le_rfl]
          have hmmap := hlink mm hx
          rw [Kernel.mm_setMm_self] at hx
          obtain rfl := Option.some.inj hx
          obtain ⟨hsetUp, hspace⟩ := setUp_of_initMm hinit
          rw [(initMm_area hinit).1] at hmmap
          obtain rfl : link = links s.i := by
            simpa [vma0] using hmmap
          exact ⟨hsetUp, hspace⟩
        · rw [Kernel.mm_setMm_of_ne _ _ hxi] at hx
          exact h.spaces x mm hx
  | @exec c y ins hheld hi hexecuted hexec =>
    have hlt : y < s.i := (held_live hs hheld).1
    obtain ⟨junk, stat, hrun⟩ := hexec
    refine ⟨fun x hx => ?_, fun x mm hx => ?_⟩
    · have hne : x ≠ y := by omega
      rw [hexecuted, Function.update_of_ne hne]
      exact h.fresh x (hi ▸ hx)
    · by_cases hxy : x = y
      · subst hxy
        rw [hexecuted, Function.update_self, List.foldl_append, List.foldl_cons, List.foldl_nil]
        cases hm : s.mem.mm x with
        | none =>
          have hsome := isSome_run hrun x
          rw [hx, hm] at hsome
          exact absurd hsome (by simp)
        | some m =>
          obtain ⟨hsetUp, hspace⟩ := h.spaces x m hm
          obtain ⟨mm', hm', hsetUp', hspace'⟩ := exec_of_run hm hsetUp hrun
          rw [hx] at hm'
          obtain rfl := Option.some.inj hm'
          rw [hspace', hspace]
          exact ⟨hsetUp', rfl⟩
      · rw [hexecuted, Function.update_of_ne hxy]
        rw [(run_mm hrun).2 x hxy] at hx
        exact h.spaces x mm hx

theorem followed_of_reachable {s : OsState cfg.numCpus Kernel}
    (hs : ((osSystem cfg (kernelMachine k ram swp)).restrict (LoadsLinked links)).Reachable s) : Followed links s := by
  induction hs with
  | init hinit =>
    obtain ⟨m, rfl, rfl⟩ := hinit
    exact ⟨fun x _ => rfl, fun x mm hx => absurd hx (by simp [OsState.start, Kernel.boot])⟩
  | step hs hst ih =>
    obtain ⟨⟨now, hos⟩, hlinked⟩ := hst
    exact ih.step hs.of_restrict hos hlinked

/-- **The regions of a process are a function of its code and its `pc`.** -/
theorem addrSpace_of_reachable {s : OsState cfg.numCpus Kernel}
    (hs : ((osSystem cfg (kernelMachine k ram swp)).restrict (LoadsLinked links)).Reachable s) {x : ℕ} {mm : MmStruct}
    (hm : s.mem.mm x = some mm) :
    mm.addrSpace = ((cfg.code x).take (s.procPc x)).foldl AddrSpace.exec (.initial (links x)) := by
  rw [((followed_of_reachable hs).spaces x mm hm).2, (orderly_of_reachable hs.of_restrict).executed x]

end

/-- **The regions of a process depend on its progress only.** In two simulators with any number of CPUs, any other
    processes, start times, priorities, slot lengths and memory, and in any interleaving of their threads, two
    processes with the same code that are equally far hold the same free and the same allocated regions. -/
theorem regions_of_progress (k k' : CharKind) (cfg cfg' : Config) (ram swp ram' swp' : DeviceBoot)
    (links links' : ℕ → List VmRgStruct) (s : OsState cfg.numCpus Kernel) (s' : OsState cfg'.numCpus Kernel)
    (hs : ((osSystem cfg (kernelMachine k ram swp)).restrict (LoadsLinked links)).Reachable s)
    (hs' : ((osSystem cfg' (kernelMachine k' ram' swp')).restrict (LoadsLinked links')).Reachable s')
    (x y : ℕ) (m m' : MmStruct) (hm : s.mem.mm x = some m) (hm' : s'.mem.mm y = some m') (hlink : links x = links' y)
    (hcode : cfg.code x = cfg'.code y) (hpc : s.procPc x = s'.procPc y) :
    freeRegions m = freeRegions m' ∧ m.symrgtbl = m'.symrgtbl := by
  have hspace : m.addrSpace = m'.addrSpace := by
    rw [addrSpace_of_reachable hs hm, addrSpace_of_reachable hs' hm', hcode, hpc, hlink]
  exact ⟨congrArg AddrSpace.free hspace, congrArg AddrSpace.live hspace⟩

/-- The process of `oneCall` has executed its ALLOC. -/
theorem oneAlloc_ran {maxSize : AddrT} (hn : 2 ≤ numfpOf maxSize) (hle : numfpOf maxSize ≤ 8192) :
    ∃ (s : OsState (oneCall ⟨.alloc, 100, 0, 0, 0⟩).numCpus Kernel) (m : MmStruct),
      ((osSystem (oneCall ⟨.alloc, 100, 0, 0, 0⟩) (kernelMachine .unsigned (zeroDevice maxSize)
          (zeroDevice maxSize))).restrict (LoadsLinked fun _ => [])).Reachable s ∧
        s.mem.mm 0 = some m ∧ s.procPc 0 = 1 := by
  obtain ⟨hfree, m, mram, hinit, -⟩ := first_process hn hle
  obtain ⟨q, hq, hget, -⟩ := get_mapper
  replace hget : (q.getMlqProc (oneCall ⟨.alloc, 100, 0, 0, 0⟩).prio).1 = some 0 := hget
  let T := (osSystem (oneCall ⟨.alloc, 100, 0, 0, 0⟩) (kernelMachine .unsigned (zeroDevice maxSize)
    (zeroDevice maxSize))).restrict (LoadsLinked fun _ => [])
  let s₁ := ({ Kernel.boot (zeroDevice maxSize) (zeroDevice maxSize) with mram }).setMm 0 m
  have hm : s₁.mm 0 = some m := Kernel.mm_setMm_self ..
  obtain ⟨hmmap, -⟩ := initMm_area hinit
  have harea : OneArea m (vma0 []) := ⟨hmmap, rfl, rfl⟩
  have h : T.Reachable (.start _ (.boot (zeroDevice maxSize) (zeroDevice maxSize))) := .init ⟨_, rfl, rfl⟩
  have h := h.step ⟨⟨0, .ld (.load rfl Nat.one_pos)⟩, fun hpc => LdPc.noConfusion hpc⟩
  have h := h.step ⟨⟨0, .ld (.onTime rfl (Nat.lt_irrefl 0))⟩, fun hpc => LdPc.noConfusion hpc⟩
  have h := h.step ⟨⟨0, .ld (.initMm (m := s₁) rfl (.initMm hinit))⟩,
    fun _ _ => ⟨hfree, fun mm hmm => by
      rw [show OsState.mem _ = s₁ from rfl] at hmm
      obtain rfl := Option.some.inj (hm.symm.trans hmm)
      exact hmmap⟩⟩
  have h := h.step ⟨⟨0, .ld (.add rfl hq)⟩, fun hpc => LdPc.noConfusion hpc⟩
  have h := h.step ⟨⟨0, .cpu (.getIdle (c := callCpu _) rfl rfl)⟩, fun hpc => LdPc.noConfusion hpc⟩
  have h := h.step ⟨⟨0, .cpu (.dispatch (c := callCpu _) (x := 0) (by rw [cpu_setCpu_self]; simp only [hget]; rfl)
    (by rw [cpu_setCpu_self]; simp only [hget]))⟩, fun hpc => LdPc.noConfusion hpc⟩
  have hrun := fun sched => liballoc_eq .unsigned sched hm harea 100 ⟨0, by decide⟩ 0
  have h := h.step ⟨⟨0, .cpu (.run (c := callCpu _) (x := 0) (by rw [cpu_setCpu_self]) (by rw [cpu_setCpu_self])
    (.exec rfl ⟨0, _, hrun _⟩))⟩, fun hpc => LdPc.noConfusion hpc⟩
  exact ⟨_, _, h, Kernel.mm_setMm_self .., rfl⟩

/-- The program of one ALLOC, on a RAM of 512 bytes and on one of 1 MiB. -/
theorem regions_of_progress_sizes : ∃ (s s' : OsState (oneCall ⟨.alloc, 100, 0, 0, 0⟩).numCpus Kernel)
    (m m' : MmStruct),
    (osSystem (oneCall ⟨.alloc, 100, 0, 0, 0⟩)
      (kernelMachine .unsigned (zeroDevice 512) (zeroDevice 512))).Reachable s ∧
    (osSystem (oneCall ⟨.alloc, 100, 0, 0, 0⟩)
      (kernelMachine .unsigned (zeroDevice 1048576) (zeroDevice 1048576))).Reachable s' ∧
    s.mem.mm 0 = some m ∧ s'.mem.mm 0 = some m' ∧ s.procPc 0 = 1 ∧ s'.procPc 0 = 1 ∧
    freeRegions m = freeRegions m' ∧ m.symrgtbl = m'.symrgtbl := by
  obtain ⟨s, m, hs, hm, hpc⟩ := @oneAlloc_ran 512 (by decide) (by decide)
  obtain ⟨s', m', hs', hm', hpc'⟩ := @oneAlloc_ran 1048576 (by decide) (by decide)
  exact ⟨s, s', m, m', hs.of_restrict, hs'.of_restrict, hm, hm', hpc, hpc',
    regions_of_progress .unsigned .unsigned _ _ _ _ _ _ _ _ s s' hs hs' 0 0 m m' hm hm' rfl rfl
      (hpc.trans hpc'.symm)⟩

end LamiaAtrium
