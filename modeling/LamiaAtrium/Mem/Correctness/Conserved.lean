import LamiaAtrium.Lib.Radix.Accounted
import LamiaAtrium.Mem.Correctness.Exclusive
import LamiaAtrium.Os.Correctness.Places

/-!
# `Mem.Correctness.Conserved` — where the frames are

* `FrameUse` is what a frame can be used for, and `Conserved` says that every frame of `MEMPHY_format` has exactly
  one use by the processes that live, and no other frame has one.
* `Held`: the free frames and the page tables of all processes ever loaded are the frames of `MEMPHY_format`.
  `held_of_reachable`: so it is in every run whose steps are clean, whatever the maps set.
* `conserved_iff_not_reaped`: when no map sets a page, frames are conserved exactly as long as no process is
  reaped. `cpu_routine` frees the PCB alone, and nothing calls `free_pcb_memph`.
-/

namespace LamiaAtrium

open Radix

/-- What a frame is used for: a place of the free list, a page table of a process, or a page of it. -/
inductive FrameUse where
  | free (i : ℕ)
  | table (p : ℕ) (is : List (Fin 512))
  | page (p : ℕ) (pgn : AddrT)

/-- `frame` is used for this, where only the processes in `live` count. -/
def Uses (k : CharKind) (live : ℕ → Prop) (s : Kernel) (frame : AddrT) : FrameUse → Prop
  | .free i     => s.mram.freeFpList[i]? = some frame
  | .table p is => live p ∧ is.length ≤ 4 ∧ ∃ m base, s.mm p = some m ∧
      walkTables k s.mram m.pgd (is.map idxOf) = some base ∧ frame = base >>> 12
  | .page p pgn => live p ∧ Names k s p pgn frame

/-- **Every frame of `frames` has exactly one use**, and no other frame has one. -/
structure Conserved (k : CharKind) (frames : List AddrT) (live : ℕ → Prop) (s : Kernel) : Prop where
  known : ∀ {f u}, Uses k live s f u → f ∈ frames
  once : ∀ f ∈ frames, ∃! u, Uses k live s f u

/-- The frames that `MEMPHY_format` has created are conserved, by the processes that are loaded and not yet reaped. -/
def FramesConserved (k : CharKind) (ram : DeviceBoot) {n : ℕ} (s : OsState n Kernel) : Prop :=
  Conserved k ram.device.freeFpList (fun p => p ∉ s.reaped) s.mem

/-! ## The condition on a step -/

/-- A map finds clean frames only; a physical write misses the page tables. -/
def MemmapClean (k : CharKind) (s : Kernel) (regs : ScRegs) : Prop :=
  match (regs.a1.setWidth 32 : BitVec 32) with
  | 1#32 => (regs.a3.setWidth 32 : BitVec 32).toInt ≤ 0 ∨ ∀ f ∈ s.mram.freeFpList, CleanFrame k s.mram f
  | 5#32 => ¬ HoldsTable k s (regs.a2 >>> 12)
  | _    => True

/-- The condition of `StepOk`, but for the maps that set a page. -/
def StepClean (k : CharKind) (s : Kernel) : MemEvent → Prop
  | .load _           => s.mram.freeFpList ≠ []
  | .exec x ins sched => ins.opcode = .syscall → ins.arg0.setWidth 32 = 17#32 →
    ∀ caller, Kernel.findPcbByPid sched (pidOf x) = some caller → MemmapClean k s ⟨ins.arg1, ins.arg2, ins.arg3⟩

theorem StepOk.clean {k : CharKind} {s : Kernel} {e : MemEvent} (h : StepOk k s e) : StepClean k s e := by
  cases e with
  | load x => exact h
  | exec x ins sched =>
    intro hop hnr caller hcaller
    have hok := h hop hnr caller hcaller
    unfold MemmapOk at hok
    unfold MemmapClean
    split
    · rename_i hmap
      rw [hmap] at hok
      exact hok.imp_right And.left
    · rename_i hwrite
      rw [hwrite] at hok
      exact hok
    · trivial

/-- What the step does to memory meets `C`: the `init_mm` of the loader, or the instruction that is executed. -/
def MemoryMeets {M : Type} (C : M → MemEvent → Prop) {n : ℕ} (s t : OsState n M) : Prop :=
  (s.ld = .initMm → t.ld = .add → C s.mem (.load s.i)) ∧
    ∀ x ins, t.executed x = s.executed x ++ [ins] → C s.mem (.exec x ins s.sched)

theorem MemoryMeets.mono {M : Type} {C D : M → MemEvent → Prop} (hCD : ∀ m e, C m e → D m e) {n : ℕ} {s t : OsState n M}
    (h : MemoryMeets C s t) : MemoryMeets D s t :=
  ⟨fun hpc hpc' => hCD _ _ (h.1 hpc hpc'), fun x ins hexecuted => hCD _ _ (h.2 x ins hexecuted)⟩

/-! ## Free frames and page tables -/

/-- **Nothing is lost**: the free frames and the page tables of all processes are the frames `frames`. -/
structure Held (k : CharKind) (root : ℕ → Option AddrT) (frames : List AddrT) (s : Kernel) : Prop
    extends Rooted k root s.mm s.mram where
  accounted : Accounted 5 root (tables k s.mram) s.mram.freeFpList frames

section

variable {k : CharKind} {root : ℕ → Option AddrT} {frames : List AddrT} {s t : Kernel}

theorem Held.keeps (h : Held k root frames s) (hkeep : Keeps s t) : Held k root frames t := by
  refine ⟨h.toRooted.keeps hkeep, ?_⟩
  rw [hkeep.mram]
  exact h.accounted

/-- **Loading** a new process when there is a frame for it. -/
theorem Held.load (h : Held k root frames s) {x : ℕ} (hframe : s.mram.freeFpList ≠ []) (hnew : s.mm x = none)
    (hload : Kernel.Loads x s t) : ∃ root', Held k root' frames t := by
  cases hload with
  | @initMm stat m₀ m mram link hinit =>
    obtain rfl := initMm_stat hinit hframe
    obtain ⟨r, hrooted, hlist, hempty, hothers, -⟩ := h.toRooted.after_initMm x hinit
    have hroot : root x = none := by
      have hpgd := h.pgd x
      rw [hnew] at hpgd
      cases hr : root x with
      | none => rfl
      | some r' =>
        rw [hr] at hpgd
        cases hpgd
    have haccounted := h.accounted
    have hforest := h.forest
    rw [hlist] at haccounted hforest
    exact ⟨_, hrooted, haccounted.plant hforest hempty hothers hroot (Nat.succ_pos 4)⟩

/-- **A physical write** outside the page tables. -/
theorem Held.ioWrite (h : Held k root frames s) {a : AddrT} (b : BYTE) (hmiss : ¬ HoldsTable k s (a >>> 12)) :
    Held k root frames { s with mram := memphyWriteIgn s.mram a b } := by
  refine ⟨h.toRooted.ioWrite b hmiss, ?_⟩
  show Accounted 5 root (tables k (memphyWriteIgn s.mram a b)) (memphyWriteIgn s.mram a b).freeFpList frames
  rw [freeFpList_memphyWriteIgn]
  exact h.accounted.congr fun hp his => h.toRooted.walk_ioWrite b hmiss hp his.le

/-- **One page** keeps the tables accounted. -/
theorem Owned.accounted_pteSetFpn {mm : ℕ → Option MmStruct} {mp : MemphyStruct} (h : Owned k root mm mp)
    (hacc : Accounted 5 root (tables k mp) mp.freeFpList frames) {p : ℕ} {m : MmStruct} (hm : mm p = some m)
    (pgn fpn : AddrT) :
    Owned k root mm (pteSetFpn k m mp pgn fpn).2 ∧
      Accounted 5 root (tables k (pteSetFpn k m mp pgn fpn).2) (pteSetFpn k m mp pgn fpn).2.freeFpList frames := by
  obtain ⟨r, hr, hpgd, -⟩ := h.root_of hm
  obtain ⟨ok, mp', x, hset, hins, -, howned⟩ := h.pteSetFpn_insert hr hpgd pgn fpn
  rw [hset]
  exact ⟨howned, hacc.insert h.forest h.fresh hr rfl hins⟩

theorem Owned.accounted_vmapPgdLoop {mm : ℕ → Option MmStruct} {p : ℕ} {m : MmStruct} (hm : mm p = some m) (n : ℕ) :
    ∀ {mp : MemphyStruct} (pgn : AddrT), Owned k root mm mp →
      Accounted 5 root (tables k mp) mp.freeFpList frames →
        Owned k root mm (vmapPgdLoop k m n mp pgn).2 ∧
          Accounted 5 root (tables k (vmapPgdLoop k m n mp pgn).2) (vmapPgdLoop k m n mp pgn).2.freeFpList frames := by
  induction n with
  | zero =>
    intro mp pgn h hacc
    exact ⟨h, hacc⟩
  | succ n ih =>
    intro mp pgn h hacc
    obtain ⟨howned, hacc'⟩ := h.accounted_pteSetFpn hacc hm pgn 0
    rw [vmapPgdLoop]
    generalize pteSetFpn k m mp pgn 0 = r at howned hacc' ⊢
    obtain ⟨stat, mp₁⟩ := r
    dsimp only at howned hacc' ⊢
    by_cases hstat : stat = 0
    · rw [if_neg (not_not.mpr hstat)]
      exact ih _ howned hacc'
    · rw [if_pos hstat]
      exact ⟨howned, hacc'⟩

/-- **A map**, whether it succeeds or not, when the free frames are clean. -/
theorem Held.map (h : Held k root frames s) {caller : ℕ} {m : MmStruct} (hm : s.mm caller = some m) {addr : AddrT}
    {pgnum : ℤ} (hok : pgnum ≤ 0 ∨ ∀ f ∈ s.mram.freeFpList, CleanFrame k s.mram f) :
    Held k root frames { s with mram := (vmapPgdMemset k m s.mram addr pgnum).2 } := by
  unfold vmapPgdMemset
  rcases hok with hnone | hclean
  · rw [Int.toNat_of_nonpos hnone]
    exact h
  · obtain ⟨howned, hacc⟩ :=
      Owned.accounted_vmapPgdLoop hm pgnum.toNat (addr >>> 12) (h.toRooted.owned_of_clean hclean) h.accounted
    exact ⟨howned.toRooted, hacc⟩

/-- **An instruction** that meets the condition. -/
theorem Held.run (h : Held k root frames s) {x : ℕ} {ins : InstT} {sched : SchedState ℕ} {junk : BYTE} {stat : ℤ}
    (hok : StepClean k s (.exec x ins sched)) (hrun : s.run k sched x ins junk = .ok (stat, t)) :
    Held k root frames t := by
  rcases run_cases hrun with hkeep | ⟨hop, hnr, caller, hcaller, hcall⟩
  · exact h.keeps hkeep.toKeeps
  · have hmemmap := hok hop hnr caller hcaller
    unfold MemmapClean at hmemmap
    rcases hcall with ⟨hmap, mm, hmm, rfl⟩ | ⟨hwrite, rfl⟩
    · rw [hmap] at hmemmap
      exact h.map hmm hmemmap
    · rw [hwrite] at hmemmap
      exact h.ioWrite _ hmemmap

end

/-! ## The threads -/

/-- For how many processes the loader has called `init_mm`. -/
def OsState.loaded {n : ℕ} {M : Type} (s : OsState n M) : ℕ := if s.ld = .add then s.i + 1 else s.i

/-- What a step of the threads does to memory. -/
inductive MemoryStep {n : ℕ} {M : Type} (mach : Machine M) (s t : OsState n M) : Prop where
  | same : t.mem = s.mem → t.loaded = s.loaded → MemoryStep mach s t
  | load : s.ld = .initMm → t.ld = .add → s.loaded = s.i → t.loaded = s.i + 1 → mach.load s.i s.mem t.mem →
      MemoryStep mach s t
  | exec {x ins} : t.executed x = s.executed x ++ [ins] → t.loaded = s.loaded →
      mach.exec s.sched x ins s.mem t.mem → MemoryStep mach s t

theorem OsStep.memory {n now : ℕ} {M : Type} {cfg : Config} {mach : Machine M} {s t : OsState n M} {e : OsEvent n}
    (h : OsStep cfg mach now s e t) : MemoryStep mach s t := by
  cases h with
  | cpu hcpu =>
    cases hcpu with
    | run _ _ hrun =>
      cases hrun with
      | atEnd _ => exact .same rfl rfl
      | exec _ hexec => exact .exec (Function.update_self ..) rfl hexec
    | _ => exact .same rfl rfl
  | ld hld =>
    cases hld with
    | initMm hpc hload =>
      refine .load hpc rfl ?_ rfl hload
      rw [OsState.loaded, hpc]
      rfl
    | load hpc | allLoaded hpc | early hpc | onTime hpc | callWait hpc | retWait hpc | add hpc | call hpc | ret hpc
    | setDone hpc | detach hpc =>
      refine .same rfl ?_
      rw [OsState.loaded, OsState.loaded, hpc]
      rfl

/-- What the threads do to memory when all their steps meet `C` is a run of the machine that does, too. -/
theorem memGuarded_of_os {M : Type} {cfg : Config} {mach : Machine M} {C : M → MemEvent → Prop}
    {s : OsState cfg.numCpus M} (hs : ((osSystem cfg mach).restrict (MemoryMeets C)).Reachable s) :
    (mach.system.guard C).Reachable s.mem := by
  induction hs with
  | init hinit =>
    obtain ⟨m, hm, rfl⟩ := hinit
    exact .init hm
  | @step s e t hs hst ih =>
    obtain ⟨⟨now, hos⟩, hload, hexec⟩ := hst
    cases hos.memory with
    | same hmem _ =>
      rw [hmem]
      exact ih
    | load hpc hpc' _ _ hinit => exact ih.step (l := MemEvent.load s.i) ⟨hinit, hload hpc hpc'⟩
    | @exec x ins hexecuted _ hrun => exact ih.step (l := MemEvent.exec x ins s.sched) ⟨hrun, hexec x ins hexecuted⟩

section

variable {k : CharKind} {cfg : Config} {ram swp : DeviceBoot} {s t : OsState cfg.numCpus Kernel}

/-- No instruction starts or ends an address space. -/
theorem isSome_run {sched : SchedState ℕ} {s t : Kernel} {x : ℕ} {ins : InstT} {junk : BYTE} {stat : ℤ}
    (h : s.run k sched x ins junk = .ok (stat, t)) (p : ℕ) : (t.mm p).isSome = (s.mm p).isSome := by
  rw [← Option.isSome_map (f := MmStruct.pgd), (run_mm h).1 p, Option.isSome_map]

/-- **The processes with an address space** are those that the loader has loaded. -/
theorem isSome_mm_iff (hs : (osSystem cfg (kernelMachine k ram swp)).Reachable s) (p : ℕ) :
    (s.mem.mm p).isSome ↔ p < s.loaded := by
  refine Lts.System.Reachable.invariant (I := fun s => ∀ p, (s.mem.mm p).isSome ↔ p < s.loaded) ?_ ?_ hs p
  · rintro s ⟨m, rfl, rfl⟩ p
    exact ⟨fun h => absurd h (by simp [OsState.start, Kernel.boot]), fun h => absurd h (Nat.not_lt_zero p)⟩
  · rintro s e t ih ⟨now, hst⟩ p
    cases hst.memory with
    | same hmem hloaded =>
      rw [hmem, hloaded]
      exact ih p
    | load hpc hpc' hloaded hloaded' hload =>
      rw [hloaded']
      have hold := ih p
      rw [hloaded] at hold
      generalize t.mem = u at hload
      cases hload with
      | @initMm stat m₀ m mram link hinit =>
        by_cases hp : p = s.i
        · subst hp
          rw [Kernel.mm_setMm_self]
          exact ⟨fun _ => Nat.lt_succ_self _, fun _ => rfl⟩
        · rw [Kernel.mm_setMm_of_ne _ _ hp]
          show (s.mem.mm p).isSome ↔ p < s.i + 1
          rw [hold]
          omega
    | exec _ hloaded hexec =>
      obtain ⟨junk, stat, hrun⟩ := hexec
      rw [isSome_run hrun p, hloaded]
      exact ih p

/-- Whoever is reaped has been loaded. -/
theorem isSome_of_reaped (hs : (osSystem cfg (kernelMachine k ram swp)).Reachable s) {x : ℕ} (hx : x ∈ s.reaped) :
    (s.mem.mm x).isSome := by
  rw [isSome_mm_iff hs]
  have hle := places_le hs x
  have hcount := List.count_pos_iff.mpr hx
  unfold OsState.places at hle
  unfold OsState.loaded
  split at hle <;> split <;> omega

/-- **Nothing is lost but by a reap**: in every run whose steps are clean, the free frames and the page tables of all
    processes ever loaded are the frames of `MEMPHY_format`. -/
theorem held_of_reachable (hformat : Formatted ram.mp ram.link ram.maxSize)
    (hs : ((osSystem cfg (kernelMachine k ram swp)).restrict (MemoryMeets (StepClean k))).Reachable s) :
    ∃ root, Held k root ram.device.freeFpList s.mem := by
  induction hs with
  | init hinit =>
    obtain ⟨m, rfl, rfl⟩ := hinit
    obtain ⟨hrooted, -⟩ := rooted_initMemphy (k := k) ram.block (show (1 : ℤ) ≠ 0 by decide) hformat
    exact ⟨_, hrooted, fun f hf => hf, fun hp => absurd hp (by simp), fun f hf => .inl hf⟩
  | @step s e t hs hst ih =>
    obtain ⟨root, h⟩ := ih
    obtain ⟨⟨now, hos⟩, hload, hexec⟩ := hst
    cases hos.memory with
    | same hmem _ =>
      rw [hmem]
      exact ⟨root, h⟩
    | load hpc hpc' hloaded _ hinit =>
      have hnew : s.mem.mm s.i = none := by
        rw [← Option.not_isSome_iff_eq_none, isSome_mm_iff hs.of_restrict, hloaded]
        exact Nat.lt_irrefl _
      exact h.load (hload hpc hpc') hnew hinit
    | @exec x ins hexecuted _ hrun =>
      obtain ⟨junk, stat, hrun⟩ := hrun
      exact ⟨root, h.run (hexec x ins hexecuted) hrun⟩

end

/-! ## The uses of a frame -/

theorem baseOf_ushiftRight {f : AddrT} (hf : Addressable f) : baseOf f >>> 12 = f := by
  have hf' : f.toNat < 2 ^ 52 := hf
  apply BitVec.eq_of_toNat_eq
  rw [BitVec.toNat_ushiftRight, baseOf, BitVec.toNat_mul, BitVec.toNat_ofNat, Nat.shiftRight_eq_div_pow]
  unfold paging64Pagesz
  omega

section

variable {k : CharKind} {root : ℕ → Option AddrT} {frames : List AddrT} {live : ℕ → Prop} {s : Kernel} {f : AddrT}
  {u u' : FrameUse}

theorem uses_table_iff (h : Rooted k root s.mm s.mram) {p : ℕ} {is : List (Fin 512)} :
    Uses k live s f (.table p is) ↔
      live p ∧ is.length < 5 ∧ ∃ r, root p = some r ∧ walk (tables k s.mram) r is = some f := by
  constructor
  · rintro ⟨hlive, hlen, m, base, hm, hwalk, rfl⟩
    obtain ⟨r, hr, hpgd, hra⟩ := h.root_of hm
    obtain ⟨hmap, haddr⟩ := @walkTables_walk k s.mram is r hra
    rw [hpgd, hmap] at hwalk
    obtain ⟨g, hg, rfl⟩ := Option.map_eq_some_iff.mp hwalk
    refine ⟨hlive, Nat.lt_succ_of_le hlen, r, hr, ?_⟩
    rw [baseOf_ushiftRight (haddr g hg)]
    exact hg
  · rintro ⟨hlive, hlen, r, hr, hf⟩
    obtain ⟨m, hm, hpgd⟩ := h.mm_of hr
    obtain ⟨hmap, haddr⟩ := @walkTables_walk k s.mram is r (h.roots hr)
    refine ⟨hlive, Nat.le_of_lt_succ hlen, m, baseOf f, hm, ?_, (baseOf_ushiftRight (haddr f hf)).symm⟩
    rw [hpgd, hmap, hf]
    rfl

/-- More processes have more uses. -/
theorem Uses.of_live (h : Uses k live s f u) : Uses k (fun _ => True) s f u := by
  cases u with
  | free i => exact h
  | table p is => exact ⟨trivial, h.2⟩
  | page p pgn => exact ⟨trivial, h.2⟩

/-- Only frames of `frames` are free or tables. -/
theorem Held.known (h : Held k root frames s) (hpage : ∀ p pgn, u ≠ .page p pgn) (hu : Uses k live s f u) :
    f ∈ frames := by
  cases u with
  | free i => exact h.accounted.of_pool f (List.mem_of_getElem? hu)
  | table p is =>
    obtain ⟨-, hlen, r, hr, hwalk⟩ := (uses_table_iff h.toRooted).mp hu
    exact h.accounted.of_table hr hlen hwalk
  | page p pgn => exact absurd rfl (hpage p pgn)

/-- No frame is free or a table twice. -/
theorem Held.unique (h : Held k root frames s) (hpage : ∀ p pgn, u ≠ .page p pgn) (hpage' : ∀ p pgn, u' ≠ .page p pgn)
    (hu : Uses k live s f u) (hu' : Uses k live s f u') : u = u' := by
  have hfree_table : ∀ {i p is}, Uses k live s f (.free i) → ¬ Uses k live s f (.table p is) := by
    intro i p is hi htable
    obtain ⟨-, hlen, r, hr, hwalk⟩ := (uses_table_iff h.toRooted).mp htable
    exact h.forest.off_pool hr hlen hwalk (List.mem_of_getElem? hi)
  cases u with
  | free i =>
    cases u' with
    | free j =>
      obtain ⟨hi, hfi⟩ := List.getElem?_eq_some_iff.mp hu
      obtain ⟨hj, hfj⟩ := List.getElem?_eq_some_iff.mp hu'
      rw [(h.forest.nodup.getElem_inj_iff).mp (hfi.trans hfj.symm)]
    | table p is => exact absurd hu' (hfree_table hu)
    | page p pgn => exact absurd rfl (hpage' p pgn)
  | table p is =>
    cases u' with
    | free j => exact absurd hu (hfree_table hu')
    | table q js =>
      obtain ⟨-, hlen, r, hr, hwalk⟩ := (uses_table_iff h.toRooted).mp hu
      obtain ⟨-, hlen', r', hr', hwalk'⟩ := (uses_table_iff h.toRooted).mp hu'
      obtain ⟨rfl, rfl⟩ := h.forest.inj hr hr' hlen hlen' hwalk hwalk'
      rfl
    | page p pgn => exact absurd rfl (hpage' p pgn)
  | page p pgn => exact absurd rfl (hpage p pgn)

/-- **Each frame is free, or a table of one of the processes ever loaded**, once. -/
theorem Held.once (h : Held k root frames s) (hf : f ∈ frames) :
    ∃! u, (∀ p pgn, u ≠ .page p pgn) ∧ Uses k (fun _ => True) s f u := by
  have hex : ∃ u : FrameUse, (∀ p pgn, u ≠ .page p pgn) ∧ Uses k (fun _ => True) s f u := by
    rcases h.accounted.cover f hf with hpool | ⟨p, r, is, hp, his, hwalk⟩
    · obtain ⟨i, hi⟩ := List.mem_iff_getElem?.mp hpool
      exact ⟨.free i, fun _ _ => FrameUse.noConfusion, hi⟩
    · exact ⟨.table p is, fun _ _ => FrameUse.noConfusion, (uses_table_iff h.toRooted).mpr ⟨trivial, his, r, hp, hwalk⟩⟩
  obtain ⟨u, hpage, hu⟩ := hex
  refine ⟨u, ⟨hpage, hu⟩, ?_⟩
  rintro u' ⟨hpage', hu'⟩
  exact h.unique hpage' hpage hu' hu

/-- **When the frames are conserved**: all processes that were ever loaded live. -/
theorem Held.conserved_iff (h : Held k root frames s) (hnames : ∀ {p pgn f}, ¬ Names k s p pgn f) :
    Conserved k frames live s ↔ ∀ x, (s.mm x).isSome → live x := by
  have hpage : ∀ {live f u}, Uses k live s f u → ∀ p pgn, u ≠ .page p pgn := by
    rintro live f _ hu p pgn rfl
    exact hnames hu.2
  constructor
  · -- the PGD of `x` has no use by anyone else
    intro hcons x hx
    obtain ⟨m, hm⟩ := Option.isSome_iff_exists.mp hx
    obtain ⟨r, hr, -⟩ := h.root_of hm
    have hpgd : Uses k (fun _ => True) s r (.table x []) :=
      (uses_table_iff h.toRooted).mpr ⟨trivial, Nat.succ_pos 4, r, hr, rfl⟩
    obtain ⟨u, hu, -⟩ := hcons.once r (h.known (hpage hpgd) hpgd)
    obtain rfl := h.unique (hpage hu) (hpage hpgd) hu.of_live hpgd
    exact hu.1
  · intro hlive
    refine ⟨fun hu => h.known (hpage hu) hu, fun f hf => ?_⟩
    obtain ⟨u, ⟨-, hu⟩, hunique⟩ := h.once hf
    refine ⟨u, ?_, fun u' hu' => hunique u' ⟨hpage hu', hu'.of_live⟩⟩
    cases u with
    | free i => exact hu
    | table p is =>
      obtain ⟨-, hlen, m, base, hm, hwalk⟩ := hu
      exact ⟨hlive p (by rw [hm]; rfl), hlen, m, base, hm, hwalk⟩
    | page p pgn => exact absurd hu.2 hnames

/-- **A page in the frame of a PGD**, where a map puts it, uses that frame twice. -/
theorem not_conserved_of_names (h : Held k root frames s) {p q : ℕ} {pgn r : AddrT} (hp : live p) (hq : live q)
    (hr : root q = some r) (hnames : Names k s p pgn r) : ¬ Conserved k frames live s := by
  intro hcons
  have hpgd : Uses k live s r (.table q []) :=
    (uses_table_iff h.toRooted).mpr ⟨hq, Nat.succ_pos 4, r, hr, rfl⟩
  have hpage : Uses k live s r (.page p pgn) := ⟨hp, hnames⟩
  obtain ⟨u, -, hunique⟩ := hcons.once r (hcons.known hpgd)
  cases (hunique _ hpgd).trans (hunique _ hpage).symm

/-- **A process for which there was no frame** has a PGD anywhere. -/
theorem not_conserved_of_failed_load (h : Held k root frames s) (hempty : s.mram.freeFpList = []) {x : ℕ} {t : Kernel}
    (hnew : s.mm x = none) (hload : Kernel.Loads x s t) (hlive : ∀ p, (t.mm p).isSome → live p) :
    ¬ Conserved k frames live t := by
  intro hcons
  cases hload with
  | @initMm stat m₀ m mram link hinit =>
    rw [initMm_of_nil m₀ hempty] at hinit
    obtain ⟨-, rfl, rfl⟩ : -1 = stat ∧ m₀ = m ∧ s.mram = mram := by simpa using hinit
    have hx : (({ s with mram := s.mram } : Kernel).setMm x m₀).mm x = some m₀ := Kernel.mm_setMm_self ..
    have hpgd : Uses k live (({ s with mram := s.mram } : Kernel).setMm x m₀) (m₀.pgd >>> 12) (.table x []) :=
      ⟨hlive x (by rw [hx]; rfl), Nat.zero_le 4, m₀, m₀.pgd, hx, rfl, rfl⟩
    have hknown := hcons.known hpgd
    obtain ⟨u, -, hunique⟩ := hcons.once _ hknown
    -- some process that was loaded before has the frame already
    rcases h.accounted.cover _ hknown with hpool | ⟨p, r, is, hp, his, hwalk⟩
    · rw [hempty] at hpool
      cases hpool
    · have hbefore : Uses k (fun _ => True) s (m₀.pgd >>> 12) (.table p is) :=
        (uses_table_iff h.toRooted).mpr ⟨trivial, his, r, hp, hwalk⟩
      obtain ⟨-, hlen, m, base, hm, hbase⟩ := hbefore
      have hpx : p ≠ x := by
        rintro rfl
        rw [hnew] at hm
        cases hm
      have hm' : (({ s with mram := s.mram } : Kernel).setMm x m₀).mm p = some m :=
        (Kernel.mm_setMm_of_ne _ _ hpx).trans hm
      have hold : Uses k live (({ s with mram := s.mram } : Kernel).setMm x m₀) (m₀.pgd >>> 12) (.table p is) :=
        ⟨hlive p (by rw [hm']; rfl), hlen, m, base, hm', hbase⟩
      cases (hunique _ hpgd).trans (hunique _ hold).symm
      exact hpx rfl

end

/-! ## Every run -/

/-- In the runs whose steps meet the condition, no page is resident either. -/
theorem held_of_ok {k : CharKind} {cfg : Config} {ram swp : DeviceBoot}
    (hformat : Formatted ram.mp ram.link ram.maxSize) {s : OsState cfg.numCpus Kernel}
    (hs : ((osSystem cfg (kernelMachine k ram swp)).restrict (MemoryMeets (StepOk k))).Reachable s) :
    (∃ root, Held k root ram.device.freeFpList s.mem) ∧ ∀ {p pgn f}, ¬ Names k s.mem p pgn f := by
  obtain ⟨root, hunmapped⟩ := unmapped_of_guarded hformat (memGuarded_of_os hs)
  refine ⟨held_of_reachable hformat (hs.restrict_mono fun _ _ h => ?_), hunmapped.not_names⟩
  exact h.mono fun _ _ => StepOk.clean

/-- **Frames are conserved exactly until the first reap**, in every run whose steps meet the condition. -/
theorem conserved_iff_not_reaped (k : CharKind) (cfg : Config) (ram swp : DeviceBoot)
    (hformat : Formatted ram.mp ram.link ram.maxSize) (s : OsState cfg.numCpus Kernel)
    (hs : ((osSystem cfg (kernelMachine k ram swp)).restrict (MemoryMeets (StepOk k))).Reachable s) :
    FramesConserved k ram s ↔ s.reaped = [] := by
  obtain ⟨⟨root, hheld⟩, hnames⟩ := held_of_ok hformat hs
  rw [FramesConserved, hheld.conserved_iff hnames, List.eq_nil_iff_forall_not_mem]
  constructor
  · intro h x hx
    exact h x (isSome_of_reaped hs.of_restrict hx) hx
  · intro h x _
    exact h x

/-- A step that neither loads nor executes meets every condition. -/
theorem memoryMeets_of_quiet {M : Type} {C : M → MemEvent → Prop} {n : ℕ} {s t : OsState n M} (hld : s.ld ≠ .initMm)
    (hexecuted : t.executed = s.executed) : MemoryMeets C s t := by
  refine ⟨fun hpc => absurd hpc hld, fun x ins h => ?_⟩
  rw [hexecuted] at h
  exact absurd h (by simp)

/-- The loader has called `init_mm` for the process of `oneCall`. -/
theorem oneCall_loaded (ins : InstT) {maxSize : AddrT} {m : MmStruct} {mram : MemphyStruct}
    (hfree : (zeroDevice maxSize).device.freeFpList ≠ [])
    (hinit : initMm rawMm (zeroDevice maxSize).device [] = (0, m, mram)) :
    ∃ s : OsState (oneCall ins).numCpus Kernel,
      ((osSystem (oneCall ins) (kernelMachine .unsigned (zeroDevice maxSize) (zeroDevice maxSize))).restrict
          (MemoryMeets (StepOk .unsigned))).Reachable s ∧
        s.mem = ({ Kernel.boot (zeroDevice maxSize) (zeroDevice maxSize) with mram }).setMm 0 m ∧ s.reaped = [] := by
  let T := (osSystem (oneCall ins) (kernelMachine .unsigned (zeroDevice maxSize) (zeroDevice maxSize))).restrict
    (MemoryMeets (StepOk .unsigned))
  let s₁ := ({ Kernel.boot (zeroDevice maxSize) (zeroDevice maxSize) with mram }).setMm 0 m
  have h : T.Reachable (.start _ (.boot (zeroDevice maxSize) (zeroDevice maxSize))) := .init ⟨_, rfl, rfl⟩
  have h := h.step ⟨⟨0, .ld (.load rfl Nat.one_pos)⟩, memoryMeets_of_quiet LdPc.noConfusion rfl⟩
  have h := h.step ⟨⟨0, .ld (.onTime rfl (Nat.lt_irrefl 0))⟩, memoryMeets_of_quiet LdPc.noConfusion rfl⟩
  have h := h.step ⟨⟨0, .ld (.initMm (m := s₁) rfl (.initMm hinit))⟩, fun _ _ => hfree, fun x ins hx => by simp at hx⟩
  exact ⟨_, h, rfl, rfl⟩

/-- While the only process lives, its frames and the free ones are all the frames there are. -/
theorem conserved_iff_not_reaped_loaded : ∃ s : OsState (oneCall ⟨.calc, 0, 0, 0, 0⟩).numCpus Kernel,
    (s.mem.mm 0).isSome ∧ FramesConserved .unsigned (zeroDevice 512) s := by
  have htwo : 2 ≤ numfpOf 512 ∧ numfpOf 512 ≤ 8192 := by decide
  obtain ⟨hfree, m, mram, hinit, -⟩ := first_process htwo.1 htwo.2
  obtain ⟨s, h, hmem, hreaped⟩ := oneCall_loaded ⟨.calc, 0, 0, 0, 0⟩ hfree hinit
  refine ⟨s, ?_, ?_⟩
  · rw [hmem, Kernel.mm_setMm_self]
    rfl
  · exact (conserved_iff_not_reaped .unsigned _ (zeroDevice 512) (zeroDevice 512) (formatted_zeroDevice htwo.1) s h).mpr
      hreaped

/-- **A process that ends**: its PGD stays taken. -/
theorem conserved_fails : ¬ ∀ (k : CharKind) (cfg : Config) (ram swp : DeviceBoot) (s : OsState cfg.numCpus Kernel),
    (osSystem cfg (kernelMachine k ram swp)).Reachable s → FramesConserved k ram s := by
  intro hall
  have hsize : 2 ≤ numfpOf 1048576 ∧ numfpOf 1048576 ≤ 8192 := by decide
  obtain ⟨hfree, m, mram, hinit, -⟩ := first_process hsize.1 hsize.2
  -- the process is loaded
  obtain ⟨s₀, h₀, hmem₀, -⟩ := oneCall_loaded ⟨.calc, 0, 0, 0, 0⟩ hfree hinit
  obtain ⟨⟨root, hheld⟩, hnames⟩ := held_of_ok (formatted_zeroDevice hsize.1) h₀
  -- it is dispatched, executes its instruction, and is reaped after the slot
  obtain ⟨s, h, hmem, hcpu, hpc, hreaped, -⟩ := oneCall_dispatched ⟨.calc, 0, 0, 0, 0⟩ hinit
  have h := h.step ⟨0, .cpu (.run (c := callCpu _) (x := 0) (by rw [hcpu]) (by rw [hcpu])
    (.exec (by rw [hpc]; rfl) ⟨0, 0, rfl⟩))⟩
  have h := h.step ⟨0, .cpu (.call (c := callCpu _) (by rw [cpu_setCpu_self]))⟩
  have h := h.step ⟨0, .cpu (.ret (c := callCpu _) (by rw [cpu_setCpu_self]))⟩
  have h := h.step ⟨0, .cpu (.reap (c := callCpu _) (x := 0) (by rw [cpu_setCpu_self]) (by simp)
    (by simp [OsState.setCpu, hpc, oneCall]))⟩
  have hcons := hall .unsigned _ (zeroDevice 1048576) (zeroDevice 1048576) _ h
  have hcons' : Conserved .unsigned (zeroDevice 1048576).device.freeFpList (fun p => p ∉ 0 :: s.reaped) s₀.mem := by
    rw [hmem₀, ← hmem]
    exact hcons
  rw [hheld.conserved_iff hnames] at hcons'
  refine hcons' 0 ?_ List.mem_cons_self
  rw [hmem₀, Kernel.mm_setMm_self]
  rfl

end LamiaAtrium
