import LamiaAtrium.Mem.Correctness.Isolation
import LamiaAtrium.Mem.Correctness.PageTrees

/-!
# `Mem.Correctness.OwnPages` — the pages of a process are those that its own instructions have mapped

* `InstT.maps`: the pages that an instruction asks `SYSMEM_MAP_OP` to map, by number.
* `mem_setPages`, `mem_setPages_iff`: what a map adds to the page tables.
* `Traced`: every node of the page tables comes from a load or from an instruction of its process.
* `pages_of_progress`: while frames are left, what an address translates to depends on the code of its process and on
  how far it is, and on nothing else in the system.
-/

namespace LamiaAtrium

open Radix

/-! ## What a map adds -/

/-- The instruction is a system call that maps `page`. -/
def InstT.maps (ins : InstT) (page : ℕ) : Prop :=
  ins.opcode = .syscall ∧ ins.arg0.setWidth 32 = 17#32 ∧ (ins.arg1.setWidth 32 : BitVec 32) = 1#32 ∧
    ∃ i < (ins.arg3.setWidth 32 : BitVec 32).toInt.toNat, page = (ins.arg2.toNat / 4096 + i) % 2 ^ 45

/-- The page of an address. -/
def pageOf (vaddr : AddrT) : ℕ := vaddr.toNat / 4096 % 2 ^ 45

theorem leafPath_eq_iff {a b : AddrT} : leafPath a = leafPath b ↔ pageOf a = pageOf b := by
  simp only [leafPath, upperPath, levelIdx, List.cons_append, List.nil_append, List.cons.injEq, Fin.mk.injEq, and_true,
    pageOf]
  constructor
  · rintro ⟨h₁, h₂, h₃, h₄, h₅⟩
    omega
  · intro h
    refine ⟨?_, ?_, ?_, ?_, ?_⟩ <;> omega

theorem leafPath_ne_nil (addr : AddrT) : leafPath addr ≠ [] := by
  rw [← List.length_pos_iff, length_leafPath]
  exact Nat.succ_pos 4

theorem pageOf_pgn (addr : AddrT) (i : ℕ) :
    pageOf ((addr >>> 12 + BitVec.ofNat 64 i) <<< 12) = (addr.toNat / 4096 + i) % 2 ^ 45 := by
  rw [pageOf, BitVec.toNat_shiftLeft, BitVec.toNat_add, BitVec.toNat_ushiftRight, BitVec.toNat_ofNat, Nat.shiftLeft_eq,
    Nat.shiftRight_eq_div_pow]
  omega

/-- The nodes on the way to one of the pages. -/
def OnWay (pgn : AddrT) (n : ℕ) (js : List (Fin 512)) : Prop :=
  ∃ i < n, js ≠ [] ∧ js <+: leafPath ((pgn + BitVec.ofNat 64 i) <<< 12)

theorem OnWay.zero_or_succ {pgn : AddrT} {n : ℕ} {js : List (Fin 512)} :
    OnWay pgn (n + 1) js ↔ (js ≠ [] ∧ js <+: leafPath (pgn <<< 12)) ∨ OnWay (pgn + 1) n js := by
  have hnext : ∀ i : ℕ, pgn + BitVec.ofNat 64 (i + 1) = pgn + 1 + BitVec.ofNat 64 i := by
    intro i
    rw [BitVec.ofNat_add, BitVec.add_comm (BitVec.ofNat 64 i), ← BitVec.add_assoc]
    rfl
  constructor
  · rintro ⟨i, hi, hne, hpre⟩
    cases i with
    | zero => exact .inl ⟨hne, by simpa using hpre⟩
    | succ i =>
      rw [hnext] at hpre
      exact .inr ⟨i, Nat.lt_of_succ_lt_succ hi, hne, hpre⟩
  · rintro (⟨hne, hpre⟩ | ⟨i, hi, hne, hpre⟩)
    · exact ⟨0, Nat.succ_pos n, hne, by simpa using hpre⟩
    · refine ⟨i + 1, Nat.succ_lt_succ hi, hne, ?_⟩
      rw [hnext]
      exact hpre

section

variable {a : PageTrees} {p : ℕ}

theorem setPages_free_le (n : ℕ) : ∀ (a : PageTrees) (pgn : AddrT), (setPages p n a pgn).free ≤ a.free := by
  induction n with
  | zero => exact fun a pgn => le_rfl
  | succ n ih =>
    intro a pgn
    rw [setPages]
    split
    · exact (ih _ _).trans Trees.insert_free_le
    · exact Trees.insert_free_le

/-- A map adds nothing but the way to its pages. -/
theorem mem_setPages (n : ℕ) : ∀ {a : PageTrees} {pgn : AddrT} {q : ℕ} {js : List (Fin 512)},
    (q, js) ∈ (setPages p n a pgn).nodes → (q, js) ∈ a.nodes ∨ q = p ∧ OnWay pgn n js := by
  induction n with
  | zero => exact fun hmem => .inl hmem
  | succ n ih =>
    intro a pgn q js hmem
    have hpage : (q, js) ∈ (setPage a p pgn).2.nodes → (q, js) ∈ a.nodes ∨ q = p ∧ OnWay pgn (n + 1) js := by
      intro hmem
      rcases Trees.mem_insert hmem with hold | ⟨hq, hway⟩
      · exact .inl hold
      · exact .inr ⟨hq, OnWay.zero_or_succ.mpr (.inl hway)⟩
    rw [setPages] at hmem
    split at hmem
    · rcases ih hmem with hone | ⟨hq, hway⟩
      · exact hpage hone
      · exact .inr ⟨hq, OnWay.zero_or_succ.mpr (.inr hway)⟩
    · exact hpage hmem

/-- A map that leaves a frame has mapped all of its pages. -/
theorem mem_setPages_iff (n : ℕ) : ∀ {a : PageTrees} {pgn : AddrT} {q : ℕ} {js : List (Fin 512)},
    0 < (setPages p n a pgn).free →
      ((q, js) ∈ (setPages p n a pgn).nodes ↔ (q, js) ∈ a.nodes ∨ q = p ∧ OnWay pgn n js) := by
  induction n with
  | zero =>
    intro a pgn q js _
    refine ⟨fun hmem => .inl hmem, fun hmem => hmem.resolve_right ?_⟩
    rintro ⟨-, i, hi, -⟩
    exact Nat.not_lt_zero i hi
  | succ n ih =>
    intro a pgn q js hfree
    rw [setPages] at hfree ⊢
    split at hfree
    · rename_i hok
      have hone := @Trees.mem_insert_iff _ _ _ _ a p _ _ hok (q, js)
      rw [if_pos hok, ih hfree, OnWay.zero_or_succ]
      rw [setPage, hone, leafPath, or_assoc, ← and_or_left]
    · rename_i hfails
      exact absurd (Trees.insert_fails hfails) hfree.ne'

end

/-! ## The threads -/

/-- The caller of a system call is the process that executes it, when the running list has never overflowed. -/
theorem own_caller {cfg : Config} {M : Type} {mach : Machine M} (hprocs : cfg.numProcesses < 2 ^ 31)
    {s : OsState cfg.numCpus M} (h : ((osSystem cfg mach).guard (DispatchRoom cfg)).Reachable s) {c : Fin cfg.numCpus}
    {x : ℕ} (hheld : (s.cpu c).held = some x) : Kernel.findPcbByPid s.sched (pidOf x) = some x := by
  have hbound := i_le_numProcesses h.of_guard
  obtain ⟨hxi, -⟩ := held_live h.of_guard hheld
  have hmem : x ∈ s.sched.runningList.toList := by
    rw [listed_iff h]
    exact (one_le_heldCount hheld).trans (Nat.le_add_right ..)
  have hfind : s.sched.runningList.toList.find? (fun y => pidOf y == pidOf x) = some x := by
    refine find?_eq_of_unique hmem (beq_self_eq_true _) fun y hy hpid => ?_
    -- whoever is on the list has been loaded
    have hyi : y < s.i := by
      by_contra hlt
      have hserved := (listed_of_reachable h.of_guard).served y hy
      have hle := (served_le_places s y).trans (places_le h.of_guard y)
      rw [if_neg hlt] at hle
      omega
    exact pidOf_inj (by omega) (by omega) (by simpa using hpid)
  rw [← findPcbIn_pidOf, findPcbIn, hfind]

/-- The instruction is a map that goes through this node. -/
def InstT.puts (ins : InstT) (js : List (Fin 512)) : Prop :=
  ins.opcode = .syscall ∧ ins.arg0.setWidth 32 = 17#32 ∧ (ins.arg1.setWidth 32 : BitVec 32) = 1#32 ∧
    OnWay (ins.arg2 >>> 12) (ins.arg3.setWidth 32 : BitVec 32).toInt.toNat js

/-- What loads and maps have put into the page tables of process `x`. -/
def Put {n : ℕ} (s : OsState n Kernel) (x : ℕ) (js : List (Fin 512)) : Prop :=
  (s.mem.mm x).isSome ∧ (js = [] ∨ ∃ ins ∈ s.executed x, ins.puts js)

/-- The trees show what has been put into the page tables, and nothing else. -/
structure Traced {n : ℕ} (s : OsState n Kernel) (a : PageTrees) : Prop where
  reads : ∃ root, Reads .unsigned root s.mem a
  fresh : ∀ x, s.i ≤ x → s.executed x = []
  put_of_mem : ∀ x js, (x, js) ∈ a.nodes → Put s x js
  mem_of_put : 0 < a.free → ∀ x js, Put s x js → (x, js) ∈ a.nodes

section

variable {cfg : Config} {ram swp : DeviceBoot} {s t : OsState cfg.numCpus Kernel} {a : PageTrees} {x : ℕ} {ins : InstT}

/-- An instruction puts what its map goes through into the page tables of its process. -/
theorem put_exec_iff (hexecuted : t.executed = Function.update s.executed x (s.executed x ++ [ins]))
    (hsome : ∀ y, (t.mem.mm y).isSome = (s.mem.mm y).isSome) (y : ℕ) (js : List (Fin 512)) :
    Put t y js ↔ Put s y js ∨ y = x ∧ (s.mem.mm x).isSome ∧ ins.puts js := by
  unfold Put
  rw [hsome, hexecuted]
  by_cases hy : y = x
  · subst hy
    rw [Function.update_self]
    simp only [List.mem_append, List.mem_singleton, or_and_right, exists_or, exists_eq_left, true_and, ← and_or_left,
      or_assoc]
  · rw [Function.update_of_ne hy]
    simp [hy]

/-- **An instruction** keeps the trace. -/
theorem Traced.exec (h : Traced s a) (hok : TablesSafe .unsigned s.mem (.exec x ins s.sched))
    (hcaller : Kernel.findPcbByPid s.sched (pidOf x) = some x) (hlt : x < s.i) (hi : t.i = s.i)
    (hexecuted : t.executed = Function.update s.executed x (s.executed x ++ [ins])) {junk : BYTE} {stat : ℤ}
    (hrun : s.mem.run .unsigned s.sched x ins junk = .ok (stat, t.mem)) :
    Traced t (MemEvent.onTrees a (.exec x ins s.sched)) := by
  obtain ⟨root, hreads⟩ := h.reads
  have hput := put_exec_iff hexecuted (isSome_run hrun)
  have hfresh : ∀ y, t.i ≤ y → t.executed y = [] := by
    intro y hy
    have hne : y ≠ x := by omega
    rw [hexecuted, Function.update_of_ne hne]
    exact h.fresh y (hi ▸ hy)
  have hnodes : MemEvent.onTrees a (.exec x ins s.sched)
      = if ins.opcode = .syscall ∧ ins.arg0.setWidth 32 = 17#32 ∧ (ins.arg1.setWidth 32 : BitVec 32) = 1#32 then
          setPages x (ins.arg3.setWidth 32 : BitVec 32).toInt.toNat a (ins.arg2 >>> 12) else a := by
    rw [MemEvent.onTrees, mapCall, hcaller]
    split <;> rename_i hcall
    · split at hcall
      · cases hcall
      · rename_i hno
        rw [if_neg hno]
    · split at hcall
      · rename_i hmap
        rw [if_pos hmap]
        obtain ⟨rfl, hrest⟩ := Prod.mk.inj (Option.some.inj hcall)
        obtain ⟨rfl, rfl⟩ := Prod.mk.inj hrest
        rfl
      · cases hcall
  refine ⟨⟨root, hreads.run hok hrun⟩, hfresh, fun y js hmem => ?_, fun hfree y js hy => ?_⟩
  · rw [hput]
    rw [hnodes] at hmem
    split at hmem
    · rename_i hmap
      rcases mem_setPages _ hmem with hold | ⟨rfl, hway⟩
      · exact .inl (h.put_of_mem y js hold)
      · have hcall : mapCall s.sched y ins
            = some (y, ins.arg2 >>> 12, (ins.arg3.setWidth 32 : BitVec 32).toInt.toNat) := by
          rw [mapCall, if_pos hmap, hcaller]
          rfl
        obtain ⟨mm, hmm, -⟩ := run_of_mapCall hcall hrun
        exact .inr ⟨rfl, Option.isSome_iff_exists.mpr ⟨mm, hmm⟩, hmap.1, hmap.2.1, hmap.2.2, hway⟩
    · exact .inl (h.put_of_mem y js hmem)
  · rw [hnodes] at hfree ⊢
    rw [hput] at hy
    split at hfree
    · rename_i hmap
      rw [if_pos hmap, mem_setPages_iff _ hfree]
      rcases hy with hold | ⟨rfl, -, -, -, -, hway⟩
      · exact .inl (h.mem_of_put (hfree.trans_le (setPages_free_le _ _ _)) y js hold)
      · exact .inr ⟨rfl, hway⟩
    · rename_i hno
      rw [if_neg hno]
      rcases hy with hold | ⟨-, -, hop, hnr, hmemop, -⟩
      · exact h.mem_of_put hfree y js hold
      · exact absurd ⟨hop, hnr, hmemop⟩ hno

/-- **Loading** keeps the trace. -/
theorem Traced.load (h : Traced s a) (hframe : s.mem.mram.freeFpList ≠ []) (hi : t.i = s.i)
    (hexecuted : t.executed = s.executed) (hload : Kernel.Loads s.i s.mem t.mem) : Traced t (a.plant s.i) := by
  obtain ⟨root, hreads⟩ := h.reads
  have hsome : ∀ y, (t.mem.mm y).isSome ↔ y = s.i ∨ (s.mem.mm y).isSome := by
    intro y
    generalize t.mem = u at hload
    cases hload with
    | initMm _ =>
      by_cases hy : y = s.i
      · subst hy
        rw [Kernel.mm_setMm_self]
        simp
      · rw [Kernel.mm_setMm_of_ne _ _ hy]
        simp [hy]
  have hfresh : ∀ y, t.i ≤ y → t.executed y = [] := by
    intro y hy
    rw [hexecuted]
    exact h.fresh y (hi ▸ hy)
  refine ⟨hreads.load hframe hload, hfresh, fun y js hmem => ?_, fun hfree y js hy => ?_⟩
  · rw [Trees.plant, Finset.mem_insert, Finset.mem_filter] at hmem
    rcases hmem with hroot | ⟨hold, -⟩
    · obtain ⟨rfl, rfl⟩ := Prod.mk.inj hroot
      exact ⟨(hsome _).mpr (.inl rfl), .inl rfl⟩
    · obtain ⟨hy, hjs⟩ := h.put_of_mem y js hold
      exact ⟨(hsome y).mpr (.inr hy), by rw [hexecuted]; exact hjs⟩
  · have hpos : 0 < a.free := hfree.trans_le (Nat.sub_le _ _)
    rw [Trees.plant, Finset.mem_insert, Finset.mem_filter]
    obtain ⟨hy, hjs⟩ := hy
    rw [hexecuted] at hjs
    by_cases hyi : y = s.i
    · -- it has not executed anything
      rw [hyi, h.fresh s.i le_rfl] at hjs
      obtain rfl : js = [] := hjs.resolve_right (by simp)
      exact .inl (by rw [hyi])
    · have hold := ((hsome y).mp hy).resolve_left hyi
      exact .inr ⟨h.mem_of_put hpos y js ⟨hold, hjs⟩, hyi⟩

/-- **In every run** the page tables are what loads and maps have put into them. -/
theorem traced_of_reachable (hn : numfpOf ram.maxSize ≤ 8192) (hcover : Covered ram.block ram.maxSize)
    (hformat : Formatted ram.mp ram.link ram.maxSize) (hprocs : cfg.numProcesses < 2 ^ 31)
    (hs : (((osSystem cfg (kernelMachine .unsigned ram swp)).guard (DispatchRoom cfg)).restrict
      (MemoryMeets (TablesSafe .unsigned))).Reachable s) : ∃ a, Traced s a := by
  induction hs with
  | init hinit =>
    obtain ⟨m, rfl, rfl⟩ := hinit
    refine ⟨_, ⟨_, reads_boot hn hcover hformat⟩, fun _ _ => rfl, ?_, ?_⟩
    · intro x js hmem
      exact absurd hmem (by simp [treesAfter])
    · rintro - x js ⟨hsome, -⟩
      exact absurd hsome (by simp [OsState.start, Kernel.boot])
  | @step s e t hs hst ih =>
    obtain ⟨a, h⟩ := ih
    obtain ⟨⟨⟨now, hos⟩, -⟩, hload, hexec⟩ := hst
    have hreach := hs.of_restrict
    cases hos.effect with
    | quiet hmem hexecuted hi =>
      refine ⟨a, ?_, fun x hx => ?_, fun x js hjs => ?_, fun hfree x js hjs => h.mem_of_put hfree x js ?_⟩
      · rw [hmem]
        exact h.reads
      · rw [hexecuted]
        exact h.fresh x (hi.trans hx)
      · rw [Put, hmem, hexecuted]
        exact h.put_of_mem x js hjs
      · rw [Put, hmem, hexecuted] at hjs
        exact hjs
    | load hpc hpc' hexecuted hi hinit => exact ⟨_, h.load (hload hpc hpc') hi hexecuted hinit⟩
    | @exec c x ins hheld hi hexecuted hmach =>
      obtain ⟨junk, stat, hrun⟩ := hmach
      have happ : t.executed x = s.executed x ++ [ins] := by rw [hexecuted, Function.update_self]
      exact ⟨_, h.exec (hexec x ins happ) (own_caller hprocs hreach hheld) (held_live hreach.of_guard hheld).1 hi
        hexecuted hrun⟩

end

/-- **The pages of a process are those that it has mapped.** With a `char` without a sign, at most 8192 frames, a free
    list that `MEMPHY_format` has terminated, zeros where frames lie behind the storage, and fewer than `2 ^ 31`
    processes: in every run of the threads in which `init_mm` finds its frames, the running list does not overflow, and
    no physical write hits a table or a free frame, as long as a frame is left, an address of a process translates,
    namely to its offset in frame 0, exactly if an instruction that the process has executed maps its page. -/
theorem pages_of_progress (cfg : Config) (ram swp : DeviceBoot) (hn : numfpOf ram.maxSize ≤ 8192)
    (hcover : Covered ram.block ram.maxSize) (hformat : Formatted ram.mp ram.link ram.maxSize)
    (hprocs : cfg.numProcesses < 2 ^ 31) (s : OsState cfg.numCpus Kernel)
    (hs : (((osSystem cfg (kernelMachine .unsigned ram swp)).guard (DispatchRoom cfg)).restrict
      (MemoryMeets (TablesSafe .unsigned))).Reachable s) (hleft : s.mem.mram.freeFpList ≠ []) (x : ℕ) (m : MmStruct)
    (hm : s.mem.mm x = some m) (vaddr paddr : AddrT) :
    translateAddress .unsigned m s.mem.mram vaddr = some paddr ↔ paddr = vaddr &&& 0xFFF#64 ∧
      ∃ ins ∈ (cfg.code x).take (s.procPc x), ins.maps (pageOf vaddr) := by
  obtain ⟨a, h⟩ := traced_of_reachable hn hcover hformat hprocs hs
  obtain ⟨root, hreads⟩ := h.reads
  have hfree : 0 < a.free := by
    rw [hreads.shows.free]
    exact List.length_pos_iff.mpr hleft
  have hmem : (x, leafPath vaddr) ∈ a.nodes ↔ Put s x (leafPath vaddr) :=
    ⟨h.put_of_mem x _, h.mem_of_put hfree x _⟩
  have hputs : ∀ ins : InstT, ins.puts (leafPath vaddr) ↔ ins.maps (pageOf vaddr) := by
    intro ins
    unfold InstT.puts InstT.maps OnWay
    refine and_congr_right fun _ => and_congr_right fun _ => and_congr_right fun _ => exists_congr fun i =>
      and_congr_right fun _ => ?_
    rw [← pageOf_pgn, ← leafPath_eq_iff]
    constructor
    · rintro ⟨-, hpre⟩
      exact hpre.eq_of_length (by rw [length_leafPath, length_leafPath])
    · intro hsame
      rw [hsame]
      exact ⟨leafPath_ne_nil _, List.prefix_refl _⟩
  have hput : Put s x (leafPath vaddr) ↔ ∃ ins ∈ (cfg.code x).take (s.procPc x), ins.maps (pageOf vaddr) := by
    rw [Put, hm, (orderly_of_reachable hs.of_restrict.of_guard).executed x]
    simp only [hputs, Option.isSome_some, true_and]
    exact or_iff_right (leafPath_ne_nil vaddr)
  rw [hreads.translate hm, ← hput, ← hmem]
  split
  · rename_i hnode
    rw [and_iff_left hnode, Option.some.injEq, eq_comm]
  · rename_i hno
    simp [hno]

/-! ## One process that maps its page 0 -/

theorem no_get {n : ℕ} {M : Type} {cfg : Config} {s : OsState n M} {e : OsEvent n} (h : ∀ c, e ≠ .get c) :
    DispatchRoom cfg s e := fun c hc => absurd hc (h c)

/-- A step that executes an instruction which meets the condition. -/
theorem memoryMeets_of_exec {M : Type} {C : M → MemEvent → Prop} {n : ℕ} {s t : OsState n M} {x : ℕ} {ins : InstT}
    (hld : s.ld ≠ .initMm) (hexecuted : t.executed = Function.update s.executed x (s.executed x ++ [ins]))
    (hok : C s.mem (.exec x ins s.sched)) : MemoryMeets C s t := by
  refine ⟨fun hpc => absurd hpc hld, fun y ins' h => ?_⟩
  rw [hexecuted] at h
  by_cases hy : y = x
  · subst hy
    rw [Function.update_self, List.append_cancel_left_eq, List.singleton_inj] at h
    exact h ▸ hok
  · rw [Function.update_of_ne hy] at h
    exact absurd h (by simp)

/-- The PGD and four tables are taken. -/
theorem oneMap_leaves : 0 < (setPages 0 1 (Trees.plant (treesAfter 1048576 []) 0) (0 >>> 12)).free := by
  decide +kernel

/-- The map has been executed, and frames are left. -/
theorem oneMap_ran : ∃ (s : OsState (oneCall ⟨.syscall, 17, 1, 0, 1⟩).numCpus Kernel) (m : MmStruct),
    (((osSystem (oneCall ⟨.syscall, 17, 1, 0, 1⟩) (kernelMachine .unsigned (zeroDevice 1048576)
        (zeroDevice 1048576))).guard (DispatchRoom (oneCall ⟨.syscall, 17, 1, 0, 1⟩))).restrict
      (MemoryMeets (TablesSafe .unsigned))).Reachable s ∧
      s.mem.mm 0 = some m ∧ s.procPc 0 = 1 ∧ s.mem.mram.freeFpList ≠ [] := by
  have hsize : 2 ≤ numfpOf 1048576 ∧ numfpOf 1048576 ≤ 8192 := by decide
  obtain ⟨hfree, m, mram, hinit, -⟩ := first_process hsize.1 hsize.2
  obtain ⟨q, hq, hget, hfind⟩ := get_mapper
  replace hget : (q.getMlqProc (oneCall ⟨.syscall, 17, 1, 0, 1⟩).prio).1 = some 0 := hget
  let T := ((osSystem (oneCall ⟨.syscall, 17, 1, 0, 1⟩) (kernelMachine .unsigned (zeroDevice 1048576)
    (zeroDevice 1048576))).guard (DispatchRoom (oneCall ⟨.syscall, 17, 1, 0, 1⟩))).restrict
      (MemoryMeets (TablesSafe .unsigned))
  let s₁ := ({ Kernel.boot (zeroDevice 1048576) (zeroDevice 1048576) with mram }).setMm 0 m
  have hm : s₁.mm 0 = some m := Kernel.mm_setMm_self ..
  have hroom : q.runningList.toList.length < maxQueueSize := by
    cases hq
    decide
  have h : T.Reachable (.start _ (.boot (zeroDevice 1048576) (zeroDevice 1048576))) := .init ⟨_, rfl, rfl⟩
  have h := h.step ⟨⟨⟨0, .ld (.load rfl Nat.one_pos)⟩, no_get (by simp)⟩, memoryMeets_of_quiet LdPc.noConfusion rfl⟩
  have h := h.step ⟨⟨⟨0, .ld (.onTime rfl (Nat.lt_irrefl 0))⟩, no_get (by simp)⟩,
    memoryMeets_of_quiet LdPc.noConfusion rfl⟩
  have h := h.step ⟨⟨⟨0, .ld (.initMm (m := s₁) rfl (.initMm hinit))⟩, no_get (by simp)⟩,
    fun _ _ => hfree, fun x ins hx => by simp at hx⟩
  have h := h.step ⟨⟨⟨0, .ld (.add rfl hq)⟩, no_get (by simp)⟩, memoryMeets_of_quiet LdPc.noConfusion rfl⟩
  have h := h.step ⟨⟨⟨0, .cpu (.getIdle (c := callCpu _) rfl rfl)⟩, fun _ _ _ => hroom⟩,
    memoryMeets_of_quiet LdPc.noConfusion rfl⟩
  have h := h.step ⟨⟨⟨0, .cpu (.dispatch (c := callCpu _) (x := 0) (by rw [cpu_setCpu_self]; simp only [hget]; rfl)
    (by rw [cpu_setCpu_self]; simp only [hget]))⟩, no_get (by simp)⟩, memoryMeets_of_quiet LdPc.noConfusion rfl⟩
  obtain ⟨mp, hmap⟩ : ∃ r, vmapPgdMemset .unsigned m mram 0 1 = r := ⟨_, rfl⟩
  have h := h.step ⟨⟨⟨0, .cpu (.run (c := callCpu _) (x := 0) (by rw [cpu_setCpu_self]) (by rw [cpu_setCpu_self])
    (.exec rfl ⟨0, 0, run_map hfind hm hmap 0⟩))⟩, no_get (by simp)⟩,
    memoryMeets_of_exec LdPc.noConfusion rfl fun _ _ hwrite => absurd hwrite (by decide)⟩
  have hpos : 0 < mp.2.freeFpList.length := by
    obtain ⟨root, hreads⟩ := (@reads_boot (zeroDevice 1048576) (zeroDevice 1048576) hsize.2 (fun _ _ _ => rfl)
      (formatted_zeroDevice hsize.1)).load hfree (.initMm hinit)
    have hlength := (Reads.setPages 1 (0 >>> 12) hreads hm).shows.free
    rw [← hmap]
    exact hlength ▸ oneMap_leaves
  exact ⟨_, m, h, hm, rfl, List.length_pos_iff.mp hpos⟩

/-- The byte at 5 is in the page that the process has mapped. -/
theorem pages_of_progress_one : ∃ (m : MmStruct) (mram : MemphyStruct),
    translateAddress .unsigned m mram 5 = some 5 ∧ translateAddress .unsigned m mram 4096 = none := by
  obtain ⟨s, m, hs, hm, hpc, hleft⟩ := oneMap_ran
  have hsize : 2 ≤ numfpOf 1048576 ∧ numfpOf 1048576 ≤ 8192 := by decide
  have hpages := pages_of_progress (oneCall ⟨.syscall, 17, 1, 0, 1⟩) (zeroDevice 1048576) (zeroDevice 1048576) hsize.2
    (fun _ _ _ => rfl) (formatted_zeroDevice hsize.1) (show 1 < 2 ^ 31 by decide) s hs hleft 0 m hm
  have hcode : ((oneCall ⟨.syscall, 17, 1, 0, 1⟩).code 0).take (s.procPc 0) = [⟨.syscall, 17, 1, 0, 1⟩] := by
    rw [hpc]
    rfl
  rw [hcode] at hpages
  refine ⟨m, s.mem.mram, ?_, ?_⟩
  · rw [hpages]
    exact ⟨rfl, _, List.mem_singleton_self _, rfl, rfl, rfl, 0, by decide, rfl⟩
  · rw [Option.eq_none_iff_forall_ne_some]
    rintro paddr hsome
    obtain ⟨-, ins, hins, -, -, -, i, hi, hpage⟩ := (hpages 4096 paddr).mp hsome
    obtain rfl := List.mem_singleton.mp hins
    obtain rfl : i = 0 := Nat.lt_one_iff.mp hi
    exact absurd hpage (by decide)

end LamiaAtrium
