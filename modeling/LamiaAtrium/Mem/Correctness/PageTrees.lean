import LamiaAtrium.Lib.Runs
import LamiaAtrium.Lib.Trie
import LamiaAtrium.Mem.Correctness.Conserved
import LamiaAtrium.Mem.Correctness.Recycled

/-!
# `Mem.Correctness.PageTrees` — what all page tables together compute

* `MemEvent.onTrees` is the meaning of an event to the page tables of all processes, seen as `Trees`: only loading a
  process and `SYSMEM_MAP_OP` have one. It knows no frame numbers, no bytes and no entries.
* `Reads` connects a kernel to its trees. `kernel_simulates_trees`: every step agrees.
* `kernel_computes_page_trees`: so page tables, translations and the length of the free list are a function of the
  events, in every interleaving.
* `footprint_of_reachable`: while frames are left, the frames in use are the tables that the mapped pages need.
-/

namespace LamiaAtrium

open Radix Lts.System

/-! ## What an event means -/

/-- The page tables of all processes. -/
abbrev PageTrees := Trees ℕ (Fin 512)

/-- `pte_set_fpn`. -/
def setPage (a : PageTrees) (p : ℕ) (pgn : AddrT) : Bool × PageTrees :=
  a.insert p (upperPath (pgn <<< 12)) (levelIdx 12 (pgn <<< 12))

/-- `n` turns of the loop of `vmap_pgd_memset`. -/
def setPages (p : ℕ) : ℕ → PageTrees → AddrT → PageTrees
  | 0,     a, _   => a
  | n + 1, a, pgn =>
    if (setPage a p pgn).1 then setPages p n (setPage a p pgn).2 (pgn + 1) else (setPage a p pgn).2

/-- The map that an instruction asks for: whose pages, the first one, and how many. -/
def mapCall (sched : SchedState ℕ) (x : ℕ) (ins : InstT) : Option (ℕ × AddrT × ℕ) :=
  if ins.opcode = .syscall ∧ ins.arg0.setWidth 32 = 17#32 ∧ (ins.arg1.setWidth 32 : BitVec 32) = 1#32 then
    (Kernel.findPcbByPid sched (pidOf x)).map fun caller =>
      (caller, ins.arg2 >>> 12, (ins.arg3.setWidth 32 : BitVec 32).toInt.toNat)
  else none

/-- What an event does to the page tables. -/
def MemEvent.onTrees (a : PageTrees) : MemEvent → PageTrees
  | .load x           => a.plant x
  | .exec x ins sched =>
    match mapCall sched x ins with
    | none                  => a
    | some (caller, pgn, n) => setPages caller n a pgn

/-- `init_mm` finds a frame; a physical write misses the page tables and the free frames. -/
def TablesSafe (k : CharKind) (s : Kernel) : MemEvent → Prop
  | .load _           => s.mram.freeFpList ≠ []
  | .exec x ins sched => ins.opcode = .syscall → ins.arg0.setWidth 32 = 17#32 →
    (ins.arg1.setWidth 32 : BitVec 32) = 5#32 → (Kernel.findPcbByPid sched (pidOf x)).isSome →
      ¬ HoldsTable k s (ins.arg2 >>> 12) ∧ ins.arg2 >>> 12 ∉ s.mram.freeFpList

/-! ## A kernel and its trees -/

/-- The trees are the page tables, and every page is in frame 0. -/
structure Reads (k : CharKind) (root : ℕ → Option AddrT) (s : Kernel) (a : PageTrees) : Prop where
  owned : Owned k root s.mm s.mram
  shows : Shows 5 root (tables k s.mram) s.mram.freeFpList a
  zero : ∀ {p r is x}, root p = some r → is.length = 5 → walk (tables k s.mram) r is = some x → x = 0

section

variable {k : CharKind} {root : ℕ → Option AddrT} {s t : Kernel} {a : PageTrees}

theorem Reads.loaded_iff (h : Reads k root s a) (p : ℕ) : (s.mm p).isSome ↔ (p, []) ∈ a.nodes := by
  rw [h.shows.nodes]
  constructor
  · intro hp
    obtain ⟨m, hm⟩ := Option.isSome_iff_exists.mp hp
    obtain ⟨r, hr, -⟩ := h.owned.root_of hm
    exact ⟨r, hr, Nat.zero_le _, rfl⟩
  · rintro ⟨r, hr, -⟩
    obtain ⟨m, hm, -⟩ := h.owned.mm_of hr
    rw [hm]
    rfl

/-- What an address translates to. -/
theorem Reads.translate (h : Reads k root s a) {p : ℕ} {m : MmStruct} (hm : s.mm p = some m) (vaddr : AddrT) :
    translateAddress k m s.mram vaddr
      = if (p, leafPath vaddr) ∈ a.nodes then some (vaddr &&& 0xFFF#64) else none := by
  obtain ⟨r, hr, hpgd, hra⟩ := h.owned.root_of hm
  rw [translateAddress_walk hpgd hra]
  have hmem := h.shows.mem_iff hr (length_leafPath vaddr).le
  cases hwalk : walk (tables k s.mram) r (leafPath vaddr) with
  | none =>
    rw [hwalk] at hmem
    rw [if_neg (by simpa using hmem)]
    rfl
  | some x =>
    rw [hwalk] at hmem
    rw [if_pos (by simpa using hmem), h.zero hr (length_leafPath vaddr) hwalk]
    simp [baseOf]

theorem Reads.keeps (h : Reads k root s a) (hkeep : Keeps s t) : Reads k root t a := by
  have howned : Owned k root t.mm t.mram := by
    refine ⟨h.owned.toRooted.keeps hkeep, ?_, ?_⟩
    · rw [hkeep.mram]
      exact h.owned.survives
    · rw [hkeep.mram]
      exact h.owned.fresh
  refine ⟨howned, ?_, ?_⟩
  · rw [hkeep.mram]
    exact h.shows
  · rw [hkeep.mram]
    exact h.zero

/-- **Loading.** -/
theorem Reads.load (h : Reads k root s a) {x : ℕ} (hframe : s.mram.freeFpList ≠ []) (hload : Kernel.Loads x s t) :
    ∃ root', Reads k root' t (a.plant x) := by
  cases hload with
  | @initMm stat m₀ m mram link hinit =>
    obtain rfl := initMm_stat hinit hframe
    obtain ⟨r, howned, hlist, hempty, hwalks⟩ := h.owned.after_initMm x hinit
    obtain ⟨r', -, hlist', -, hothers, -⟩ := h.owned.toRooted.after_initMm x hinit
    obtain rfl : r = r' := (List.cons.inj (hlist.symm.trans hlist')).1
    have hshows := h.shows
    have hforest := h.owned.forest
    rw [hlist] at hshows hforest
    refine ⟨_, howned, hshows.plant hforest hempty hothers x, fun {p r' is y} hr his hy => ?_⟩
    by_cases hp : p = x
    · subst hp
      rw [Function.update_self] at hr
      obtain rfl := Option.some.inj hr
      have hnone : walk (tables k mram) r is = none := walk_empty hempty (by rintro rfl; exact absurd his (by simp))
      exact absurd (hnone.symm.trans hy) (by simp)
    · rw [Function.update_of_ne hp] at hr
      exact h.zero hr his ((hwalks hr his.le).symm.trans hy)

/-- **One page.** -/
theorem Reads.setPage (h : Reads k root s a) {p : ℕ} {m : MmStruct} (hm : s.mm p = some m) (pgn : AddrT) :
    ((LamiaAtrium.setPage a p pgn).1 = true ↔ (pteSetFpn k m s.mram pgn 0).1 = 0) ∧
      Reads k root { s with mram := (pteSetFpn k m s.mram pgn 0).2 } (LamiaAtrium.setPage a p pgn).2 := by
  obtain ⟨r, hr, hpgd, -⟩ := h.owned.root_of hm
  obtain ⟨ok, mp', x, hset, hins, hx, howned⟩ := h.owned.pteSetFpn_insert hr hpgd pgn 0
  obtain rfl := hx (survives_zero k)
  obtain ⟨hok, hshows⟩ := h.shows.insert h.owned.forest h.owned.fresh hr rfl hins
  obtain ⟨-, -, hwalks⟩ := insert_spec h.owned.forest h.owned.fresh hr rfl hins
  rw [hset]
  refine ⟨?_, howned, hshows, fun {q r' is y} hq his hy => ?_⟩
  · rw [LamiaAtrium.setPage, hok]
    cases ok <;> simp
  · have hleaf : walk (tables k mp') r' is = some y := hy
    rw [hwalks hq his] at hleaf
    split at hleaf
    · exact (Option.some.inj hleaf).symm
    · exact h.zero hq his hleaf

/-- **A map.** -/
theorem Reads.setPages (n : ℕ) : ∀ {s : Kernel} {a : PageTrees} {p : ℕ} {m : MmStruct} (pgn : AddrT),
    Reads k root s a → s.mm p = some m →
      Reads k root { s with mram := (vmapPgdLoop k m n s.mram pgn).2 } (LamiaAtrium.setPages p n a pgn) := by
  induction n with
  | zero =>
    intro s a p m pgn h _
    exact h
  | succ n ih =>
    intro s a p m pgn h hm
    obtain ⟨hok, hpage⟩ := h.setPage hm pgn
    rw [vmapPgdLoop, LamiaAtrium.setPages]
    generalize pteSetFpn k m s.mram pgn 0 = res at hok hpage ⊢
    obtain ⟨stat, mram⟩ := res
    dsimp only at hok hpage ⊢
    by_cases hstat : stat = 0
    · rw [if_pos (hok.mpr hstat), if_neg (not_not.mpr hstat)]
      exact ih (pgn + 1) hpage hm
    · rw [if_neg (fun hc => hstat (hok.mp hc)), if_pos hstat]
      exact hpage

/-- **A physical write** that misses. -/
theorem Reads.ioWrite (h : Reads k root s a) {addr : AddrT} (b : BYTE) (hmiss : ¬ HoldsTable k s (addr >>> 12))
    (hfree : addr >>> 12 ∉ s.mram.freeFpList) : Reads k root { s with mram := memphyWriteIgn s.mram addr b } a := by
  have hlist : (memphyWriteIgn s.mram addr b).freeFpList = s.mram.freeFpList := freeFpList_memphyWriteIgn ..
  have howned : Owned k root s.mm (memphyWriteIgn s.mram addr b) := by
    refine ⟨h.owned.toRooted.ioWrite b hmiss, ?_, ?_⟩
    · rw [hlist]
      exact h.owned.survives
    · rw [hlist]
      intro f hf i
      rw [tables_ioWrite h.owned.rdm addr b (by rintro rfl; exact hfree hf)]
      exact h.owned.fresh f hf i
  refine ⟨howned, ?_, fun hr his hy => ?_⟩
  · show Shows 5 root _ (memphyWriteIgn s.mram addr b).freeFpList a
    refine h.shows.congr (by rw [hlist]) fun hr hjs => ?_
    rw [h.owned.toRooted.walk_ioWrite b hmiss hr hjs]
  · exact h.zero hr his ((h.owned.toRooted.walk_ioWrite b hmiss hr his.le).symm.trans hy)

/-- A map that returns has run its loop. -/
theorem run_of_mapCall {x : ℕ} {ins : InstT} {sched : SchedState ℕ} {junk : BYTE} {stat : ℤ} {caller n : ℕ}
    {pgn : AddrT} (hcall : mapCall sched x ins = some (caller, pgn, n))
    (hrun : s.run k sched x ins junk = .ok (stat, t)) :
    ∃ mm, s.mm caller = some mm ∧ t = { s with mram := (vmapPgdLoop k mm n s.mram pgn).2 } := by
  unfold mapCall at hcall
  split at hcall
  · rename_i hmap
    obtain ⟨hop, hnr, hmemop⟩ := hmap
    obtain ⟨c, hfind, hsame⟩ := Option.map_eq_some_iff.mp hcall
    obtain ⟨rfl, hrest⟩ := Prod.mk.inj hsame
    obtain ⟨rfl, rfl⟩ := Prod.mk.inj hrest
    unfold Kernel.run at hrun
    rw [hop] at hrun
    obtain ⟨⟨v, regs, s₁⟩, hsys, hrun⟩ := bind_eq_ok.mp hrun
    obtain ⟨-, rfl⟩ := Prod.mk.inj (Except.ok.inj hrun)
    rw [hnr] at hsys
    unfold Kernel.syscall Kernel.sysMemmap at hsys
    dsimp only at hsys
    rw [hfind, hmemop] at hsys
    obtain ⟨mm, hmm, hsys⟩ := bind_eq_ok.mp hsys
    rw [Kernel.mmOf_eq_ok] at hmm
    obtain ⟨-, hregs⟩ := Prod.mk.inj (Except.ok.inj hsys)
    exact ⟨mm, hmm, (Prod.mk.inj hregs).2.symm⟩
  · cases hcall

/-- **An instruction.** -/
theorem Reads.run (h : Reads k root s a) {x : ℕ} {ins : InstT} {sched : SchedState ℕ} {junk : BYTE} {stat : ℤ}
    (hok : TablesSafe k s (.exec x ins sched)) (hrun : s.run k sched x ins junk = .ok (stat, t)) :
    Reads k root t (MemEvent.onTrees a (.exec x ins sched)) := by
  unfold MemEvent.onTrees
  dsimp only
  cases hcall : mapCall sched x ins with
  | some call =>
    obtain ⟨caller, pgn, n⟩ := call
    obtain ⟨mm, hmm, rfl⟩ := run_of_mapCall hcall hrun
    exact Reads.setPages n pgn h hmm
  | none =>
    rcases run_cases hrun with hkeep | ⟨hop, hnr, caller, hcaller, ⟨hmap, -⟩ | ⟨hwrite, rfl⟩⟩
    · exact h.keeps hkeep.toKeeps
    · rw [mapCall, if_pos ⟨hop, hnr, hmap⟩, hcaller] at hcall
      cases hcall
    · obtain ⟨hmiss, hfree⟩ := hok hop hnr hwrite (by rw [hcaller]; rfl)
      exact h.ioWrite _ hmiss hfree

end

/-! ## Every run -/

/-- The trees after these events, on a device of `maxSize` bytes. -/
def treesAfter (maxSize : AddrT) (es : List MemEvent) : PageTrees :=
  es.foldl MemEvent.onTrees ⟨∅, (numfpOf maxSize).toNat⟩

section

variable {ram swp : DeviceBoot}

theorem reads_boot (hn : numfpOf ram.maxSize ≤ 8192) (hcover : Covered ram.block ram.maxSize)
    (hformat : Formatted ram.mp ram.link ram.maxSize) :
    Reads .unsigned (fun _ => none) (.boot ram swp) (treesAfter ram.maxSize []) := by
  have howned : Owned .unsigned (fun _ => none) (fun _ => none) ram.device :=
    owned_initMemphy (by decide) hn hcover hformat
  refine ⟨howned, ⟨?_, fun p js => ?_⟩, fun hr => absurd hr (by simp)⟩
  · show _ = (initMemphy ram.mp ram.block ram.link ram.maxSize 1).freeFpList.length
    rw [freeFpList_of_formatted _ _ hformat, List.length_map, List.length_range]
    rfl
  · simp [treesAfter]

/-- **Every step of the kernel is a step of its trees.** -/
theorem kernel_simulates_trees (hn : numfpOf ram.maxSize ≤ 8192) (hcover : Covered ram.block ram.maxSize)
    (hformat : Formatted ram.mp ram.link ram.maxSize) :
    Simulates ((kernelMachine .unsigned ram swp).system.guard (TablesSafe .unsigned))
      (computed MemEvent.onTrees (treesAfter ram.maxSize [])) fun s a => ∃ root, Reads .unsigned root s a where
  init := by
    rintro s rfl
    exact ⟨_, rfl, _, reads_boot hn hcover hformat⟩
  step := by
    rintro s e t a ⟨root, h⟩ ⟨hst, hok⟩
    cases e with
    | load x => exact ⟨_, rfl, h.load hok hst⟩
    | exec x ins sched =>
      obtain ⟨junk, stat, hrun⟩ := hst
      exact ⟨_, rfl, root, h.run hok hrun⟩

theorem reads_of_run (hn : numfpOf ram.maxSize ≤ 8192) (hcover : Covered ram.block ram.maxSize)
    (hformat : Formatted ram.mp ram.link ram.maxSize) {es : List MemEvent} {s : Kernel}
    (hs : ((kernelMachine .unsigned ram swp).system.guard (TablesSafe .unsigned)).Run es s) :
    ∃ root, Reads .unsigned root s (treesAfter ram.maxSize es) := by
  obtain ⟨a, ha, h⟩ := (kernel_simulates_trees hn hcover hformat).run hs
  rwa [ha.eq_foldl] at h

end

/-- **Paging is a function of the events.** Take a `char` without a sign, at most 8192 frames, a free list that
    `MEMPHY_format` has terminated, and zeros where frames lie behind the storage. In every interleaving of loads and
    instructions of any processes, in which `init_mm` finds its frames and no physical write hits a table or a free
    frame: `onTrees` says which processes are loaded, how many frames are free, and what every address of every process
    translates to. -/
theorem kernel_computes_page_trees (ram swp : DeviceBoot) (hn : numfpOf ram.maxSize ≤ 8192)
    (hcover : Covered ram.block ram.maxSize) (hformat : Formatted ram.mp ram.link ram.maxSize) (es : List MemEvent)
    (s : Kernel) (hs : ((kernelMachine .unsigned ram swp).system.guard (TablesSafe .unsigned)).Run es s) :
    s.mram.freeFpList.length = (treesAfter ram.maxSize es).free ∧
      (∀ p, (s.mm p).isSome ↔ (p, []) ∈ (treesAfter ram.maxSize es).nodes) ∧
      ∀ p m, s.mm p = some m → ∀ vaddr : AddrT, translateAddress .unsigned m s.mram vaddr
        = if (p, leafPath vaddr) ∈ (treesAfter ram.maxSize es).nodes then some (vaddr &&& 0xFFF#64) else none := by
  obtain ⟨root, h⟩ := reads_of_run hn hcover hformat hs
  exact ⟨h.shows.free.symm, h.loaded_iff, fun p m hm vaddr => h.translate hm vaddr⟩

/-- A process is loaded, and maps its page 0. -/
theorem kernel_computes_page_trees_one : ∃ (s : Kernel) (m : MmStruct), s.mm 0 = some m ∧
    translateAddress .unsigned m s.mram 5 = some 5 ∧ s.mram.freeFpList.length = 4091 := by
  have hsize : 2 ≤ numfpOf 1048576 ∧ numfpOf 1048576 ≤ 8192 := by decide
  obtain ⟨hfree, m, mram, hinit, -⟩ := first_process hsize.1 hsize.2
  obtain ⟨q, -, -, hfind⟩ := get_mapper
  let T := (kernelMachine .unsigned (zeroDevice 1048576) (zeroDevice 1048576)).system.guard (TablesSafe .unsigned)
  let s₁ := ({ Kernel.boot (zeroDevice 1048576) (zeroDevice 1048576) with mram }).setMm 0 m
  have hm : s₁.mm 0 = some m := Kernel.mm_setMm_self ..
  obtain ⟨mp, hmap⟩ : ∃ r, vmapPgdMemset .unsigned m mram 0 1 = r := ⟨_, rfl⟩
  have h : T.Run [] (.boot (zeroDevice 1048576) (zeroDevice 1048576)) := .init rfl
  have h := h.step (l := MemEvent.load 0) ⟨.initMm hinit, hfree⟩
  have h := h.step (l := MemEvent.exec 0 ⟨.syscall, 17, 1, 0, 1⟩ (q.getMlqProc mapper.prio).2)
    ⟨⟨0, 0, run_map hfind hm hmap 0⟩, fun _ _ hwrite => absurd hwrite (by decide)⟩
  obtain ⟨hleft, -, htranslate⟩ := kernel_computes_page_trees (zeroDevice 1048576) (zeroDevice 1048576) hsize.2
    (fun _ _ _ => rfl) (formatted_zeroDevice hsize.1) _ _ h
  have htrees : treesAfter 1048576 [.load 0, .exec 0 ⟨.syscall, 17, 1, 0, 1⟩ (q.getMlqProc mapper.prio).2]
      = setPages 0 1 (Trees.plant (treesAfter 1048576 []) 0) (0 >>> 12) := by
    simp only [treesAfter, List.foldl_cons, List.foldl_nil, MemEvent.onTrees, mapCall, hfind]
    rfl
  refine ⟨{ s₁ with mram := mp.2 }, m, hm, (htranslate 0 m hm 5).trans ?_, hleft.trans ?_⟩
  · show (if _ ∈ (treesAfter 1048576 [.load 0, .exec 0 _ _]).nodes then _ else _) = _
    rw [htrees]
    decide +kernel
  · show (treesAfter 1048576 [.load 0, .exec 0 _ _]).free = _
    rw [htrees]
    decide +kernel

/-! ## How many frames the pages take -/

/-- No frame is lost, and while frames are left every table is on the way to a page. -/
structure Footed (frames : ℕ) (a : PageTrees) : Prop where
  account : a.free + (a.tables 5).card = frames
  tight : 0 < a.free → a.Tight 5

/-- Besides, a process is loaded once. -/
def FreshSafe (k : CharKind) (s : Kernel) (e : MemEvent) : Prop :=
  TablesSafe k s e ∧ ∀ x, e = .load x → s.mm x = none

section

variable {k : CharKind} {root : ℕ → Option AddrT} {s : Kernel} {a : PageTrees} {frames : ℕ}

theorem Footed.setPage (h : Footed frames a) (p : ℕ) (pgn : AddrT) : Footed frames (LamiaAtrium.setPage a p pgn).2 :=
  ⟨(Trees.account_insert rfl).trans h.account, fun hfree => Trees.tight_insert rfl h.tight hfree⟩

theorem Footed.setPages (p : ℕ) (n : ℕ) : ∀ {a : PageTrees} (pgn : AddrT), Footed frames a →
    Footed frames (LamiaAtrium.setPages p n a pgn) := by
  induction n with
  | zero =>
    intro a pgn h
    exact h
  | succ n ih =>
    intro a pgn h
    rw [LamiaAtrium.setPages]
    split
    · exact ih _ (h.setPage p pgn)
    · exact h.setPage p pgn

/-- A process that is not loaded has no node. -/
theorem Reads.fresh (h : Reads k root s a) {x : ℕ} (hx : s.mm x = none) (js : List (Fin 512)) : (x, js) ∉ a.nodes := by
  intro hmem
  obtain ⟨r, hr, -⟩ := (h.shows.nodes x js).mp hmem
  obtain ⟨m, hm, -⟩ := h.owned.mm_of hr
  exact absurd (hx.symm.trans hm) (by simp)

theorem Footed.onTrees (h : Footed frames a) (hreads : Reads k root s a) {e : MemEvent} (hok : FreshSafe k s e) :
    Footed frames (e.onTrees a) := by
  cases e with
  | load x =>
    have hfree : 0 < a.free := by
      rw [hreads.shows.free]
      exact List.length_pos_iff.mpr hok.1
    have hnew := hreads.fresh (hok.2 x rfl)
    exact ⟨(Trees.account_plant hnew hfree (by simp)).trans h.account, Trees.tight_plant h.tight⟩
  | exec x ins sched =>
    unfold MemEvent.onTrees
    dsimp only
    split
    · exact h
    · exact h.setPages _ _ _

/-- The tables that the processes need: a PGD for each, and the tables on the way to its pages. -/
def Spine (k : CharKind) (s : Kernel) : Set (ℕ × List (Fin 512)) :=
  { n | ∃ m, s.mm n.1 = some m ∧ (n.2 = [] ∨ n.2.length < 5 ∧ ∃ vaddr, (translateAddress k m s.mram vaddr).isSome ∧
    n.2 <+: leafPath vaddr) }

theorem Reads.translate_isSome (h : Reads k root s a) {p : ℕ} {m : MmStruct} (hm : s.mm p = some m) (vaddr : AddrT) :
    (translateAddress k m s.mram vaddr).isSome ↔ (p, leafPath vaddr) ∈ a.nodes := by
  rw [h.translate hm]
  split <;> simp [*]

/-- **While frames are left, there is no other table.** -/
theorem Reads.tables_eq_spine (h : Reads k root s a) (htight : a.Tight 5) :
    (a.tables 5 : Set (ℕ × List (Fin 512))) = Spine k s := by
  ext ⟨p, js⟩
  rw [Finset.mem_coe, Trees.mem_tables]
  constructor
  · rintro ⟨hmem, hlen⟩
    obtain ⟨r, hr, -⟩ := (h.shows.nodes p js).mp hmem
    obtain ⟨m, hm, -⟩ := h.owned.mm_of hr
    refine ⟨m, hm, ?_⟩
    rcases htight p js hmem with rfl | ⟨leaf, hleaf, hfive, hpre⟩
    · exact .inl rfl
    · obtain ⟨vaddr, rfl⟩ := exists_leafPath hfive
      exact .inr ⟨hlen, vaddr, (h.translate_isSome hm vaddr).mpr hleaf, hpre⟩
  · rintro ⟨m, hm, hneed⟩
    obtain ⟨r, hr, -⟩ := h.owned.root_of hm
    rcases hneed with hroot | ⟨hlen, vaddr, hpage, hpre⟩
    · obtain rfl : js = [] := hroot
      exact ⟨(h.loaded_iff p).mp (Option.isSome_iff_exists.mpr ⟨m, hm⟩), Nat.succ_pos 4⟩
    · have hleaf := (h.translate_isSome hm vaddr).mp hpage
      refine ⟨?_, hlen⟩
      rw [h.shows.mem_iff hr (length_leafPath vaddr).le] at hleaf
      rw [h.shows.mem_iff hr hlen.le]
      -- the way to a page goes through all of its beginnings
      obtain ⟨rest, hrest⟩ := hpre
      dsimp only at hrest
      rw [← hrest, walk_append] at hleaf
      cases hwalk : walk (tables k s.mram) r js with
      | none =>
        rw [hwalk] at hleaf
        cases hleaf
      | some f => rfl

end

section

variable {cfg : Config} {ram swp : DeviceBoot}

theorem footed_of_run (hn : numfpOf ram.maxSize ≤ 8192) (hcover : Covered ram.block ram.maxSize)
    (hformat : Formatted ram.mp ram.link ram.maxSize) {es : List MemEvent} {s : Kernel}
    (hs : ((kernelMachine .unsigned ram swp).system.guard (FreshSafe .unsigned)).Run es s) :
    (∃ root, Reads .unsigned root s (treesAfter ram.maxSize es)) ∧
      Footed (numfpOf ram.maxSize).toNat (treesAfter ram.maxSize es) := by
  induction hs with
  | init hs =>
    obtain rfl := hs
    refine ⟨⟨_, reads_boot hn hcover hformat⟩, rfl, fun _ p js hmem => ?_⟩
    exact absurd hmem (by simp [treesAfter])
  | @step es s e t _ hst ih =>
    obtain ⟨⟨root, h⟩, hfoot⟩ := ih
    obtain ⟨hst, hok⟩ := hst
    have hnext : treesAfter ram.maxSize (es ++ [e]) = e.onTrees (treesAfter ram.maxSize es) := by
      simp [treesAfter, List.foldl_append]
    rw [hnext]
    refine ⟨?_, hfoot.onTrees h hok⟩
    cases e with
    | load x => exact h.load hok.1 hst
    | exec x ins sched =>
      obtain ⟨junk, stat, hrun⟩ := hst
      exact ⟨root, h.run hok.1 hrun⟩

/-- The loader loads each process once. -/
theorem freshRun_of_os {k : CharKind} {s : OsState cfg.numCpus Kernel}
    (hs : ((osSystem cfg (kernelMachine k ram swp)).restrict (MemoryMeets (TablesSafe k))).Reachable s) :
    ∃ es, ((kernelMachine k ram swp).system.guard (FreshSafe k)).Run es s.mem := by
  induction hs with
  | init hinit =>
    obtain ⟨m, hm, rfl⟩ := hinit
    exact ⟨[], .init hm⟩
  | @step s e t hs hst ih =>
    obtain ⟨es, hrun⟩ := ih
    obtain ⟨⟨now, hos⟩, hload, hexec⟩ := hst
    cases hos.memory with
    | same hmem _ =>
      rw [hmem]
      exact ⟨es, hrun⟩
    | load hpc hpc' hloaded _ hinit =>
      have hnew : s.mem.mm s.i = none := by
        rw [← Option.not_isSome_iff_eq_none, isSome_mm_iff hs.of_restrict, hloaded]
        exact Nat.lt_irrefl _
      refine ⟨_, hrun.step (l := MemEvent.load s.i) ⟨hinit, hload hpc hpc', fun x hx => ?_⟩⟩
      cases hx
      exact hnew
    | @exec x ins hexecuted _ hmach =>
      refine ⟨_, hrun.step (l := MemEvent.exec x ins s.sched) ⟨hmach, hexec x ins hexecuted, fun y hy => ?_⟩⟩
      cases hy

end

/-- **The memory footprint.** With a `char` without a sign, at most 8192 frames, a free list that `MEMPHY_format` has
    terminated, and zeros where frames lie behind the storage: in every run of the threads in which `init_mm` finds its
    frames and no physical write hits a table or a free frame, and as long as a frame is left, the frames of RAM that
    are not free are one PGD for each process that has been loaded, and one frame for each table on the way to a page
    that is mapped. -/
theorem footprint_of_reachable (cfg : Config) (ram swp : DeviceBoot) (hn : numfpOf ram.maxSize ≤ 8192)
    (hcover : Covered ram.block ram.maxSize) (hformat : Formatted ram.mp ram.link ram.maxSize)
    (s : OsState cfg.numCpus Kernel) (hs : ((osSystem cfg (kernelMachine .unsigned ram swp)).restrict
      (MemoryMeets (TablesSafe .unsigned))).Reachable s) (hleft : s.mem.mram.freeFpList ≠ []) :
    s.mem.mram.freeFpList.length + (Spine .unsigned s.mem).ncard = (numfpOf ram.maxSize).toNat := by
  obtain ⟨es, hrun⟩ := freshRun_of_os hs
  obtain ⟨⟨root, h⟩, hfoot⟩ := footed_of_run hn hcover hformat hrun
  have hfree : 0 < (treesAfter ram.maxSize es).free := by
    rw [h.shows.free]
    exact List.length_pos_iff.mpr hleft
  rw [← h.tables_eq_spine (hfoot.tight hfree), Set.ncard_coe_finset, ← h.shows.free]
  exact hfoot.account

/-- One process on a RAM of two frames: its PGD is in one of them. -/
theorem footprint_of_reachable_two : ∃ s : OsState (oneCall ⟨.calc, 0, 0, 0, 0⟩).numCpus Kernel,
    (s.mem.mm 0).isSome ∧ s.mem.mram.freeFpList.length + (Spine .unsigned s.mem).ncard = 2 := by
  have htwo : 2 ≤ numfpOf 512 ∧ numfpOf 512 ≤ 8192 ∧ (numfpOf 512).toNat = 2 := by decide
  obtain ⟨hfree, m, mram, hinit, -, hlength, -⟩ := first_process htwo.1 htwo.2.1
  let T := (osSystem (oneCall ⟨.calc, 0, 0, 0, 0⟩) (kernelMachine .unsigned (zeroDevice 512) (zeroDevice 512))).restrict
    (MemoryMeets (TablesSafe .unsigned))
  let s₁ := ({ Kernel.boot (zeroDevice 512) (zeroDevice 512) with mram }).setMm 0 m
  have h : T.Reachable (.start _ (.boot (zeroDevice 512) (zeroDevice 512))) := .init ⟨_, rfl, rfl⟩
  have h := h.step ⟨⟨0, .ld (.load rfl Nat.one_pos)⟩, memoryMeets_of_quiet LdPc.noConfusion rfl⟩
  have h := h.step ⟨⟨0, .ld (.onTime rfl (Nat.lt_irrefl 0))⟩, memoryMeets_of_quiet LdPc.noConfusion rfl⟩
  have h := h.step ⟨⟨0, .ld (.initMm (m := s₁) rfl (.initMm hinit))⟩, fun _ _ => hfree, fun x ins hx => by simp at hx⟩
  obtain ⟨s, hs, hmem⟩ : ∃ s, T.Reachable s ∧ s.mem = s₁ := ⟨_, h, rfl⟩
  have hleft : s.mem.mram.freeFpList ≠ [] := by
    rw [hmem, ← List.length_pos_iff]
    show 0 < mram.freeFpList.length
    omega
  have hfoot := footprint_of_reachable _ (zeroDevice 512) (zeroDevice 512) htwo.2.1 (fun _ _ _ => rfl)
    (formatted_zeroDevice htwo.1) s hs hleft
  refine ⟨s, ?_, hfoot.trans htwo.2.2⟩
  rw [hmem, Kernel.mm_setMm_self]
  rfl

end LamiaAtrium
