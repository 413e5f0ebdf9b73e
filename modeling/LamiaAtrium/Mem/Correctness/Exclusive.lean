import LamiaAtrium.Mem.Run
import LamiaAtrium.Mem.Correctness.PageTable

/-!
# `Mem.Correctness.Exclusive` — who uses a frame

* `Exclusive`: a frame that a resident page names is not free, holds no page table, and is named by no other
  page.
* `SYSMEM_MAP_OP` is the only instruction that sets a page, and it always names frame 0, the PGD of the first
  process. `StepOk` leaves out the maps that get as far as that, and what corrupts page tables from outside:
  writes into them, and an address space that `init_mm` had no frame for.
* `Unmapped` is the invariant of the runs that are left, `exclusive_of_guarded` the result.
* `not_exclusive_of_set` is the other side: a map that sets its page always makes a PGD a page as well.
-/

namespace LamiaAtrium

open Radix

/-! ## Exclusive frames -/

/-- Page `pgn` of process `p` is resident in `frame`. -/
def Names (k : CharKind) (s : Kernel) (p : ℕ) (pgn frame : AddrT) : Prop :=
  ∃ m, s.mm p = some m ∧ pgn.toNat < 2 ^ 45 ∧ pagingPagePresent (pteGetEntry k m s.mram pgn) = true ∧
    pteGetEntry k m s.mram pgn &&& pagingPteSwappedMask = 0 ∧
    frame = (pagingFpn (pteGetEntry k m s.mram pgn)).setWidth 64

/-- Some level of the page table of some process is in `frame`. -/
def HoldsTable (k : CharKind) (s : Kernel) (frame : AddrT) : Prop :=
  ∃ q m, ∃ is : List (Fin 512), s.mm q = some m ∧ is.length ≤ 4 ∧
    walkTables k s.mram m.pgd (is.map idxOf) = some (baseOf frame)

/-- **A frame that a resident page names is used for nothing else.** -/
structure Exclusive (k : CharKind) (s : Kernel) : Prop where
  notFree : ∀ {p pgn f}, Names k s p pgn f → f ∉ s.mram.freeFpList
  notTable : ∀ {p pgn f}, Names k s p pgn f → ¬ HoldsTable k s f
  sole : ∀ {p q pgn pgn' f}, Names k s p pgn f → Names k s q pgn' f → p = q ∧ pgn = pgn'

/-! ## The steps that keep it so -/

/-- The number of tables that `pte_set_fpn` has to take from the free list on its way. -/
def missingTables (k : CharKind) (mp : MemphyStruct) : AddrT → List AddrT → ℕ
  | _, []           => 0
  | base, idx :: is =>
    if entryPresent (get32bitEntry k mp (base + idx * 4)) then
      missingTables k mp (entryBase (get32bitEntry k mp (base + idx * 4))) is
    else is.length + 1

/-- A free frame with no present entry, whose number survives an entry. -/
def CleanFrame (k : CharKind) (mp : MemphyStruct) (f : AddrT) : Prop :=
  Survives k f ∧ ∀ i, entryPresent (get32bitEntry k mp (entryAddr f i)) = false

/-- A map that sets no page: it has no page to set, or the free frames, which are clean, do not suffice for
    the tables of the first one. -/
def MapOk (k : CharKind) (s : Kernel) (caller : ℕ) (addr : AddrT) (pgnum : ℤ) : Prop :=
  pgnum ≤ 0 ∨
    (∀ f ∈ s.mram.freeFpList, CleanFrame k s.mram f) ∧
      ∀ mm, s.mm caller = some mm →
        s.mram.freeFpList.length < missingTables k s.mram mm.pgd (getPdFromPagenum (addr >>> 12)).upper

/-- A map sets no page; a physical write misses the page tables. -/
def MemmapOk (k : CharKind) (s : Kernel) (caller : ℕ) (regs : ScRegs) : Prop :=
  match (regs.a1.setWidth 32 : BitVec 32) with
  | 1#32 => MapOk k s caller regs.a2 (regs.a3.setWidth 32).toInt
  | 5#32 => ¬ HoldsTable k s (regs.a2 >>> 12)
  | _    => True

/-- **The condition on a step.** `init_mm` finds a frame, and every memmap call meets its condition. -/
def StepOk (k : CharKind) (s : Kernel) : MemEvent → Prop
  | .load _           => s.mram.freeFpList ≠ []
  | .exec x ins sched => ins.opcode = .syscall → ins.arg0.setWidth 32 = 17#32 →
    ∀ caller, Kernel.findPcbByPid sched (pidOf x) = some caller →
      MemmapOk k s caller ⟨ins.arg1, ins.arg2, ins.arg3⟩

theorem Owned.cleanFrame {k : CharKind} {root : ℕ → Option AddrT} {mm : ℕ → Option MmStruct} {mp : MemphyStruct}
    (h : Owned k root mm mp) {f : AddrT} (hf : f ∈ mp.freeFpList) : CleanFrame k mp f := by
  have hsurv := h.survives f hf
  refine ⟨hsurv, fun i => ?_⟩
  rw [← Bool.not_eq_true]
  intro hpresent
  have hsome := tables_of_present hsurv.addressable hpresent
  rw [h.fresh f hf i] at hsome
  cases hsome

theorem Rooted.owned_of_clean {k : CharKind} {root : ℕ → Option AddrT} {mm : ℕ → Option MmStruct} {mp : MemphyStruct}
    (h : Rooted k root mm mp) (hclean : ∀ f ∈ mp.freeFpList, CleanFrame k mp f) : Owned k root mm mp := by
  refine ⟨h, fun f hf => (hclean f hf).1, fun f hf i => ?_⟩
  apply tables_of_absent
  rw [(hclean f hf).2 i]
  exact Bool.false_ne_true

/-! ## Instructions that leave RAM alone -/

/-- RAM and every page directory stay. -/
structure Keeps (s t : Kernel) : Prop where
  mram : t.mram = s.mram
  pgd : ∀ p, (t.mm p).map MmStruct.pgd = (s.mm p).map MmStruct.pgd

theorem Keeps.setMm {s t : Kernel} (h : Keeps s t) {x : ℕ} {m m' : MmStruct} (hm : t.mm x = some m)
    (hpgd : m'.pgd = m.pgd) : Keeps s (t.setMm x m') := by
  refine ⟨h.mram, ?_⟩
  intro p
  by_cases hpx : p = x
  · subst hpx
    rw [Kernel.mm_setMm_self, ← h.pgd p, hm, Option.map_some, Option.map_some, hpgd]
  · rw [Kernel.mm_setMm_of_ne _ _ hpx]
    exact h.pgd p

/-- Besides, only the address space of process `x` changes. -/
structure Confined (x : ℕ) (s t : Kernel) : Prop extends Keeps s t where
  others : ∀ y, y ≠ x → t.mm y = s.mm y

theorem Confined.refl (x : ℕ) (s : Kernel) : Confined x s s := ⟨⟨rfl, fun _ => rfl⟩, fun _ _ => rfl⟩

theorem Confined.setMm {x : ℕ} {s t : Kernel} (h : Confined x s t) {m m' : MmStruct} (hm : t.mm x = some m)
    (hpgd : m'.pgd = m.pgd) : Confined x s (t.setMm x m') := by
  refine ⟨h.toKeeps.setMm hm hpgd, fun y hy => ?_⟩
  rw [Kernel.mm_setMm_of_ne _ _ hy]
  exact h.others y hy

theorem pgd_setSymrg {mm mm' : MmStruct} {i : ℕ} {rg : VmRgStruct} (h : setSymrg mm i rg = .ok mm') :
    mm'.pgd = mm.pgd := by
  unfold setSymrg at h
  split at h
  · cases h
    rfl
  · cases h

theorem pgd_getFreeVmrgArea {mm mm' : MmStruct} {vmaid size : BitVec 32} {newrg : Option VmRgStruct}
    (h : getFreeVmrgArea mm vmaid size = .ok (newrg, mm')) : mm'.pgd = mm.pgd := by
  obtain ⟨vma, -, h⟩ := bind_eq_ok.mp h
  obtain ⟨⟨i, v⟩, -, h⟩ := bind_eq_ok.mp h
  cases h
  rfl

theorem pgd_enlistVmFreergList {mm mm' : MmStruct} {rg : VmRgStruct} {stat : ℤ}
    (h : enlistVmFreergList mm rg = .ok (stat, mm')) : mm'.pgd = mm.pgd := by
  unfold enlistVmFreergList at h
  split at h
  · cases h
  · split at h
    · cases h
      rfl
    · cases h
      rfl

theorem pgd_findVictimPage {mm mm' : MmStruct} {pgn : Option AddrT} (h : findVictimPage mm = .ok (pgn, mm')) :
    mm'.pgd = mm.pgd := by
  unfold findVictimPage at h
  split at h
  · cases h
    rfl
  · obtain ⟨taken, -, h⟩ := bind_eq_ok.mp h
    cases h
    rfl

/-- Swapping a page out writes to the other device. -/
theorem confined_mmSwapPage (x : ℕ) (s : Kernel) (vicfpn swpfpn : AddrT) (junk : BYTE) :
    Confined x s (s.mmSwapPage vicfpn swpfpn junk).2 := by
  unfold Kernel.mmSwapPage
  generalize swapCpPage s.mram vicfpn s.activeMswp swpfpn junk = mswp
  exact ⟨⟨rfl, fun _ => rfl⟩, fun _ _ => rfl⟩

section

variable {k : CharKind} {sched : SchedState ℕ} {s t : Kernel} {x : ℕ}

theorem confined_alloc {vmaid rgid : BitVec 32} {size addr : AddrT} {junk : BYTE} {stat : ℤ}
    (h : s.alloc k sched x vmaid rgid size junk = .ok (stat, addr, t)) : Confined x s t := by
  obtain ⟨mm, hmm, h⟩ := bind_eq_ok.mp h
  rw [Kernel.mmOf_eq_ok] at hmm
  obtain ⟨vma, -, h⟩ := bind_eq_ok.mp h
  obtain ⟨⟨newrg, mm₁⟩, hfree, h⟩ := bind_eq_ok.mp h
  have hpgd₁ := pgd_getFreeVmrgArea hfree
  cases newrg with
  | some rgnode =>
    obtain ⟨mm₂, hset, h⟩ := bind_eq_ok.mp h
    cases h
    exact (Confined.refl x s).setMm hmm ((pgd_setSymrg hset).trans hpgd₁)
  | none =>
    -- the system call changes nothing
    obtain ⟨⟨i, curVma⟩, -, h⟩ := bind_eq_ok.mp h
    obtain ⟨⟨v, regs, s₁⟩, hsys, h⟩ := bind_eq_ok.mp h
    obtain ⟨v', regs', hinc⟩ := (s.setMm x mm₁).syscall_inc k sched (pidOf x) (vmaid.signExtend 64) size junk
    rw [hinc] at hsys
    cases hsys
    obtain ⟨mm₂, hmm₂, h⟩ := bind_eq_ok.mp h
    rw [Kernel.mmOf_eq_ok] at hmm₂
    obtain ⟨mm₃, hset, h⟩ := bind_eq_ok.mp h
    cases h
    exact ((Confined.refl x s).setMm hmm hpgd₁).setMm hmm₂ (pgd_setSymrg hset)

theorem confined_free {vmaid rgid : BitVec 32} {stat : ℤ} (h : s.free x vmaid rgid = .ok (stat, t)) :
    Confined x s t := by
  unfold Kernel.free at h
  split at h
  · cases h
    exact Confined.refl x s
  · obtain ⟨mm, hmm, h⟩ := bind_eq_ok.mp h
    rw [Kernel.mmOf_eq_ok] at hmm
    obtain ⟨rgnode, -, h⟩ := bind_eq_ok.mp h
    split at h
    · cases h
      exact Confined.refl x s
    · obtain ⟨mm₁, hset, h⟩ := bind_eq_ok.mp h
      obtain ⟨⟨v, mm₂⟩, henlist, h⟩ := bind_eq_ok.mp h
      cases h
      exact (Confined.refl x s).setMm hmm ((pgd_enlistVmFreergList henlist).trans (pgd_setSymrg hset))

theorem confined_pgGetpage {pgn : BitVec 32} {fpn : Option (BitVec 32)} (h : s.pgGetpage k x pgn = .ok (fpn, t)) :
    Confined x s t := by
  obtain ⟨mm, hmm, h⟩ := bind_eq_ok.mp h
  rw [Kernel.mmOf_eq_ok] at hmm
  dsimp only at h
  split at h
  · cases h
    exact Confined.refl x s
  · obtain ⟨⟨vicpgn, mm₁⟩, hvictim, h⟩ := bind_eq_ok.mp h
    have hpgd₁ := pgd_findVictimPage hvictim
    cases vicpgn with
    | none =>
      cases h
      exact Confined.refl x s
    | some pgn =>
      dsimp only at h
      split at h
      · cases h
        exact (Confined.refl x s).setMm hmm hpgd₁
      · rename_i fpn' mswp _
        cases h
        have hmswp : Confined x s { s with activeMswp := mswp } := ⟨⟨rfl, fun _ => rfl⟩, fun _ _ => rfl⟩
        exact hmswp.setMm hmm hpgd₁

theorem confined_read {vmaid rgid : BitVec 32} {offset : AddrT} {data data' : BYTE} {stat : ℤ}
    (h : s.read k x vmaid rgid offset data = .ok (stat, data', t)) : Confined x s t := by
  unfold Kernel.read at h
  split at h
  · cases h
  · obtain ⟨mm, -, h⟩ := bind_eq_ok.mp h
    obtain ⟨currg, -, h⟩ := bind_eq_ok.mp h
    obtain ⟨⟨v, data₁, s₁⟩, hget, h⟩ := bind_eq_ok.mp h
    obtain ⟨⟨fpn, s₂⟩, hpage, hget⟩ := bind_eq_ok.mp hget
    cases hget
    cases h
    exact confined_pgGetpage hpage

theorem confined_write {vmaid rgid : BitVec 32} {offset : AddrT} {value : BYTE} {stat : ℤ}
    (h : s.write k x vmaid rgid offset value = .ok (stat, t)) : Confined x s t := by
  obtain ⟨mm, -, h⟩ := bind_eq_ok.mp h
  obtain ⟨vma, -, h⟩ := bind_eq_ok.mp h
  split at h
  · obtain ⟨currg, -, h⟩ := bind_eq_ok.mp h
    obtain ⟨⟨v, s₁⟩, hset, h⟩ := bind_eq_ok.mp h
    obtain ⟨⟨fpn, s₂⟩, hpage, hset⟩ := bind_eq_ok.mp hset
    cases hset
    cases h
    exact confined_pgGetpage hpage
  · cases h
    exact Confined.refl x s

/-- **Only a system call touches RAM.** -/
theorem confined_run {ins : InstT} {junk : BYTE} {stat : ℤ} (h : s.run k sched x ins junk = .ok (stat, t))
    (hop : ins.opcode ≠ .syscall) : Confined x s t := by
  unfold Kernel.run at h
  cases hins : ins.opcode with
  | «calc» =>
    rw [hins] at h
    cases h
    exact Confined.refl x s
  | alloc =>
    rw [hins] at h
    obtain ⟨⟨v, addr, s₁⟩, halloc, h⟩ := bind_eq_ok.mp h
    cases h
    exact confined_alloc halloc
  | free =>
    rw [hins] at h
    exact confined_free h
  | read =>
    rw [hins] at h
    obtain ⟨⟨v, dest, s₁⟩, hread, h⟩ := bind_eq_ok.mp h
    cases h
    obtain ⟨⟨v', data, s₂⟩, hread, h⟩ := bind_eq_ok.mp hread
    cases h
    exact confined_read hread
  | write =>
    rw [hins] at h
    exact confined_write h
  | syscall => exact absurd hins hop

/-- **What an instruction does to RAM**: nothing, or it is a map or a physical write. -/
theorem run_cases {ins : InstT} {junk : BYTE} {stat : ℤ} (h : s.run k sched x ins junk = .ok (stat, t)) :
    Confined x s t ∨ ins.opcode = .syscall ∧ ins.arg0.setWidth 32 = 17#32 ∧
      ∃ caller, Kernel.findPcbByPid sched (pidOf x) = some caller ∧
        (((ins.arg1.setWidth 32 : BitVec 32) = 1#32 ∧ ∃ mm, s.mm caller = some mm ∧
            t = { s with mram := (vmapPgdMemset k mm s.mram ins.arg2 (ins.arg3.setWidth 32).toInt).2 }) ∨
          (ins.arg1.setWidth 32 : BitVec 32) = 5#32 ∧
            t = { s with mram := memphyWriteIgn s.mram ins.arg2 (ins.arg3.setWidth 8) }) := by
  by_cases hop : ins.opcode = .syscall
  · unfold Kernel.run at h
    rw [hop] at h
    obtain ⟨⟨v, regs, s₁⟩, hsys, h⟩ := bind_eq_ok.mp h
    cases h
    unfold Kernel.syscall at hsys
    split at hsys
    · cases hsys
      exact .inl (Confined.refl x s)
    · rename_i hnr
      unfold Kernel.sysMemmap at hsys
      split at hsys
      · -- no such process
        cases hsys
        exact .inl (Confined.refl x s)
      · rename_i caller hcaller
        split at hsys
        · -- map
          rename_i hmap
          obtain ⟨mm, hmm, hsys⟩ := bind_eq_ok.mp hsys
          rw [Kernel.mmOf_eq_ok] at hmm
          cases hsys
          exact .inr ⟨hop, hnr, caller, hcaller, .inl ⟨hmap, mm, hmm, rfl⟩⟩
        · cases hsys
          exact .inl (Confined.refl x s)
        · -- swap
          cases hsys
          exact .inl (confined_mmSwapPage ..)
        · cases hsys
          exact .inl (Confined.refl x s)
        · -- physical write
          rename_i hwrite
          cases hsys
          exact .inr ⟨hop, hnr, caller, hcaller, .inr ⟨hwrite, rfl⟩⟩
        · cases hsys
          exact .inl (Confined.refl x s)
    · cases hsys
      exact .inl (Confined.refl x s)
  · exact .inl (confined_run h hop)

/-- An instruction keeps every PGD, and all address spaces but one. -/
theorem run_mm {ins : InstT} {junk : BYTE} {stat : ℤ} (h : s.run k sched x ins junk = .ok (stat, t)) :
    (∀ p, (t.mm p).map MmStruct.pgd = (s.mm p).map MmStruct.pgd) ∧ ∀ y, y ≠ x → t.mm y = s.mm y := by
  rcases run_cases h with hkeep | ⟨-, -, caller, -, ⟨-, mm, -, rfl⟩ | ⟨-, rfl⟩⟩
  · exact ⟨hkeep.pgd, hkeep.others⟩
  · exact ⟨fun _ => rfl, fun _ _ => rfl⟩
  · exact ⟨fun _ => rfl, fun _ _ => rfl⟩

end

/-! ## The invariant -/

/-- **No page of any process is present**, and every table belongs to one process. -/
structure Unmapped (k : CharKind) (root : ℕ → Option AddrT) (s : Kernel) : Prop
    extends Rooted k root s.mm s.mram where
  leaf : ∀ {p r is}, root p = some r → is.length = 5 → walk (tables k s.mram) r is = none

section

variable {k : CharKind} {root : ℕ → Option AddrT} {s t : Kernel}

theorem Unmapped.not_names (h : Unmapped k root s) {p : ℕ} {pgn f : AddrT} : ¬ Names k s p pgn f := by
  rintro ⟨m, hm, -, hpresent, -⟩
  obtain ⟨r, hr, hpgd, hra⟩ := h.root_of hm
  rw [pteGetEntry_present hpgd hra, h.leaf hr (length_leafPath _)] at hpresent
  cases hpresent

theorem Unmapped.exclusive (h : Unmapped k root s) : Exclusive k s :=
  ⟨fun hn => absurd hn h.not_names, fun hn => absurd hn h.not_names, fun hn => absurd hn h.not_names⟩

theorem Rooted.keeps (h : Rooted k root s.mm s.mram) (hkeep : Keeps s t) : Rooted k root t.mm t.mram := by
  obtain ⟨hmram, hpgd⟩ := hkeep
  rw [hmram]
  refine ⟨h.rdm, h.free, ?_, h.roots, h.forest⟩
  intro p
  rw [hpgd p]
  exact h.pgd p

theorem Unmapped.keeps (h : Unmapped k root s) (hkeep : Keeps s t) : Unmapped k root t := by
  refine ⟨h.toRooted.keeps hkeep, ?_⟩
  rw [hkeep.mram]
  exact h.leaf

/-- **Loading** a process when there is a frame for it. -/
theorem Unmapped.load (h : Unmapped k root s) {x : ℕ} (hframe : s.mram.freeFpList ≠ []) (hload : Kernel.Loads x s t) :
    ∃ root', Unmapped k root' t := by
  cases hload with
  | @initMm stat m₀ m mram link hinit =>
    obtain rfl := initMm_stat hinit hframe
    obtain ⟨r, hrooted, -, hempty, -, hwalks⟩ := h.after_initMm x hinit
    refine ⟨_, hrooted, ?_⟩
    intro p r' is hp his
    by_cases hpx : p = x
    · subst hpx
      rw [Function.update_self] at hp
      obtain rfl := Option.some.inj hp
      apply walk_empty hempty
      rintro rfl
      cases his
    · rw [Function.update_of_ne hpx] at hp
      exact (hwalks hp his.le).trans (h.leaf hp his)

/-- The tables that processes use are page tables. -/
theorem holdsTable_of_walk (h : Rooted k root s.mm s.mram) {p : ℕ} {r f : AddrT} {is : List (Fin 512)}
    (hp : root p = some r) (his : is.length < 5) (hf : walk (tables k s.mram) r is = some f) :
    HoldsTable k s f := by
  obtain ⟨m, hm, hpgd⟩ := h.mm_of hp
  refine ⟨p, m, is, hm, Nat.le_of_lt_succ his, ?_⟩
  rw [hpgd, (walkTables_walk is (h.roots hp)).1, hf]
  rfl

/-- A physical write changes entries of its own frame only. -/
theorem tables_ioWrite {mp : MemphyStruct} (hrdm : mp.rdmflg = true) (a : AddrT) (b : BYTE) {f : AddrT}
    (hf : f ≠ a >>> 12) (i : Fin 512) : tables k (memphyWriteIgn mp a b) f i = tables k mp f i := by
  apply tables_congr hrdm (by rw [rdmflg_memphyWriteIgn]; exact hrdm)
  intro haddr c hc
  rw [memphyWriteIgn_of_rdm hrdm]
  refine Function.update_of_ne ?_ ..
  rintro rfl
  apply hf
  apply BitVec.eq_of_toNat_eq
  rw [BitVec.toNat_ushiftRight, toNat_entryAddr_add haddr i hc, Nat.shiftRight_eq_div_pow]
  have hi := i.isLt
  omega

/-- **A physical write** outside the page tables changes no walk. -/
theorem Rooted.walk_ioWrite (h : Rooted k root s.mm s.mram) {a : AddrT} (b : BYTE) (hmiss : ¬ HoldsTable k s (a >>> 12))
    {p : ℕ} {r : AddrT} {js : List (Fin 512)} (hp : root p = some r) (hjs : js.length ≤ 5) :
    walk (tables k (memphyWriteIgn s.mram a b)) r js = walk (tables k s.mram) r js := by
  refine walk_congr js r fun n hn f hf => tables_ioWrite h.rdm a b ?_ _
  rintro rfl
  refine hmiss (holdsTable_of_walk h hp ?_ hf)
  rw [List.length_take]
  omega

theorem Rooted.ioWrite (h : Rooted k root s.mm s.mram) {a : AddrT} (b : BYTE) (hmiss : ¬ HoldsTable k s (a >>> 12)) :
    Rooted k root s.mm (memphyWriteIgn s.mram a b) := by
  refine ⟨?_, ?_, h.pgd, h.roots, ?_⟩
  · rw [rdmflg_memphyWriteIgn]
    exact h.rdm
  · rw [freeFpList_memphyWriteIgn]
    exact h.free
  · rw [freeFpList_memphyWriteIgn]
    exact h.forest.congr fun hp his => h.walk_ioWrite b hmiss hp his.le

theorem Unmapped.ioWrite (h : Unmapped k root s) {a : AddrT} (b : BYTE) (hmiss : ¬ HoldsTable k s (a >>> 12)) :
    Unmapped k root { s with mram := memphyWriteIgn s.mram a b } :=
  ⟨h.toRooted.ioWrite b hmiss, fun hp his => (h.toRooted.walk_ioWrite b hmiss hp his.le).trans (h.leaf hp his)⟩

/-- The tables missing in the device are those missing in the forest. -/
theorem missingTables_eq {mp : MemphyStruct} (is : List (Fin 512)) : ∀ {f : AddrT}, Addressable f →
    missingTables k mp (baseOf f) (is.map idxOf) = missing (tables k mp) f is := by
  induction is with
  | nil =>
    intro f _
    rfl
  | cons i is ih =>
    intro f hf
    rw [List.map_cons, missingTables, entryAddr_eq]
    by_cases hpresent : entryPresent (get32bitEntry k mp (entryAddr f i)) = true
    · rw [if_pos hpresent, entryBase_eq, ih (addressable_entryFpn _)]
      simp only [missing, tables_of_present hf hpresent]
    · rw [if_neg hpresent, List.length_map]
      simp only [missing, tables_of_absent hpresent]

theorem survives_zero (k : CharKind) : Survives k 0 := ⟨by decide, fun _ => by decide⟩

/-- `pte_set_fpn` fails exactly when the free frames do not suffice for its tables. -/
theorem pteSetFpn_ne_zero_iff {mm : ℕ → Option MmStruct} {mp : MemphyStruct} (h : Owned k root mm mp) {p : ℕ}
    {m : MmStruct} (hm : mm p = some m) (pgn fpn : AddrT) :
    (pteSetFpn k m mp pgn fpn).1 ≠ 0 ↔
      mp.freeFpList.length < missingTables k mp m.pgd (getPdFromPagenum pgn).upper := by
  obtain ⟨r, hr, hpgd, hra⟩ := h.root_of hm
  obtain ⟨o, mp₁, halloc, hdesc, -⟩ := allocTables_descend (upperPath (pgn <<< 12)) h.rdm hra
    (h.survives_take _)
  have hfails := descend_eq_none_iff hr (upperPath (pgn <<< 12)) h.forest h.fresh (walk_nil _ r) rfl
  rw [hdesc] at hfails
  rw [pteSetFpn, hpgd, getPdFromPagenum, upper_getPdFromAddress, halloc, missingTables_eq _ hra, ← hfails]
  cases o with
  | none => simp
  | some g => simp

/-- **A map that sets no page.** -/
theorem Unmapped.map (h : Unmapped k root s) {caller : ℕ} {mm : MmStruct} (hm : s.mm caller = some mm)
    {addr : AddrT} {pgnum : ℤ} (hok : MapOk k s caller addr pgnum) :
    Unmapped k root { s with mram := (vmapPgdMemset k mm s.mram addr pgnum).2 } := by
  rcases hok with hnone | ⟨hclean, hshort⟩
  · rw [vmapPgdMemset, Int.toNat_of_nonpos hnone]
    exact h
  · have howned : Owned k root s.mm s.mram := h.toRooted.owned_of_clean hclean
    unfold vmapPgdMemset
    cases pgnum.toNat with
    | zero => exact h
    | succ n =>
      -- the first page fails, so the loop ends
      have hfails := (pteSetFpn_ne_zero_iff howned hm (addr >>> 12) 0).mpr (hshort mm hm)
      cases hset : pteSetFpn k mm s.mram (addr >>> 12) 0 with
      | mk stat mp =>
        rw [hset] at hfails
        have hstat : stat ≠ 0 := hfails
        obtain ⟨howned', hwalks⟩ := howned.after_pteSetFpn hm (survives_zero k) hset
        simp only [vmapPgdLoop, hset, if_pos hstat]
        refine ⟨howned'.toRooted, ?_⟩
        intro p r is hp his
        show walk (tables k mp) r is = none
        rw [hwalks hp his, if_neg fun hc => hstat hc.1]
        exact h.leaf hp his

/-! ## A map that sets a page -/

/-- **`pte_get_entry` reads what `pte_set_fpn` has written**, with an unsigned `char`. -/
theorem pteGetEntry_of_set {mm : ℕ → Option MmStruct} {mp mp' : MemphyStruct} (h : Owned .unsigned root mm mp)
    {p : ℕ} {m : MmStruct} (hm : mm p = some m) {pgn fpn : AddrT} (hfpn : Survives .unsigned fpn)
    (hset : pteSetFpn .unsigned m mp pgn fpn = (0, mp')) :
    ∃ v, pteGetEntry .unsigned m mp' pgn = (leafEntry v fpn).setWidth 32 := by
  obtain ⟨r, hr, hpgd, hra⟩ := h.root_of hm
  obtain ⟨o, mp₁, halloc, hdesc, hrdm, -⟩ := allocTables_descend (upperPath (pgn <<< 12)) h.rdm hra
    (h.survives_take _)
  obtain ⟨hforest, -, -, hend⟩ :=
    descend_spec hr (upperPath (pgn <<< 12)) h.forest h.fresh (walk_nil _ r) rfl hdesc
  rw [pteSetFpn, hpgd, getPdFromPagenum, upper_getPdFromAddress, halloc, pt_getPdFromAddress] at hset
  cases o with
  | none => exact absurd (congrArg Prod.fst hset) (by simp)
  | some g =>
    have hg := hend g rfl
    rw [List.nil_append] at hg
    have hmp' : putEntryBytes mp₁ (entryAddr g (levelIdx 12 (pgn <<< 12)))
        (leafEntry (get32bitEntry .unsigned mp₁ (entryAddr g (levelIdx 12 (pgn <<< 12)))) fpn) = mp' :=
      congrArg Prod.snd hset
    refine ⟨get32bitEntry .unsigned mp₁ (entryAddr g (levelIdx 12 (pgn <<< 12))), ?_⟩
    generalize get32bitEntry .unsigned mp₁ (entryAddr g (levelIdx 12 (pgn <<< 12))) = v at hmp' ⊢
    -- the leaf is off the way to its own table
    have hway : walk (tables .unsigned mp') r (upperPath (pgn <<< 12)) = some g := by
      have hga := (walkTables_walk (upperPath (pgn <<< 12)) hra).2 g hg
      have hbits := getLsbD_leafEntry v fpn
      have hlen : (upperPath (pgn <<< 12)).length = 4 := rfl
      rw [← hmp', tables_putEntryBytes hrdm hga (decode_byteOf hfpn hbits.1 hbits.2), ← hg]
      apply hforest.walk_write_of_not_prefix hr hr _ hg
      · rw [hlen]
        decide
      · rintro ⟨-, hpre⟩
        exact absurd hpre.length_le (by simp)
      · rw [hlen]
        decide
    rw [pteGetEntry_walk hpgd hra, hway, ← hmp']
    show (get32bitEntry .unsigned _ _).setWidth 32 = _
    rw [decode_stored hrdm, setWidth_decode_unsigned]

/-- The page that such a map sets is resident in frame 0. -/
theorem names_of_set (h : Owned .unsigned root s.mm s.mram) {p : ℕ} {m : MmStruct} (hm : s.mm p = some m)
    {pgn : AddrT} (hpgn : pgn.toNat < 2 ^ 45) {mp : MemphyStruct}
    (hset : pteSetFpn .unsigned m s.mram pgn 0 = (0, mp)) : Names .unsigned { s with mram := mp } p pgn 0 := by
  obtain ⟨v, hentry⟩ := pteGetEntry_of_set h hm (survives_zero .unsigned) hset
  refine ⟨m, hm, hpgn, ?_, ?_, ?_⟩
  · show pagingPagePresent (pteGetEntry .unsigned m mp pgn) = true
    rw [hentry, pagingPagePresent_setWidth, entryPresent_eq]
    exact (getLsbD_leafEntry v 0).1
  · show pteGetEntry .unsigned m mp pgn &&& pagingPteSwappedMask = 0
    rw [hentry]
    exact leafEntry_not_swapped v 0
  · show 0 = (pagingFpn (pteGetEntry .unsigned m mp pgn)).setWidth 64
    rw [hentry, pagingFpn_leafEntry v (by decide)]

/-- **Frame 0 is the PGD of a process**, so no page can be set there. -/
theorem not_exclusive_of_set (h : Owned .unsigned root s.mm s.mram) {q : ℕ} (hq : root q = some 0) {p : ℕ}
    {m : MmStruct} (hm : s.mm p = some m) {pgn : AddrT} (hpgn : pgn.toNat < 2 ^ 45) {mp : MemphyStruct}
    (hset : pteSetFpn .unsigned m s.mram pgn 0 = (0, mp)) : ¬ Exclusive .unsigned { s with mram := mp } := by
  intro hex
  obtain ⟨m', hm', hpgd⟩ := h.mm_of hq
  apply hex.notTable (names_of_set h hm hpgn hset)
  refine ⟨q, m', [], hm', Nat.zero_le 4, ?_⟩
  rw [hpgd]
  rfl

/-! ## Every run -/

theorem unmapped_step {ram swp : DeviceBoot} (h : Unmapped k root s) {e : MemEvent} (hok : StepOk k s e)
    (hst : (kernelMachine k ram swp).system.step s e t) : ∃ root', Unmapped k root' t := by
  cases e with
  | load x => exact h.load hok hst
  | exec x ins sched =>
    obtain ⟨junk, stat, hrun⟩ := hst
    refine ⟨root, ?_⟩
    rcases run_cases hrun with hkeep | ⟨hop, hnr, caller, hcaller, hcall⟩
    · exact h.keeps hkeep.toKeeps
    · have hmemmap := hok hop hnr caller hcaller
      unfold MemmapOk at hmemmap
      rcases hcall with ⟨hmap, mm, hmm, rfl⟩ | ⟨hwrite, rfl⟩
      · rw [hmap] at hmemmap
        exact h.map hmm hmemmap
      · rw [hwrite] at hmemmap
        exact h.ioWrite _ hmemmap

end

/-- The invariant of the runs whose steps meet the condition. -/
theorem unmapped_of_guarded {k : CharKind} {ram swp : DeviceBoot} (hformat : Formatted ram.mp ram.link ram.maxSize)
    {s : Kernel} (hs : ((kernelMachine k ram swp).system.guard (StepOk k)).Reachable s) :
    ∃ root, Unmapped k root s := by
  apply hs.invariant
  · rintro t rfl
    obtain ⟨hrooted, -⟩ := rooted_initMemphy (k := k) ram.block (show (1 : ℤ) ≠ 0 by decide) hformat
    exact ⟨_, hrooted, fun hp => absurd hp (by simp)⟩
  · rintro t e u ⟨root, h⟩ ⟨hst, hok⟩
    exact unmapped_step h hok hst

/-- **Frames are exclusive** in every run whose steps meet the condition. -/
theorem exclusive_of_guarded (k : CharKind) (ram swp : DeviceBoot) (hformat : Formatted ram.mp ram.link ram.maxSize)
    (s : Kernel) (hs : ((kernelMachine k ram swp).system.guard (StepOk k)).Reachable s) : Exclusive k s := by
  obtain ⟨root, h⟩ := unmapped_of_guarded hformat hs
  exact h.exclusive

/-! ## One process that maps its page 0 -/

theorem formatted_zeroDevice {maxSize : AddrT} (hn : 2 ≤ numfpOf maxSize) :
    Formatted (zeroDevice maxSize).mp (zeroDevice maxSize).link (zeroDevice maxSize).maxSize := .inl hn

/-- One CPU, one process, and its code: `syscall 17 1 0 1`. -/
def mapper : Config := ⟨1, 1, 1, fun _ => 0, fun _ => 0, fun _ => [⟨.syscall, 17, 1, 0, 1⟩]⟩

/-- The first process gets frame 0, and needs four tables for its first page. -/
theorem first_process {maxSize : AddrT} (hn : 2 ≤ numfpOf maxSize) (hle : numfpOf maxSize ≤ 8192) :
    (zeroDevice maxSize).device.freeFpList ≠ [] ∧
    ∃ m mram, initMm rawMm (zeroDevice maxSize).device [] = (0, m, mram) ∧
      Owned .unsigned (Function.update (fun _ => none) 0 (some 0)) (Function.update (fun _ => none) 0 (some m)) mram ∧
      mram.freeFpList.length + 1 = (numfpOf maxSize).toNat ∧
      ∀ pgn, missingTables .unsigned mram m.pgd (getPdFromPagenum pgn).upper = 4 := by
  have howned : Owned .unsigned (fun _ => none) (fun _ => none) (zeroDevice maxSize).device :=
    owned_initMemphy (by decide) hle (fun _ _ _ => rfl) (formatted_zeroDevice hn)
  have hlist : (zeroDevice maxSize).device.freeFpList
      = (List.range (numfpOf maxSize).toNat).map (BitVec.ofNat 64) :=
    freeFpList_of_formatted _ _ (formatted_zeroDevice hn)
  obtain ⟨n, hsucc⟩ : ∃ n, (numfpOf maxSize).toNat = n + 1 := ⟨(numfpOf maxSize).toNat - 1, by omega⟩
  rw [hsucc, List.range_succ_eq_map, List.map_cons, List.map_map] at hlist
  refine ⟨by rw [hlist]; exact List.cons_ne_nil _ _, ?_⟩
  rcases initMm_cases (k := .unsigned) rawMm howned.rdm [] with ⟨hnone, -⟩ | ⟨-, m, mram, hok, -⟩
  · rw [hlist] at hnone
    exact absurd hnone (by simp)
  · obtain ⟨r, howned', hpool, hempty, -⟩ := howned.after_initMm 0 hok
    rw [hlist] at hpool
    obtain ⟨rfl, hrest⟩ := List.cons.inj hpool
    obtain ⟨r, hr, hpgd, hra⟩ := howned'.root_of (p := 0) (Function.update_self ..)
    rw [Function.update_self] at hr
    obtain rfl := Option.some.inj hr
    refine ⟨m, mram, hok, howned', ?_, ?_⟩
    · rw [← hrest, hsucc, List.length_map, List.length_range]
    · intro pgn
      rw [hpgd, getPdFromPagenum, upper_getPdFromAddress, missingTables_eq _ hra, missing_of_empty hempty]
      rfl

/-- The instruction of `mapper`. -/
theorem run_map {k : CharKind} {sched : SchedState ℕ} {s : Kernel} {x : ℕ} {m : MmStruct}
    (hfind : Kernel.findPcbByPid sched (pidOf x) = some x) (hm : s.mm x = some m) {addr : AddrT} {stat : ℤ}
    {mram : MemphyStruct} (hmap : vmapPgdMemset k m s.mram addr 1 = (stat, mram)) (junk : BYTE) :
    s.run k sched x ⟨.syscall, 17, 1, addr, 1⟩ junk = .ok (0, { s with mram }) := by
  have hsys : s.sysMemmap k sched (pidOf x) ⟨1, addr, 1⟩ junk
      = .ok (0, ⟨1, addr, 1⟩, { s with mram := (vmapPgdMemset k m s.mram addr 1).2 }) := by
    unfold Kernel.sysMemmap
    rw [hfind]
    show (s.mmOf x >>= _) = _
    rw [Kernel.mmOf_eq_ok.mpr hm]
    rfl
  rw [hmap] at hsys
  show (s.sysMemmap k sched (pidOf x) ⟨1, addr, 1⟩ junk >>= _) = _
  rw [hsys]
  rfl

/-- The CPU of `mapper` gets the process that the loader has added, and `find_pcb_by_pid` finds it then. -/
theorem get_mapper : ∃ q : SchedState ℕ,
    SchedState.addMlqProc mapper.prio SchedState.static.initScheduler 0 = some q ∧
      (q.getMlqProc mapper.prio).1 = some 0 ∧
      Kernel.findPcbByPid (q.getMlqProc mapper.prio).2 (pidOf 0) = some 0 := by
  obtain ⟨q, hq⟩ : ∃ q, SchedState.addMlqProc mapper.prio SchedState.static.initScheduler 0 = some q :=
    SchedState.requeue_isSome _ (show 0 < maxPrio by decide)
  refine ⟨q, hq, ?_⟩
  cases hq
  exact ⟨rfl, rfl⟩

/-- With two frames the map fails. -/
theorem exclusive_of_guarded_two : ∃ s : Kernel,
    ((kernelMachine .unsigned (zeroDevice 512) (zeroDevice 512)).system.guard (StepOk .unsigned)).Reachable s ∧
      (s.mm 0).isSome ∧ Exclusive .unsigned s := by
  have htwo : 2 ≤ numfpOf 512 ∧ numfpOf 512 ≤ 8192 := by decide
  obtain ⟨hfree, m, mram, hinit, howned, hlen, hmissing⟩ := first_process htwo.1 htwo.2
  obtain ⟨q, -, -, hfind⟩ := get_mapper
  let T := (kernelMachine .unsigned (zeroDevice 512) (zeroDevice 512)).system.guard (StepOk .unsigned)
  let s₁ := ({ Kernel.boot (zeroDevice 512) (zeroDevice 512) with mram }).setMm 0 m
  have h₁ : T.Reachable s₁ := .step (l := MemEvent.load 0) (.init rfl) ⟨Kernel.Loads.initMm hinit, hfree⟩
  have hm : s₁.mm 0 = some m := Kernel.mm_setMm_self ..
  have hok : StepOk .unsigned s₁ (.exec 0 ⟨.syscall, 17, 1, 0, 1⟩ (q.getMlqProc mapper.prio).2) := by
    intro _ _ caller hcaller
    obtain rfl : 0 = caller := Option.some.inj (hfind.symm.trans hcaller)
    refine .inr ⟨fun f hf => howned.cleanFrame hf, fun mm hmm => ?_⟩
    obtain rfl : m = mm := Option.some.inj (hm.symm.trans hmm)
    -- one frame is left
    show mram.freeFpList.length < missingTables .unsigned mram m.pgd _
    rw [hmissing]
    have hframes : (numfpOf 512).toNat = 2 := by decide
    omega
  have h₂ := h₁.step (l := MemEvent.exec 0 _ _) ⟨⟨0, 0, run_map hfind hm rfl 0⟩, hok⟩
  refine ⟨_, h₂, ?_, ?_⟩
  · show (s₁.mm 0).isSome = true
    rw [hm]
    rfl
  · exact exclusive_of_guarded .unsigned (zeroDevice 512) (zeroDevice 512) (formatted_zeroDevice htwo.1) _ h₂

/-- One CPU, one process, and its code is one instruction. -/
def oneCall (ins : InstT) : Config := ⟨1, 1, 1, fun _ => 0, fun _ => 0, fun _ => [ins]⟩

/-- Its CPU. -/
def callCpu (ins : InstT) : Fin (oneCall ins).numCpus := ⟨0, Nat.one_pos⟩

/-- The loader adds the process of `oneCall`, and the CPU is about to execute its instruction. -/
theorem oneCall_dispatched (ins : InstT) {maxSize : AddrT} {m : MmStruct} {mram : MemphyStruct}
    (hinit : initMm rawMm (zeroDevice maxSize).device [] = (0, m, mram)) :
    ∃ s : OsState (oneCall ins).numCpus Kernel,
      (osSystem (oneCall ins) (kernelMachine .unsigned (zeroDevice maxSize) (zeroDevice maxSize))).Reachable s ∧
        s.mem = ({ Kernel.boot (zeroDevice maxSize) (zeroDevice maxSize) with mram }).setMm 0 m ∧
        s.cpu (callCpu ins) = ⟨.run, some 0, 1⟩ ∧ s.procPc = (fun _ => 0) ∧ s.reaped = [] ∧
        Kernel.findPcbByPid s.sched (pidOf 0) = some 0 := by
  obtain ⟨q, hq, hget, hfind⟩ := get_mapper
  replace hget : (q.getMlqProc (oneCall ins).prio).1 = some 0 := hget
  let T := osSystem (oneCall ins) (kernelMachine .unsigned (zeroDevice maxSize) (zeroDevice maxSize))
  let s₁ := ({ Kernel.boot (zeroDevice maxSize) (zeroDevice maxSize) with mram }).setMm 0 m
  have h : T.Reachable (.start _ (.boot (zeroDevice maxSize) (zeroDevice maxSize))) := .init ⟨_, rfl, rfl⟩
  have h := h.step ⟨0, .ld (.load rfl Nat.one_pos)⟩
  have h := h.step ⟨0, .ld (.onTime rfl (Nat.lt_irrefl 0))⟩
  have h := h.step ⟨0, .ld (.initMm (m := s₁) rfl (.initMm hinit))⟩
  have h := h.step ⟨0, .ld (.add rfl hq)⟩
  have h := h.step ⟨0, .cpu (.getIdle (c := callCpu ins) rfl rfl)⟩
  have h := h.step ⟨0, .cpu (.dispatch (c := callCpu ins) (x := 0) (by rw [cpu_setCpu_self]; simp only [hget]; rfl)
    (by rw [cpu_setCpu_self]; simp only [hget]))⟩
  refine ⟨_, h, rfl, ?_, rfl, rfl, hfind⟩
  rw [cpu_setCpu_self, cpu_setCpu_self]
  rfl

/-- **A map that sets its page**: it names frame 0, where the PGD of the process is. -/
theorem exclusive_fails : ¬ ∀ (k : CharKind) (cfg : Config) (ram swp : DeviceBoot) (s : OsState cfg.numCpus Kernel),
    (osSystem cfg (kernelMachine k ram swp)).Reachable s → Exclusive k s.mem := by
  intro hall
  have hsize : 2 ≤ numfpOf 1048576 ∧ numfpOf 1048576 ≤ 8192 := by decide
  obtain ⟨-, m, mram, hinit, howned, hlen, hmissing⟩ := first_process hsize.1 hsize.2
  -- the frames that are left suffice
  obtain ⟨mp, hset⟩ : ∃ mp, pteSetFpn .unsigned m mram 0 0 = (0, mp) := by
    have hzero := (pteSetFpn_ne_zero_iff howned (p := 0) (Function.update_self ..) 0 0).not.mpr (by
      rw [hmissing]
      have hframes : (numfpOf 1048576).toNat = 4096 := by decide
      omega)
    exact ⟨_, Prod.ext (not_not.mp hzero) rfl⟩
  have hmap : vmapPgdMemset .unsigned m mram 0 1 = (0, mp) := by
    show vmapPgdLoop .unsigned m 1 mram 0 = _
    simp only [vmapPgdLoop, hset]
    rfl
  -- the loader adds the process, and the CPU executes its instruction
  obtain ⟨s, h, hmem, hcpu, hpc, -, hfind⟩ := oneCall_dispatched ⟨.syscall, 17, 1, 0, 1⟩ hinit
  have hm : s.mem.mm 0 = some m := by
    rw [hmem]
    exact Kernel.mm_setMm_self ..
  have hram : s.mem.mram = mram := by rw [hmem]; rfl
  have howned' : Owned .unsigned (Function.update (fun _ => none) 0 (some 0)) s.mem.mm s.mem.mram := by
    rw [hmem]
    exact howned
  rw [← hram] at hmap hset
  have h := h.step ⟨0, .cpu (.run (c := callCpu _) (x := 0) (by rw [hcpu]) (by rw [hcpu])
    (.exec (by rw [hpc]; rfl) ⟨0, 0, run_map hfind hm hmap 0⟩))⟩
  -- frame 0 holds its PGD
  exact not_exclusive_of_set howned' (q := 0) (Function.update_self ..) hm (by decide) hset
    (hall .unsigned (oneCall ⟨.syscall, 17, 1, 0, 1⟩) (zeroDevice 1048576) (zeroDevice 1048576) _ h)

end LamiaAtrium
