import LamiaAtrium.Lib.Radix.Lacking
import LamiaAtrium.Mem.MapRam
import LamiaAtrium.Mem.Correctness.Exclusive

/-!
# `Mem.Correctness.Rollback` — what `vm_map_ram` leaves behind when it fails

`vm_map_ram` takes the frames of the pages first and maps then. When it finds too few frames it puts them back.
When a page fails, because `pte_set_fpn` has no frame left for a table, it puts the same frames back, but the
entries that name them stay, and so do the tables taken and the pages enlisted.

* `AllOrNothing` is what a failing call should leave behind: the same free frames, the same pages, the same list.
* `vmMapRam_nonpos`, `vmMapRam_short`, `vmMapRam_oom` and `vmMapRam_enough` are the ways through the function.
* `neededTables` counts the tables that a range of pages needs and that are not there; `mapsAll_iff` says that the
  mapping succeeds exactly when there are frames for them, and `vmapPgdMemset_eq_zero_iff` the same for
  `vmap_pgd_memset`.
* `vmMapRam_allOrNothing_iff` says when a call is all or nothing.
-/

namespace LamiaAtrium

open Radix

/-- `translate_address` says the same about every address of every process. -/
def SamePages (k : CharKind) (mm mm' : ℕ → Option MmStruct) (mp mp' : MemphyStruct) : Prop :=
  ∀ q vaddr, (mm' q).map (fun m => translateAddress k m mp' vaddr)
    = (mm q).map fun m => translateAddress k m mp vaddr

/-- **A call of process `p` that returns -1 has changed nothing** but the order of the free list. -/
def AllOrNothing (k : CharKind) (mm : ℕ → Option MmStruct) (p : ℕ) (m : MmStruct) (mp : MemphyStruct)
    (result : ℤ × VmRgStruct × MmStruct × MemphyStruct) : Prop :=
  match result with
  | (ret, _, m', mp') => ret = -1 → mp'.freeFpList.Perm mp.freeFpList ∧
      SamePages k mm (Function.update mm p (some m')) mp mp' ∧ m'.fifoPgn = m.fifoPgn

/-- No page of the range fails, once the frames of the pages are taken. -/
def MapsAll (k : CharKind) (m : MmStruct) (mp : MemphyStruct) (mapstart : AddrT) (incpgnum : ℤ) : Prop :=
  (vmapPageRange k m { mp with freeFpList := mp.freeFpList.drop incpgnum.toNat } mapstart incpgnum
    (mp.freeFpList.take incpgnum.toNat)).1 = incpgnum.toNat

/-- `malloc` gives a node for every frame that there is. -/
def NodesSuffice (oom : ℕ → Bool) (mp : MemphyStruct) (incpgnum : ℤ) : Prop :=
  ∀ j < incpgnum.toNat, j < mp.freeFpList.length → oom j = false

/-! ## The free list is not read -/

section

variable {k : CharKind} {mp : MemphyStruct}

theorem get32bitEntry_freeFpList (l : List AddrT) (base : AddrT) :
    get32bitEntry k { mp with freeFpList := l } base = get32bitEntry k mp base := by
  by_cases hrdm : mp.rdmflg = true
  · have hrdm' : ({ mp with freeFpList := l } : MemphyStruct).rdmflg = true := hrdm
    rw [get32bitEntry_of_rdm hrdm, get32bitEntry_of_rdm hrdm']
  · have hseq : mp.rdmflg = false := Bool.eq_false_iff.mpr hrdm
    have hseq' : ({ mp with freeFpList := l } : MemphyStruct).rdmflg = false := hseq
    rw [get32bitEntry_of_seq hseq, get32bitEntry_of_seq hseq']

theorem walkTables_freeFpList (l : List AddrT) (is : List AddrT) (base : AddrT) :
    walkTables k { mp with freeFpList := l } base is = walkTables k mp base is := by
  induction is generalizing base with
  | nil => rfl
  | cons idx is ih => rw [walkTables, walkTables, get32bitEntry_freeFpList, ih]

theorem translateAddress_freeFpList (l : List AddrT) (m : MmStruct) (vaddr : AddrT) :
    translateAddress k m { mp with freeFpList := l } vaddr = translateAddress k m mp vaddr := by
  simp only [translateAddress, walkTables_freeFpList, get32bitEntry_freeFpList]

/-- Without a free frame, the tables have to be there. -/
theorem allocTables_of_nil (hnil : mp.freeFpList = []) (is : List AddrT) (base : AddrT) :
    allocTables k mp base is = (walkTables k mp base is, mp) := by
  induction is generalizing base with
  | nil => rfl
  | cons idx is ih =>
    rw [allocTables, walkTables, memphyGetFreefp_eq_none.mpr hnil, ih]
    split <;> rfl

theorem pteSetFpn_of_nil (hnil : mp.freeFpList = []) (m : MmStruct) (pgn fpn : AddrT) :
    (pteSetFpn k m mp pgn fpn).1 ≠ 0 ↔ walkTables k mp m.pgd (getPdFromPagenum pgn).upper = none := by
  rw [pteSetFpn, allocTables_of_nil hnil]
  cases walkTables k mp m.pgd (getPdFromPagenum pgn).upper with
  | none => simp
  | some ptBase => simp

end

/-! ## The ways through the function -/

section

variable {k : CharKind} {oom : ℕ → Bool} {m : MmStruct} {mp : MemphyStruct} {mapstart : AddrT} {incpgnum : ℤ}
  {retRg : VmRgStruct}

/-- No page is asked for. -/
theorem vmMapRam_nonpos (hnone : incpgnum ≤ 0) :
    ∃ ret rg, vmMapRam k oom m mp mapstart incpgnum retRg = (ret, rg, m, mp) := by
  have hzero : incpgnum.toNat = 0 := Int.toNat_of_nonpos hnone
  have halloc : allocPagesRange oom mp incpgnum = (incpgnum, [], mp) := by
    rw [allocPagesRange_eq (by rw [hzero]; exact fun j hj => absurd hj (Nat.not_lt_zero j)), hzero,
      if_neg (Nat.not_lt_zero _), List.take_zero, List.drop_zero]
  rw [vmMapRam, halloc]
  dsimp only
  split
  · exact ⟨_, _, rfl⟩
  · split
    · exact ⟨_, _, rfl⟩
    · rw [if_neg (lt_irrefl incpgnum), vmapPageRange, vmapPageLoop]
      dsimp only
      split
      · exact ⟨_, _, rfl⟩
      · exact ⟨_, _, rfl⟩

/-- Too few frames: they are put back. -/
theorem vmMapRam_short (hnodes : NodesSuffice oom mp incpgnum) (hshort : mp.freeFpList.length < incpgnum.toNat) :
    vmMapRam k oom m mp mapstart incpgnum retRg
      = (-1, retRg, m, { mp with freeFpList := mp.freeFpList.reverse }) := by
  rw [vmMapRam, allocPagesRange_eq hnodes, if_pos hshort, List.take_of_length_le hshort.le,
    List.drop_of_length_le hshort.le]
  dsimp only
  rw [if_neg (by omega), if_neg (by omega), if_pos (by omega), freeFrameList_eq]
  dsimp only
  rw [List.append_nil]

/-- No node for a frame: the others are put back. -/
theorem vmMapRam_oom (hnodes : ¬ NodesSuffice oom mp incpgnum) :
    ∃ l : List AddrT, vmMapRam k oom m mp mapstart incpgnum retRg = (-1, retRg, m, { mp with freeFpList := l }) ∧
      l.length + 1 = mp.freeFpList.length := by
  unfold NodesSuffice at hnodes
  push Not at hnodes
  obtain ⟨j, hj, hlen, hoom⟩ := hnodes
  obtain ⟨ret, frames, rest, halloc, hret, hsum⟩ :=
    allocPagesRange_oom ⟨j, hj, hlen, (Bool.not_eq_false (oom j)).mp hoom⟩
  refine ⟨frames.reverse ++ rest, ?_, ?_⟩
  · rw [vmMapRam, halloc]
    dsimp only
    rw [if_neg (by omega), if_neg (by omega), if_pos hret, freeFrameList_eq]
  · rw [List.length_append, List.length_reverse, hsum]

/-- Enough frames: it depends on the mapping. -/
theorem vmMapRam_enough (hpos : 0 < incpgnum) (hnodes : NodesSuffice oom mp incpgnum)
    (hlen : incpgnum.toNat ≤ mp.freeFpList.length) :
    ∃ (mapped : ℕ) (rg : VmRgStruct) (m' : MmStruct) (mp' : MemphyStruct),
      vmMapRam k oom m mp mapstart incpgnum retRg
        = (if (mapped : ℤ) < incpgnum then
            (-1, rg, m', { mp' with freeFpList := (mp.freeFpList.take incpgnum.toNat).reverse ++ mp'.freeFpList })
          else (0, rg, m', mp')) ∧
      vmapPageRange k m { mp with freeFpList := mp.freeFpList.drop incpgnum.toNat } mapstart incpgnum
        (mp.freeFpList.take incpgnum.toNat) = (mapped, rg, m', mp') := by
  cases hmap : vmapPageRange k m { mp with freeFpList := mp.freeFpList.drop incpgnum.toNat } mapstart incpgnum
    (mp.freeFpList.take incpgnum.toNat) with
  | mk mapped rest =>
    obtain ⟨rg, m', mp'⟩ := rest
    refine ⟨mapped, rg, m', mp', ?_, rfl⟩
    rw [vmMapRam, allocPagesRange_eq hnodes, if_neg (by omega)]
    dsimp only
    rw [if_neg (by omega), if_neg (by omega), if_neg (lt_irrefl incpgnum), hmap]
    dsimp only
    rw [freeFrameList_eq]

/-- **How the mapping ends**: it sets all pages, or it stops early with no frame left. When it stops at the first
    page, and there was no frame to begin with, it has changed nothing. -/
theorem vmapPageRange_cases (hpos : 0 < incpgnum) (hlen : incpgnum.toNat ≤ mp.freeFpList.length) {mapped : ℕ}
    {rg : VmRgStruct} {m' : MmStruct} {mp' : MemphyStruct}
    (hmap : vmapPageRange k m { mp with freeFpList := mp.freeFpList.drop incpgnum.toNat } mapstart incpgnum
      (mp.freeFpList.take incpgnum.toNat) = (mapped, rg, m', mp')) :
    m'.pgd = m.pgd ∧ (MapsAll k m mp mapstart incpgnum ↔ mapped = incpgnum.toNat) ∧
      (mapped ≠ incpgnum.toNat → mapped < incpgnum.toNat ∧ mp'.freeFpList = [] ∧
        m'.fifoPgn.length = m.fifoPgn.length + mapped ∧
        (mapped = 0 → m' = m ∧ (mp.freeFpList.length = incpgnum.toNat → mp' = { mp with freeFpList := [] }))) := by
  have hmaps : MapsAll k m mp mapstart incpgnum ↔ mapped = incpgnum.toNat := by rw [MapsAll, hmap]
  have hframes : (mp.freeFpList.take incpgnum.toNat).length = incpgnum.toNat := by
    rw [List.length_take]
    omega
  unfold vmapPageRange at hmap
  cases hloop : vmapPageLoop k (mapstart >>> 12) incpgnum (mp.freeFpList.take incpgnum.toNat) 0 m
    { mp with freeFpList := mp.freeFpList.drop incpgnum.toNat } with
  | mk pgit rest =>
    obtain ⟨failed, m₁, mp₁⟩ := rest
    rw [hloop] at hmap
    obtain ⟨rfl, -, rfl, rfl⟩ : pgit = mapped ∧ _ = rg ∧ m₁ = m' ∧ mp₁ = mp' := by simpa using hmap
    obtain ⟨hpgd, hfifo, -, hall, hsome⟩ := vmapPageLoop_cases _ (by rw [hframes]; omega) hloop
    rw [hframes] at hall hsome
    refine ⟨hpgd, hmaps, fun hnot => ?_⟩
    cases failed with
    | false => exact absurd (by simpa using hall rfl) hnot
    | true =>
      obtain ⟨hlt, hnil, hfirst⟩ := hsome rfl
      refine ⟨by omega, hnil, by omega, fun hzero => ?_⟩
      obtain ⟨hm, hkeep⟩ := hfirst hzero
      refine ⟨hm, fun hexact => ?_⟩
      have hdrop : mp.freeFpList.drop incpgnum.toNat = [] := List.drop_of_length_le hexact.le
      rw [hdrop] at hkeep
      exact hkeep rfl

/-- The first page fails, when there is no frame but those of the pages, exactly when it lacks a table. -/
theorem vmapPageRange_first (hpos : 0 < incpgnum) (hlen : mp.freeFpList.length = incpgnum.toNat) :
    (vmapPageRange k m { mp with freeFpList := mp.freeFpList.drop incpgnum.toNat } mapstart incpgnum
        (mp.freeFpList.take incpgnum.toNat)).1 = 0 ↔
      walkTables k mp m.pgd (getPdFromPagenum (mapstart >>> 12)).upper = none := by
  obtain ⟨fpn, rest, hlist⟩ : ∃ fpn rest, mp.freeFpList = fpn :: rest := by
    apply List.exists_cons_of_length_pos
    omega
  have hdrop : mp.freeFpList.drop incpgnum.toNat = [] := List.drop_of_length_le hlen.le
  have htake : mp.freeFpList.take incpgnum.toNat = fpn :: rest := by
    rw [List.take_of_length_le hlen.le, hlist]
  have hfirst := @pteSetFpn_of_nil k { mp with freeFpList := [] } rfl m (mapstart >>> 12) fpn
  rw [walkTables_freeFpList] at hfirst
  rw [hdrop, htake, ← hfirst, vmapPageRange, vmapPageLoop, if_pos (by exact_mod_cast hpos)]
  have hzero : mapstart >>> 12 + BitVec.ofNat 64 0 = mapstart >>> 12 := BitVec.add_zero _
  dsimp only
  rw [hzero]
  generalize pteSetFpn k m { mp with freeFpList := [] } (mapstart >>> 12) fpn = result
  obtain ⟨stat, mp₁⟩ := result
  dsimp only
  by_cases hstat : stat = 0
  · rw [if_neg (not_not.mpr hstat)]
    cases hloop : vmapPageLoop k (mapstart >>> 12) incpgnum rest (0 + 1)
      { m with fifoPgn := enlistPgnNode m.fifoPgn (mapstart >>> 12) } mp₁ with
    | mk pgit more =>
      obtain ⟨failed, m₁, mp₂⟩ := more
      have hrest : (rest.length : ℤ) + 1 = incpgnum := by
        rw [hlist, List.length_cons] at hlen
        omega
      obtain ⟨-, -, hle, -⟩ := vmapPageLoop_cases rest (by push_cast; omega) hloop
      dsimp only
      constructor
      · intro h
        omega
      · intro h
        exact absurd hstat h
  · rw [if_pos hstat]
    exact ⟨fun _ => hstat, fun _ => rfl⟩

/-- A call that changes the free list at most leaves the pages. -/
theorem samePages_of_pgd {mm : ℕ → Option MmStruct} {p : ℕ} {m' : MmStruct} (hm : mm p = some m)
    (hpgd : m'.pgd = m.pgd) (l : List AddrT) :
    SamePages k mm (Function.update mm p (some m')) mp { mp with freeFpList := l } := by
  intro q vaddr
  by_cases hqp : q = p
  · subst hqp
    rw [Function.update_self, hm, Option.map_some, Option.map_some, translateAddress_freeFpList]
    simp only [translateAddress, hpgd]
  · rw [Function.update_of_ne hqp]
    simp only [translateAddress_freeFpList]

/-- **When a call is all or nothing**, in the terms of its own mapping. -/
theorem allOrNothing_iff_mapsAll {mm : ℕ → Option MmStruct} {p : ℕ} (hm : mm p = some m) :
    AllOrNothing k mm p m mp (vmMapRam k oom m mp mapstart incpgnum retRg) ↔
      incpgnum ≤ 0 ∨ NodesSuffice oom mp incpgnum ∧ (mp.freeFpList.length < incpgnum.toNat ∨
        MapsAll k m mp mapstart incpgnum ∨ mp.freeFpList.length = incpgnum.toNat ∧
          walkTables k mp m.pgd (getPdFromPagenum (mapstart >>> 12)).upper = none) := by
  by_cases hnone : incpgnum ≤ 0
  · obtain ⟨ret, rg, hcall⟩ := @vmMapRam_nonpos k oom m mp mapstart incpgnum retRg hnone
    rw [hcall]
    exact ⟨fun _ => .inl hnone, fun _ _ => ⟨List.Perm.refl _, samePages_of_pgd hm rfl _, rfl⟩⟩
  rw [or_iff_right hnone]
  have hpos : 0 < incpgnum := not_le.mp hnone
  by_cases hnodes : NodesSuffice oom mp incpgnum
  · rw [and_iff_right hnodes]
    by_cases hshort : mp.freeFpList.length < incpgnum.toNat
    · rw [vmMapRam_short hnodes hshort]
      exact ⟨fun _ => .inl hshort, fun _ _ => ⟨List.reverse_perm _, samePages_of_pgd hm rfl _, rfl⟩⟩
    · rw [or_iff_right hshort]
      have hlen := not_lt.mp hshort
      obtain ⟨mapped, rg, m', mp', hcall, hmap⟩ := @vmMapRam_enough k oom m mp mapstart incpgnum retRg hpos hnodes hlen
      obtain ⟨hpgd, hmaps, hfails⟩ := vmapPageRange_cases hpos hlen hmap
      rw [hmaps, hcall]
      by_cases hall : mapped = incpgnum.toNat
      · -- the call returns 0
        rw [if_neg (by omega)]
        exact ⟨fun _ => .inl hall, fun _ hret => absurd hret (by decide)⟩
      · obtain ⟨hlt, hnil, hfifo, hfirst⟩ := hfails hall
        rw [if_pos (by omega), or_iff_right hall, hnil, List.append_nil]
        constructor
        · intro h
          obtain ⟨hperm, -, hsame⟩ := h rfl
          -- all frames are back, and no page is enlisted
          have hexact := hperm.length_eq
          rw [List.length_reverse, List.length_take] at hexact
          have hlists := congrArg List.length hsame
          rw [hfifo] at hlists
          have hzero : mapped = 0 := by omega
          have hall : mp.freeFpList.length = incpgnum.toNat := by omega
          refine ⟨hall, ?_⟩
          rw [← vmapPageRange_first hpos hall, hmap]
          exact hzero
        · rintro ⟨hexact, hlacks⟩ -
          rw [← vmapPageRange_first hpos hexact, hmap] at hlacks
          obtain ⟨rfl, hkeep⟩ := hfirst hlacks
          rw [hkeep hexact]
          refine ⟨?_, samePages_of_pgd hm rfl _, rfl⟩
          rw [List.take_of_length_le hexact.le]
          exact List.reverse_perm _
  · obtain ⟨l, hcall, hsum⟩ := @vmMapRam_oom k oom m mp mapstart incpgnum retRg hnodes
    rw [hcall]
    constructor
    · intro h
      have hlen := (h rfl).1.length_eq
      have hshorter : l.length = mp.freeFpList.length := hlen
      omega
    · rintro ⟨hc, -⟩
      exact absurd hc hnodes

end

/-! ## The tables of a range -/

/-- The indices of the tables on the way to the pages from `start` on. -/
def rangePaths (start : AddrT) (first n : ℕ) : List (List (Fin 512)) :=
  (List.range' first n).map fun i => upperPath ((start + BitVec.ofNat 64 i) <<< 12)

/-- **The number of tables that a range of pages needs** and that are not there. -/
def neededTables (k : CharKind) (m : MmStruct) (mp : MemphyStruct) (start : AddrT) (n : ℕ) : ℕ :=
  (((rangePaths start 0 n).flatMap List.inits).toFinset.filter fun is =>
    walkTables k mp m.pgd (is.map idxOf) = none).card

section

variable {k : CharKind} {root : ℕ → Option AddrT} {mm : ℕ → Option MmStruct} {m : MmStruct} {mp : MemphyStruct}

theorem neededTables_eq {r : AddrT} (hpgd : m.pgd = baseOf r) (hra : Addressable r) (start : AddrT) (n : ℕ) :
    neededTables k m mp start n = (lacking (tables k mp) r (rangePaths start 0 n)).card := by
  rw [neededTables, lacking]
  congr 1
  apply Finset.filter_congr
  intro is _
  rw [hpgd, (walkTables_walk is hra).1, Option.map_eq_none_iff]

/-- **The first page of a range**: it fails only when the range lacks more tables than there are frames, and
    otherwise the rest of the range is short of frames exactly when the range is. -/
theorem Owned.pteSetFpn_lacking (h : Owned k root mm mp) {p : ℕ} {r : AddrT} (hr : root p = some r)
    (hpgd : m.pgd = baseOf r) (startPgn : AddrT) (i n : ℕ) (fpn : AddrT) :
    ∃ ok mp', pteSetFpn k m mp (startPgn + BitVec.ofNat 64 i) fpn = (if ok then 0 else -1, mp') ∧
      Owned k root mm mp' ∧
      (ok = false → mp.freeFpList.length < (lacking (tables k mp) r (rangePaths startPgn i (n + 1))).card) ∧
      (ok = true → ((lacking (tables k mp') r (rangePaths startPgn (i + 1) n)).card ≤ mp'.freeFpList.length ↔
        (lacking (tables k mp) r (rangePaths startPgn i (n + 1))).card ≤ mp.freeFpList.length)) := by
  obtain ⟨ok, mp', x, hset, hins, -, howned⟩ := h.pteSetFpn_insert hr hpgd (startPgn + BitVec.ofNat 64 i) fpn
  have hcons : rangePaths startPgn i (n + 1)
      = upperPath ((startPgn + BitVec.ofNat 64 i) <<< 12) :: rangePaths startPgn (i + 1) n := by
    rw [rangePaths, List.range'_succ, List.map_cons, rangePaths]
  obtain ⟨hfew, hmany⟩ := insert_length h.forest h.fresh hr rfl hins
  refine ⟨ok, mp', hset, howned, fun hfails => ?_, fun hok => ?_⟩
  · -- the first page alone lacks too many
    rw [hcons]
    exact (hfew hfails).trans_le (missing_le_card_lacking _ r _ (rangePaths startPgn (i + 1) n))
  · subst hok
    have hpaths : ∀ js ∈ rangePaths startPgn (i + 1) n, js.length < 5 := by
      intro js hjs
      obtain ⟨i, -, rfl⟩ := List.mem_map.mp hjs
      exact Nat.lt_succ_self 4
    have hsum := hmany rfl
    rw [hcons, card_lacking_cons h.forest h.fresh hr rfl hins hpaths]
    omega

/-- **The loop fails exactly when there are too few frames for the tables.** -/
theorem vmapPageLoop_failed_iff {p : ℕ} {r : AddrT} (hr : root p = some r) {startPgn : AddrT} {pgnum : ℤ}
    (frames : List AddrT) : ∀ {pgit : ℕ} {m : MmStruct} {mp : MemphyStruct}, Owned k root mm mp →
      m.pgd = baseOf r → (pgit + frames.length : ℤ) ≤ pgnum →
        ((vmapPageLoop k startPgn pgnum frames pgit m mp).2.1 = false ↔
          (lacking (tables k mp) r (rangePaths startPgn pgit frames.length)).card ≤ mp.freeFpList.length) := by
  induction frames with
  | nil =>
    intro pgit m mp _ _ _
    have hempty : lacking (tables k mp) r (rangePaths startPgn pgit 0) = ∅ := rfl
    rw [List.length_nil, hempty, Finset.card_empty]
    exact ⟨fun _ => Nat.zero_le _, fun _ => rfl⟩
  | cons fpn fpit ih =>
    intro pgit m mp h hpgd hlen
    rw [List.length_cons] at hlen
    push_cast at hlen
    obtain ⟨ok, mp', hset, howned, hfew, hmany⟩ := h.pteSetFpn_lacking hr hpgd startPgn pgit fpit.length fpn
    rw [vmapPageLoop, if_pos (by omega), List.length_cons]
    simp only [hset]
    cases ok with
    | false =>
      rw [if_neg Bool.false_ne_true, if_pos (by decide)]
      exact ⟨fun hc => absurd hc.symm Bool.false_ne_true, fun hle => absurd hle (not_le.mpr (hfew rfl))⟩
    | true =>
      have hpgd' : ({ m with fifoPgn := enlistPgnNode m.fifoPgn (startPgn + BitVec.ofNat 64 pgit) } : MmStruct).pgd
          = baseOf r := hpgd
      rw [if_pos rfl, if_neg (not_not.mpr rfl), @ih (pgit + 1) _ _ howned hpgd' (by push_cast; omega)]
      exact hmany rfl

/-- `vmap_pgd_memset` goes the same way. -/
theorem vmapPgdLoop_eq_zero_iff {p : ℕ} {r : AddrT} (hr : root p = some r) (hpgd : m.pgd = baseOf r)
    (startPgn : AddrT) (n : ℕ) : ∀ {i : ℕ} {mp : MemphyStruct}, Owned k root mm mp →
      ((vmapPgdLoop k m n mp (startPgn + BitVec.ofNat 64 i)).1 = 0 ↔
        (lacking (tables k mp) r (rangePaths startPgn i n)).card ≤ mp.freeFpList.length) := by
  induction n with
  | zero =>
    intro i mp _
    have hempty : lacking (tables k mp) r (rangePaths startPgn i 0) = ∅ := rfl
    rw [hempty, Finset.card_empty]
    exact ⟨fun _ => Nat.zero_le _, fun _ => rfl⟩
  | succ n ih =>
    intro i mp h
    obtain ⟨ok, mp', hset, howned, hfew, hmany⟩ := h.pteSetFpn_lacking hr hpgd startPgn i n 0
    rw [vmapPgdLoop]
    simp only [hset]
    cases ok with
    | false =>
      rw [if_neg Bool.false_ne_true, if_pos (by decide)]
      exact ⟨fun hc => absurd hc (by simp), fun hle => absurd hle (not_le.mpr (hfew rfl))⟩
    | true =>
      have hnext : startPgn + BitVec.ofNat 64 i + 1 = startPgn + BitVec.ofNat 64 (i + 1) := by
        rw [BitVec.ofNat_add, BitVec.add_assoc]
        rfl
      rw [if_pos rfl, if_neg (not_not.mpr rfl), hnext, ih howned]
      exact hmany rfl

/-- `vmap_pgd_memset` succeeds exactly when there are frames for the tables that the range needs. -/
theorem vmapPgdMemset_eq_zero_iff (h : Owned k root mm mp) {p : ℕ} (hm : mm p = some m) (addr : AddrT) (pgnum : ℤ) :
    (vmapPgdMemset k m mp addr pgnum).1 = 0 ↔
      neededTables k m mp (addr >>> 12) pgnum.toNat ≤ mp.freeFpList.length := by
  obtain ⟨r, hr, hpgd, hra⟩ := h.root_of hm
  have hzero : addr >>> 12 + BitVec.ofNat 64 0 = addr >>> 12 := BitVec.add_zero _
  have hloop := @vmapPgdLoop_eq_zero_iff k root mm m p r hr hpgd (addr >>> 12) pgnum.toNat 0 mp h
  rw [hzero] at hloop
  rw [vmapPgdMemset, hloop, neededTables_eq hpgd hra]

/-- **When all pages of the range are mapped**: the frames that are left after the pages have got theirs suffice
    for the tables. -/
theorem mapsAll_iff (h : Rooted k root mm mp) {p : ℕ} (hm : mm p = some m) {mapstart : AddrT} {incpgnum : ℤ}
    (hclean : ∀ x ∈ mp.freeFpList.drop incpgnum.toNat, CleanFrame k mp x) (hpos : 0 < incpgnum)
    (hlen : incpgnum.toNat ≤ mp.freeFpList.length) :
    MapsAll k m mp mapstart incpgnum ↔
      incpgnum.toNat + neededTables k m mp (mapstart >>> 12) incpgnum.toNat ≤ mp.freeFpList.length := by
  obtain ⟨r, hr, hpgd, hra⟩ := h.root_of hm
  have htables : tables k { mp with freeFpList := mp.freeFpList.drop incpgnum.toNat } = tables k mp :=
    tables_freeFpList h.rdm _
  have howned : Owned k root mm { mp with freeFpList := mp.freeFpList.drop incpgnum.toNat } := by
    refine (h.sublist (List.drop_sublist _ _)).owned_of_clean fun x hx => ⟨(hclean x hx).1, fun i => ?_⟩
    rw [get32bitEntry_freeFpList]
    exact (hclean x hx).2 i
  have hframes : (mp.freeFpList.take incpgnum.toNat).length = incpgnum.toNat := by
    rw [List.length_take]
    omega
  have hloop := @vmapPageLoop_failed_iff k root mm p r hr (mapstart >>> 12) incpgnum
    (mp.freeFpList.take incpgnum.toNat) 0 m _ howned hpgd (by rw [hframes]; omega)
  rw [hframes, htables, ← neededTables_eq hpgd hra] at hloop
  have hleft : (mp.freeFpList.drop incpgnum.toNat).length = mp.freeFpList.length - incpgnum.toNat :=
    List.length_drop
  have hroom : MapsAll k m mp mapstart incpgnum ↔ (vmapPageLoop k (mapstart >>> 12) incpgnum
      (mp.freeFpList.take incpgnum.toNat) 0 m
      { mp with freeFpList := mp.freeFpList.drop incpgnum.toNat }).2.1 = false := by
    rw [MapsAll, vmapPageRange]
    cases hrun : vmapPageLoop k (mapstart >>> 12) incpgnum (mp.freeFpList.take incpgnum.toNat) 0 m
      { mp with freeFpList := mp.freeFpList.drop incpgnum.toNat } with
    | mk pgit rest =>
      obtain ⟨failed, m', mp'⟩ := rest
      obtain ⟨-, -, -, hall, hsome⟩ := vmapPageLoop_cases _ (by rw [hframes]; omega) hrun
      rw [hframes] at hall hsome
      dsimp only
      constructor
      · intro hpgit
        rw [← Bool.not_eq_true]
        intro hfailed
        have hlt := (hsome hfailed).1
        omega
      · intro hfailed
        rw [hall hfailed, Nat.zero_add]
  rw [hroom, hloop]
  show neededTables k m mp (mapstart >>> 12) incpgnum.toNat ≤ (mp.freeFpList.drop incpgnum.toNat).length ↔ _
  rw [hleft]
  omega

/-- **When `vm_map_ram` is all or nothing.** A call that is asked for a page has to get a node for every frame, and
    then there are too few frames, or the mapping succeeds, or there are no frames but those of the pages and the
    first page lacks a table. Where the tables are owned and the frames that are left are clean, the mapping
    succeeds exactly when they suffice for the tables that the range needs. -/
theorem vmMapRam_allOrNothing_iff (oom : ℕ → Bool) {p : ℕ} (hm : mm p = some m) (mapstart : AddrT) (incpgnum : ℤ)
    (retRg : VmRgStruct) :
    (AllOrNothing k mm p m mp (vmMapRam k oom m mp mapstart incpgnum retRg) ↔
        incpgnum ≤ 0 ∨ NodesSuffice oom mp incpgnum ∧ (mp.freeFpList.length < incpgnum.toNat ∨
          MapsAll k m mp mapstart incpgnum ∨ mp.freeFpList.length = incpgnum.toNat ∧
            walkTables k mp m.pgd (getPdFromPagenum (mapstart >>> 12)).upper = none)) ∧
      ∀ root, Rooted k root mm mp → (∀ x ∈ mp.freeFpList.drop incpgnum.toNat, CleanFrame k mp x) →
        (AllOrNothing k mm p m mp (vmMapRam k oom m mp mapstart incpgnum retRg) ↔
          incpgnum ≤ 0 ∨ NodesSuffice oom mp incpgnum ∧ (mp.freeFpList.length < incpgnum.toNat ∨
            incpgnum.toNat + neededTables k m mp (mapstart >>> 12) incpgnum.toNat ≤ mp.freeFpList.length ∨
            mp.freeFpList.length = incpgnum.toNat ∧
              walkTables k mp m.pgd (getPdFromPagenum (mapstart >>> 12)).upper = none)) := by
  refine ⟨allOrNothing_iff_mapsAll hm, fun root h hclean => ?_⟩
  rw [allOrNothing_iff_mapsAll hm]
  by_cases hnone : incpgnum ≤ 0
  · exact ⟨fun _ => .inl hnone, fun _ => .inl hnone⟩
  by_cases hshort : mp.freeFpList.length < incpgnum.toNat
  · simp only [hshort, true_or, and_true]
  · rw [mapsAll_iff h hm hclean (not_le.mp hnone) (not_lt.mp hshort)]

end

/-- A range of at least one page needs the tables of its first page. -/
theorem missingTables_le_neededTables {k : CharKind} {m : MmStruct} {mp : MemphyStruct} {r : AddrT}
    (hpgd : m.pgd = baseOf r) (hra : Addressable r) (start : AddrT) {n : ℕ} (hpos : 0 < n) :
    missingTables k mp m.pgd (getPdFromPagenum start).upper ≤ neededTables k m mp start n := by
  obtain ⟨n, rfl⟩ := Nat.exists_eq_add_one_of_ne_zero hpos.ne'
  have hzero : start + BitVec.ofNat 64 0 = start := BitVec.add_zero _
  rw [neededTables_eq hpgd hra, rangePaths, List.range'_succ, List.map_cons, hzero, hpgd, getPdFromPagenum,
    upper_getPdFromAddress, missingTables_eq _ hra]
  exact missing_le_card_lacking ..

/-- The first process of a device of eight frames asks for four pages at address 0. -/
theorem first_range : ∃ m mram root, initMm rawMm (zeroDevice 2048).device [] = (0, m, mram) ∧
    Owned .unsigned root (Function.update (fun _ => none) 0 (some m)) mram ∧ mram.freeFpList.length = 7 ∧
    4 ≤ neededTables .unsigned m mram 0 4 := by
  have hsize : 2 ≤ numfpOf 2048 ∧ numfpOf 2048 ≤ 8192 := by decide
  obtain ⟨-, m, mram, hinit, howned, hlen, hmissing⟩ := first_process hsize.1 hsize.2
  have hframes : (numfpOf 2048).toNat = 8 := by decide
  obtain ⟨r, -, hpgd, hra⟩ := howned.root_of (p := 0) (Function.update_self ..)
  refine ⟨m, mram, _, hinit, howned, by omega, ?_⟩
  have hle := @missingTables_le_neededTables .unsigned m mram r hpgd hra 0 4 (Nat.succ_pos 3)
  rw [hmissing] at hle
  exact hle

theorem vmMapRam_allOrNothing_iff_four : ∃ m mram root, initMm rawMm (zeroDevice 2048).device [] = (0, m, mram) ∧
    Rooted .unsigned root (Function.update (fun _ => none) 0 (some m)) mram ∧
    (AllOrNothing .unsigned (Function.update (fun _ => none) 0 (some m)) 0 m mram
        (vmMapRam .unsigned (fun _ => false) m mram 0 4 ⟨0, 0⟩) ↔
      (4 : ℤ) ≤ 0 ∨ NodesSuffice (fun _ => false) mram 4 ∧ (mram.freeFpList.length < 4 ∨
        4 + neededTables .unsigned m mram (0 >>> 12) 4 ≤ mram.freeFpList.length ∨ mram.freeFpList.length = 4 ∧
          walkTables .unsigned mram m.pgd (getPdFromPagenum (0 >>> 12)).upper = none)) := by
  obtain ⟨m, mram, root, hinit, howned, -⟩ := first_range
  refine ⟨m, mram, root, hinit, howned.toRooted, ?_⟩
  exact (vmMapRam_allOrNothing_iff (k := .unsigned) (fun _ => false) (Function.update_self ..) 0 4 ⟨0, 0⟩).2 root
    howned.toRooted fun x hx => howned.cleanFrame ((List.drop_sublist _ _).subset hx)

/-- **Three frames are left for four tables**: they are linked one below the other, and stay so. -/
theorem vmMapRam_keeps_tables : ¬ ∀ (k : CharKind) (root : ℕ → Option AddrT) (mm : ℕ → Option MmStruct)
    (mp : MemphyStruct), Owned k root mm mp → ∀ (p : ℕ) (m : MmStruct), mm p = some m →
      ∀ (mapstart : AddrT) (incpgnum : ℤ) (retRg : VmRgStruct), mapstart.toNat % 4096 = 0 →
        AllOrNothing k mm p m mp (vmMapRam k (fun _ => false) m mp mapstart incpgnum retRg) := by
  intro hall
  obtain ⟨m, mram, root, -, howned, hlen, hneeded⟩ := first_range
  have hm : Function.update (fun _ : ℕ => none) 0 (some m) 0 = some m := Function.update_self ..
  have hcall := hall .unsigned root _ mram howned 0 m hm 0 4 ⟨0, 0⟩ (by decide)
  have hmaps : MapsAll .unsigned m mram 0 4 ↔ 4 + neededTables .unsigned m mram 0 4 ≤ mram.freeFpList.length :=
    mapsAll_iff howned.toRooted hm (fun x hx => howned.cleanFrame ((List.drop_sublist _ _).subset hx))
      (by decide) (by rw [hlen]; decide)
  rcases (allOrNothing_iff_mapsAll hm).mp hcall with hnone | ⟨-, hshort | hmapped | ⟨hexact, -⟩⟩
  · exact absurd hnone (by decide)
  · rw [hlen] at hshort
    exact absurd hshort (by decide)
  · have hroom := hmaps.mp hmapped
    omega
  · rw [hlen] at hexact
    exact absurd hexact (by decide)

end LamiaAtrium
