import LamiaAtrium.Mem.MapRam
import LamiaAtrium.Mem.Run
import LamiaAtrium.Mem.Correctness.Swap

/-!
# `Mem.Correctness.Replacement` — the list of resident pages, and page faults

`fifo_pgn` grows at its head (`enlist_pgn_node`) and shrinks at its end (`find_victim_page`).

* `fifoSystem`: any sequence of the two calls on an empty list, with what went in and what came out. The list is
  what has come in and not yet gone out, newest first (`enlisted_eq`), so the oldest page goes first. A list of
  one page is the exception: `find_victim_page` writes through `NULL` (`takesOldest_iff`).
* `pgGetpage_cases`: the five ways through `pg_getpage`. On a miss it takes a victim and a swap frame, in this
  order, and moves no page: a fault that finds no swap frame has lost its victim (`faultKeeps_iff`), and one that
  finds both reports the frame of an absent page (`faultServed_iff`).
-/

namespace LamiaAtrium

/-! ## The list -/

/-- A call on the list. -/
inductive FifoCall where
  | enlist (pgn : AddrT)
  | victim

/-- The list, the pages that were put on it and the pages that were taken off, both in order. -/
structure FifoState where
  mm : MmStruct
  enlisted : List AddrT
  taken : List AddrT

/-- One call. A call that writes through `NULL` has no successor. -/
inductive FifoStep : FifoState → FifoCall → FifoState → Prop where
  | enlist {s : FifoState} {pgn} : FifoStep s (.enlist pgn)
      { s with mm := { s.mm with fifoPgn := enlistPgnNode s.mm.fifoPgn pgn }, enlisted := s.enlisted ++ [pgn] }
  | victim {s : FifoState} {retpgn mm} : findVictimPage s.mm = .ok (retpgn, mm) →
      FifoStep s .victim { s with mm, taken := s.taken ++ retpgn.toList }

/-- Any sequence of calls on a list that is empty at first. -/
def fifoSystem : Lts.System FifoState FifoCall where
  init s := s.mm.fifoPgn = [] ∧ s.enlisted = [] ∧ s.taken = []
  step := FifoStep

/-- **The three cases of `find_victim_page`.** -/
theorem findVictimPage_cases (mm : MmStruct) :
    (mm.fifoPgn = [] ∧ findVictimPage mm = .ok (none, mm)) ∨
    (∃ pgn, mm.fifoPgn = [pgn] ∧ findVictimPage mm = .error .nullDeref) ∨
    ∃ pgn rest, rest ≠ [] ∧ mm.fifoPgn = rest ++ [pgn] ∧
      findVictimPage mm = .ok (some pgn, { mm with fifoPgn := rest }) := by
  rcases List.eq_nil_or_concat' mm.fifoPgn with hnil | ⟨rest, pgn, hlist⟩
  · exact .inl ⟨hnil, findVictimPage_nil hnil⟩
  · rcases eq_or_ne rest [] with rfl | hrest
    · exact .inr (.inl ⟨pgn, hlist, findVictimPage_singleton hlist⟩)
    · exact .inr (.inr ⟨pgn, rest, hrest, hlist, findVictimPage_append hrest hlist⟩)

/-- **The list holds what has come in and not yet gone out**, newest first. -/
theorem enlisted_eq {s : FifoState} (h : fifoSystem.Reachable s) : s.enlisted = s.taken ++ s.mm.fifoPgn.reverse := by
  refine Lts.System.Reachable.invariant (I := fun s => s.enlisted = s.taken ++ s.mm.fifoPgn.reverse) ?_ ?_ h
  · rintro s ⟨hfifo, henlisted, htaken⟩
    rw [hfifo, henlisted, htaken]
    rfl
  · rintro s c t ih hst
    cases hst with
    | enlist =>
      show s.enlisted ++ [_] = s.taken ++ (enlistPgnNode s.mm.fifoPgn _).reverse
      rw [enlistPgnNode, List.reverse_cons, ih, List.append_assoc]
    | victim hvictim =>
      rcases findVictimPage_cases s.mm with ⟨-, hok⟩ | ⟨pgn, -, herr⟩ | ⟨pgn, rest, -, hlist, hok⟩
      · rw [hok] at hvictim
        cases hvictim
        simpa using ih
      · rw [herr] at hvictim
        cases hvictim
      · rw [hok] at hvictim
        cases hvictim
        show s.enlisted = s.taken ++ [pgn] ++ rest.reverse
        rw [ih, hlist, List.reverse_append, List.reverse_singleton, List.append_assoc]

/-- What `find_victim_page` should do next: say `-1` when every page has been taken, and otherwise take the oldest
    page that has not, and nothing else. -/
structure TakesOldest (s : FifoState) : Prop where
  none_iff : (∃ mm, findVictimPage s.mm = .ok (none, mm)) ↔ s.taken.length = s.enlisted.length
  oldest : s.taken.length ≠ s.enlisted.length → ∃ pgn rest, s.enlisted[s.taken.length]? = some pgn ∧
    s.mm.fifoPgn = rest ++ [pgn] ∧ findVictimPage s.mm = .ok (some pgn, { s.mm with fifoPgn := rest })

/-- **After any calls, `find_victim_page` takes the oldest page exactly when not just one is left.** -/
theorem takesOldest_iff (s : FifoState) (h : fifoSystem.Reachable s) :
    TakesOldest s ↔ s.enlisted.length ≠ s.taken.length + 1 := by
  have hlist := enlisted_eq h
  have hlen : s.enlisted.length = s.taken.length + s.mm.fifoPgn.length := by
    rw [hlist, List.length_append, List.length_reverse]
  rcases findVictimPage_cases s.mm with ⟨hnil, hok⟩ | ⟨pgn, hone, herr⟩ | ⟨pgn, rest, hrest, hmore, hok⟩
  · -- nothing is left
    rw [hnil, List.length_nil] at hlen
    refine ⟨fun _ => by omega, fun _ => ⟨⟨fun _ => hlen.symm, fun _ => ⟨_, hok⟩⟩, fun hne => ?_⟩⟩
    exact absurd hlen.symm hne
  · -- one page
    rw [hone, List.length_singleton] at hlen
    refine ⟨fun hmeets => ?_, fun hne => absurd hlen hne⟩
    obtain ⟨pgn', rest', -, -, hok⟩ := hmeets.oldest (by omega)
    rw [herr] at hok
    cases hok
  · -- more than one
    have hpos : 0 < rest.length := List.length_pos_iff.mpr hrest
    rw [hmore, List.length_append, List.length_singleton] at hlen
    refine ⟨fun _ => by omega, fun _ => ⟨⟨?_, fun heq => by omega⟩, fun _ => ⟨pgn, rest, ?_, hmore, hok⟩⟩⟩
    · rintro ⟨mm, hnone⟩
      rw [hok] at hnone
      cases hnone
    · rw [hlist, hmore, List.getElem?_append_right (Nat.le_refl _), Nat.sub_self, List.reverse_append]
      rfl

/-- Two pages, one taken: the other one is left. -/
def onePageLeft : FifoState := ⟨{ rawMm with fifoPgn := [6] }, [5, 6], [5]⟩

theorem reachable_onePageLeft : fifoSystem.Reachable onePageLeft := by
  have h₀ : fifoSystem.Reachable ⟨rawMm, [], []⟩ := .init ⟨rfl, rfl, rfl⟩
  have h₁ := h₀.step (@FifoStep.enlist _ 5)
  have h₂ := h₁.step (@FifoStep.enlist _ 6)
  have hvictim : findVictimPage { rawMm with fifoPgn := [6, 5] } = .ok (some 5, { rawMm with fifoPgn := [6] }) := rfl
  exact h₂.step (FifoStep.victim (s := ⟨{ rawMm with fifoPgn := [6, 5] }, [5, 6], []⟩) hvictim)

theorem takesOldest_iff_onePage : TakesOldest onePageLeft ↔ ([5, 6] : List AddrT).length ≠ [(5 : AddrT)].length + 1 :=
  takesOldest_iff onePageLeft reachable_onePageLeft

theorem takesOldest_fails : ¬ ∀ s, fifoSystem.Reachable s → TakesOldest s := by
  intro h
  obtain ⟨pgn, rest, -, -, hok⟩ := (h onePageLeft reachable_onePageLeft).oldest (by decide)
  cases hok

/-! ## Page faults -/

section

variable {k : CharKind} {s t : Kernel} {x : ℕ} {mm : MmStruct}

/-- Is the entry of the page present, as `pg_getpage` sees it? -/
def resident (k : CharKind) (s : Kernel) (mm : MmStruct) (pgn : BitVec 32) : Bool :=
  pagingPagePresent (pteGetEntry k mm s.mram (pgn.signExtend 64))

/-- The frame that `pg_getpage` reports. -/
def reportedFpn (k : CharKind) (s : Kernel) (mm : MmStruct) (pgn : BitVec 32) : BitVec 32 :=
  pagingFpn (pteGetEntry k mm s.mram (pgn.signExtend 64))

/-- A page that is there is reported. -/
theorem pgGetpage_of_resident {pgn : BitVec 32} (hm : s.mm x = some mm) (hres : resident k s mm pgn = true) :
    s.pgGetpage k x pgn = .ok (some (reportedFpn k s mm pgn), s) := by
  unfold Kernel.pgGetpage
  rw [Kernel.mmOf_eq_ok.mpr hm]
  exact if_pos hres

/-- **The four ways through a miss.** -/
theorem pgGetpage_of_absent {pgn : BitVec 32} (hm : s.mm x = some mm) (hres : resident k s mm pgn = false) :
    (mm.fifoPgn = [] ∧ s.pgGetpage k x pgn = .ok (none, s)) ∨
    (∃ vicpgn, mm.fifoPgn = [vicpgn] ∧ s.pgGetpage k x pgn = .error .nullDeref) ∨
    ∃ vicpgn rest, rest ≠ [] ∧ mm.fifoPgn = rest ++ [vicpgn] ∧
      ((s.activeMswp.freeFpList = [] ∧
          s.pgGetpage k x pgn = .ok (none, s.setMm x { mm with fifoPgn := rest })) ∨
        (s.activeMswp.freeFpList ≠ [] ∧ ∃ mswp, s.pgGetpage k x pgn = .ok (some (reportedFpn k s mm pgn),
            { s with activeMswp := mswp }.setMm x { mm with fifoPgn := pgn.signExtend 64 :: rest }))) := by
  have habsent : ¬ pagingPagePresent (pteGetEntry k mm s.mram (pgn.signExtend 64)) = true := by
    intro hpresent
    rw [resident, hpresent] at hres
    cases hres
  unfold Kernel.pgGetpage
  rw [Kernel.mmOf_eq_ok.mpr hm]
  dsimp only [bind, Except.bind]
  rw [if_neg habsent]
  rcases findVictimPage_cases mm with ⟨hnil, hv⟩ | ⟨vicpgn, hone, hv⟩ | ⟨vicpgn, rest, hrest, hlist, hv⟩
  · exact .inl ⟨hnil, by rw [hv]⟩
  · exact .inr (.inl ⟨vicpgn, hone, by rw [hv]⟩)
  · refine .inr (.inr ⟨vicpgn, rest, hrest, hlist, ?_⟩)
    rw [hv]
    cases hget : memphyGetFreefp s.activeMswp with
    | none => exact .inl ⟨memphyGetFreefp_eq_none.mp hget, rfl⟩
    | some got =>
      refine .inr ⟨fun hnil => ?_, got.2, rfl⟩
      rw [memphyGetFreefp_eq_none.mpr hnil] at hget
      cases hget

/-- Whoever gets an answer has an address space. -/
theorem mm_of_pgGetpage {pgn : BitVec 32} {r : Option (BitVec 32) × Kernel} (h : s.pgGetpage k x pgn = .ok r) :
    ∃ mm, s.mm x = some mm := by
  obtain ⟨mm, hmm, -⟩ := bind_eq_ok.mp h
  exact ⟨mm, Kernel.mmOf_eq_ok.mp hmm⟩

/-- **A miss with fewer than two pages on the list** fails and changes nothing. -/
theorem pgGetpage_of_short {pgn : BitVec 32} (hm : s.mm x = some mm) (hres : resident k s mm pgn = false)
    (hshort : mm.fifoPgn.length < 2) {o : Option (BitVec 32)} {t : Kernel} (hget : s.pgGetpage k x pgn = .ok (o, t)) :
    o = none ∧ t = s := by
  rcases pgGetpage_of_absent hm hres with ⟨-, hok⟩ | ⟨vicpgn, -, herr⟩ | ⟨vicpgn, rest, hrest, hlist, -⟩
  · rw [hok] at hget
    cases hget
    exact ⟨rfl, rfl⟩
  · rw [herr] at hget
    cases hget
  · have hpos : 0 < rest.length := List.length_pos_iff.mpr hrest
    rw [hlist, List.length_append, List.length_singleton] at hshort
    omega

/-- **A miss with two pages on the list** unlinks the last one, and then looks for a swap frame. -/
theorem pgGetpage_of_two {pgn : BitVec 32} (hm : s.mm x = some mm) (hres : resident k s mm pgn = false)
    (htwo : ¬ mm.fifoPgn.length < 2) : ∃ vicpgn rest, mm.fifoPgn = rest ++ [vicpgn] ∧
      ((s.activeMswp.freeFpList = [] ∧
          s.pgGetpage k x pgn = .ok (none, s.setMm x { mm with fifoPgn := rest })) ∨
        (s.activeMswp.freeFpList ≠ [] ∧ ∃ mswp, s.pgGetpage k x pgn = .ok (some (reportedFpn k s mm pgn),
            { s with activeMswp := mswp }.setMm x { mm with fifoPgn := pgn.signExtend 64 :: rest }))) := by
  rcases pgGetpage_of_absent hm hres with ⟨hnil, -⟩ | ⟨vicpgn, hone, -⟩ | ⟨vicpgn, rest, -, hlist, hswap⟩
  · rw [hnil] at htwo
    exact absurd Nat.zero_lt_two htwo
  · rw [hone] at htwo
    exact absurd Nat.one_lt_two htwo
  · exact ⟨vicpgn, rest, hlist, hswap⟩

end

/-! ### A fault that fails -/

/-- `t` has the lists of `s`, the free frames of `s`, and every entry as it was. -/
structure FaultKeeps (k : CharKind) (s t : Kernel) : Prop where
  fifo : ∀ y, (t.mm y).map (·.fifoPgn) = (s.mm y).map (·.fifoPgn)
  mram : t.mram.freeFpList = s.mram.freeFpList
  mswp : t.activeMswp.freeFpList = s.activeMswp.freeFpList
  pte : ∀ y mm mm' pgn, s.mm y = some mm → t.mm y = some mm' →
    pteGetEntry k mm' t.mram pgn = pteGetEntry k mm s.mram pgn

theorem faultKeeps_refl (k : CharKind) (s : Kernel) : FaultKeeps k s s := by
  refine ⟨fun _ => rfl, rfl, rfl, fun y mm mm' pgn hmm hmm' => ?_⟩
  rw [hmm, Option.some.injEq] at hmm'
  rw [hmm']

/-- Without its victim, the list is not what it was. -/
theorem not_faultKeeps_of_victim {k : CharKind} {s : Kernel} {x : ℕ} {mm : MmStruct} {vicpgn : AddrT}
    {rest : List AddrT} (hm : s.mm x = some mm) (hlist : mm.fifoPgn = rest ++ [vicpgn]) :
    ¬ FaultKeeps k s (s.setMm x { mm with fifoPgn := rest }) := by
  intro hkeeps
  have hfifo := hkeeps.fifo x
  rw [hm, Kernel.mm_setMm_self, Option.map_some, Option.map_some, hlist] at hfifo
  have hlen : rest.length = (rest ++ [vicpgn]).length := congrArg List.length (Option.some.inj hfifo)
  rw [List.length_append, List.length_singleton] at hlen
  omega

/-- **A fault that fails keeps everything exactly when it has not taken a victim already.** -/
theorem faultKeeps_iff (k : CharKind) (s : Kernel) (x : ℕ) (pgn : BitVec 32) :
    (∀ t, s.pgGetpage k x pgn = .ok (none, t) → FaultKeeps k s t) ↔
      ∀ mm, s.mm x = some mm →
        resident k s mm pgn = true ∨ mm.fifoPgn.length < 2 ∨ s.activeMswp.freeFpList ≠ [] := by
  constructor
  · intro hkeeps mm hm
    cases hres : resident k s mm pgn with
    | true => exact .inl rfl
    | false =>
      right
      by_cases hshort : mm.fifoPgn.length < 2
      · exact .inl hshort
      · obtain ⟨vicpgn, rest, hlist, ⟨-, hget⟩ | ⟨hfree, -⟩⟩ := pgGetpage_of_two hm hres hshort
        · exact absurd (hkeeps _ hget) (not_faultKeeps_of_victim hm hlist)
        · exact .inr hfree
  · intro hcond t hget
    obtain ⟨mm, hm⟩ := mm_of_pgGetpage hget
    cases hres : resident k s mm pgn with
    | true =>
      rw [pgGetpage_of_resident hm hres] at hget
      cases hget
    | false =>
      by_cases hshort : mm.fifoPgn.length < 2
      · obtain ⟨-, rfl⟩ := pgGetpage_of_short hm hres hshort hget
        exact faultKeeps_refl k t
      · rcases hcond mm hm with hpresent | hshort' | hfree
        · rw [hres] at hpresent
          cases hpresent
        · exact absurd hshort' hshort
        · obtain ⟨vicpgn, rest, -, ⟨hnil, -⟩ | ⟨-, mswp, hok⟩⟩ := pgGetpage_of_two hm hres hshort
          · exact absurd hnil hfree
          · rw [hok] at hget
            cases hget

/-- The bytes of six entries: from the PGD in frame 0 by frames 3 to 5 to the PT in frame 6, and pages 5 and 6 in
    frames 1 and 2. The rest is zero. -/
def listedBytes : List (AddrT × BYTE) :=
  [(0, 3), (3, 0x80), (12288, 4), (12291, 0x80), (16384, 5), (16387, 0x80), (20480, 6), (20483, 0x80),
    (24596, 1), (24599, 0x80), (24600, 2), (24603, 0x80)]

/-- The RAM of a process that has pages 5 and 6. -/
def listedRam : MemphyStruct :=
  { rawMp with rdmflg := true, maxsz := 28672, storage := fun a => (listedBytes.lookup a).getD 0 }

/-- Its address space: both pages are on the list. -/
def listedMm : MmStruct := { rawMm with pgd := 0, fifoPgn := [6, 5] }

/-- There is no swap frame. -/
def twoListed : Kernel := ⟨fun _ => some listedMm, listedRam, { rawMp with rdmflg := true }⟩

/-- The first 512 pages are in the PT of frame 6. -/
theorem walkTables_listedRam : walkTables .unsigned listedRam 0 [0, 0, 0, 0] = some 24576 := by
  have hpgd : get32bitEntry .unsigned listedRam (0 + 0 * 4) = 0x80000003 := by decide
  have hp4d : get32bitEntry .unsigned listedRam (entryBase 0x80000003 + 0 * 4) = 0x80000004 := by decide
  have hpud : get32bitEntry .unsigned listedRam (entryBase 0x80000004 + 0 * 4) = 0x80000005 := by decide
  have hpmd : get32bitEntry .unsigned listedRam (entryBase 0x80000005 + 0 * 4) = 0x80000006 := by decide
  rw [walkTables, hpgd, if_pos (by decide), walkTables, hp4d, if_pos (by decide), walkTables, hpud,
    if_pos (by decide), walkTables, hpmd, if_pos (by decide), walkTables]
  decide

/-- The pages on the list are present, and page 7 is not. -/
theorem twoListed_present : (∀ pgn ∈ listedMm.fifoPgn,
    pagingPagePresent (pteGetEntry .unsigned listedMm listedRam pgn) = true) ∧
      resident .unsigned twoListed listedMm 7 = false := by
  have hentry : ∀ pgn : AddrT, (getPdFromPagenum pgn).upper = [0, 0, 0, 0] →
      pteGetEntry .unsigned listedMm listedRam pgn
        = (get32bitEntry .unsigned listedRam (24576 + (getPdFromPagenum pgn).pt * 4)).setWidth 32 := by
    intro pgn hupper
    rw [pteGetEntry, getPteAddress, hupper, show listedMm.pgd = 0 from rfl, walkTables_listedRam]
  constructor
  · intro pgn hpgn
    rcases List.mem_pair.mp hpgn with rfl | rfl
    · rw [hentry 6 (by decide)]
      decide
    · rw [hentry 5 (by decide)]
      decide
  · rw [resident, show (7 : BitVec 32).signExtend 64 = 7 by decide, show twoListed.mram = listedRam from rfl,
      hentry 7 (by decide)]
    decide

theorem faultKeeps_fails : ¬ ∀ k s x pgn t, Kernel.pgGetpage k s x pgn = .ok (none, t) → FaultKeeps k s t := by
  intro h
  have habsent : resident .unsigned twoListed listedMm 7 = false := twoListed_present.2
  have hm : twoListed.mm 0 = some listedMm := rfl
  obtain ⟨vicpgn, rest, hlist, ⟨-, hget⟩ | ⟨hfree, -⟩⟩ := pgGetpage_of_two hm habsent (Nat.lt_irrefl 2)
  · exact not_faultKeeps_of_victim hm hlist (h _ _ _ _ _ hget)
  · exact hfree rfl

/-! ### A fault that is served -/

/-- The victim is where a fault should have left it: its entry in `mm'` names the swap frame, the swap frame has the
    bytes of its frame, and its frame is the one that `pg_getpage` reports. -/
structure Evicted (k : CharKind) (s t : Kernel) (mm mm' : MmStruct) (vicpgn swpfpn : AddrT)
    (fpn : BitVec 32) : Prop where
  swapped : pteGetEntry k mm' t.mram vicpgn &&& pagingPteSwappedMask ≠ 0
  offset : pagingSwp (pteGetEntry k mm' t.mram vicpgn) = swpfpn.setWidth 32
  contents : ∀ j < pagingPagesz, t.activeMswp.storage (frameCell swpfpn j)
    = s.mram.storage (frameCell ((pagingFpn (pteGetEntry k mm s.mram vicpgn)).setWidth 64) j)
  frame : fpn = pagingFpn (pteGetEntry k mm s.mram vicpgn)

/-- What `t` should be when `pg_getpage` has returned 0. -/
structure FaultServed (k : CharKind) (s t : Kernel) (x : ℕ) (pgn fpn : BitVec 32) : Prop where
  mapped : ∃ mm', t.mm x = some mm' ∧ resident k t mm' pgn = true ∧
    pteGetEntry k mm' t.mram (pgn.signExtend 64) &&& pagingPteSwappedMask = 0 ∧ fpn = reportedFpn k t mm' pgn
  evicted : ∀ mm vicpgn mm₁, s.mm x = some mm → resident k s mm pgn = false →
    findVictimPage mm = .ok (some vicpgn, mm₁) → ∃ mm' swpfpn mswp, t.mm x = some mm' ∧
      memphyGetFreefp s.activeMswp = some (swpfpn, mswp) ∧ Evicted k s t mm mm' vicpgn swpfpn fpn

/-- When `pg_getpage` does its job: the page is there and not in swap, or it is not there and no victim or no swap
    frame is found. -/
def NothingToServe (k : CharKind) (s : Kernel) (mm : MmStruct) (pgn : BitVec 32) : Prop :=
  (resident k s mm pgn = true ∧ pteGetEntry k mm s.mram (pgn.signExtend 64) &&& pagingPteSwappedMask = 0) ∨
    (resident k s mm pgn = false ∧ (mm.fifoPgn.length < 2 ∨ s.activeMswp.freeFpList = []))

/-- A miss maps nothing. -/
theorem not_faultServed_of_miss {k : CharKind} {s : Kernel} {x : ℕ} {mm : MmStruct} {pgn fpn : BitVec 32}
    {mswp : MemphyStruct} {l : List AddrT} (hres : resident k s mm pgn = false) :
    ¬ FaultServed k s ({ s with activeMswp := mswp }.setMm x { mm with fifoPgn := l }) x pgn fpn := by
  intro hserved
  obtain ⟨mm', hm', hpresent, -⟩ := hserved.mapped
  rw [Kernel.mm_setMm_self, Option.some.injEq] at hm'
  subst hm'
  -- the entries are those of `s`
  have hsame : resident k s mm pgn = true := hpresent
  rw [hres] at hsame
  cases hsame

/-- **A fault is served exactly when there is nothing to do for it.** -/
theorem faultServed_iff (k : CharKind) (s : Kernel) (x : ℕ) (pgn : BitVec 32) :
    (∀ fpn t, s.pgGetpage k x pgn = .ok (some fpn, t) → FaultServed k s t x pgn fpn) ↔
      ∀ mm, s.mm x = some mm → NothingToServe k s mm pgn := by
  constructor
  · intro hserved mm hm
    cases hres : resident k s mm pgn with
    | true =>
      left
      obtain ⟨mm', hm', -, hswapped, -⟩ := (hserved _ _ (pgGetpage_of_resident hm hres)).mapped
      rw [hm, Option.some.injEq] at hm'
      rw [hm']
      exact ⟨hm' ▸ hres, hswapped⟩
    | false =>
      right
      refine ⟨hres, ?_⟩
      by_cases hshort : mm.fifoPgn.length < 2
      · exact .inl hshort
      · obtain ⟨vicpgn, rest, -, ⟨hnil, -⟩ | ⟨-, mswp, hget⟩⟩ := pgGetpage_of_two hm hres hshort
        · exact .inr hnil
        · exact absurd (hserved _ _ hget) (not_faultServed_of_miss hres)
  · intro hcond fpn t hget
    obtain ⟨mm, hm⟩ := mm_of_pgGetpage hget
    rcases hcond mm hm with ⟨hres, hswapped⟩ | ⟨hres, hnone⟩
    · rw [pgGetpage_of_resident hm hres] at hget
      cases hget
      refine ⟨⟨mm, hm, hres, hswapped, rfl⟩, fun mm' vicpgn mm₁ hm' hmiss _ => ?_⟩
      rw [hm, Option.some.injEq] at hm'
      rw [← hm', hres] at hmiss
      cases hmiss
    · by_cases hshort : mm.fifoPgn.length < 2
      · cases (pgGetpage_of_short hm hres hshort hget).1
      · obtain ⟨vicpgn, rest, -, ⟨-, hok⟩ | ⟨hfree, -⟩⟩ := pgGetpage_of_two hm hres hshort
        · rw [hok] at hget
          cases hget
        · rcases hnone with hshort' | hnil
          · exact absurd hshort' hshort
          · exact absurd hnil hfree

/-- The same with a swap frame. -/
def twoListedSwap : Kernel := { twoListed with activeMswp := { rawMp with rdmflg := true, freeFpList := [0] } }

theorem faultServed_fails :
    ¬ ∀ k s x pgn fpn t, Kernel.pgGetpage k s x pgn = .ok (some fpn, t) → FaultServed k s t x pgn fpn := by
  intro h
  have habsent : resident .unsigned twoListedSwap listedMm 7 = false := twoListed_present.2
  have hm : twoListedSwap.mm 0 = some listedMm := rfl
  obtain ⟨vicpgn, rest, -, ⟨hnil, -⟩ | ⟨-, mswp, hget⟩⟩ := pgGetpage_of_two hm habsent (Nat.lt_irrefl 2)
  · cases hnil
  · exact not_faultServed_of_miss habsent (h _ _ _ _ _ _ hget)

end LamiaAtrium
