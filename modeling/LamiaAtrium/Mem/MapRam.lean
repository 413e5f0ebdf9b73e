import LamiaAtrium.Mem.Tables

/-!
# `Mem.MapRam` — `vm_map_ram` of `mm64.c`

Maps a range of pages to free frames: `alloc_pages_range` collects the frames of the pages, `vmap_page_range`
sets the entries and enlists the pages for replacement, and `free_frame_list` is the way back.

* `oom` says in which turns of the loop of `alloc_pages_range` `malloc` returns `NULL`. The other calls of `malloc`
  are not checked, so the functions only return when they succeed.
* Each function has a lemma that says all it does: `allocPagesRange_eq`, `freeFrameList_eq`,
  `vmapPageLoop_cases`.
-/

namespace LamiaAtrium

/-- `enlist_pgn_node`. -/
def enlistPgnNode (plist : List AddrT) (pgn : AddrT) : List AddrT := pgn :: plist

/-- `n` turns of the loop of `alloc_pages_range`, from turn `pgit` on: the value of `pgit` at the end, and the
    list of frames. -/
def allocPagesLoop (oom : ℕ → Bool) : ℕ → ℕ → MemphyStruct → ℕ × List AddrT × MemphyStruct
  | 0,     pgit, mp => (pgit, [], mp)
  | n + 1, pgit, mp =>
    match memphyGetFreefp mp with
    | none           => (pgit, [], mp)
    | some (fpn, mp) =>
      if oom pgit then (pgit, [], mp) -- the frame is in neither list
      else
        match allocPagesLoop oom n (pgit + 1) mp with
        | (ret, frames, mp) => (ret, fpn :: frames, mp)

/-- `alloc_pages_range`. -/
def allocPagesRange (oom : ℕ → Bool) (mp : MemphyStruct) (reqPgnum : ℤ) : ℤ × List AddrT × MemphyStruct :=
  match allocPagesLoop oom reqPgnum.toNat 0 mp with
  | (pgit, frames, mp) => (if pgit < reqPgnum.toNat then pgit else reqPgnum, frames, mp)

/-- `free_frame_list`. -/
def freeFrameList (mp : MemphyStruct) (frmLst : List AddrT) : MemphyStruct := frmLst.foldl memphyPutFreefp mp

/-- The loop of `vmap_page_range` over the list of frames, from turn `pgit` on. The flag says whether it is left
    through the `return` inside. -/
def vmapPageLoop (k : CharKind) (startPgn : AddrT) (pgnum : ℤ) :
    List AddrT → ℕ → MmStruct → MemphyStruct → ℕ × Bool × MmStruct × MemphyStruct
  | [],          pgit, mm, mp => (pgit, false, mm, mp)
  | fpn :: fpit, pgit, mm, mp =>
    if (pgit : ℤ) < pgnum then
      let pgn := startPgn + BitVec.ofNat 64 pgit
      match pteSetFpn k mm mp pgn fpn with
      | (stat, mp) =>
        if stat ≠ 0 then (pgit, true, mm, mp)
        else vmapPageLoop k startPgn pgnum fpit (pgit + 1) { mm with fifoPgn := enlistPgnNode mm.fifoPgn pgn } mp
    else (pgit, false, mm, mp)

/-- `vmap_page_range`. -/
def vmapPageRange (k : CharKind) (mm : MmStruct) (mp : MemphyStruct) (addr : AddrT) (pgnum : ℤ)
    (frames : List AddrT) : ℕ × VmRgStruct × MmStruct × MemphyStruct :=
  match vmapPageLoop k (addr >>> 12) pgnum frames 0 mm mp with
  | (pgit, failed, mm, mp) =>
    (pgit, ⟨addr, addr + BitVec.ofInt 64 ((if failed then (pgit : ℤ) else pgnum) * paging64Pagesz)⟩, mm, mp)

/-- `vm_map_ram`; `astart` and `aend` are not read, and `retRg` is what the returned region held. -/
def vmMapRam (k : CharKind) (oom : ℕ → Bool) (mm : MmStruct) (mp : MemphyStruct) (mapstart : AddrT)
    (incpgnum : ℤ) (retRg : VmRgStruct) : ℤ × VmRgStruct × MmStruct × MemphyStruct :=
  match allocPagesRange oom mp incpgnum with
  | (retAlloc, frmLst, mp) =>
    if retAlloc < 0 ∧ retAlloc ≠ -3000 then (-1, retRg, mm, mp)
    else if retAlloc = -3000 then (-1, retRg, mm, mp)
    else if retAlloc < incpgnum then (-1, retRg, mm, freeFrameList mp frmLst)
    else
      match vmapPageRange k mm mp mapstart incpgnum frmLst with
      | (mapped, retRg, mm, mp) =>
        if mapped < incpgnum then (-1, retRg, mm, freeFrameList mp frmLst)
        else (0, retRg, mm, mp)

/-! ## What the functions do -/

section

variable {k : CharKind} {oom : ℕ → Bool} {mp mp' : MemphyStruct} {m m' : MmStruct}

theorem freeFrameList_eq (mp : MemphyStruct) (frmLst : List AddrT) :
    freeFrameList mp frmLst = { mp with freeFpList := frmLst.reverse ++ mp.freeFpList } := by
  induction frmLst generalizing mp with
  | nil => rfl
  | cons fpn frmLst ih =>
    rw [freeFrameList, List.foldl_cons]
    show freeFrameList (memphyPutFreefp mp fpn) frmLst = _
    rw [ih, memphyPutFreefp, List.reverse_cons, List.append_assoc, List.singleton_append]

/-- The loop when `malloc` does not fail: the frames are taken from the front, as many as there are. -/
theorem allocPagesLoop_eq (n : ℕ) : ∀ (pgit : ℕ) (mp : MemphyStruct),
    (∀ j < n, j < mp.freeFpList.length → oom (pgit + j) = false) →
      allocPagesLoop oom n pgit mp
        = (pgit + min n mp.freeFpList.length, mp.freeFpList.take n,
            { mp with freeFpList := mp.freeFpList.drop n }) := by
  induction n with
  | zero =>
    intro pgit mp _
    simp [allocPagesLoop]
  | succ n ih =>
    intro pgit mp hoom
    rw [allocPagesLoop, memphyGetFreefp]
    cases hlist : mp.freeFpList with
    | nil =>
      have hmp : ({ mp with freeFpList := [] } : MemphyStruct) = mp := by rw [← hlist]
      rw [List.length_nil, Nat.min_zero, List.take_nil, List.drop_nil, hmp]
      rfl
    | cons fpn rest =>
      rw [hlist, List.length_cons] at hoom
      have hfirst : oom pgit = false := hoom 0 (Nat.succ_pos n) (Nat.succ_pos _)
      have hrest := ih (pgit + 1) { mp with freeFpList := rest } fun j hj hlen => by
        rw [Nat.add_assoc, Nat.add_comm 1 j]
        exact hoom (j + 1) (Nat.succ_lt_succ hj) (Nat.succ_lt_succ hlen)
      simp only [hfirst, hrest, Bool.false_eq_true, if_false, List.length_cons, List.take_succ_cons,
        List.drop_succ_cons, Nat.add_min_add_right, Prod.mk.injEq, and_true]
      omega

/-- The loop when `malloc` fails: one frame is in neither list. -/
theorem allocPagesLoop_oom (n : ℕ) : ∀ (pgit : ℕ) (mp : MemphyStruct),
    (∃ j < n, j < mp.freeFpList.length ∧ oom (pgit + j) = true) →
      ∃ j frames rest, allocPagesLoop oom n pgit mp = (pgit + j, frames, { mp with freeFpList := rest }) ∧
        j < n ∧ frames.length + rest.length + 1 = mp.freeFpList.length := by
  induction n with
  | zero =>
    rintro pgit mp ⟨j, hj, -⟩
    exact absurd hj (Nat.not_lt_zero j)
  | succ n ih =>
    rintro pgit mp ⟨j, hj, hlen, hoom⟩
    rw [allocPagesLoop, memphyGetFreefp]
    cases hlist : mp.freeFpList with
    | nil =>
      rw [hlist] at hlen
      exact absurd hlen (Nat.not_lt_zero j)
    | cons fpn rest =>
      rw [hlist, List.length_cons] at hlen
      cases hfirst : oom pgit with
      | true => exact ⟨0, [], rest, by simp, Nat.succ_pos n, by simp⟩
      | false =>
        -- it is a later turn
        obtain ⟨i, rfl⟩ : ∃ i, j = i + 1 := by
          refine Nat.exists_eq_add_one_of_ne_zero ?_
          rintro rfl
          rw [Nat.add_zero, hfirst] at hoom
          cases hoom
        rw [Nat.add_comm i 1, ← Nat.add_assoc] at hoom
        obtain ⟨j', frames, rest', hloop, hj', hsum⟩ := ih (pgit + 1) { mp with freeFpList := rest }
          ⟨i, Nat.lt_of_succ_lt_succ hj, Nat.lt_of_succ_lt_succ hlen, hoom⟩
        refine ⟨j' + 1, fpn :: frames, rest', ?_, Nat.succ_lt_succ hj', ?_⟩
        · simp only [hloop, Bool.false_eq_true, if_false, Prod.mk.injEq, and_true]
          omega
        · rw [List.length_cons, List.length_cons]
          have hsum' : frames.length + rest'.length + 1 = rest.length := hsum
          omega

/-- **`alloc_pages_range` when `malloc` does not fail.** -/
theorem allocPagesRange_eq {reqPgnum : ℤ}
    (hoom : ∀ j < reqPgnum.toNat, j < mp.freeFpList.length → oom j = false) :
    allocPagesRange oom mp reqPgnum
      = (if mp.freeFpList.length < reqPgnum.toNat then (mp.freeFpList.length : ℤ) else reqPgnum,
          mp.freeFpList.take reqPgnum.toNat, { mp with freeFpList := mp.freeFpList.drop reqPgnum.toNat }) := by
  rw [allocPagesRange, allocPagesLoop_eq _ 0 mp (by simpa using hoom)]
  by_cases hlen : mp.freeFpList.length < reqPgnum.toNat
  · have hmin : 0 + min reqPgnum.toNat mp.freeFpList.length = mp.freeFpList.length := by omega
    simp only [hmin, if_pos hlen]
  · have hmin : 0 + min reqPgnum.toNat mp.freeFpList.length = reqPgnum.toNat := by omega
    simp only [hmin, Nat.lt_irrefl, if_neg hlen, if_false]

/-- **When it fails**, fewer frames are collected than asked for, and one is lost. -/
theorem allocPagesRange_oom {reqPgnum : ℤ}
    (hoom : ∃ j < reqPgnum.toNat, j < mp.freeFpList.length ∧ oom j = true) :
    ∃ (ret : ℕ) (frames rest : List AddrT),
      allocPagesRange oom mp reqPgnum = ((ret : ℤ), frames, { mp with freeFpList := rest }) ∧
        ret < reqPgnum ∧ frames.length + rest.length + 1 = mp.freeFpList.length := by
  obtain ⟨j, frames, rest, hloop, hj, hsum⟩ := allocPagesLoop_oom reqPgnum.toNat 0 mp (by simpa using hoom)
  refine ⟨j, frames, rest, ?_, by omega, hsum⟩
  rw [allocPagesRange, hloop]
  simp only [Nat.zero_add, if_pos hj]

/-- Levels 1 to 4 of `pte_set_fpn` take frames off the front of the list, and fail when it is empty. Without a
    frame to take they change nothing. -/
theorem allocTables_cases (is : List AddrT) : ∀ {mp : MemphyStruct} {base : AddrT} {o : Option AddrT}
    {mp' : MemphyStruct}, allocTables k mp base is = (o, mp') →
      (∃ taken, mp.freeFpList = taken ++ mp'.freeFpList) ∧ (o = none → mp'.freeFpList = []) ∧
        (mp'.freeFpList = mp.freeFpList → mp' = mp) := by
  induction is with
  | nil =>
    intro mp base o mp' h
    obtain ⟨rfl, rfl⟩ : some base = o ∧ mp = mp' := by simpa [allocTables] using h
    exact ⟨⟨[], rfl⟩, fun hnone => absurd hnone (by simp), fun _ => rfl⟩
  | cons idx is ih =>
    intro mp base o mp' h
    rw [allocTables] at h
    split at h
    · exact ih h
    · cases hget : memphyGetFreefp mp with
      | none =>
        rw [hget] at h
        obtain ⟨rfl, rfl⟩ : none = o ∧ mp = mp' := by simpa using h
        exact ⟨⟨[], rfl⟩, fun _ => memphyGetFreefp_eq_none.mp hget, fun _ => rfl⟩
      | some got =>
        obtain ⟨fpn, mp₁⟩ := got
        obtain ⟨hlist, -⟩ := memphyGetFreefp_eq_some hget
        rw [hget] at h
        obtain ⟨⟨taken, htaken⟩, hnone, -⟩ := ih h
        rw [freeFpList_putEntryBytes] at htaken
        refine ⟨⟨fpn :: taken, by rw [hlist, htaken, List.cons_append]⟩, hnone, fun hsame => ?_⟩
        have hlen := congrArg List.length hsame
        rw [hlist, htaken, List.length_cons, List.length_append] at hlen
        omega

/-- `pte_set_fpn` fails only when the list has run out. -/
theorem pteSetFpn_cases {pgn fpn : AddrT} {stat : ℤ} (h : pteSetFpn k m mp pgn fpn = (stat, mp')) :
    (∃ taken, mp.freeFpList = taken ++ mp'.freeFpList) ∧
      (stat ≠ 0 → mp'.freeFpList = [] ∧ (mp.freeFpList = [] → mp' = mp)) := by
  unfold pteSetFpn at h
  split at h
  · rename_i mp₁ halloc
    obtain ⟨-, rfl⟩ : -1 = stat ∧ mp₁ = mp' := by simpa using h
    obtain ⟨htaken, hnone, hkeep⟩ := allocTables_cases _ halloc
    exact ⟨htaken, fun _ => ⟨hnone rfl, fun hnil => hkeep (by rw [hnone rfl, hnil])⟩⟩
  · rename_i mp₁ ptBase halloc
    obtain ⟨rfl, rfl⟩ := Prod.mk.inj h
    obtain ⟨htaken, -, -⟩ := allocTables_cases _ halloc
    rw [freeFpList_putEntryBytes]
    exact ⟨htaken, fun hstat => absurd rfl hstat⟩

/-- **The loop of `vmap_page_range`** over no more frames than pages. When no page fails, each frame has its page.
    When one fails, the list has run out. The pages before it stay enlisted. -/
theorem vmapPageLoop_cases {startPgn : AddrT} {pgnum : ℤ} (frames : List AddrT) :
    ∀ {pgit : ℕ} {m : MmStruct} {mp : MemphyStruct} {pgit' : ℕ} {failed : Bool} {m' : MmStruct}
      {mp' : MemphyStruct}, (pgit + frames.length : ℤ) ≤ pgnum →
      vmapPageLoop k startPgn pgnum frames pgit m mp = (pgit', failed, m', mp') →
        m'.pgd = m.pgd ∧ m'.fifoPgn.length + pgit = m.fifoPgn.length + pgit' ∧ pgit ≤ pgit' ∧
          (failed = false → pgit' = pgit + frames.length) ∧
          (failed = true → pgit' < pgit + frames.length ∧ mp'.freeFpList = [] ∧
            (pgit' = pgit → m' = m ∧ (mp.freeFpList = [] → mp' = mp))) := by
  induction frames with
  | nil =>
    intro pgit m mp pgit' failed m' mp' _ h
    obtain ⟨rfl, rfl, rfl, rfl⟩ : pgit = pgit' ∧ false = failed ∧ m = m' ∧ mp = mp' := by
      simpa [vmapPageLoop] using h
    exact ⟨rfl, rfl, Nat.le_refl _, fun _ => rfl, fun hf => absurd hf Bool.false_ne_true⟩
  | cons fpn fpit ih =>
    intro pgit m mp pgit' failed m' mp' hlen h
    rw [List.length_cons] at hlen
    push_cast at hlen
    have hmore : (pgit : ℤ) < pgnum := by omega
    rw [vmapPageLoop, if_pos hmore] at h
    cases hset : pteSetFpn k m mp (startPgn + BitVec.ofNat 64 pgit) fpn with
    | mk stat mp₁ =>
      simp only [hset] at h
      obtain ⟨-, hfails⟩ := pteSetFpn_cases hset
      by_cases hstat : stat = 0
      · -- the page is mapped
        rw [if_neg (not_not.mpr hstat)] at h
        obtain ⟨hpgd, hfifo, hle, hall, hsome⟩ := ih (by push_cast; omega) h
        rw [enlistPgnNode, List.length_cons] at hfifo
        rw [List.length_cons]
        refine ⟨hpgd, by omega, by omega, fun hf => by rw [hall hf]; omega, fun hf => ?_⟩
        obtain ⟨hlt, hnil, -⟩ := hsome hf
        exact ⟨by omega, hnil, fun hsame => absurd hsame (by omega)⟩
      · rw [if_pos hstat] at h
        obtain ⟨rfl, rfl, rfl, rfl⟩ : pgit = pgit' ∧ true = failed ∧ m = m' ∧ mp₁ = mp' := by simpa using h
        obtain ⟨hnil, hkeep⟩ := hfails hstat
        refine ⟨rfl, rfl, Nat.le_refl _, fun hf => absurd hf.symm Bool.false_ne_true, fun _ => ?_⟩
        rw [List.length_cons]
        exact ⟨by omega, hnil, fun _ => ⟨rfl, hkeep⟩⟩

end

end LamiaAtrium
