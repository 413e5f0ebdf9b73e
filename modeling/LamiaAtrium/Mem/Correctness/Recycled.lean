import LamiaAtrium.Mem.Correctness.Exclusive

/-!
# `Mem.Correctness.Recycled` — what the old bytes of a free frame do to other pages

`init_mm` clears the frame that it takes for a PGD. `pte_set_fpn` takes frames for the lower tables and does not
clear them: whatever their last owner left there is read as entries from then on.

* `takenFrames` are the free frames that a call takes, `FreeContent` says that two storages differ in free
  frames only, and `OthersUnchanged` that a call moves no page but its own.
* `Rooted.othersUnchanged`: so it is when the frames taken have no present entry.
* `Rooted.exists_exposed`: as soon as a call takes a frame, there are bytes for it that make another page
  present.
* `recycled_iff`: for all bytes, a call moves no other page exactly when it takes no frame.
-/

namespace LamiaAtrium

open Radix

/-- The frames that `pte_set_fpn` takes off the free list for the tables of a page. -/
def takenFrames (k : CharKind) (m : MmStruct) (mp : MemphyStruct) (pgn : AddrT) : List AddrT :=
  mp.freeFpList.take (missingTables k mp m.pgd (getPdFromPagenum pgn).upper)

/-- **No page but page `pgn` of process `p` is moved** between two states of the device. -/
def OthersUnchanged (k : CharKind) (mm : ℕ → Option MmStruct) (p : ℕ) (pgn : AddrT) (mp mp' : MemphyStruct) : Prop :=
  ∀ q m, mm q = some m → ∀ vaddr : AddrT, ¬ (q = p ∧ getPdFromAddress vaddr = getPdFromPagenum pgn) →
    translateAddress k m mp' vaddr = translateAddress k m mp vaddr

/-- A storage that may differ from that of the device in its free frames, and nowhere else. -/
def FreeContent (mp : MemphyStruct) (storage : AddrT → BYTE) : Prop :=
  ∀ a : AddrT, (∀ x ∈ mp.freeFpList, a.toNat / 4096 ≠ x.toNat) → storage a = mp.storage a

/-! ## Pages and paths -/

theorem idxOf_inj {i j : Fin 512} (h : idxOf i = idxOf j) : i = j := by
  have hnat := congrArg BitVec.toNat h
  rw [idxOf, idxOf, BitVec.toNat_ofNat, BitVec.toNat_ofNat] at hnat
  have hi := i.isLt
  have hj := j.isLt
  exact Fin.ext (by omega)

/-- The five indices of an address are its path. -/
theorem getPdFromAddress_eq_iff {a b : AddrT} :
    getPdFromAddress a = getPdFromAddress b ↔ leafPath a = leafPath b := by
  constructor
  · intro h
    have hupper : (upperPath a).map idxOf = (upperPath b).map idxOf := by
      rw [← upper_getPdFromAddress, ← upper_getPdFromAddress, h]
    have hpt : idxOf (levelIdx 12 a) = idxOf (levelIdx 12 b) := by
      rw [← pt_getPdFromAddress, ← pt_getPdFromAddress, h]
    rw [leafPath, leafPath, List.map_injective_iff.mpr (fun _ _ => idxOf_inj) hupper, idxOf_inj hpt]
  · intro h
    obtain ⟨hupper, hpt⟩ := List.append_inj' h rfl
    have hlists : (getPdFromAddress a).upper = (getPdFromAddress b).upper := by
      rw [upper_getPdFromAddress, upper_getPdFromAddress, hupper]
    have hpts : (getPdFromAddress a).pt = (getPdFromAddress b).pt := by
      rw [pt_getPdFromAddress, pt_getPdFromAddress, List.singleton_inj.mp hpt]
    generalize getPdFromAddress a = i at hlists hpts ⊢
    generalize getPdFromAddress b = j at hlists hpts ⊢
    cases i
    cases j
    simpa [PdIndices.upper, and_assoc] using And.intro hlists hpts

/-- Every path is the path of an address. -/
theorem exists_leafPath {js : List (Fin 512)} (h : js.length = 5) : ∃ vaddr, leafPath vaddr = js := by
  obtain ⟨i₁, i₂, i₃, i₄, i₅, rfl⟩ : ∃ i₁ i₂ i₃ i₄ i₅, js = [i₁, i₂, i₃, i₄, i₅] := by
    match js, h with
    | [i₁, i₂, i₃, i₄, i₅], _ => exact ⟨i₁, i₂, i₃, i₄, i₅, rfl⟩
  refine ⟨BitVec.ofNat 64 ((((i₁ * 512 + i₂) * 512 + i₃) * 512 + i₄) * 512 + i₅) <<< 12, ?_⟩
  have h₁ := i₁.isLt
  have h₂ := i₂.isLt
  have h₃ := i₃.isLt
  have h₄ := i₄.isLt
  have h₅ := i₅.isLt
  have hpage : (BitVec.ofNat 64 ((((i₁ * 512 + i₂) * 512 + i₃) * 512 + i₄) * 512 + i₅)).toNat
      = (((i₁.val * 512 + i₂) * 512 + i₃) * 512 + i₄) * 512 + i₅ := by
    rw [BitVec.toNat_ofNat]
    exact Nat.mod_eq_of_lt (by omega)
  have hshift := @toNat_pgn_shift (BitVec.ofNat 64 ((((i₁ * 512 + i₂) * 512 + i₃) * 512 + i₄) * 512 + i₅))
    (by rw [hpage]; omega)
  rw [hpage] at hshift
  simp only [leafPath, upperPath, levelIdx, hshift, List.cons_append, List.nil_append, List.cons.injEq, Fin.ext_iff,
    and_true]
  omega

/-- No path uses all the indices. -/
theorem exists_notMem_leafPath (vaddr : AddrT) : ∃ j, j ∉ leafPath vaddr := by
  by_contra hall
  push Not at hall
  have hcard := List.toFinset_card_le (leafPath vaddr)
  have huniv : (leafPath vaddr).toFinset = Finset.univ :=
    Finset.eq_univ_iff_forall.mpr fun j => List.mem_toFinset.mpr (hall j)
  rw [huniv, Finset.card_univ, Fintype.card_fin, length_leafPath] at hcard
  omega

/-! ## The bytes of the free frames -/

section

variable {k : CharKind} {root : ℕ → Option AddrT} {mm : ℕ → Option MmStruct} {mp : MemphyStruct}
  {storage : AddrT → BYTE}

/-- The other tables stay. -/
theorem tables_content (hrdm : mp.rdmflg = true) (hst : FreeContent mp storage) {x : AddrT}
    (hx : x ∉ mp.freeFpList) : tables k { mp with storage } x = tables k mp x := by
  have hrdm' : ({ mp with storage } : MemphyStruct).rdmflg = true := hrdm
  funext i
  refine tables_congr hrdm hrdm' fun haddr c hc => hst _ fun y hy heq => ?_
  rw [toNat_entryAddr_add haddr i hc] at heq
  have hi := i.isLt
  have hxy : x = y := BitVec.eq_of_toNat_eq (by omega)
  exact hx (hxy ▸ hy)

/-- A walk of a process passes no free frame. -/
theorem Rooted.walk_content (h : Rooted k root mm mp) (hst : FreeContent mp storage) {p : ℕ} {r : AddrT}
    {js : List (Fin 512)} (hp : root p = some r) (hjs : js.length ≤ 5) :
    walk (tables k { mp with storage }) r js = walk (tables k mp) r js := by
  refine walk_congr js r fun n hn f hf => congrFun (tables_content h.rdm hst ?_) _
  apply h.forest.off_pool hp _ hf
  rw [List.length_take]
  omega

/-- So it translates the same addresses. -/
theorem Rooted.translate_content (h : Rooted k root mm mp) (hst : FreeContent mp storage) {p : ℕ} {m : MmStruct}
    (hm : mm p = some m) (vaddr : AddrT) :
    translateAddress k m { mp with storage } vaddr = translateAddress k m mp vaddr := by
  obtain ⟨r, hr, hpgd, hra⟩ := h.root_of hm
  rw [translateAddress_walk hpgd hra, translateAddress_walk hpgd hra,
    h.walk_content hst hr (length_leafPath vaddr).le]

theorem Rooted.content (h : Rooted k root mm mp) (hst : FreeContent mp storage) :
    Rooted k root mm { mp with storage } where
  rdm := h.rdm
  free := h.free
  pgd := h.pgd
  roots := h.roots
  forest := h.forest.congr fun hp his => h.walk_content hst hp his.le

/-- And takes the same frames. -/
theorem Rooted.takenFrames_content (h : Rooted k root mm mp) (hst : FreeContent mp storage) {p : ℕ} {m : MmStruct}
    (hm : mm p = some m) (pgn : AddrT) : takenFrames k m { mp with storage } pgn = takenFrames k m mp pgn := by
  obtain ⟨r, hr, hpgd, hra⟩ := h.root_of hm
  have hlen : (upperPath (pgn <<< 12)).length = 4 := rfl
  rw [takenFrames, takenFrames, hpgd, getPdFromPagenum, upper_getPdFromAddress, missingTables_eq _ hra,
    missingTables_eq _ hra, missing_congr]
  intro n hn f hf
  refine congrFun (tables_content h.rdm hst ?_) _
  apply h.forest.off_pool hr _ hf
  rw [List.length_take]
  omega

/-- The frames taken, in the terms of the forest. -/
theorem takenFrames_eq {m : MmStruct} {r : AddrT} (hpgd : m.pgd = baseOf r) (hra : Addressable r) (pgn : AddrT) :
    takenFrames k m mp pgn = mp.freeFpList.take (missing (tables k mp) r (upperPath (pgn <<< 12))) := by
  rw [takenFrames, hpgd, getPdFromPagenum, upper_getPdFromAddress, missingTables_eq _ hra]

theorem takenFrames_ne_nil {m : MmStruct} {pgn : AddrT} (hfree : mp.freeFpList ≠ [])
    (hmiss : missingTables k mp m.pgd (getPdFromPagenum pgn).upper ≠ 0) : takenFrames k m mp pgn ≠ [] := by
  intro hnil
  rw [takenFrames, List.take_eq_nil_iff] at hnil
  exact hnil.elim hmiss hfree

/-- **A call that takes frames without a present entry** moves no other page. -/
theorem Rooted.othersUnchanged (h : Rooted k root mm mp) {p : ℕ} {m : MmStruct} (hm : mm p = some m)
    (pgn fpn : AddrT) (hclean : ∀ x ∈ takenFrames k m mp pgn, CleanFrame k mp x) :
    OthersUnchanged k mm p pgn mp (pteSetFpn k m mp pgn fpn).2 := by
  obtain ⟨r, hr, hpgd, hra⟩ := h.root_of hm
  rw [takenFrames_eq hpgd hra] at hclean
  have hfresh : Fresh (tables k mp) (mp.freeFpList.take (missing (tables k mp) r (upperPath (pgn <<< 12)))) :=
    fun x hx i => tables_of_absent (by rw [(hclean x hx).2 i]; exact Bool.false_ne_true)
  obtain ⟨ok, mp', x, hset, hins, -⟩ :=
    pteSetFpn_insert pgn fpn hpgd hra h.rdm fun x hx => (hclean x hx).1
  intro q m' hq vaddr hother
  obtain ⟨r', hr', hpgd', hra'⟩ := h.root_of hq
  rw [hset, translateAddress_walk hpgd' hra', translateAddress_walk hpgd' hra',
    insert_take h.forest hfresh hr rfl hins hr' (length_leafPath vaddr), if_neg]
  rintro ⟨-, hqp, hpath⟩
  exact hother ⟨hqp, getPdFromAddress_eq_iff.mpr hpath⟩

/-- The device with its free frames zeroed. -/
def blankFree (mp : MemphyStruct) : MemphyStruct :=
  { mp with storage := fun a => if (∃ x ∈ mp.freeFpList, a.toNat / 4096 = x.toNat) then 0 else mp.storage a }

theorem rdmflg_blankFree (mp : MemphyStruct) : (blankFree mp).rdmflg = mp.rdmflg := by rw [blankFree]

theorem storage_blankFree (mp : MemphyStruct) (a : AddrT) :
    (blankFree mp).storage a = if (∃ x ∈ mp.freeFpList, a.toNat / 4096 = x.toNat) then 0 else mp.storage a := by
  rw [blankFree]

/-- All free frames are zero but frame `f`, where entry `j` names the frame itself. -/
def loopStorage (mp : MemphyStruct) (f : AddrT) (j : Fin 512) : AddrT → BYTE :=
  (putEntryBytes (blankFree mp) (entryAddr f j) (tableEntry f)).storage

theorem freeContent_loopStorage (h : mp.rdmflg = true) {f : AddrT} (hf : f ∈ mp.freeFpList) (haddr : Addressable f)
    (j : Fin 512) : FreeContent mp (loopStorage mp f j) := by
  intro a ha
  rw [loopStorage, storage_putEntryBytes_of_ne ((rdmflg_blankFree mp).trans h), storage_blankFree]
  · exact if_neg fun hfree => hfree.elim fun x hx => ha x hx.1 hx.2
  · rintro c hc rfl
    apply ha f hf
    have hj := j.isLt
    rw [toNat_entryAddr_add haddr j hc]
    omega

/-- The entry, and nothing else in the free frames. -/
theorem tables_loopStorage (h : mp.rdmflg = true) {f : AddrT} (hf : Survives k f) (j : Fin 512) {y : AddrT}
    (hy : y ∈ mp.freeFpList) (l : Fin 512) :
    tables k { mp with storage := loopStorage mp f j } y l = if y = f ∧ l = j then some f else none := by
  have hbits := getLsbD_tableEntry hf.1
  have h₀ : (blankFree mp).rdmflg = true := (rdmflg_blankFree mp).trans h
  have hsame : ({ mp with storage := loopStorage mp f j } : MemphyStruct)
      = putEntryBytes (blankFree mp) (entryAddr f j) (tableEntry f) := by
    rw [putEntryBytes_eq h₀]
    simp only [loopStorage, blankFree]
  rw [hsame, tables_putEntryBytes h₀ hf.addressable (decode_byteOf hf hbits.1 hbits.2), write]
  by_cases hentry : y = f ∧ l = j
  · rw [if_pos hentry, if_pos hentry]
  · rw [if_neg hentry, if_neg hentry]
    by_cases haddr : Addressable y
    · apply tables_of_blank h₀
      intro c hc
      rw [storage_blankFree]
      refine if_pos ⟨y, hy, ?_⟩
      have hl := l.isLt
      rw [toNat_entryAddr_add haddr l hc]
      omega
    · exact if_neg fun hc => haddr hc.1

/-- **Bytes that make another page present.** All free frames are zero but the first, where one entry, at an index
    that page `pgn` does not use, names the frame itself. -/
theorem Rooted.exists_exposed (h : Rooted k root mm mp) {p : ℕ} {m : MmStruct} (hm : mm p = some m)
    (pgn fpn : AddrT) (htakes : takenFrames k m mp pgn ≠ [])
    (hsurv : ∀ x ∈ takenFrames k m mp pgn, Survives k x) :
    ∃ storage, FreeContent mp storage ∧ ∃ vaddr, getPdFromAddress vaddr ≠ getPdFromPagenum pgn ∧
      translateAddress k m mp vaddr = none ∧
      (translateAddress k m (pteSetFpn k m { mp with storage } pgn fpn).2 vaddr).isSome := by
  obtain ⟨r, hr, hpgd, hra⟩ := h.root_of hm
  rw [takenFrames_eq hpgd hra] at htakes hsurv
  -- the first free frame, and the entry that it is linked at
  obtain ⟨f, rest, hlist⟩ : ∃ f rest, mp.freeFpList = f :: rest :=
    List.exists_cons_of_ne_nil fun hnil => htakes (by rw [hnil, List.take_nil])
  have hmiss : missing (tables k mp) r (upperPath (pgn <<< 12)) ≠ 0 :=
    fun hzero => htakes (by rw [hzero, List.take_zero])
  obtain ⟨pre, i, post, g, hsplit, hg, hnone⟩ := exists_missing_entry _ r hmiss
  have hf : Survives k f := by
    apply hsurv f
    obtain ⟨n, hn⟩ := Nat.exists_eq_succ_of_ne_zero hmiss
    rw [hlist, hn, List.take_succ_cons]
    exact List.mem_cons_self
  obtain ⟨j, hj⟩ := exists_notMem_leafPath (pgn <<< 12)
  have hfree : f ∈ mp.freeFpList := by rw [hlist]; exact List.mem_cons_self
  have hst := freeContent_loopStorage h.rdm hfree hf.addressable j
  have hloop := @tables_loopStorage k mp h.rdm f hf j
  have hrooted := h.content hst
  have htaken := h.takenFrames_content hst hm pgn
  generalize hmp' : ({ mp with storage := loopStorage mp f j } : MemphyStruct) = mp' at hloop hrooted htaken
  have hlist' : mp'.freeFpList = f :: rest := by rw [← hmp', ← hlist]
  rw [takenFrames_eq hpgd hra, takenFrames_eq hpgd hra] at htaken
  obtain ⟨ok, mp₁, x, hset, hins, -⟩ := pteSetFpn_insert (k := k) pgn fpn hpgd hra hrooted.rdm
    fun x hx => hsurv x (htaken ▸ hx)
  have hlen : pre.length + (post.length + 1) = 4 := by
    have hlen := congrArg List.length hsplit
    rw [List.length_append, List.length_cons] at hlen
    exact hlen.symm
  rw [leafPath, hsplit, List.mem_append, List.mem_singleton, not_or] at hj
  have hgoff : g ∉ mp.freeFpList := h.forest.off_pool hr (by omega) hg
  have hwalk := hrooted.forest
  rw [hlist'] at hwalk
  rw [hlist', hsplit] at hins
  have hexposed := hwalk.insert_exposes hr
    (by rw [List.length_append, List.length_cons]; omega)
    (by rw [← hmp', h.walk_content hst hr (by omega)]; exact hg)
    (by rw [← hmp', tables_content h.rdm hst hgoff]; exact hnone)
    (by rw [hloop hfree, if_pos ⟨rfl, rfl⟩])
    (by
      intro y hy l z hz
      rw [hloop (by rw [hlist]; exact hy)] at hz
      split at hz
      · obtain rfl := Option.some.inj hz
        exact List.mem_cons_self
      · cases hz)
    hj.1 hj.2 hins (4 - pre.length)
  obtain ⟨vaddr, hpath⟩ := @exists_leafPath (pre ++ i :: List.replicate (4 - pre.length) j) (by
    rw [List.length_append, List.length_cons, List.length_replicate]
    omega)
  refine ⟨_, hst, vaddr, ?_, ?_, ?_⟩
  · -- page `pgn` does not use the index
    rw [getPdFromPagenum, Ne, getPdFromAddress_eq_iff, hpath, leafPath, hsplit]
    intro hsame
    have hmem : j ∈ pre ++ i :: List.replicate (4 - pre.length) j := by
      rw [List.mem_append, List.mem_cons]
      exact .inr (.inr (List.mem_replicate.mpr ⟨by omega, rfl⟩))
    rw [hsame, List.mem_append, List.mem_singleton] at hmem
    exact hmem.elim hj.1 hj.2
  · rw [translateAddress_walk hpgd hra, hpath, walk_append, hg, Option.bind_some, walk_cons, hnone]
    rfl
  · rw [hmp', hset, translateAddress_walk hpgd hra, hpath, hexposed]
    rfl

/-- **Bytes of free frames and other pages.** A call moves no other page when the frames that it takes have no
    present entry. Whatever the bytes of the free frames are, it moves no other page when it takes no frame; and
    when it does, and the numbers of the frames fit into an entry, there are bytes with which it moves one. -/
theorem recycled_iff (h : Rooted k root mm mp) {p : ℕ} {m : MmStruct} (hm : mm p = some m) (pgn fpn : AddrT) :
    ((∀ x ∈ takenFrames k m mp pgn, CleanFrame k mp x) →
        OthersUnchanged k mm p pgn mp (pteSetFpn k m mp pgn fpn).2) ∧
      ((∀ x ∈ takenFrames k m mp pgn, Survives k x) →
        ((∀ storage, FreeContent mp storage → OthersUnchanged k mm p pgn { mp with storage }
            (pteSetFpn k m { mp with storage } pgn fpn).2) ↔
          takenFrames k m mp pgn = [])) := by
  refine ⟨h.othersUnchanged hm pgn fpn, fun hsurv => ⟨fun hall => ?_, fun hnone storage hst => ?_⟩⟩
  · by_contra htakes
    obtain ⟨storage, hst, vaddr, hother, habsent, hpresent⟩ := h.exists_exposed hm pgn fpn htakes hsurv
    rw [hall storage hst p m hm vaddr fun hc => hother hc.2, h.translate_content hst hm, habsent] at hpresent
    cases hpresent
  · apply (h.content hst).othersUnchanged hm
    rw [h.takenFrames_content hst hm, hnone]
    intro x hx
    cases hx

end

/-- The first process of a device of two frames. -/
theorem recycled_iff_two : ∃ m mram, initMm rawMm (zeroDevice 512).device [] = (0, m, mram) ∧
    takenFrames .unsigned m mram 0 ≠ [] ∧
    ((∀ x ∈ takenFrames .unsigned m mram 0, CleanFrame .unsigned mram x) →
        OthersUnchanged .unsigned (Function.update (fun _ => none) 0 (some m)) 0 0 mram
          (pteSetFpn .unsigned m mram 0 0).2) ∧
      ((∀ x ∈ takenFrames .unsigned m mram 0, Survives .unsigned x) →
        ((∀ storage, FreeContent mram storage →
            OthersUnchanged .unsigned (Function.update (fun _ => none) 0 (some m)) 0 0 { mram with storage }
              (pteSetFpn .unsigned m { mram with storage } 0 0).2) ↔
          takenFrames .unsigned m mram 0 = [])) := by
  have htwo : 2 ≤ numfpOf 512 ∧ numfpOf 512 ≤ 8192 := by decide
  obtain ⟨-, m, mram, hinit, howned, hlen, hmissing⟩ := first_process htwo.1 htwo.2
  have hframes : (numfpOf 512).toNat = 2 := by decide
  refine ⟨m, mram, hinit, ?_, recycled_iff howned.toRooted (Function.update_self ..) 0 0⟩
  apply takenFrames_ne_nil
  · apply List.ne_nil_of_length_pos
    omega
  · rw [hmissing]
    exact four_ne_zero

/-- **A frame that names itself**: the first process of a device of 4096 frames maps its page 0, and the frame
    that it takes for the first missing table has an entry of its last owner. -/
theorem recycled_frames_show : ¬ ∀ (k : CharKind) (root : ℕ → Option AddrT) (mm : ℕ → Option MmStruct)
    (mp : MemphyStruct), Rooted k root mm mp → (∀ x ∈ mp.freeFpList, Survives k x) →
      ∀ (p : ℕ) (m : MmStruct), mm p = some m → ∀ (pgn fpn : AddrT) (storage : AddrT → BYTE),
        FreeContent mp storage →
          OthersUnchanged k mm p pgn { mp with storage } (pteSetFpn k m { mp with storage } pgn fpn).2 := by
  intro hall
  have hsize : 2 ≤ numfpOf 1048576 ∧ numfpOf 1048576 ≤ 8192 := by decide
  obtain ⟨-, m, mram, -, howned, hlen, hmissing⟩ := first_process hsize.1 hsize.2
  have hm : Function.update (fun _ : ℕ => none) 0 (some m) 0 = some m := Function.update_self ..
  have hframes : (numfpOf 1048576).toNat = 4096 := by decide
  have htakes : takenFrames .unsigned m mram 0 ≠ [] := by
    apply takenFrames_ne_nil
    · apply List.ne_nil_of_length_pos
      omega
    · rw [hmissing]
      exact four_ne_zero
  obtain ⟨storage, hst, vaddr, hother, habsent, hpresent⟩ := howned.toRooted.exists_exposed hm 0 0 htakes
    (howned.survives_take _)
  have hsame := hall .unsigned _ _ mram howned.toRooted howned.survives 0 m hm 0 0 storage hst 0 m hm vaddr
    fun hc => hother hc.2
  rw [hsame, howned.toRooted.translate_content hst hm, habsent] at hpresent
  cases hpresent

end LamiaAtrium
