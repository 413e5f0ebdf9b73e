import LamiaAtrium.Lib.Mask
import LamiaAtrium.Mem.Correctness.Exclusive

/-!
# `Mem.Correctness.Residency` — what the entry of a page says, and who believes it

`pte_set_fpn` and `pte_set_swap` write the same 32-bit word, each with fields of its own.

* `swapWord`: the word of `pte_set_swap` as `Lib.Mask.put`s, and the fields read back from it.
* `OwnTable`: the page table of the page is none of the tables on the way to it. Then a call changes the word
  of the page and not the way (`OwnTable.put`, `OwnTable.apply_eq`).
* `last_call_decoded`: after any calls the fields are those of the last one. `translate_address` and
  `pg_getpage` agree with it only when that was a `pte_set_fpn`: they look at the present bit alone, and
  `pte_set_swap` sets it.
-/

namespace LamiaAtrium

open Radix

/-! ## Entry words -/

theorem setWidth_setbit (v : AddrT) (mask : BitVec 32) :
    (setbit v mask).setWidth 32 = Mask.put mask (v.setWidth 32) (BitVec.allOnes 32) := by
  apply BitVec.eq_of_getLsbD_eq
  intro i hi
  rw [Mask.getLsbD_put hi, setbit, BitVec.getLsbD_setWidth, BitVec.getLsbD_or, BitVec.getLsbD_setWidth,
    BitVec.getLsbD_setWidth, BitVec.getLsbD_allOnes]
  cases mask.getLsbD i <;> simp [hi, show i < 64 by omega]

theorem setWidth_setval (v value : AddrT) (mask : BitVec 32) (offst : ℕ) :
    (setval v value mask offst).setWidth 32 = Mask.put mask (v.setWidth 32) ((value <<< offst).setWidth 32) := by
  apply BitVec.eq_of_getLsbD_eq
  intro i hi
  rw [Mask.getLsbD_put hi, setval, BitVec.getLsbD_setWidth, BitVec.getLsbD_or, BitVec.getLsbD_and,
    BitVec.getLsbD_and, BitVec.getLsbD_setWidth, BitVec.getLsbD_setWidth, BitVec.getLsbD_setWidth,
    BitVec.getLsbD_setWidth, BitVec.getLsbD_not]
  cases mask.getLsbD i <;> simp [hi, show i < 64 by omega]

/-- The word that `pte_set_swap` writes. -/
def swapWord (w : BitVec 32) (swptyp : BitVec 32) (swpoff : AddrT) : BitVec 32 :=
  Mask.put pagingPteSwpoffMask
    (Mask.put pagingPteSwptypMask
      (Mask.put pagingPteSwappedMask (Mask.put pagingPtePresentMask w (BitVec.allOnes 32)) (BitVec.allOnes 32))
      (swptyp <<< 0))
    ((swpoff <<< 5).setWidth 32)

theorem setWidth_swapEntry (v : AddrT) (swptyp : BitVec 32) (swpoff : AddrT) :
    (swapEntry v (swptyp.signExtend 64) swpoff).setWidth 32 = swapWord (v.setWidth 32) swptyp swpoff := by
  have htyp : ((swptyp.signExtend 64) <<< 0).setWidth 32 = swptyp <<< 0 := by
    apply BitVec.eq_of_getLsbD_eq
    intro i hi
    rw [BitVec.shiftLeft_zero, BitVec.shiftLeft_zero, BitVec.getLsbD_setWidth, BitVec.getLsbD_signExtend]
    simp only [hi, show i < 64 by omega, decide_true, Bool.true_and, if_true]
  rw [swapEntry, setWidth_setval, setWidth_setval, setWidth_setbit, setWidth_setbit, htyp, swapWord]

section

variable (w swptyp : BitVec 32) (swpoff : AddrT)

/-- The present bit is set. -/
theorem swapWord_present : swapWord w swptyp swpoff &&& pagingPtePresentMask = pagingPtePresentMask := by
  rw [swapWord, Mask.put_and_of_disjoint (by decide), Mask.put_and_of_disjoint (by decide),
    Mask.put_and_of_disjoint (by decide), Mask.put_and_self, BitVec.allOnes_and]

/-- So is the swapped bit. -/
theorem swapWord_swapped : swapWord w swptyp swpoff &&& pagingPteSwappedMask = pagingPteSwappedMask := by
  rw [swapWord, Mask.put_and_of_disjoint (by decide), Mask.put_and_of_disjoint (by decide), Mask.put_and_self,
    BitVec.allOnes_and]

theorem pteSwptyp_swapWord (htyp : swptyp.toNat < 32) : pteSwptyp (swapWord w swptyp swpoff) = swptyp := by
  have hmask : ∀ i < 32, pagingPteSwptypMask.getLsbD i = decide (0 ≤ i ∧ i < 0 + 5) := by decide
  rw [pteSwptyp, swapWord, Mask.put_and_of_disjoint (by decide), Mask.put_and_self]
  exact Mask.get_of_range hmask (by omega) htyp

theorem pagingSwp_swapWord (hoff : swpoff.toNat < 2 ^ 21) :
    (pagingSwp (swapWord w swptyp swpoff)).setWidth 64 = swpoff := by
  have hnarrow : (swpoff <<< 5).setWidth 32 = swpoff.setWidth 32 <<< 5 := by
    apply BitVec.eq_of_getLsbD_eq
    intro i hi
    simp [hi]
  have hnat : (swpoff.setWidth 32).toNat = swpoff.toNat := by
    rw [BitVec.toNat_setWidth]
    omega
  have hmask : ∀ i < 32, pagingPteSwpoffMask.getLsbD i = decide (5 ≤ i ∧ i < 5 + 21) := by decide
  rw [pagingSwp, swapWord, Mask.put_and_self, hnarrow,
    Mask.get_of_range hmask (by omega) (by rw [hnat]; exact hoff)]
  apply BitVec.eq_of_toNat_eq
  rw [BitVec.toNat_setWidth, hnat]
  omega

end

/-! ## The calls on one page -/

/-- A call for one page. -/
inductive PteCall where
  | setFpn (fpn : AddrT)
  | setSwap (swptyp : BitVec 32) (swpoff : AddrT)

/-- The arguments fit into their fields. -/
def PteCall.InRange : PteCall → Prop
  | .setFpn fpn            => fpn.toNat < 2 ^ 13
  | .setSwap swptyp swpoff => swptyp.toNat < 32 ∧ swpoff.toNat < 2 ^ 21

/-- Is it a `pte_set_fpn`? -/
def PteCall.isFpn : PteCall → Bool
  | .setFpn _    => true
  | .setSwap _ _ => false

/-- One call. -/
def PteCall.apply (mm : MmStruct) (pgn : AddrT) (mp : MemphyStruct) : PteCall → ℤ × MemphyStruct
  | .setFpn fpn            => pteSetFpn .unsigned mm mp pgn fpn
  | .setSwap swptyp swpoff => pteSetSwap .unsigned mm mp pgn swptyp swpoff

/-- The device after some calls. -/
def runPte (mm : MmStruct) (pgn : AddrT) (mp : MemphyStruct) (calls : List PteCall) : MemphyStruct :=
  calls.foldl (fun mp c => (c.apply mm pgn mp).2) mp

/-- The value that a call writes over an entry. -/
def PteCall.entry (v : AddrT) : PteCall → AddrT
  | .setFpn fpn            => leafEntry v fpn
  | .setSwap swptyp swpoff => swapEntry v (swptyp.signExtend 64) swpoff

/-- **The page has a table of its own**: it is in frame `g`, and no table on the way to it is. `r` is the frame
    of the PGD. -/
structure OwnTable (mm : MmStruct) (mp : MemphyStruct) (pgn r g : AddrT) : Prop where
  rdm : mp.rdmflg = true
  pgd : mm.pgd = baseOf r
  root : Addressable r
  table : walk (tables .unsigned mp) r (upperPath (pgn <<< 12)) = some g
  apart : ∀ n < 4, walk (tables .unsigned mp) r ((upperPath (pgn <<< 12)).take n) ≠ some g

/-- Where the entry of a page is in its table. -/
def ptIdx (pgn : AddrT) : Fin 512 := levelIdx 12 (pgn <<< 12)

/-- Other tables keep their content. -/
theorem tables_putEntryBytes_of_ne {k : CharKind} {mp : MemphyStruct} (h : mp.rdmflg = true) {f g : AddrT}
    (hf : Addressable f) (hne : g ≠ f) (i : Fin 512) (v : AddrT) :
    tables k (putEntryBytes mp (entryAddr f i) v) g = tables k mp g := by
  funext j
  refine tables_congr h (by rw [rdmflg_putEntryBytes]; exact h) fun hg c hc => ?_
  refine storage_putEntryBytes_of_ne h fun d hd heq => hne ?_
  exact (entryAddr_add_inj hg hf hc hd heq).1

section

variable {mm : MmStruct} {mp : MemphyStruct} {pgn r g : AddrT}

theorem OwnTable.addressable (h : OwnTable mm mp pgn r g) : Addressable g :=
  (walkTables_walk (upperPath (pgn <<< 12)) h.root).2 g h.table

/-- **Writing the entry of the page** does not change the way to it. -/
theorem OwnTable.put (h : OwnTable mm mp pgn r g) (v : AddrT) :
    OwnTable mm (putEntryBytes mp (entryAddr g (ptIdx pgn)) v) pgn r g := by
  have hwalks : ∀ n ≤ 4, walk (tables .unsigned (putEntryBytes mp (entryAddr g (ptIdx pgn)) v)) r
      ((upperPath (pgn <<< 12)).take n) = walk (tables .unsigned mp) r ((upperPath (pgn <<< 12)).take n) := by
    intro n hn
    refine walk_congr _ r fun m hm f hf => congrFun (tables_putEntryBytes_of_ne h.rdm h.addressable ?_ _ v) _
    rintro rfl
    rw [List.length_take] at hm
    rw [List.take_take] at hf
    exact h.apart (min m n) (by omega) hf
  refine ⟨by rw [rdmflg_putEntryBytes]; exact h.rdm, h.pgd, h.root, ?_, ?_⟩
  · rw [← List.take_of_length_le (l := upperPath (pgn <<< 12)) (i := 4) (Nat.le_refl 4), hwalks 4 (Nat.le_refl 4)]
    exact h.table
  · intro n hn
    rw [hwalks n hn.le]
    exact h.apart n hn

/-- The word of the page. -/
theorem OwnTable.pteGetEntry_eq (h : OwnTable mm mp pgn r g) :
    pteGetEntry .unsigned mm mp pgn = (get32bitEntry .unsigned mp (entryAddr g (ptIdx pgn))).setWidth 32 := by
  rw [pteGetEntry_walk h.pgd h.root, h.table]
  rfl

theorem allocTables_of_walk {k : CharKind} {is : List AddrT} : ∀ {base b : AddrT},
    walkTables k mp base is = some b → allocTables k mp base is = (some b, mp) := by
  induction is with
  | nil =>
    intro base b hb
    cases hb
    rfl
  | cons i is ih =>
    intro base b hb
    rw [walkTables] at hb
    rw [allocTables]
    split at hb
    · rename_i hpresent
      rw [if_pos hpresent]
      exact ih hb
    · cases hb

/-- **A call writes the word of the page** and nothing else. -/
theorem OwnTable.apply_eq (h : OwnTable mm mp pgn r g) (c : PteCall) :
    c.apply mm pgn mp = (0, putEntryBytes mp (entryAddr g (ptIdx pgn))
      (c.entry (get32bitEntry .unsigned mp (entryAddr g (ptIdx pgn))))) := by
  have hwalk : walkTables .unsigned mp mm.pgd (getPdFromPagenum pgn).upper = some (baseOf g) := by
    rw [h.pgd, getPdFromPagenum, upper_getPdFromAddress, (walkTables_walk _ h.root).1, h.table]
    rfl
  cases c with
  | setFpn fpn =>
    rw [PteCall.apply, pteSetFpn, allocTables_of_walk hwalk, getPdFromPagenum, pt_getPdFromAddress]
    rfl
  | setSwap swptyp swpoff =>
    rw [PteCall.apply, pteSetSwap, getPteAddress, hwalk, getPdFromPagenum, pt_getPdFromAddress]
    rfl

/-- Any calls keep the table of the page. -/
theorem OwnTable.run (h : OwnTable mm mp pgn r g) (calls : List PteCall) :
    OwnTable mm (runPte mm pgn mp calls) pgn r g := by
  induction calls generalizing mp with
  | nil => exact h
  | cons c calls ih =>
    rw [runPte, List.foldl_cons, h.apply_eq c]
    exact ih (h.put _)

theorem runPte_concat (mm : MmStruct) (pgn : AddrT) (mp : MemphyStruct) (calls : List PteCall) (c : PteCall) :
    runPte mm pgn mp (calls ++ [c]) = (c.apply mm pgn (runPte mm pgn mp calls)).2 := by
  rw [runPte, List.foldl_append]
  rfl

end

/-! ## What the readers make of it -/

/-- The word says what the call has said. -/
def Decodes (pte : BitVec 32) : PteCall → Prop
  | .setFpn fpn =>
    pagingPagePresent pte = true ∧ pte &&& pagingPteSwappedMask = 0 ∧ (pagingFpn pte).setWidth 64 = fpn
  | .setSwap swptyp swpoff =>
    pte &&& pagingPteSwappedMask ≠ 0 ∧ pteSwptyp pte = swptyp ∧ (pagingSwp pte).setWidth 64 = swpoff

/-- Byte `off` of the page. -/
def pageByte (pgn : AddrT) (off : ℕ) : AddrT := pgn <<< 12 + BitVec.ofNat 64 off

/-- `translate_address` or `pg_getpage` returns a frame for the page. -/
def TakenForResident (mm : MmStruct) (mp : MemphyStruct) (pgn : AddrT) : Prop :=
  (∃ off < 4096, (translateAddress .unsigned mm mp (pageByte pgn off)).isSome) ∨
    ∃ (s t : Kernel) (x : ℕ) (p fpn : BitVec 32), s.mm x = some mm ∧ s.mram = mp ∧ p.signExtend 64 = pgn ∧
      s.pgGetpage .unsigned x p = .ok (some fpn, t)

/-- `translate_address` and `pg_getpage` find the page in frame `fpn`. -/
structure FoundIn (mm : MmStruct) (mp : MemphyStruct) (pgn fpn : AddrT) : Prop where
  translate : ∀ off < 4096,
    translateAddress .unsigned mm mp (pageByte pgn off) = some (baseOf fpn + BitVec.ofNat 64 off)
  getpage : ∀ (s : Kernel) (x : ℕ) (p : BitVec 32), s.mm x = some mm → s.mram = mp → p.signExtend 64 = pgn →
    s.pgGetpage .unsigned x p = .ok (some (fpn.setWidth 32), s)

/-- The readers go by what the call has said. -/
def ReadersFollow (mm : MmStruct) (mp : MemphyStruct) (pgn : AddrT) : PteCall → Prop
  | .setFpn fpn  => FoundIn mm mp pgn fpn
  | .setSwap _ _ => ¬ TakenForResident mm mp pgn

/-- Every address of the page has the path of the page. -/
theorem leafPath_pageByte (pgn : AddrT) {off : ℕ} (hoff : off < 4096) :
    leafPath (pageByte pgn off) = leafPath (pgn <<< 12) ∧ pageByte pgn off &&& 0xFFF#64 = BitVec.ofNat 64 off := by
  have hbase : (pgn <<< 12).toNat = 4096 * (pgn.toNat % 2 ^ 52) := by
    rw [BitVec.toNat_shiftLeft, Nat.shiftLeft_eq]
    omega
  have hsum : (pageByte pgn off).toNat = 4096 * (pgn.toNat % 2 ^ 52) + off := by
    rw [pageByte, BitVec.toNat_add, hbase, BitVec.toNat_ofNat]
    omega
  constructor
  · simp only [leafPath, upperPath, levelIdx, hbase, hsum, List.cons_append, List.nil_append, List.cons.injEq,
      Fin.mk.injEq, and_true]
    omega
  · apply BitVec.eq_of_toNat_eq
    have hmask : (0xFFF#64).toNat = 2 ^ 12 - 1 := rfl
    rw [BitVec.toNat_and, hsum, hmask, Nat.and_two_pow_sub_one_eq_mod, BitVec.toNat_ofNat]
    omega

section

variable {mm : MmStruct} {mp : MemphyStruct} {pgn r g : AddrT}

/-- `translate_address` looks at the present bit of the word. -/
theorem OwnTable.translate (h : OwnTable mm mp pgn r g) {off : ℕ} (hoff : off < 4096) :
    translateAddress .unsigned mm mp (pageByte pgn off)
      = if pagingPagePresent (pteGetEntry .unsigned mm mp pgn) = true then
          some (baseOf (entryFpn (get32bitEntry .unsigned mp (entryAddr g (ptIdx pgn)))) + BitVec.ofNat 64 off)
        else none := by
  obtain ⟨hpath, hlow⟩ := leafPath_pageByte pgn hoff
  rw [translateAddress_walk h.pgd h.root, hpath, hlow, leafPath, walk_concat, h.table, Option.bind_some,
    h.pteGetEntry_eq, pagingPagePresent_setWidth]
  show (tables .unsigned mp g (ptIdx pgn)).map _ = _
  by_cases hpresent : entryPresent (get32bitEntry .unsigned mp (entryAddr g (ptIdx pgn))) = true
  · rw [tables_of_present h.addressable hpresent, if_pos hpresent]
    rfl
  · rw [tables_of_absent hpresent, if_neg hpresent]
    rfl

/-- So does `pg_getpage`. -/
theorem pgGetpage_of_present {s : Kernel} {x : ℕ} (hm : s.mm x = some mm) {p : BitVec 32}
    (hpresent : pagingPagePresent (pteGetEntry .unsigned mm s.mram (p.signExtend 64)) = true) :
    s.pgGetpage .unsigned x p
      = .ok (some (pagingFpn (pteGetEntry .unsigned mm s.mram (p.signExtend 64))), s) := by
  rw [Kernel.pgGetpage, Kernel.mmOf_eq_ok.mpr hm]
  show (if _ then _ else _) = _
  rw [if_pos hpresent]

/-- The word after a call. -/
theorem OwnTable.word_apply (h : OwnTable mm mp pgn r g) (c : PteCall) :
    pteGetEntry .unsigned mm (c.apply mm pgn mp).2 pgn
      = (c.entry (get32bitEntry .unsigned mp (entryAddr g (ptIdx pgn)))).setWidth 32 := by
  rw [h.apply_eq c, (h.put _).pteGetEntry_eq, decode_stored h.rdm, setWidth_decode_unsigned]

theorem decodes_entry (v : AddrT) {c : PteCall} (hc : c.InRange) : Decodes ((c.entry v).setWidth 32) c := by
  cases c with
  | setFpn fpn =>
    refine ⟨?_, leafEntry_not_swapped v fpn, pagingFpn_leafEntry v hc⟩
    rw [PteCall.entry, pagingPagePresent_setWidth, entryPresent_eq]
    exact (getLsbD_leafEntry v fpn).1
  | setSwap swptyp swpoff =>
    rw [PteCall.entry, setWidth_swapEntry]
    refine ⟨?_, pteSwptyp_swapWord _ _ _ hc.1, pagingSwp_swapWord _ _ _ hc.2⟩
    rw [swapWord_swapped]
    decide

/-- After either call the present bit is set. -/
theorem present_entry (v : AddrT) (c : PteCall) : pagingPagePresent ((c.entry v).setWidth 32) = true := by
  cases c with
  | setFpn fpn =>
    rw [PteCall.entry, pagingPagePresent_setWidth, entryPresent_eq]
    exact (getLsbD_leafEntry v fpn).1
  | setSwap swptyp swpoff =>
    rw [PteCall.entry, setWidth_swapEntry, pagingPagePresent, swapWord_present]
    decide

/-- After a `pte_set_fpn` the readers find the frame. -/
theorem OwnTable.found (h : OwnTable mm mp pgn r g) {fpn : AddrT} (hfpn : fpn.toNat < 2 ^ 13) :
    FoundIn mm ((PteCall.setFpn fpn).apply mm pgn mp).2 pgn fpn := by
  have hword := h.word_apply (.setFpn fpn)
  have hpresent := present_entry (get32bitEntry .unsigned mp (entryAddr g (ptIdx pgn))) (.setFpn fpn)
  rw [← hword] at hpresent
  have hafter := h.put ((PteCall.setFpn fpn).entry (get32bitEntry .unsigned mp (entryAddr g (ptIdx pgn))))
  rw [h.apply_eq] at hpresent hword ⊢
  constructor
  · intro off hoff
    rw [hafter.translate hoff, if_pos hpresent, decode_stored h.rdm]
    have hbits := getLsbD_leafEntry (get32bitEntry .unsigned mp (entryAddr g (ptIdx pgn))) fpn
    rw [PteCall.entry, (decode_byteOf ⟨hfpn, fun hs => by cases hs⟩ hbits.1 hbits.2).2]
  · intro s x p hm hmram hp
    have hread := pgGetpage_of_present hm (p := p) (by rw [hmram, hp]; exact hpresent)
    rw [hread, hmram, hp, hword]
    have hback := congrArg (BitVec.setWidth 32)
      (pagingFpn_leafEntry (get32bitEntry .unsigned mp (entryAddr g (ptIdx pgn))) hfpn)
    rw [BitVec.setWidth_setWidth_of_le _ (by omega), BitVec.setWidth_eq] at hback
    rw [PteCall.entry, hback]

/-- After a `pte_set_swap` they find one as well. -/
theorem OwnTable.taken (h : OwnTable mm mp pgn r g) (swptyp : BitVec 32) (swpoff : AddrT) :
    TakenForResident mm ((PteCall.setSwap swptyp swpoff).apply mm pgn mp).2 pgn := by
  have hpresent := present_entry (get32bitEntry .unsigned mp (entryAddr g (ptIdx pgn))) (.setSwap swptyp swpoff)
  rw [← h.word_apply] at hpresent
  have hafter := h.put ((PteCall.setSwap swptyp swpoff).entry (get32bitEntry .unsigned mp (entryAddr g (ptIdx pgn))))
  rw [h.apply_eq] at hpresent ⊢
  refine .inl ⟨0, by omega, ?_⟩
  rw [hafter.translate (by omega), if_pos hpresent]
  rfl

end

/-- **The word of a page is that of the last call**, from any content on; the two readers follow it exactly when
    the last call is a `pte_set_fpn`. -/
theorem last_call_decoded {mm : MmStruct} {mp : MemphyStruct} {pgn r g : AddrT} (h : OwnTable mm mp pgn r g)
    (calls : List PteCall) (c : PteCall) (hc : c.InRange) :
    Decodes (pteGetEntry .unsigned mm (runPte mm pgn mp (calls ++ [c])) pgn) c ∧
      (ReadersFollow mm (runPte mm pgn mp (calls ++ [c])) pgn c ↔ c.isFpn = true) := by
  have hrun := h.run calls
  rw [runPte_concat]
  constructor
  · rw [hrun.word_apply c]
    exact decodes_entry _ hc
  · cases c with
    | setFpn fpn => exact ⟨fun _ => rfl, fun _ => hrun.found hc⟩
    | setSwap swptyp swpoff => exact ⟨fun hnot => absurd (hrun.taken swptyp swpoff) hnot, fun hfpn => nomatch hfpn⟩

/-! ## A page of the first process -/

/-- Processes whose tables are owned have such tables. -/
theorem Rooted.ownTable {root : ℕ → Option AddrT} {mm : ℕ → Option MmStruct} {mp : MemphyStruct}
    (h : Rooted .unsigned root mm mp) {p : ℕ} {m : MmStruct} (hm : mm p = some m) {r g pgn : AddrT}
    (hr : root p = some r) (hg : walk (tables .unsigned mp) r (upperPath (pgn <<< 12)) = some g) :
    OwnTable m mp pgn r g := by
  obtain ⟨r', hr', hpgd, hra⟩ := h.root_of hm
  obtain rfl : r = r' := Option.some.inj (hr.symm.trans hr')
  refine ⟨h.rdm, hpgd, hra, hg, fun n hn hf => ?_⟩
  have hlen : ((upperPath (pgn <<< 12)).take n).length = n := List.length_take_of_le hn.le
  -- the two ends of one table would be at different depths
  have hfull : (upperPath (pgn <<< 12)).length < 5 := Nat.lt_succ_self 4
  obtain ⟨-, hpath⟩ := h.forest.inj hr hr (by omega) hfull hf hg
  rw [hpath] at hlen
  exact absurd hlen hn.ne'

/-- The first process, after it has set its page 0. -/
theorem first_page : ∃ m mp g, OwnTable m mp 0 0 g := by
  have hsize : 2 ≤ numfpOf 1048576 ∧ numfpOf 1048576 ≤ 8192 := by decide
  obtain ⟨-, m, mram, -, howned, hlen, hmissing⟩ := first_process hsize.1 hsize.2
  have hm : Function.update (fun _ => none) 0 (some m) 0 = some m := Function.update_self ..
  have hr : Function.update (fun _ => none) 0 (some (0 : AddrT)) 0 = some 0 := Function.update_self ..
  obtain ⟨mp, hset⟩ : ∃ mp, pteSetFpn .unsigned m mram 0 0 = (0, mp) := by
    have hzero := (pteSetFpn_ne_zero_iff howned hm 0 0).not.mpr (by
      rw [hmissing]
      have hframes : (numfpOf 1048576).toNat = 4096 := by decide
      omega)
    exact ⟨_, Prod.ext (not_not.mp hzero) rfl⟩
  obtain ⟨howned', hwalks⟩ := howned.after_pteSetFpn hm (survives_zero .unsigned) hset
  have hleaf := hwalks hr (length_leafPath (0 <<< 12))
  rw [if_pos ⟨rfl, rfl, rfl⟩, leafPath, walk_concat] at hleaf
  cases hg : walk (tables .unsigned mp) 0 (upperPath (0 <<< 12)) with
  | none =>
    rw [hg] at hleaf
    cases hleaf
  | some g => exact ⟨m, mp, g, howned'.ownTable hm hr hg⟩

/-- A page that is swapped out and brought back. -/
theorem last_call_decoded_first : ∃ m mp, FoundIn m (runPte m 0 mp ([.setSwap 1 3] ++ [.setFpn 5])) 0 5 := by
  obtain ⟨m, mp, g, h⟩ := first_page
  exact ⟨m, mp, (last_call_decoded h [.setSwap 1 3] (.setFpn 5) (show 5 < 2 ^ 13 by omega)).2.mpr rfl⟩

/-- **A page that is swapped out** still translates. -/
theorem swapped_page_translates : ¬ ∀ (m : MmStruct) (mp : MemphyStruct) (pgn r g : AddrT) (calls : List PteCall)
    (c : PteCall), OwnTable m mp pgn r g → (∀ d ∈ calls ++ [c], d.InRange) →
      Decodes (pteGetEntry .unsigned m (runPte m pgn mp (calls ++ [c])) pgn) c ∧
        ReadersFollow m (runPte m pgn mp (calls ++ [c])) pgn c := by
  intro hall
  obtain ⟨m, mp, g, h⟩ := first_page
  have hrange : (PteCall.setSwap 1 3).InRange := ⟨show 1 < 32 by omega, show 3 < 2 ^ 21 by omega⟩
  have hfollow := (hall m mp 0 0 g [] (.setSwap 1 3) h (fun d hd => by
    obtain rfl := List.mem_singleton.mp hd
    exact hrange)).2
  exact hfollow (h.taken 1 3)

end LamiaAtrium
