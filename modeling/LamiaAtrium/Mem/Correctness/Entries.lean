import LamiaAtrium.Mem.RunAccess
import LamiaAtrium.Mem.Correctness.Bounds

/-!
# `Mem.Correctness.Entries` — what the entries of a table name

`get_pte_address` follows the entries that are present, and `print_pgtbl` all of them.

* `EntriesInside`: whatever a frame inside the device holds, its entries name frames inside. The functions of `mm64.c`
  keep it so: they write the numbers of frames that were free, and the number 0.
* A write beyond the end of the tables, and a map, keep the tables where they are.
* The accesses of a READ, a WRITE and of `print_pgtbl` are inside then.
-/

namespace LamiaAtrium

open Radix

/-! ## What the entries name -/

/-- **Every entry of a frame inside names a frame inside**, present or not. -/
def EntriesInside (k : CharKind) (mp : MemphyStruct) : Prop := ∀ (f : AddrT) (i : Fin 512), Addressable f →
  FrameInside mp f → FrameInside mp (entryFpn (get32bitEntry k mp (entryAddr f i)))

section

variable {k : CharKind} {root : ℕ → Option AddrT} {mm : ℕ → Option MmStruct} {m : MmStruct} {mp mp' : MemphyStruct}

theorem get32bitEntry_congr (h : mp.rdmflg = true) (h' : mp'.rdmflg = true) {addr : AddrT}
    (hsame : ∀ c < 4, mp'.storage (addr + BitVec.ofNat 64 c) = mp.storage (addr + BitVec.ofNat 64 c)) :
    get32bitEntry k mp' addr = get32bitEntry k mp addr := by
  rw [get32bitEntry_of_rdm h, get32bitEntry_of_rdm h']
  simp only [decodeBytes, hsame 0 (by decide), hsame 1 (by decide), hsame 2 (by decide), hsame 3 (by decide)]

/-- Frame 0 is inside, when any frame is. -/
theorem FrameInside.zero {f : AddrT} (h : FrameInside mp f) : FrameInside mp 0 := by
  have hzero : (0 : AddrT).toNat = 0 := rfl
  unfold FrameInside paging64Pagesz at h ⊢
  rw [hzero]
  omega

/-- A device of the same size, on which each entry is the one before, or names a frame inside. -/
theorem EntriesInside.of_entries (h : EntriesInside k mp) (hsz : mp'.maxsz = mp.maxsz)
    (hentry : ∀ (f : AddrT) (i : Fin 512), Addressable f → FrameInside mp f →
      get32bitEntry k mp' (entryAddr f i) = get32bitEntry k mp (entryAddr f i) ∨
        FrameInside mp (entryFpn (get32bitEntry k mp' (entryAddr f i)))) : EntriesInside k mp' := by
  intro f i hf hin
  replace hin : FrameInside mp f := hin.of_maxsz hsz.symm
  refine FrameInside.of_maxsz ?_ hsz
  rcases hentry f i hf hin with hsame | hnew
  · rw [hsame]
    exact h f i hf hin
  · exact hnew

/-- **Writing an entry** that names a frame inside. -/
theorem EntriesInside.put (h : EntriesInside k mp) (hrdm : mp.rdmflg = true) {f v : AddrT} (i : Fin 512)
    (hf : Addressable f) (hv : FrameInside mp (entryFpn (decodeBytes k (byteOf v)))) :
    EntriesInside k (putEntryBytes mp (entryAddr f i) v) := by
  refine h.of_entries (maxsz_putEntryBytes ..) fun g j hg _ => ?_
  by_cases hgj : g = f ∧ j = i
  · obtain ⟨rfl, rfl⟩ := hgj
    rw [decode_stored hrdm]
    exact .inr hv
  · refine .inl (get32bitEntry_congr hrdm (by rw [rdmflg_putEntryBytes]; exact hrdm) fun c hc => ?_)
    refine storage_putEntryBytes_of_ne hrdm fun d hd heq => hgj ?_
    obtain ⟨rfl, rfl, -⟩ := entryAddr_add_inj hg hf hc hd heq
    exact ⟨rfl, rfl⟩

/-- **The tables on the way** are linked by entries that name them. -/
theorem EntriesInside.allocTables (is : List (Fin 512)) : ∀ {mp : MemphyStruct} {f : AddrT}, EntriesInside k mp →
    mp.rdmflg = true → Addressable f → (∀ x ∈ mp.freeFpList, Survives k x ∧ FrameInside mp x) →
      EntriesInside k (LamiaAtrium.allocTables k mp (baseOf f) (is.map idxOf)).2 ∧
        ∀ b, (LamiaAtrium.allocTables k mp (baseOf f) (is.map idxOf)).1 = some b →
          ∃ g, b = baseOf g ∧ Addressable g := by
  induction is with
  | nil =>
    intro mp f h _ hf _
    refine ⟨h, fun b hb => ⟨f, ?_, hf⟩⟩
    exact (Option.some.inj hb).symm
  | cons i is ih =>
    intro mp f h hrdm hf hfree
    rw [List.map_cons, LamiaAtrium.allocTables, entryAddr_eq]
    by_cases hpresent : entryPresent (get32bitEntry k mp (entryAddr f i)) = true
    · rw [if_pos hpresent, entryBase_eq]
      exact ih h hrdm (addressable_entryFpn _) hfree
    · rw [if_neg hpresent]
      cases hlist : mp.freeFpList with
      | nil =>
        rw [memphyGetFreefp_eq_none.mpr hlist]
        exact ⟨h, fun b hb => absurd hb (by simp)⟩
      | cons g rest =>
        rw [memphyGetFreefp_cons hlist]
        dsimp only
        rw [entryBase_eq]
        obtain ⟨hsurv, hg⟩ := hfree g (by rw [hlist]; exact List.mem_cons_self)
        have hbits := getLsbD_tableEntry hsurv.1
        have hrdm' : ({ mp with freeFpList := rest } : MemphyStruct).rdmflg = true := hrdm
        have hrest : EntriesInside k { mp with freeFpList := rest } :=
          h.of_entries rfl fun _ _ _ _ => .inl (get32bitEntry_congr hrdm hrdm' fun _ _ => rfl)
        refine ih (hrest.put hrdm' i hf ?_) ?_ (addressable_entryFpn _) fun x hx => ?_
        · rw [(decode_byteOf hsurv hbits.1 hbits.2).2]
          exact hg
        · rw [rdmflg_putEntryBytes]
          exact hrdm
        · rw [freeFpList_putEntryBytes] at hx
          obtain ⟨hsurv', hx'⟩ := hfree x (by rw [hlist]; exact List.mem_cons_of_mem g hx)
          exact ⟨hsurv', hx'.of_maxsz (maxsz_putEntryBytes ..)⟩

/-- **`pte_set_fpn`**, which the instructions call for frame 0. -/
theorem EntriesInside.pteSetFpn (h : EntriesInside k mp) (howned : Owned k root mm mp) (hin : Inside k root mp) {p : ℕ}
    (hm : mm p = some m) (pgn : AddrT) : EntriesInside k (LamiaAtrium.pteSetFpn k m mp pgn 0).2 := by
  obtain ⟨r, hr, hpgd, hra⟩ := howned.root_of hm
  have hroot : FrameInside mp r := hin.table hr (by simp) (walk_nil (tables k mp) r)
  have hshape := @allocTables_shape k ((upperPath (pgn <<< 12)).map idxOf) mp (baseOf r)
  obtain ⟨hentries, hbase⟩ := h.allocTables (upperPath (pgn <<< 12)) howned.rdm hra
    fun x hx => ⟨howned.survives x hx, hin.free x hx⟩
  rw [LamiaAtrium.pteSetFpn, hpgd, getPdFromPagenum, upper_getPdFromAddress, pt_getPdFromAddress]
  generalize LamiaAtrium.allocTables k mp (baseOf r) ((upperPath (pgn <<< 12)).map idxOf) = q at hshape hentries hbase ⊢
  obtain ⟨o, mp₁⟩ := q
  cases o with
  | none => exact hentries
  | some ptBase =>
    obtain ⟨g, rfl, hg⟩ := hbase ptBase rfl
    dsimp only at hshape hentries ⊢
    rw [entryAddr_eq]
    have hbits := getLsbD_leafEntry (get32bitEntry k mp₁ (entryAddr g (levelIdx 12 (pgn <<< 12)))) 0
    refine hentries.put (hshape.rdmflg.trans howned.rdm) _ hg ?_
    rw [(decode_byteOf (survives_zero k) hbits.1 hbits.2).2]
    exact hroot.zero.of_maxsz hshape.maxsz

/-- **`init_mm`** leaves a PGD of entries that are zero. -/
theorem EntriesInside.initMm (h : EntriesInside k mp) (howned : Owned k root mm mp) {m₀ : MmStruct}
    {link : List VmRgStruct} {stat : ℤ} (hinit : LamiaAtrium.initMm m₀ mp link = (stat, m, mp')) :
    EntriesInside k mp' := by
  cases hlist : mp.freeFpList with
  | nil =>
    rw [initMm_of_nil m₀ hlist] at hinit
    rw [← (Prod.mk.inj (Prod.mk.inj hinit).2).2]
    exact h
  | cons r rest =>
    rw [LamiaAtrium.initMm, memphyGetFreefp_cons hlist] at hinit
    have hra : Addressable r := howned.free r (by rw [hlist]; exact List.mem_cons_self)
    have hclear : mp' = clearLoop (baseOf r) 0 paging64Pagesz { mp with freeFpList := rest } :=
      (Prod.mk.inj (Prod.mk.inj hinit).2).2.symm
    have hrdm : ({ mp with freeFpList := rest } : MemphyStruct).rdmflg = true := howned.rdm
    have hrdm' : mp'.rdmflg = true := by rw [hclear, rdmflg_clearLoop, hrdm]
    refine h.of_entries (by rw [hclear, maxsz_clearLoop]) fun f i hf hin => ?_
    by_cases hfr : f = r
    · subst hfr
      refine .inr ?_
      rw [get32bitEntry_of_blank hrdm' fun c hc => by rw [hclear, storage_clearLoop_entry hrdm f i hc]]
      exact hin.zero
    · refine .inl (get32bitEntry_congr howned.rdm hrdm' fun c hc => ?_)
      rw [hclear]
      refine storage_clearLoop_of_ne hrdm fun j _ hj heq => hfr ?_
      have hra' : r.toNat < 4503599627370496 := hra
      have hnat := congrArg BitVec.toNat heq
      have hi := i.isLt
      unfold baseOf paging64Pagesz at hnat
      unfold paging64Pagesz at hj
      rw [toNat_entryAddr_add hf i hc] at hnat
      simp only [BitVec.toNat_add, BitVec.toNat_mul, BitVec.toNat_ofNat] at hnat
      exact BitVec.eq_of_toNat_eq (by omega)

/-- **A physical write** beyond the end. -/
theorem EntriesInside.ioWrite_beyond (h : EntriesInside k mp) (hrdm : mp.rdmflg = true) {a : AddrT}
    (ha : mp.maxsz ≤ a.toNat) (b : BYTE) : EntriesInside k (memphyWriteIgn mp a b) := by
  refine h.of_entries (maxsz_memphyWriteIgn ..) fun f i hf hin => .inl ?_
  refine get32bitEntry_congr hrdm (by rw [rdmflg_memphyWriteIgn]; exact hrdm) fun c hc => ?_
  rw [memphyWriteIgn_of_rdm hrdm]
  refine Function.update_of_ne ?_ ..
  rintro rfl
  have hi := i.isLt
  rw [toNat_entryAddr_add hf i hc] at ha
  unfold FrameInside paging64Pagesz at hin
  omega

/-- **`print_pgtbl`** stays inside, whatever it comes to. -/
theorem EntriesInside.printAccess_within (h : EntriesInside k mp) (is : List (Fin 512)) : ∀ {f : AddrT},
    Addressable f → FrameInside mp f → Within mp (printAccess k mp (baseOf f) (is.map idxOf)) := by
  induction is with
  | nil =>
    intro f _ _
    exact within_nil mp
  | cons i is ih =>
    intro f hf hin
    rw [List.map_cons, printAccess, entryAddr_eq, entryBase_eq]
    exact within_append.mpr ⟨hin.entryAccess hf i, ih (addressable_entryFpn _) (h f i hf hin)⟩

end

/-! ## The tables stay where they are -/

section

variable {k : CharKind} {root : ℕ → Option AddrT} {mm mm' : ℕ → Option MmStruct} {m : MmStruct} {mp mp' : MemphyStruct}

/-- The tables are about the PGDs, not about the regions. -/
theorem Owned.of_pgd (h : Owned k root mm mp)
    (hpgd : ∀ p, (mm' p).map MmStruct.pgd = (mm p).map MmStruct.pgd) : Owned k root mm' mp :=
  ⟨⟨h.rdm, h.free, fun p => (hpgd p).trans (h.pgd p), h.roots, h.forest⟩, h.survives, h.fresh⟩

/-- An address beyond the end is in no frame that is inside. -/
theorem FrameInside.ne_of_beyond {f a : AddrT} (h : FrameInside mp f) (ha : mp.maxsz ≤ a.toNat) : f ≠ a >>> 12 := by
  rintro rfl
  unfold FrameInside paging64Pagesz at h
  rw [BitVec.toNat_ushiftRight, Nat.shiftRight_eq_div_pow] at h
  omega

/-- **A physical write beyond the end** of the device that holds the tables changes none of them. -/
theorem Owned.ioWrite_beyond (h : Owned k root mm mp) (hin : Inside k root mp) {a : AddrT} (ha : mp.maxsz ≤ a.toNat)
    (b : BYTE) : Owned k root mm (memphyWriteIgn mp a b) ∧ Inside k root (memphyWriteIgn mp a b) := by
  have hwalk : ∀ {p r js}, root p = some r → js.length ≤ 5 →
      walk (tables k (memphyWriteIgn mp a b)) r js = walk (tables k mp) r js := by
    intro p r js hr hjs
    refine walk_congr js r fun n hn f hf => tables_ioWrite h.rdm a b ?_ _
    refine (hin.table hr ?_ hf).ne_of_beyond ha
    rw [List.length_take]
    omega
  refine ⟨⟨⟨?_, ?_, h.pgd, h.roots, ?_⟩, ?_, ?_⟩, ?_, ?_⟩
  · rw [rdmflg_memphyWriteIgn]
    exact h.rdm
  · rw [freeFpList_memphyWriteIgn]
    exact h.free
  · rw [freeFpList_memphyWriteIgn]
    exact h.forest.congr fun hr his => hwalk hr his.le
  · rw [freeFpList_memphyWriteIgn]
    exact h.survives
  · rw [freeFpList_memphyWriteIgn]
    intro x hx i
    rw [tables_ioWrite h.rdm a b ((hin.free x hx).ne_of_beyond ha)]
    exact h.fresh x hx i
  · rw [freeFpList_memphyWriteIgn]
    exact fun x hx => (hin.free x hx).of_maxsz (maxsz_memphyWriteIgn ..)
  · intro p r js f hr hjs hf
    rw [hwalk hr hjs.le] at hf
    exact (hin.table hr hjs hf).of_maxsz (maxsz_memphyWriteIgn ..)

/-- **A map** keeps the tables inside. -/
theorem Owned.vmapPgdLoop_inside {p : ℕ} (hm : mm p = some m) (n : ℕ) : ∀ {mp : MemphyStruct} {pgn : AddrT},
    Owned k root mm mp → Inside k root mp → EntriesInside k mp →
      Owned k root mm (LamiaAtrium.vmapPgdLoop k m n mp pgn).2 ∧
        Inside k root (LamiaAtrium.vmapPgdLoop k m n mp pgn).2 ∧
        EntriesInside k (LamiaAtrium.vmapPgdLoop k m n mp pgn).2 := by
  induction n with
  | zero =>
    intro mp pgn h hin hentries
    exact ⟨h, hin, hentries⟩
  | succ n ih =>
    intro mp pgn h hin hentries
    obtain ⟨r, hr, hpgd, -⟩ := h.root_of hm
    obtain ⟨-, howned, hin', -⟩ := h.pteSetFpn_inside hin hr hpgd pgn 0
    have hentries' := hentries.pteSetFpn h hin hm pgn
    rw [LamiaAtrium.vmapPgdLoop]
    generalize LamiaAtrium.pteSetFpn k m mp pgn 0 = q at howned hin' hentries' ⊢
    obtain ⟨stat, mp₁⟩ := q
    dsimp only at howned hin' hentries' ⊢
    split
    · exact ⟨howned, hin', hentries'⟩
    · exact ih howned hin' hentries'

/-- **`pte_get_entry`** stays inside. -/
theorem Rooted.pteGetEntryAccess_within (h : Rooted k root mm mp) (hin : Inside k root mp) {p : ℕ} (hm : mm p = some m)
    (pgn : AddrT) : Within mp (pteGetEntryAccess k m mp pgn) := by
  obtain ⟨r, hr, hpgd, hra⟩ := h.root_of hm
  obtain ⟨hwalk, haddr⟩ := @walkTables_walk k mp (upperPath (pgn <<< 12)) r hra
  refine within_append.mpr ⟨h.getPteAccess_within hin hm pgn, ?_⟩
  rw [getPteAddress, hpgd, getPdFromPagenum, upper_getPdFromAddress, hwalk]
  cases hg : walk (tables k mp) r (upperPath (pgn <<< 12)) with
  | none => exact within_nil mp
  | some g =>
    have hshort : (upperPath (pgn <<< 12)).length < 5 := Nat.lt_succ_self 4
    rw [pt_getPdFromAddress]
    exact (hin.table hr hshort hg).entryAccess (haddr g hg) _

/-- **`print_pgtbl`** of a process stays inside. -/
theorem Rooted.printPgtblAccess_within (h : Rooted k root mm mp) (hin : Inside k root mp)
    (hentries : EntriesInside k mp) {p : ℕ} (hm : mm p = some m) (start : AddrT) :
    Within mp (printPgtblAccess k m mp start) := by
  obtain ⟨r, hr, hpgd, hra⟩ := h.root_of hm
  rw [printPgtblAccess, hpgd, upper_getPdFromAddress]
  exact hentries.printAccess_within _ hra (hin.table hr (by simp) (walk_nil (tables k mp) r))

end

end LamiaAtrium
