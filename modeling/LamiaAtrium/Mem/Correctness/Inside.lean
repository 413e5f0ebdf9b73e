import LamiaAtrium.Mem.Access
import LamiaAtrium.Mem.Correctness.PageTable

/-!
# `Mem.Correctness.Inside` — frames and the end of the storage

`MEMPHY_format` cuts a device into frames of `PAGING_PAGESZ` bytes, and `mm64.c` turns a frame number into an
address with `PAGING64_PAGESZ`.

* `FrameInside`: the bytes at these addresses are storage. `Inside`: so it is for the free frames and all tables.
* `allocTables_inside`, `Owned.pteSetFpn_inside` and `Owned.initMm_inside`: the functions touch no other byte, and
  keep it so.
* `accessesInside_of_inside`: frames inside the device make every access of every run stay inside.
* `framesFit_iff`: with the cut of `MEMPHY_format`, no frame list but the empty one is like that.
-/

namespace LamiaAtrium

open Radix

/-- The indices are below `maxsz`. -/
def Within (mp : MemphyStruct) (l : List AddrT) : Prop := ∀ a ∈ l, (a.toNat : ℤ) < mp.maxsz

/-- `fpn * PAGING64_PAGESZ + PAGING64_PAGESZ <= maxsz`. -/
def FrameInside (mp : MemphyStruct) (fpn : AddrT) : Prop :=
  (fpn.toNat : ℤ) * paging64Pagesz + paging64Pagesz ≤ mp.maxsz

/-- **The free frames and the page tables are inside the device.** -/
structure Inside (k : CharKind) (root : ℕ → Option AddrT) (mp : MemphyStruct) : Prop where
  free : ∀ x ∈ mp.freeFpList, FrameInside mp x
  table : ∀ {p r js f}, root p = some r → js.length < 5 → walk (tables k mp) r js = some f → FrameInside mp f

theorem within_append {mp : MemphyStruct} {l l' : List AddrT} :
    Within mp (l ++ l') ↔ Within mp l ∧ Within mp l' := List.forall_mem_append

theorem within_nil (mp : MemphyStruct) : Within mp [] := fun _ ha => absurd ha List.not_mem_nil

section

variable {k : CharKind} {root : ℕ → Option AddrT} {mm : ℕ → Option MmStruct} {m : MmStruct}
  {mp mp' : MemphyStruct}

/-- The bound is all that `Within` reads of a device. -/
theorem Within.of_maxsz {l : List AddrT} (h : Within mp l) (hsz : mp'.maxsz = mp.maxsz) : Within mp' l := by
  intro a ha
  rw [hsz]
  exact h a ha

theorem FrameInside.of_maxsz {x : AddrT} (h : FrameInside mp x) (hsz : mp'.maxsz = mp.maxsz) :
    FrameInside mp' x := by
  rw [FrameInside, hsz]
  exact h

/-- The entries of a frame inside the device are inside. -/
theorem FrameInside.entryAccess {f : AddrT} (h : FrameInside mp f) (hf : Addressable f) (i : Fin 512) :
    Within mp (LamiaAtrium.entryAccess mp (entryAddr f i)) := by
  intro a ha
  obtain ⟨-, c, hc, rfl⟩ := mem_entryAccess.mp ha
  have hi := i.isLt
  have hroom : (f.toNat : ℤ) * paging64Pagesz + paging64Pagesz ≤ mp.maxsz := h
  rw [toNat_entryAddr_add hf i hc]
  unfold paging64Pagesz at hroom
  omega

/-- A free frame that becomes a table was inside before. -/
theorem Inside.link (hin : Inside k root mp) (h : Owned k root mm mp) {p : ℕ} {r f g : AddrT} {rest : List AddrT}
    {pre : List (Fin 512)} {i : Fin 512} (hr : root p = some r) (hlen : pre.length + 1 < 5)
    (hf : walk (tables k mp) r pre = some f) (hT : tables k mp f i = none) (hlist : mp.freeFpList = g :: rest) :
    Inside k root (putEntryBytes { mp with freeFpList := rest } (entryAddr f i) (tableEntry g)) := by
  have hginside : FrameInside mp g := hin.free g (by rw [hlist]; exact List.mem_cons_self)
  obtain ⟨htables, -⟩ := h.link hr hlen hf hT hlist
  have hsz : (putEntryBytes { mp with freeFpList := rest } (entryAddr f i) (tableEntry g)).maxsz = mp.maxsz :=
    maxsz_putEntryBytes ..
  have hlist' : (putEntryBytes { mp with freeFpList := rest } (entryAddr f i) (tableEntry g)).freeFpList = rest :=
    freeFpList_putEntryBytes ..
  have hforest := h.forest
  have hfresh := h.fresh
  rw [hlist] at hforest hfresh
  refine ⟨fun x hx => ?_, fun {q r' js x} hq hjs hx => ?_⟩
  · rw [hlist'] at hx
    exact (hin.free x (by rw [hlist]; exact List.mem_cons_of_mem g hx)).of_maxsz hsz
  · rw [htables] at hx
    rcases hforest.walk_link hfresh hr hq (by omega) hf hT js hjs.le with ⟨-, -, hg⟩ | ⟨-, hsame⟩
    · obtain rfl := Option.some.inj (hg.symm.trans hx)
      exact hginside.of_maxsz hsz
    · rw [hsame] at hx
      exact (hin.table hq hjs hx).of_maxsz hsz

/-- **Levels 1 to 4 of `pte_set_fpn`** stay inside. -/
theorem allocTables_inside {p : ℕ} {r : AddrT} (hr : root p = some r) (is : List (Fin 512)) :
    ∀ {mp : MemphyStruct} {pre : List (Fin 512)} {f : AddrT}, Owned k root mm mp → Inside k root mp →
      walk (tables k mp) r pre = some f → pre.length + is.length + 1 = 5 →
        Within mp (allocAccess k mp (baseOf f) (is.map idxOf)) ∧
          ∃ o mp', allocTables k mp (baseOf f) (is.map idxOf) = (o.map baseOf, mp') ∧ Owned k root mm mp' ∧
            Inside k root mp' ∧ mp'.maxsz = mp.maxsz ∧
            ∀ g, o = some g → walk (tables k mp') r (pre ++ is) = some g := by
  induction is with
  | nil =>
    intro mp pre f h hin hf _
    refine ⟨within_nil mp, some f, mp, rfl, h, hin, rfl, ?_⟩
    rintro g hg
    rw [List.append_nil, hf, hg]
  | cons i is ih =>
    intro mp pre f h hin hf hlen
    rw [List.length_cons] at hlen
    have hfa : Addressable f := (walkTables_walk pre (h.roots hr)).2 f hf
    have hentry := (hin.table hr (by omega) hf).entryAccess hfa i
    have hsplit : pre ++ i :: is = (pre ++ [i]) ++ is := by rw [List.append_assoc, List.singleton_append]
    rw [List.map_cons, allocAccess, allocTables, entryAddr_eq, hsplit]
    by_cases hpresent : entryPresent (get32bitEntry k mp (entryAddr f i)) = true
    · -- the table is there
      have hT := tables_of_present hfa hpresent
      have hg : walk (tables k mp) r (pre ++ [i]) = some (entryFpn (get32bitEntry k mp (entryAddr f i))) := by
        rw [walk_concat, hf, Option.bind_some, hT]
      rw [if_pos hpresent, if_pos hpresent, entryBase_eq]
      obtain ⟨hwithin, hrest⟩ := ih h hin hg (by rw [List.length_append, List.length_singleton]; omega)
      exact ⟨within_append.mpr ⟨hentry, hwithin⟩, hrest⟩
    · have hT := tables_of_absent (f := f) (i := i) hpresent
      rw [if_neg hpresent, if_neg hpresent]
      cases hlist : mp.freeFpList with
      | nil =>
        rw [memphyGetFreefp_eq_none.mpr hlist]
        refine ⟨within_append.mpr ⟨hentry, within_nil mp⟩, none, mp, rfl, h, hin, rfl, ?_⟩
        rintro g hg
        cases hg
      | cons g rest =>
        -- a free frame becomes the table
        rw [memphyGetFreefp_cons hlist]
        have hsurv : Survives k g := h.survives g (by rw [hlist]; exact List.mem_cons_self)
        obtain ⟨htables, howned⟩ := h.link hr (by omega) hf hT hlist
        have hin' := hin.link h hr (by omega) hf hT hlist
        have hsz : (putEntryBytes { mp with freeFpList := rest } (entryAddr f i) (tableEntry g)).maxsz
            = mp.maxsz := maxsz_putEntryBytes ..
        have hforest := h.forest
        have hfresh := h.fresh
        rw [hlist] at hforest hfresh
        have hg := hforest.walk_linked hfresh hr (by omega) hf hT
        rw [← htables] at hg
        obtain ⟨hwithin, o, mp', halloc, howned', hin'', hsz', hend⟩ :=
          ih howned hin' hg (by rw [List.length_append, List.length_singleton]; omega)
        dsimp only
        rw [entryBase_eq, entryFpn_tableEntry hsurv.1]
        refine ⟨?_, o, mp', halloc, howned', hin'', hsz'.trans hsz, hend⟩
        exact within_append.mpr ⟨hentry, within_append.mpr ⟨hentry, hwithin.of_maxsz hsz.symm⟩⟩

/-- **`pte_set_fpn`** stays inside, and keeps the tables inside. -/
theorem Owned.pteSetFpn_inside (h : Owned k root mm mp) (hin : Inside k root mp) {p : ℕ} {r : AddrT}
    (hr : root p = some r) (hpgd : m.pgd = baseOf r) (pgn fpn : AddrT) :
    Within mp (pteSetFpnAccess k m mp pgn) ∧ Owned k root mm (pteSetFpn k m mp pgn fpn).2 ∧
      Inside k root (pteSetFpn k m mp pgn fpn).2 ∧ (pteSetFpn k m mp pgn fpn).2.maxsz = mp.maxsz := by
  obtain ⟨ok, mp', x, hset, hins, -, howned'⟩ := h.pteSetFpn_insert hr hpgd pgn fpn
  obtain ⟨hwithin, o, mp₁, halloc, howned, hin₁, hsz, hend⟩ :=
    allocTables_inside hr (upperPath (pgn <<< 12)) h hin (walk_nil _ r) rfl
  rw [pteSetFpnAccess, hpgd, getPdFromPagenum, upper_getPdFromAddress, halloc]
  rw [hset]
  rw [pteSetFpn, hpgd, getPdFromPagenum, upper_getPdFromAddress, halloc] at hset
  cases o with
  | none =>
    obtain ⟨-, rfl⟩ : -1 = (if ok then (0 : ℤ) else -1) ∧ mp₁ = mp' := by simpa using hset
    exact ⟨within_append.mpr ⟨hwithin, within_nil mp⟩, howned', hin₁, hsz⟩
  | some g =>
    have hg : walk (tables k mp₁) r (upperPath (pgn <<< 12)) = some g := hend g rfl
    have hga : Addressable g := (walkTables_walk _ (h.roots hr)).2 g hg
    have hshort : (upperPath (pgn <<< 12)).length < 5 := Nat.lt_succ_self 4
    have hentry : Within mp (LamiaAtrium.entryAccess mp₁ (entryAddr g (levelIdx 12 (pgn <<< 12)))) :=
      ((hin₁.table hr hshort hg).entryAccess hga _).of_maxsz hsz.symm
    rw [Option.map_some, pt_getPdFromAddress] at hset ⊢
    dsimp only at hset ⊢
    rw [entryAddr_eq] at hset ⊢
    obtain ⟨-, rfl⟩ := Prod.mk.inj hset
    refine ⟨within_append.mpr ⟨hwithin, within_append.mpr ⟨hentry, hentry⟩⟩, howned', ⟨?_, ?_⟩, ?_⟩
    · intro x hx
      rw [freeFpList_putEntryBytes] at hx
      exact (hin₁.free x hx).of_maxsz (maxsz_putEntryBytes ..)
    · -- the leaf is below every table
      intro q r' js x hq hjs hx
      have hbits := getLsbD_leafEntry (get32bitEntry k mp₁ (entryAddr g (levelIdx 12 (pgn <<< 12)))) fpn
      rw [tables_putEntryBytes howned.rdm hga ⟨present_byteOf hbits.1, rfl⟩] at hx
      rcases howned.forest.walk_write (i := levelIdx 12 (pgn <<< 12)) hr hq hshort hg (.inl rfl) js hjs.le with
        ⟨-, hpath, -⟩ | ⟨-, hsame⟩
      · rw [hpath] at hjs
        exact absurd hjs (Nat.lt_irrefl 5)
      · rw [hsame] at hx
        exact (hin₁.table hq hjs hx).of_maxsz (maxsz_putEntryBytes ..)
    · rw [maxsz_putEntryBytes, hsz]

/-- **A descent that only reads** stays inside. -/
theorem Rooted.walkAccess_within (h : Rooted k root mm mp) (hin : Inside k root mp) {p : ℕ} {r : AddrT}
    (hr : root p = some r) (is : List (Fin 512)) : ∀ {pre : List (Fin 512)} {f : AddrT},
      walk (tables k mp) r pre = some f → pre.length + is.length ≤ 5 →
        Within mp (walkAccess k mp (baseOf f) (is.map idxOf)) := by
  induction is with
  | nil =>
    intro pre f _ _
    exact within_nil mp
  | cons i is ih =>
    intro pre f hf hlen
    rw [List.length_cons] at hlen
    have hfa : Addressable f := (walkTables_walk pre (h.roots hr)).2 f hf
    have hentry := (hin.table hr (by omega) hf).entryAccess hfa i
    rw [List.map_cons, walkAccess, entryAddr_eq]
    by_cases hpresent : entryPresent (get32bitEntry k mp (entryAddr f i)) = true
    · have hg : walk (tables k mp) r (pre ++ [i]) = some (entryFpn (get32bitEntry k mp (entryAddr f i))) := by
        rw [walk_concat, hf, Option.bind_some, tables_of_present hfa hpresent]
      rw [if_pos hpresent, entryBase_eq]
      exact within_append.mpr ⟨hentry, ih hg (by rw [List.length_append, List.length_singleton]; omega)⟩
    · rw [if_neg hpresent]
      exact within_append.mpr ⟨hentry, within_nil mp⟩

theorem Rooted.getPteAccess_within (h : Rooted k root mm mp) (hin : Inside k root mp) {p : ℕ}
    (hm : mm p = some m) (pgn : AddrT) : Within mp (getPteAccess k m mp pgn) := by
  obtain ⟨r, hr, hpgd, -⟩ := h.root_of hm
  rw [getPteAccess, hpgd, getPdFromPagenum, upper_getPdFromAddress]
  exact h.walkAccess_within hin hr _ (walk_nil _ r) (Nat.le_succ 4)

theorem Rooted.translateAccess_within (h : Rooted k root mm mp) (hin : Inside k root mp) {p : ℕ}
    (hm : mm p = some m) (vaddr : AddrT) : Within mp (translateAccess k m mp vaddr) := by
  obtain ⟨r, hr, hpgd, hra⟩ := h.root_of hm
  obtain ⟨hwalk, haddr⟩ := @walkTables_walk k mp (upperPath vaddr) r hra
  rw [translateAccess, hpgd, upper_getPdFromAddress, hwalk]
  refine within_append.mpr ⟨h.walkAccess_within hin hr _ (walk_nil _ r) (Nat.le_succ 4), ?_⟩
  cases hg : walk (tables k mp) r (upperPath vaddr) with
  | none => exact within_nil mp
  | some g =>
    have hshort : (upperPath vaddr).length < 5 := Nat.lt_succ_self 4
    rw [Option.map_some, pt_getPdFromAddress]
    exact (hin.table hr hshort hg).entryAccess (haddr g hg) _

/-- **`init_mm`** stays inside. -/
theorem initMmAccess_within (h : ∀ x ∈ mp.freeFpList, FrameInside mp x ∧ Addressable x) :
    Within mp (initMmAccess mp) := by
  unfold initMmAccess
  cases hlist : mp.freeFpList with
  | nil =>
    rw [memphyGetFreefp_eq_none.mpr hlist]
    exact within_nil mp
  | cons fpn rest =>
    rw [memphyGetFreefp_cons hlist]
    obtain ⟨hin, hf⟩ := h fpn (by rw [hlist]; exact List.mem_cons_self)
    have hf' : fpn.toNat < 4503599627370496 := hf
    have hroom : (fpn.toNat : ℤ) * paging64Pagesz + paging64Pagesz ≤ mp.maxsz := hin
    intro a ha
    obtain ⟨i, hi, ha⟩ := List.mem_flatMap.mp ha
    have hi' := List.mem_range.mp hi
    unfold memphyAccess at ha
    split at ha
    · obtain rfl := List.mem_singleton.mp ha
      unfold paging64Pagesz at hroom hi' ⊢
      rw [BitVec.toNat_add, BitVec.toNat_mul, BitVec.toNat_ofNat, BitVec.toNat_ofNat]
      omega
    · cases ha

/-- `init_mm` keeps the size. -/
theorem maxsz_initMm {stat : ℤ} {m₀ : MmStruct} {link : List VmRgStruct}
    (hinit : initMm m₀ mp link = (stat, m, mp')) : mp'.maxsz = mp.maxsz := by
  cases hlist : mp.freeFpList with
  | nil =>
    rw [initMm_of_nil m₀ hlist] at hinit
    rw [← (Prod.mk.inj (Prod.mk.inj hinit).2).2]
  | cons fpn rest =>
    rw [initMm, memphyGetFreefp_cons hlist] at hinit
    rw [← (Prod.mk.inj (Prod.mk.inj hinit).2).2, maxsz_clearLoop]

theorem Owned.initMm_inside (h : Owned k root mm mp) (hin : Inside k root mp) (p : ℕ) {m₀ : MmStruct}
    {link : List VmRgStruct} (hinit : initMm m₀ mp link = (0, m, mp')) :
    ∃ r, Owned k (Function.update root p (some r)) (Function.update mm p (some m)) mp' ∧
      Inside k (Function.update root p (some r)) mp' ∧ mp'.maxsz = mp.maxsz := by
  obtain ⟨r, howned, hlist, hempty, hwalks⟩ := h.after_initMm p hinit
  have hsz : mp'.maxsz = mp.maxsz := maxsz_initMm hinit
  refine ⟨r, howned, ⟨fun x hx => ?_, fun {q r' js x} hq hjs hx => ?_⟩, hsz⟩
  · exact (hin.free x (by rw [hlist]; exact List.mem_cons_of_mem r hx)).of_maxsz hsz
  · by_cases hqp : q = p
    · -- the only table of the new process is its PGD
      subst hqp
      rw [Function.update_self] at hq
      obtain rfl := Option.some.inj hq
      by_cases hnil : js = []
      · subst hnil
        obtain rfl := Option.some.inj hx
        exact (hin.free r (by rw [hlist]; exact List.mem_cons_self)).of_maxsz hsz
      · rw [walk_empty hempty hnil] at hx
        cases hx
    · rw [Function.update_of_ne hqp] at hq
      rw [hwalks hq hjs.le] at hx
      exact (hin.table hq hjs hx).of_maxsz hsz

end

/-! ## Every run on one device -/

/-- The device and the address spaces. -/
structure FrameState where
  mp : MemphyStruct
  mm : ℕ → Option MmStruct

/-- A call of `init_mm` or `pte_set_fpn`. -/
inductive FrameEvent where
  | init (p : ℕ)
  | set (p : ℕ) (pgn fpn : AddrT)

/-- One call. A process that `init_mm` has failed for is not set up. -/
inductive FrameStep (k : CharKind) : FrameState → FrameEvent → FrameState → Prop where
  | init {s p m₀ m link mp} : s.mm p = none → initMm m₀ s.mp link = (0, m, mp) →
      FrameStep k s (.init p) ⟨mp, Function.update s.mm p (some m)⟩
  | initFails {s p m₀ m link mp} {stat : ℤ} : s.mm p = none → initMm m₀ s.mp link = (stat, m, mp) →
      stat ≠ 0 → FrameStep k s (.init p) ⟨mp, s.mm⟩
  | set {s p m} {pgn fpn : AddrT} : s.mm p = some m →
      FrameStep k s (.set p pgn fpn) ⟨(pteSetFpn k m s.mp pgn fpn).2, s.mm⟩

/-- The runs on a device. -/
def frameSystem (k : CharKind) (mp : MemphyStruct) : Lts.System FrameState FrameEvent where
  init s := s = ⟨mp, fun _ => none⟩
  step := FrameStep k

/-- **Whatever is called next stays inside the device**: `init_mm` for a new process, and `pte_set_fpn`,
    `get_pte_address` and `translate_address` for those that there are. -/
def AccessesInside (k : CharKind) (s : FrameState) : Prop :=
  Within s.mp (initMmAccess s.mp) ∧ ∀ p m, s.mm p = some m →
    (∀ pgn, Within s.mp (pteSetFpnAccess k m s.mp pgn)) ∧ (∀ pgn, Within s.mp (getPteAccess k m s.mp pgn)) ∧
      ∀ vaddr, Within s.mp (translateAccess k m s.mp vaddr)

section

variable {k : CharKind} {mp : MemphyStruct} {s t : FrameState} {e : FrameEvent}

/-- The invariant: the tables are owned, and inside. -/
def FrameInv (k : CharKind) (s : FrameState) : Prop := ∃ root, Owned k root s.mm s.mp ∧ Inside k root s.mp

theorem frameInv_step (h : FrameInv k s) (hst : FrameStep k s e t) : FrameInv k t := by
  obtain ⟨root, howned, hin⟩ := h
  cases hst with
  | @init p m₀ m link mp hp hinit =>
    obtain ⟨r, howned', hin', -⟩ := howned.initMm_inside hin p hinit
    exact ⟨_, howned', hin'⟩
  | @initFails p m₀ m link mp stat hp hinit hstat =>
    obtain ⟨-, -, rfl⟩ := initMm_failed hinit hstat
    exact ⟨root, howned, hin⟩
  | @set p m pgn fpn hm =>
    obtain ⟨r, hr, hpgd, -⟩ := howned.root_of hm
    obtain ⟨-, howned', hin', -⟩ := howned.pteSetFpn_inside hin hr hpgd pgn fpn
    exact ⟨root, howned', hin'⟩

theorem FrameInv.accessesInside (h : FrameInv k s) : AccessesInside k s := by
  obtain ⟨root, howned, hin⟩ := h
  refine ⟨initMmAccess_within fun x hx => ⟨hin.free x hx, howned.free x hx⟩, fun p m hm => ⟨?_, ?_, ?_⟩⟩
  · intro pgn
    obtain ⟨r, hr, hpgd, -⟩ := howned.root_of hm
    exact (howned.pteSetFpn_inside hin hr hpgd pgn 0).1
  · exact howned.getPteAccess_within hin hm
  · exact howned.translateAccess_within hin hm

/-- **Frames inside the device keep every run inside.** -/
theorem accessesInside_of_inside (howned : Owned k (fun _ => none) (fun _ => none) mp)
    (hin : ∀ x ∈ mp.freeFpList, FrameInside mp x) (hs : (frameSystem k mp).Reachable s) :
    AccessesInside k s := by
  apply FrameInv.accessesInside
  induction hs with
  | init hinit =>
    obtain rfl := hinit
    exact ⟨_, howned, hin, fun hp => absurd hp (by simp)⟩
  | step _ hst ih => exact frameInv_step ih hst

end

/-! ## The cut of `MEMPHY_format` -/

section

variable (k : CharKind) (mp₀ : MemphyStruct) (block : AddrT → BYTE) (link : List AddrT) (maxSize : AddrT)
  (randomflg : ℤ)

/-- **The frames of a fresh device are inside it**, and so is every access of every run. -/
def FramesFit : Prop :=
  (∀ fpn ∈ (initMemphy mp₀ block link maxSize randomflg).freeFpList,
      FrameInside (initMemphy mp₀ block link maxSize randomflg) fpn) ∧
    ∀ s, (frameSystem k (initMemphy mp₀ block link maxSize randomflg)).Reachable s → AccessesInside k s

variable {mp₀}

/-- The part of a device that is left over is smaller than a frame of `PAGING_PAGESZ`. -/
theorem maxsz_lt (maxSize : AddrT) : (maxSize.setWidth 32 : BitVec 32).toInt < (numfpOf maxSize + 1) * 256 :=
  Int.lt_tdiv_add_one_mul_self _ (by decide)

/-- The last frame that `MEMPHY_format` makes is outside. -/
theorem last_frame (h : 0 < numfpOf maxSize) :
    ∃ fpn ∈ (initMemphy mp₀ block link maxSize randomflg).freeFpList,
      ¬ FrameInside (initMemphy mp₀ block link maxSize randomflg) fpn := by
  have hlt := numfpOf_lt maxSize
  have hmem : BitVec.ofNat 64 ((numfpOf maxSize).toNat - 1)
      ∈ (initMemphy mp₀ block link maxSize randomflg).freeFpList := by
    rw [initMemphy_freeFpList, if_neg (by omega)]
    by_cases hone : numfpOf maxSize = 1
    · rw [if_pos hone, hone]
      exact List.mem_cons_self
    · rw [if_neg hone]
      exact List.mem_map_of_mem (List.mem_range.mpr (by omega))
  refine ⟨_, hmem, ?_⟩
  have hsize := maxsz_lt maxSize
  have hmul : (numfpOf maxSize + 1) * 256 ≤ numfpOf maxSize * 4096 := by omega
  rw [FrameInside, initMemphy_maxsz, BitVec.toNat_ofNat, Nat.mod_eq_of_lt (by omega)]
  unfold paging64Pagesz
  omega

/-- **When the frames fit**: the device has none. -/
theorem framesFit_iff :
    FramesFit k mp₀ block link maxSize randomflg ↔ numfpOf maxSize ≤ 0 ∧ mp₀.freeFpList = [] := by
  constructor
  · rintro ⟨hframes, -⟩
    have hnone : numfpOf maxSize ≤ 0 := by
      by_contra hpos
      obtain ⟨fpn, hmem, hout⟩ := @last_frame mp₀ block link maxSize randomflg (not_le.mp hpos)
      exact hout (hframes fpn hmem)
    refine ⟨hnone, ?_⟩
    rw [initMemphy_freeFpList, if_pos hnone] at hframes
    rw [List.eq_nil_iff_forall_not_mem]
    intro fpn hmem
    have hroom := hframes fpn hmem
    have hsmall := maxsz_lt maxSize
    have hzero : (numfpOf maxSize + 1) * 256 ≤ 256 := by omega
    rw [FrameInside, initMemphy_maxsz] at hroom
    unfold paging64Pagesz at hroom
    omega
  · rintro ⟨hnone, hnil⟩
    have hlist : (initMemphy mp₀ block link maxSize randomflg).freeFpList = [] := by
      rw [initMemphy_freeFpList, if_pos hnone, hnil]
    refine ⟨fun fpn hmem => ?_, fun s hs => ?_⟩
    · rw [hlist] at hmem
      cases hmem
    -- no process is ever set up
    have hinv : s.mp.freeFpList = [] ∧ ∀ p, s.mm p = none := by
      induction hs with
      | init hinit =>
        obtain rfl := hinit
        exact ⟨hlist, fun _ => rfl⟩
      | step _ hst ih =>
        cases hst with
        | @init p m₀ m link mp hp hinit =>
          rw [initMm_of_nil m₀ ih.1] at hinit
          cases (Prod.mk.inj hinit).1
        | @initFails p m₀ m link mp stat hp hinit hstat =>
          obtain ⟨-, -, rfl⟩ := initMm_failed hinit hstat
          exact ih
        | @set p m pgn fpn hm =>
          rw [ih.2 p] at hm
          cases hm
    refine ⟨?_, fun p m hm => ?_⟩
    · rw [initMmAccess, memphyGetFreefp_eq_none.mpr hinv.1]
      exact within_nil _
    · rw [hinv.2 p] at hm
      cases hm

end

/-- **The RAM device of 1 MiB** gets 4096 frames, of which the first 256 are inside. -/
theorem framesFit_fails : ¬ ∀ (k : CharKind) (mp₀ : MemphyStruct) (block : AddrT → BYTE) (link : List AddrT)
    (maxSize : AddrT) (randomflg : ℤ), FramesFit k mp₀ block link maxSize randomflg := by
  intro hall
  have hfit := hall .unsigned rawMp (fun _ => 0) [] 1048576 1
  rw [framesFit_iff] at hfit
  exact absurd hfit.1 (by decide)

end LamiaAtrium
