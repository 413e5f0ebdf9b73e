import LamiaAtrium.Lib.Lts
import LamiaAtrium.Mem.Tables

/-!
# `Mem.Correctness.PageTable` — the page tables of all processes are a finite map

Processes are set up with `init_mm` and pages set with `pte_set_fpn`, in any order, on one RAM device.

* `Rooted`: the tables of the processes are a forest in the device. `Owned`: besides, the free frames are
  blank. `Rooted.after_initMm`, `Owned.after_initMm` and `Owned.after_pteSetFpn` say what the calls do to it.
* `mapSystem` is the system, with the log of the successful calls as a history; `lastFpn` is its abstract
  meaning.
* `page_tables_are_a_map`: every address translates to the frame last set for its page.
* `Formatted`: the devices whose free list `MEMPHY_format` leaves in a defined state.
-/

namespace LamiaAtrium

open Radix

/-! ## Ownership -/

/-- **Every table belongs to one process.** `root p` is the frame of the PGD of process `p`. -/
structure Rooted (k : CharKind) (root : ℕ → Option AddrT) (mm : ℕ → Option MmStruct) (mp : MemphyStruct) :
    Prop where
  rdm : mp.rdmflg = true
  free : ∀ x ∈ mp.freeFpList, Addressable x
  pgd : ∀ p, (mm p).map MmStruct.pgd = (root p).map baseOf
  roots : ∀ {p r}, root p = some r → Addressable r
  forest : Forest 5 root (tables k mp) mp.freeFpList

/-- **The free frames are blank tables**, and their numbers survive an entry. -/
structure Owned (k : CharKind) (root : ℕ → Option AddrT) (mm : ℕ → Option MmStruct) (mp : MemphyStruct) : Prop
    extends Rooted k root mm mp where
  survives : ∀ x ∈ mp.freeFpList, Survives k x
  fresh : Fresh (tables k mp) mp.freeFpList

section

variable {k : CharKind} {root : ℕ → Option AddrT} {mm : ℕ → Option MmStruct} {mp : MemphyStruct}

theorem Rooted.root_of (h : Rooted k root mm mp) {p : ℕ} {m : MmStruct} (hm : mm p = some m) :
    ∃ r, root p = some r ∧ m.pgd = baseOf r ∧ Addressable r := by
  have hpgd := h.pgd p
  rw [hm] at hpgd
  obtain ⟨r, hr, hbase⟩ := Option.map_eq_some_iff.mp hpgd.symm
  exact ⟨r, hr, hbase.symm, h.roots hr⟩

theorem Rooted.mm_of (h : Rooted k root mm mp) {p : ℕ} {r : AddrT} (hr : root p = some r) :
    ∃ m, mm p = some m ∧ m.pgd = baseOf r := by
  have hpgd := h.pgd p
  rw [hr] at hpgd
  exact Option.map_eq_some_iff.mp hpgd

/-- A device of distinct frames, before there is any process. -/
theorem rooted_start (hrdm : mp.rdmflg = true) (haddr : ∀ x ∈ mp.freeFpList, Addressable x)
    (hnodup : mp.freeFpList.Nodup) : Rooted k (fun _ => none) (fun _ => none) mp where
  rdm := hrdm
  free := haddr
  pgd _ := rfl
  roots h := absurd h (by simp)
  forest := ⟨fun h => absurd h (by simp), fun h => absurd h (by simp), hnodup⟩

/-- Frames of zero bytes are blank tables. -/
theorem Rooted.owned_of_blank (h : Rooted k root mm mp) (hsurv : ∀ x ∈ mp.freeFpList, Survives k x)
    (hblank : ∀ x ∈ mp.freeFpList, ∀ a : AddrT, a.toNat / 4096 = x.toNat → mp.storage a = 0) :
    Owned k root mm mp where
  toRooted := h
  survives := hsurv
  fresh x hx i := by
    apply tables_of_blank h.rdm
    intro c hc
    apply hblank x hx
    rw [toNat_entryAddr_add (hsurv x hx).addressable i hc]
    have hi := i.isLt
    omega

/-- Frames that leave the free list take no table with them. -/
theorem Rooted.sublist (h : Rooted k root mm mp) {l : List AddrT} (hsub : List.Sublist l mp.freeFpList) :
    Rooted k root mm { mp with freeFpList := l } where
  rdm := h.rdm
  free x hx := h.free x (hsub.subset hx)
  pgd := h.pgd
  roots := h.roots
  forest := by
    rw [tables_freeFpList h.rdm]
    exact h.forest.sublist hsub

theorem Owned.sublist (h : Owned k root mm mp) {l : List AddrT} (hsub : List.Sublist l mp.freeFpList) :
    Owned k root mm { mp with freeFpList := l } := by
  refine ⟨h.toRooted.sublist hsub, fun x hx => h.survives x (hsub.subset hx), ?_⟩
  rw [tables_freeFpList h.rdm]
  exact fun x hx => h.fresh x (hsub.subset hx)

/-- An address space that keeps its PGD keeps its tables. -/
theorem Owned.setMm (h : Owned k root mm mp) {p : ℕ} {m m' : MmStruct} (hm : mm p = some m) (hpgd : m'.pgd = m.pgd) :
    Owned k root (Function.update mm p (some m')) mp := by
  refine ⟨⟨h.rdm, h.free, ?_, h.roots, h.forest⟩, h.survives, h.fresh⟩
  intro q
  by_cases hqp : q = p
  · subst hqp
    rw [Function.update_self, Option.map_some, hpgd, ← h.pgd q, hm]
    rfl
  · rw [Function.update_of_ne hqp]
    exact h.pgd q

/-- **`init_mm` plants a tree**: the new process has no page, every other one keeps its pages, and no other
    table changes. -/
theorem Rooted.after_initMm (h : Rooted k root mm mp) (p : ℕ) {m₀ m : MmStruct} {link : List VmRgStruct}
    {mp' : MemphyStruct} (hinit : initMm m₀ mp link = (0, m, mp')) :
    ∃ r, Rooted k (Function.update root p (some r)) (Function.update mm p (some m)) mp' ∧
      mp.freeFpList = r :: mp'.freeFpList ∧ (∀ i, tables k mp' r i = none) ∧
      (∀ g, g ≠ r → tables k mp' g = tables k mp g) ∧
      ∀ {q r' is}, root q = some r' → is.length ≤ 5 →
        walk (tables k mp') r' is = walk (tables k mp) r' is := by
  rcases initMm_cases m₀ h.rdm link with ⟨-, hfail⟩ | ⟨fpn, m', mp₁, hok, hpgd, hlist, hrdm, hclear⟩
  · rw [hfail] at hinit
    exact absurd (congrArg Prod.fst hinit) (by simp)
  · obtain ⟨rfl, rfl⟩ : m' = m ∧ mp₁ = mp' := by simpa [hok] using hinit
    have haddr := h.free fpn (by rw [hlist]; exact List.mem_cons_self)
    obtain ⟨hempty, hothers⟩ := hclear haddr
    obtain ⟨hforest, hwalks⟩ := Forest.plant (hlist ▸ h.forest) hempty hothers p
    refine ⟨fpn, ⟨hrdm, ?_, ?_, ?_, hforest⟩, hlist, hempty, hothers, hwalks⟩
    · intro x hx
      exact h.free x (by rw [hlist]; exact List.mem_cons_of_mem fpn hx)
    · intro q
      by_cases hqp : q = p
      · subst hqp
        rw [Function.update_self, Function.update_self, Option.map_some, hpgd]
        rfl
      · rw [Function.update_of_ne hqp, Function.update_of_ne hqp]
        exact h.pgd q
    · intro q r hq
      by_cases hqp : q = p
      · subst hqp
        rw [Function.update_self] at hq
        obtain rfl := Option.some.inj hq
        exact haddr
      · rw [Function.update_of_ne hqp] at hq
        exact h.roots hq

/-- `init_mm` keeps the free frames blank. -/
theorem Owned.after_initMm (h : Owned k root mm mp) (p : ℕ) {m₀ m : MmStruct} {link : List VmRgStruct}
    {mp' : MemphyStruct} (hinit : initMm m₀ mp link = (0, m, mp')) :
    ∃ r, Owned k (Function.update root p (some r)) (Function.update mm p (some m)) mp' ∧
      mp.freeFpList = r :: mp'.freeFpList ∧ (∀ i, tables k mp' r i = none) ∧
      ∀ {q r' is}, root q = some r' → is.length ≤ 5 →
        walk (tables k mp') r' is = walk (tables k mp) r' is := by
  obtain ⟨r, hrooted, hlist, hempty, hothers, hwalks⟩ := h.toRooted.after_initMm p hinit
  have hnodup := h.forest.nodup
  rw [hlist, List.nodup_cons] at hnodup
  refine ⟨r, ⟨hrooted, ?_, ?_⟩, hlist, hempty, hwalks⟩
  · intro x hx
    exact h.survives x (by rw [hlist]; exact List.mem_cons_of_mem r hx)
  · intro x hx i
    rw [hothers x (by rintro rfl; exact hnodup.1 hx)]
    exact h.fresh x (by rw [hlist]; exact List.mem_cons_of_mem r hx) i

/-- A new address space has no page. -/
theorem Rooted.absent_after_initMm (h : Rooted k root mm mp) {m₀ m : MmStruct} {link : List VmRgStruct}
    {mp' : MemphyStruct} (hinit : initMm m₀ mp link = (0, m, mp')) (pgn : AddrT) :
    pagingPagePresent (pteGetEntry k m mp' pgn) = false := by
  obtain ⟨r, hrooted, -, hempty, -⟩ := h.after_initMm 0 hinit
  obtain ⟨r', hr', hpgd, hra⟩ := hrooted.root_of (p := 0) (Function.update_self ..)
  rw [Function.update_self] at hr'
  obtain rfl := Option.some.inj hr'
  rw [pteGetEntry_present hpgd hra, walk_empty hempty (by simp [leafPath])]
  rfl

/-- **Linking a free frame as a table** keeps the free frames blank. -/
theorem Owned.link (h : Owned k root mm mp) {p : ℕ} {r f g : AddrT} {rest : List AddrT} {pre : List (Fin 512)}
    {i : Fin 512} (hr : root p = some r) (hlen : pre.length + 1 < 5) (hf : walk (tables k mp) r pre = some f)
    (hnone : tables k mp f i = none) (hlist : mp.freeFpList = g :: rest) :
    tables k (putEntryBytes { mp with freeFpList := rest } (entryAddr f i) (tableEntry g))
        = write (tables k mp) f i g ∧
      Owned k root mm (putEntryBytes { mp with freeFpList := rest } (entryAddr f i) (tableEntry g)) := by
  have hg : Survives k g := h.survives g (by rw [hlist]; exact List.mem_cons_self)
  have hfa : Addressable f := (walkTables_walk pre (h.roots hr)).2 f hf
  have hbits := getLsbD_tableEntry hg.1
  have hrdm : ({ mp with freeFpList := rest } : MemphyStruct).rdmflg = true := h.rdm
  have htables : tables k (putEntryBytes { mp with freeFpList := rest } (entryAddr f i) (tableEntry g))
      = write (tables k mp) f i g := by
    rw [tables_putEntryBytes hrdm hfa (decode_byteOf hg hbits.1 hbits.2), tables_freeFpList h.rdm]
  have hforest := h.forest
  have hfresh := h.fresh
  rw [hlist] at hforest hfresh
  obtain ⟨hforest', hfresh'⟩ := hforest.link hfresh hr hlen hf hnone
  have hsurv : ∀ x ∈ rest, Survives k x := fun x hx => h.survives x (by rw [hlist]; exact List.mem_cons_of_mem g hx)
  refine ⟨htables, ⟨⟨?_, ?_, h.pgd, h.roots, ?_⟩, ?_, ?_⟩⟩
  · rw [rdmflg_putEntryBytes]
    exact hrdm
  · rw [freeFpList_putEntryBytes]
    exact fun x hx => (hsurv x hx).addressable
  · rw [freeFpList_putEntryBytes, htables]
    exact hforest'
  · rw [freeFpList_putEntryBytes]
    exact hsurv
  · rw [freeFpList_putEntryBytes, htables]
    exact hfresh'

theorem Owned.survives_take (h : Owned k root mm mp) (n : ℕ) : ∀ f ∈ mp.freeFpList.take n, Survives k f :=
  fun f hf => h.survives f (List.mem_of_mem_take hf)

/-- **`pte_set_fpn` is an insertion**, and keeps the free frames blank. -/
theorem Owned.pteSetFpn_insert (h : Owned k root mm mp) {p : ℕ} {m : MmStruct} {r : AddrT} (hr : root p = some r)
    (hpgd : m.pgd = baseOf r) (pgn fpn : AddrT) :
    ∃ ok mp' x, pteSetFpn k m mp pgn fpn = (if ok then 0 else -1, mp') ∧
      Radix.insert (tables k mp) mp.freeFpList r (upperPath (pgn <<< 12)) (levelIdx 12 (pgn <<< 12)) x
        = (ok, tables k mp', mp'.freeFpList) ∧
      (Survives k fpn → x = fpn) ∧ Owned k root mm mp' := by
  obtain ⟨ok, mp', x, hset, hins, hx, hrdm, hsub⟩ := LamiaAtrium.pteSetFpn_insert pgn fpn hpgd (h.roots hr) h.rdm
    (h.survives_take _)
  obtain ⟨hforest, hfresh, -⟩ := insert_spec h.forest h.fresh hr rfl hins
  have hsurv : ∀ x ∈ mp'.freeFpList, Survives k x := fun x hx => h.survives x (hsub x hx)
  exact ⟨ok, mp', x, hset, hins, hx,
    ⟨hrdm, fun x hx => (hsurv x hx).addressable, h.pgd, h.roots, hforest⟩, hsurv, hfresh⟩

/-- **`pte_set_fpn` sets one page of one process** when it returns 0, and none otherwise. -/
theorem Owned.after_pteSetFpn (h : Owned k root mm mp) {p : ℕ} {m : MmStruct} (hm : mm p = some m)
    {pgn fpn : AddrT} (hfpn : Survives k fpn) {stat : ℤ} {mp' : MemphyStruct}
    (hset : pteSetFpn k m mp pgn fpn = (stat, mp')) :
    Owned k root mm mp' ∧
      ∀ {q r is}, root q = some r → is.length = 5 →
        walk (tables k mp') r is
          = if stat = 0 ∧ q = p ∧ is = leafPath (pgn <<< 12) then some fpn else walk (tables k mp) r is := by
  obtain ⟨r, hr, hpgd, -⟩ := h.root_of hm
  obtain ⟨ok, mp₁, x, hstat, hins, hx, howned⟩ := h.pteSetFpn_insert hr hpgd pgn fpn
  obtain rfl := hx hfpn
  obtain ⟨rfl, rfl⟩ : (if ok then 0 else -1) = stat ∧ mp₁ = mp' := by simpa [hstat] using hset
  obtain ⟨-, -, hwalks⟩ := insert_spec h.forest h.fresh hr rfl hins
  refine ⟨howned, ?_⟩
  intro q r' is hq his
  rw [hwalks hq his]
  cases ok <;> simp [leafPath]

/-- A process finds a frame for its PGD as long as one is free. -/
theorem Owned.initMm_succeeds (h : Owned k root mm mp) (p : ℕ) (hne : mp.freeFpList ≠ []) (m₀ : MmStruct)
    (link : List VmRgStruct) :
    ∃ m mp' r, initMm m₀ mp link = (0, m, mp') ∧
      Owned k (Function.update root p (some r)) (Function.update mm p (some m)) mp' ∧
      mp'.freeFpList.length + 1 = mp.freeFpList.length := by
  cases hinit : initMm m₀ mp link with
  | mk stat rest =>
    obtain ⟨m, mp'⟩ := rest
    obtain rfl := initMm_stat hinit hne
    obtain ⟨r, howned, hlist, -⟩ := h.after_initMm p hinit
    exact ⟨m, mp', r, rfl, howned, by rw [hlist, List.length_cons]⟩

/-- A page finds frames for its tables as long as four are free. -/
theorem Owned.pteSetFpn_succeeds (h : Owned k root mm mp) {p : ℕ} {m : MmStruct} (hm : mm p = some m)
    (pgn fpn : AddrT) (hfree : 4 ≤ mp.freeFpList.length) :
    ∃ mp', pteSetFpn k m mp pgn fpn = (0, mp') ∧ Owned k root mm mp' ∧
      mp.freeFpList.length ≤ mp'.freeFpList.length + 4 := by
  obtain ⟨r, hr, hpgd, -⟩ := h.root_of hm
  obtain ⟨ok, mp', x, hset, hins, -, howned⟩ := h.pteSetFpn_insert hr hpgd pgn fpn
  obtain ⟨hfew, htaken⟩ := insert_length h.forest h.fresh hr rfl hins
  have hfour : missing (tables k mp) r (upperPath (pgn <<< 12)) ≤ 4 := missing_le _ _ r
  cases ok with
  | false =>
    have := hfew rfl
    omega
  | true =>
    have := htaken rfl
    exact ⟨mp', hset, howned, by omega⟩

end

/-! ## A device that `init_memphy` has set up -/

section

variable (mp₀ : MemphyStruct) (block : AddrT → BYTE) (link : List AddrT) (maxSize : AddrT) (randomflg : ℤ)

/-- The storage array covers the addresses of all its frames, and is zero there, as `init_memphy` leaves it. -/
def Covered : Prop := ∀ a, maxSize ≤ a → a.toNat < (numfpOf maxSize).toNat * 4096 → block a = 0

/-- **Where `MEMPHY_format` leaves a defined list**: it cuts the device into two frames at least, or the
    pointer that it does not set happens to be `NULL`. -/
def Formatted : Prop :=
  2 ≤ numfpOf maxSize ∨ (numfpOf maxSize = 1 ∧ link = []) ∨ (numfpOf maxSize ≤ 0 ∧ mp₀.freeFpList = [])

variable {mp₀ link maxSize}

/-- A size is an `int`. -/
theorem numfpOf_lt (maxSize : AddrT) : numfpOf maxSize < 2 ^ 31 := by
  have hlt := BitVec.toInt_lt (x := (maxSize.setWidth 32 : BitVec 32))
  unfold numfpOf
  rcases le_total 0 (maxSize.setWidth 32 : BitVec 32).toInt with hpos | hneg
  · exact (Int.tdiv_le_self _ hpos).trans_lt hlt
  · have hle := Int.tdiv_nonneg (neg_nonneg.mpr hneg) (Int.natCast_nonneg pagingPagesz)
    rw [Int.neg_tdiv] at hle
    exact (neg_nonneg.mp hle).trans_lt (by decide)

/-- The numbers of the frames are the addresses below `numfp`. -/
theorem mem_frameNumbers {maxSize x : AddrT} :
    x ∈ (List.range (numfpOf maxSize).toNat).map (BitVec.ofNat 64) ↔ (x.toNat : ℤ) < numfpOf maxSize := by
  have hsmall := numfpOf_lt maxSize
  rw [List.mem_map]
  constructor
  · rintro ⟨i, hi, rfl⟩
    rw [List.mem_range] at hi
    rw [BitVec.toNat_ofNat]
    omega
  · intro h
    refine ⟨x.toNat, List.mem_range.mpr (by omega), ?_⟩
    rw [BitVec.ofNat_toNat, BitVec.setWidth_eq]

theorem nodup_frameNumbers (maxSize : AddrT) :
    ((List.range (numfpOf maxSize).toNat).map (BitVec.ofNat 64)).Nodup := by
  have hsmall := numfpOf_lt maxSize
  refine List.Nodup.map_on ?_ List.nodup_range
  intro i hi j hj heq
  rw [List.mem_range] at hi hj
  have hnat := congrArg BitVec.toNat heq
  rw [BitVec.toNat_ofNat, BitVec.toNat_ofNat] at hnat
  omega

theorem freeFpList_of_formatted (h : Formatted mp₀ link maxSize) :
    (initMemphy mp₀ block link maxSize randomflg).freeFpList
      = (List.range (numfpOf maxSize).toNat).map (BitVec.ofNat 64) := by
  rw [initMemphy_freeFpList]
  rcases h with htwo | ⟨hone, rfl⟩ | ⟨hnone, hlist⟩
  · rw [if_neg (by omega), if_neg (by omega)]
  · rw [hone]
    simp
  · rw [if_pos hnone, hlist, Int.toNat_of_nonpos hnone]
    rfl

variable {block randomflg}

/-- **The device starts out owned by nobody.** -/
theorem rooted_initMemphy {k : CharKind} (block : AddrT → BYTE) (hr : randomflg ≠ 0) (h : Formatted mp₀ link maxSize) :
    Rooted k (fun _ => none) (fun _ => none) (initMemphy mp₀ block link maxSize randomflg) ∧
      ∀ x ∈ (initMemphy mp₀ block link maxSize randomflg).freeFpList, x.toNat < (numfpOf maxSize).toNat := by
  have hlist := freeFpList_of_formatted block randomflg h
  have hsmall := numfpOf_lt maxSize
  have hmem : ∀ x ∈ (initMemphy mp₀ block link maxSize randomflg).freeFpList,
      x.toNat < (numfpOf maxSize).toNat := by
    intro x hx
    rw [hlist] at hx
    have hlt := mem_frameNumbers.mp hx
    omega
  refine ⟨rooted_start ?_ ?_ ?_, hmem⟩
  · rw [initMemphy_rdmflg]
    exact decide_eq_true hr
  · intro x hx
    have hlt := hmem x hx
    show x.toNat < 2 ^ 52
    omega
  · rw [hlist]
    exact nodup_frameNumbers maxSize

/-- With zero bytes behind the frames the free ones are blank, if their numbers survive an entry. -/
theorem owned_initMemphy_of_survives {k : CharKind} (hr : randomflg ≠ 0)
    (hsurv : ∀ x : AddrT, x.toNat < (numfpOf maxSize).toNat → Survives k x) (hcover : Covered block maxSize)
    (h : Formatted mp₀ link maxSize) :
    Owned k (fun _ => none) (fun _ => none) (initMemphy mp₀ block link maxSize randomflg) := by
  obtain ⟨hrooted, hmem⟩ := rooted_initMemphy (k := k) block hr h
  apply hrooted.owned_of_blank
  · intro x hx
    exact hsurv x (hmem x hx)
  · intro x hx a ha
    have hlt := hmem x hx
    rw [initMemphy_storage]
    split
    · rfl
    · rename_i hge
      exact hcover a (BitVec.not_lt.mp hge) (by omega)

/-- With an unsigned `char` those of 8192 frames do. -/
theorem owned_initMemphy (hr : randomflg ≠ 0) (hn : numfpOf maxSize ≤ 8192) (hcover : Covered block maxSize)
    (h : Formatted mp₀ link maxSize) :
    Owned .unsigned (fun _ => none) (fun _ => none) (initMemphy mp₀ block link maxSize randomflg) := by
  apply owned_initMemphy_of_survives hr _ hcover h
  intro x hx
  exact ⟨by omega, fun hs => by cases hs⟩

end

/-! ## The system -/

/-- The device, the address spaces, and the successful calls so far, latest first. -/
structure MapState where
  mp : MemphyStruct
  mm : ℕ → Option MmStruct
  log : List ((ℕ × AddrT) × AddrT)

/-- A call. -/
inductive MapEvent where
  | init (p : ℕ)
  | set (p : ℕ) (pgn fpn : AddrT)

/-- The frame of the last successful `pte_set_fpn` for a page of a process. -/
def lastFpn (log : List ((ℕ × AddrT) × AddrT)) (p : ℕ) (pgn : AddrT) : Option AddrT := log.lookup (p, pgn)

/-- One call. A process that `init_mm` has failed for is not set up. -/
inductive MapStep : MapState → MapEvent → MapState → Prop where
  | init {s p m₀ m link mp} : s.mm p = none → initMm m₀ s.mp link = (0, m, mp) →
      MapStep s (.init p) { s with mp, mm := Function.update s.mm p (some m) }
  | initFails {s p m₀ m link mp} {stat : ℤ} : s.mm p = none → initMm m₀ s.mp link = (stat, m, mp) → stat ≠ 0 →
      MapStep s (.init p) { s with mp }
  | set {s p m mp} {pgn fpn : AddrT} {stat : ℤ} : s.mm p = some m → pgn.toNat < 2 ^ 45 → fpn.toNat < 2 ^ 13 →
      pteSetFpn .unsigned m s.mp pgn fpn = (stat, mp) →
      MapStep s (.set p pgn fpn) { s with mp, log := if stat = 0 then ((p, pgn), fpn) :: s.log else s.log }

/-- The runs on one device. -/
def mapSystem (mp₀ : MemphyStruct) (block : AddrT → BYTE) (link : List AddrT) (maxSize : AddrT) (randomflg : ℤ) :
    Lts.System MapState MapEvent where
  init s := s = ⟨initMemphy mp₀ block link maxSize randomflg, fun _ => none, []⟩
  step := MapStep

/-- Every address of every process translates to the frame last set for its page. -/
def TranslatesLast (s : MapState) : Prop :=
  ∀ p m, s.mm p = some m → ∀ vaddr : AddrT, vaddr.toNat < 2 ^ 57 →
    translateAddress .unsigned m s.mp vaddr
      = (lastFpn s.log p (vaddr >>> 12)).map fun f => BitVec.ofNat 64 (f.toNat * 4096 + vaddr.toNat % 4096)

/-! ## Every run -/

/-- The invariant: the tables are owned, and their leaves are the log. -/
structure MapInv (root : ℕ → Option AddrT) (s : MapState) : Prop where
  owned : Owned .unsigned root s.mm s.mp
  unset : ∀ {p pgn}, s.mm p = none → lastFpn s.log p pgn = none
  leaf : ∀ {p m r} {pgn : AddrT}, s.mm p = some m → root p = some r → pgn.toNat < 2 ^ 45 →
    walk (tables .unsigned s.mp) r (leafPath (pgn <<< 12)) = lastFpn s.log p pgn

theorem lastFpn_cons (log : List ((ℕ × AddrT) × AddrT)) (p q : ℕ) (pgn pgn' fpn : AddrT) :
    lastFpn (((p, pgn), fpn) :: log) q pgn' = if q = p ∧ pgn' = pgn then some fpn else lastFpn log q pgn' := by
  unfold lastFpn
  rw [List.lookup_cons]
  by_cases h : q = p ∧ pgn' = pgn
  · rw [if_pos h, h.1, h.2]
    simp
  · rw [if_neg h, beq_false_of_ne fun hc => h (Prod.mk.inj hc)]

theorem length_leafPath (addr : AddrT) : (leafPath addr).length = 5 := rfl

theorem mapInv_step {root : ℕ → Option AddrT} {s t : MapState} {e : MapEvent} (h : MapInv root s)
    (hst : MapStep s e t) : ∃ root', MapInv root' t := by
  cases hst with
  | @init p m₀ m link mp hp hinit =>
    obtain ⟨r, howned, -, hempty, hwalks⟩ := h.owned.after_initMm p hinit
    refine ⟨_, howned, ?_, ?_⟩
    · intro q pgn hq
      by_cases hqp : q = p
      · subst hqp
        exact h.unset hp
      · exact h.unset ((Function.update_of_ne hqp ..).symm.trans hq)
    · intro q mq rq pgn hq hrq hpgn
      by_cases hqp : q = p
      · -- the new process has no page, and no call was made for it
        subst hqp
        rw [Function.update_self] at hrq
        obtain rfl := Option.some.inj hrq
        rw [walk_empty hempty (by simp [leafPath]), h.unset hp]
      · have hold : s.mm q = some mq := (Function.update_of_ne hqp ..).symm.trans hq
        rw [Function.update_of_ne hqp] at hrq
        rw [hwalks hrq (length_leafPath _).le, h.leaf hold hrq hpgn]
  | @initFails p m₀ m link mp stat hp hinit hstat =>
    -- no frame was taken
    obtain ⟨-, -, rfl⟩ := initMm_failed hinit hstat
    exact ⟨root, h⟩
  | @set p m mp pgn fpn stat hm hpgn hfpn hset =>
    have hsurv : Survives .unsigned fpn := ⟨hfpn, fun hs => by cases hs⟩
    obtain ⟨howned, hwalks⟩ := h.owned.after_pteSetFpn hm hsurv hset
    refine ⟨root, howned, ?_, ?_⟩
    · intro q pgn' hq
      have hqp : q ≠ p := by
        rintro rfl
        rw [hm] at hq
        cases hq
      dsimp only
      split
      · rw [lastFpn_cons, if_neg (fun hc => hqp hc.1)]
        exact h.unset hq
      · exact h.unset hq
    · intro q mq rq pgn' hq hrq hpgn'
      rw [hwalks hrq (length_leafPath _), h.leaf hq hrq hpgn']
      dsimp only
      by_cases hstat : stat = 0
      · rw [if_pos hstat, lastFpn_cons]
        by_cases hpage : q = p ∧ pgn' = pgn
        · rw [if_pos ⟨hstat, hpage.1, by rw [hpage.2]⟩, if_pos hpage]
        · rw [if_neg hpage, if_neg fun hc => hpage ⟨hc.2.1, leafPath_inj hpgn' hpgn hc.2.2⟩]
      · rw [if_neg hstat, if_neg fun hc => hstat hc.1]

/-- The address behind a translated page. -/
theorem baseOf_add_offset {f vaddr : AddrT} :
    baseOf f + (vaddr &&& 0xFFF#64) = BitVec.ofNat 64 (f.toNat * 4096 + vaddr.toNat % 4096) := by
  apply BitVec.eq_of_toNat_eq
  have hmask : (vaddr &&& 0xFFF#64).toNat = vaddr.toNat % 4096 := by
    rw [BitVec.toNat_and]
    exact Nat.and_two_pow_sub_one_eq_mod _ 12
  simp only [baseOf, paging64Pagesz, BitVec.toNat_add, BitVec.toNat_mul, BitVec.toNat_ofNat, hmask]
  omega

theorem MapInv.translatesLast {root : ℕ → Option AddrT} {s : MapState} (h : MapInv root s) :
    TranslatesLast s := by
  intro p m hm vaddr hv
  obtain ⟨r, hr, hpgd, hra⟩ := h.owned.root_of hm
  have hpage : (vaddr >>> 12).toNat < 2 ^ 45 := by
    rw [BitVec.toNat_ushiftRight, Nat.shiftRight_eq_div_pow]
    omega
  rw [translateAddress_walk hpgd hra, ← leafPath_page vaddr, h.leaf hm hr hpage]
  congr 1
  funext f
  exact baseOf_add_offset

theorem mapInv_of_reachable {mp₀ : MemphyStruct} {block : AddrT → BYTE} {link : List AddrT} {maxSize : AddrT}
    {randomflg : ℤ} (hr : randomflg ≠ 0) (hn : numfpOf maxSize ≤ 8192) (hcover : Covered block maxSize)
    (hformat : Formatted mp₀ link maxSize) {s : MapState}
    (hs : (mapSystem mp₀ block link maxSize randomflg).Reachable s) : ∃ root, MapInv root s := by
  induction hs with
  | init hinit =>
    obtain rfl := hinit
    exact ⟨_, owned_initMemphy hr hn hcover hformat, fun _ => rfl, fun h => absurd h (by simp)⟩
  | step _ hst ih =>
    obtain ⟨root, h⟩ := ih
    exact mapInv_step h hst

/-- What a call leaves alone: the translations of every address whose page it does not set. -/
def KeepsOthers (s : MapState) (e : MapEvent) (t : MapState) : Prop :=
  ∀ q m, s.mm q = some m → t.mm q = some m ∧ ∀ vaddr : AddrT, vaddr.toNat < 2 ^ 57 →
    (∀ fpn, e = .set q (vaddr >>> 12) fpn → t.log = s.log) →
      translateAddress .unsigned m t.mp vaddr = translateAddress .unsigned m s.mp vaddr

theorem keepsOthers_of_translatesLast {s t : MapState} {e : MapEvent} (hs : TranslatesLast s)
    (ht : TranslatesLast t) (hst : MapStep s e t) : KeepsOthers s e t := by
  intro q m hq
  have hkeep : t.mm q = some m := by
    cases hst with
    | @init p _ _ _ _ hp _ =>
      have hqp : q ≠ p := by
        rintro rfl
        rw [hq] at hp
        cases hp
      exact (Function.update_of_ne hqp ..).trans hq
    | initFails => exact hq
    | set => exact hq
  refine ⟨hkeep, fun vaddr hv hsame => ?_⟩
  rw [hs q m hq vaddr hv, ht q m hkeep vaddr hv]
  -- the log says the same about the page
  have hlog : lastFpn t.log q (vaddr >>> 12) = lastFpn s.log q (vaddr >>> 12) := by
    cases hst with
    | init => rfl
    | initFails => rfl
    | @set p _ _ pgn fpn stat =>
      dsimp only at hsame ⊢
      split
      · rename_i hstat
        rw [lastFpn_cons, if_neg]
        rintro ⟨rfl, hpage⟩
        have hlen := congrArg List.length (hsame fpn (by rw [hpage]))
        rw [if_pos hstat, List.length_cons] at hlen
        omega
      · rfl
  rw [hlog]

/-- **The page tables are a map.** On a formatted device every address of every process translates to the
    frame last set for its page, and no call changes another page. -/
theorem page_tables_are_a_map (mp₀ : MemphyStruct) (block : AddrT → BYTE) (link : List AddrT) (maxSize : AddrT)
    (randomflg : ℤ) (hr : randomflg ≠ 0) (hn : numfpOf maxSize ≤ 8192) (hcover : Covered block maxSize)
    (hformat : Formatted mp₀ link maxSize) (s : MapState)
    (hs : (mapSystem mp₀ block link maxSize randomflg).Reachable s) :
    TranslatesLast s ∧ ∀ e t, MapStep s e t → KeepsOthers s e t := by
  obtain ⟨root, hinv⟩ := mapInv_of_reachable hr hn hcover hformat hs
  refine ⟨hinv.translatesLast, fun e t hst => ?_⟩
  obtain ⟨root', hinv'⟩ := mapInv_step hinv hst
  exact keepsOthers_of_translatesLast hinv.translatesLast hinv'.translatesLast hst

/-- Two processes set the same page of theirs on a device of 16 frames. -/
theorem twoPages_set : ∃ s, (mapSystem rawMp (fun _ => 0) [] 4096 1).Reachable s ∧
    (s.mm 0).isSome ∧ (s.mm 1).isSome ∧ s.log = [((1, 7), 9), ((0, 7), 5)] := by
  have hformat : Formatted rawMp [] 4096 := .inl (by decide)
  have howned : Owned .unsigned (fun _ => none) (fun _ => none) (initMemphy rawMp (fun _ => 0) [] 4096 1) :=
    owned_initMemphy (by decide) (by decide) (fun _ _ _ => rfl) hformat
  have hlen : (initMemphy rawMp (fun _ => 0) [] 4096 1).freeFpList.length = 16 := by
    rw [freeFpList_of_formatted _ _ hformat, List.length_map, List.length_range]
    decide
  have h : (mapSystem rawMp (fun _ => 0) [] 4096 1).Reachable ⟨_, fun _ => none, []⟩ := .init rfl
  -- both get their PGD, and there are 14 frames left
  obtain ⟨m₀, mp, r₀, hinit, howned, hlen₁⟩ := howned.initMm_succeeds 0 (by rw [← List.length_pos_iff]; omega) rawMm []
  have h := h.step (.init (p := 0) rfl hinit)
  obtain ⟨m₁, mp, r₁, hinit, howned, hlen₂⟩ := howned.initMm_succeeds 1 (by rw [← List.length_pos_iff]; omega) rawMm []
  have h := h.step (.init (p := 1) rfl hinit)
  -- each page takes four of them
  obtain ⟨mp, hset, howned, hlen₃⟩ := howned.pteSetFpn_succeeds (p := 0) rfl 7 5 (by omega)
  have h := h.step (.set (p := 0) rfl (by decide) (by decide) hset)
  obtain ⟨mp, hset, -, -⟩ := howned.pteSetFpn_succeeds (p := 1) rfl 7 9 (by omega)
  have h := h.step (.set (p := 1) rfl (by decide) (by decide) hset)
  exact ⟨_, h, rfl, rfl, rfl⟩

theorem page_tables_are_a_map_two : ∃ s, (mapSystem rawMp (fun _ => 0) [] 4096 1).Reachable s ∧
    (s.mm 0).isSome ∧ (s.mm 1).isSome ∧ s.log = [((1, 7), 9), ((0, 7), 5)] ∧
    TranslatesLast s ∧ ∀ e t, MapStep s e t → KeepsOthers s e t := by
  obtain ⟨s, h, hzero, hone, hlog⟩ := twoPages_set
  exact ⟨s, h, hzero, hone, hlog, page_tables_are_a_map rawMp (fun _ => 0) [] 4096 1 (by decide) (by decide)
    (fun _ _ _ => rfl) (.inl (by decide)) s h⟩

/-- A process on a blank device, with frame 0 for its PGD. -/
theorem initMm_blank {link rest : List AddrT} {maxSize : AddrT}
    (hlist : (initMemphy rawMp (fun _ => 0) link maxSize 1).freeFpList = 0 :: rest) :
    ∃ m mp, initMm rawMm (initMemphy rawMp (fun _ => 0) link maxSize 1) [] = (0, m, mp) ∧ m.pgd = baseOf 0 ∧
      mp.freeFpList = rest ∧ mp.rdmflg = true ∧ (∀ i, tables .unsigned mp 0 i = none) ∧
      ∀ i, tables .unsigned mp 5 i = none := by
  have hrdm : (initMemphy rawMp (fun _ => 0) link maxSize 1).rdmflg = true := rfl
  rcases initMm_cases (k := .unsigned) rawMm hrdm [] with ⟨hnone, -⟩ | ⟨fpn, m, mp, hok, hpgd, hpool, hrdm', hclear⟩
  · rw [hlist] at hnone
    exact absurd hnone (by simp)
  rw [hlist] at hpool
  obtain ⟨rfl, rfl⟩ := List.cons.inj hpool
  obtain ⟨hempty, hothers⟩ := hclear (by decide)
  refine ⟨m, mp, hok, hpgd, rfl, hrdm', hempty, fun i => ?_⟩
  rw [hothers 5 (by decide)]
  apply tables_of_blank hrdm
  intro c _
  rw [initMemphy_storage]
  exact ite_self 0

/-- **A PGD that is free a second time** becomes the P4D, the PUD, the PMD and the PT of its first page as well. The
    leaf overwrites the entry that leads to itself. -/
theorem pteSetFpn_self {m : MmStruct} {mp : MemphyStruct} (hpgd : m.pgd = baseOf 0) (hrdm : mp.rdmflg = true)
    (hlist : mp.freeFpList = [0]) (hempty : ∀ i, tables .unsigned mp 0 i = none)
    (hfive : ∀ i, tables .unsigned mp 5 i = none) :
    ∃ mp', pteSetFpn .unsigned m mp 0 5 = (0, mp') ∧ translateAddress .unsigned m mp' 0 = none := by
  have hsurv : ∀ x : AddrT, x.toNat < 2 ^ 13 → Survives .unsigned x := fun x hx => ⟨hx, fun h => by cases h⟩
  obtain ⟨ok, mp', x, hset, hins, hx, -, -⟩ := pteSetFpn_insert (k := .unsigned) 0 5 hpgd (by decide) hrdm (by
    intro x hx
    rw [hlist] at hx
    obtain rfl := List.mem_singleton.mp (List.mem_of_mem_take hx)
    exact hsurv 0 (by decide))
  obtain rfl := hx (hsurv 5 (by decide))
  have hpath : upperPath ((0 : AddrT) <<< 12) = [0, 0, 0, 0] ∧ levelIdx 12 ((0 : AddrT) <<< 12) = 0 := by decide
  rw [hlist, hpath.1, hpath.2, Radix.insert, descend_of_none_cons (hempty 0),
    descend_of_some (write_self ..), descend_of_some (write_self ..), descend_of_some (write_self ..)] at hins
  obtain ⟨rfl, htables, -⟩ : true = ok ∧ write (write (tables .unsigned mp) 0 0 0) 0 0 5 = tables .unsigned mp' ∧
    [] = mp'.freeFpList := by simpa [descend] using hins
  refine ⟨mp', hset, ?_⟩
  have hleaf : leafPath 0 = [0, 0, 0, 0, 0] := by decide
  rw [translateAddress_walk hpgd (by decide), ← htables, hleaf, walk_cons, write_self, Option.bind_some, walk_cons,
    write_of_ne (by decide), write_of_ne (by decide), hfive, Option.bind_none, Option.map_none]

/-- **One frame, and a link that happens to name it.** The size of the device is cut to an `int` before it is
    divided into frames. The PGD is taken for all the tables below it, and the leaf overwrites the entry that
    leads to itself. -/
theorem page_tables_fail : ¬ ∀ (mp₀ : MemphyStruct) (block : AddrT → BYTE) (link : List AddrT)
    (maxSize : AddrT) (randomflg : ℤ), randomflg ≠ 0 → numfpOf maxSize ≤ 8192 → Covered block maxSize →
      ∀ s, (mapSystem mp₀ block link maxSize randomflg).Reachable s → TranslatesLast s := by
  intro hall
  have hlist : (initMemphy rawMp (fun _ => 0) [0] 0x100000100 1).freeFpList = [0, 0] := by
    rw [initMemphy_freeFpList, if_neg (by decide), if_pos (by decide)]
  obtain ⟨m, mp, hok, hpgd, hpool, hrdm, hempty, hfive⟩ := initMm_blank hlist
  obtain ⟨mp', hset, hnone⟩ := pteSetFpn_self hpgd hrdm hpool hempty hfive
  have hreach := Lts.System.Reachable.init (T := mapSystem rawMp (fun _ => 0) [0] 0x100000100 1) rfl
  have hm : Function.update (fun _ : ℕ => none) 0 (some m) 0 = some m := Function.update_self ..
  have htrans := hall rawMp (fun _ => 0) [0] 0x100000100 1 (by decide) (by decide) (fun _ _ _ => rfl) _
    ((hreach.step (.init (p := 0) rfl hok)).step (.set (p := 0) hm (by decide) (by decide) hset))
    0 m hm 0 (by decide)
  rw [hnone] at htrans
  exact absurd htrans (by simp [lastFpn])

end LamiaAtrium
