import LamiaAtrium.Lib.Radix.Accounted
import LamiaAtrium.Mem.Correctness.Rollback

/-!
# `Mem.Correctness.Mapping` — what a successful `vm_map_ram` has done

The frames of the pages come off the free list first. The loop then goes over the pages, and takes the tables that a
page lacks off the same list.

* `MapsRange` is what a call that returns 0 should have done: the region, the pages, the other pages, the free list
  and the FIFO list.
* `Owned.mapPage` is one turn of the loop, `vmapPageLoop_maps` the whole loop.
* `ramSystem` is the system: processes are set up, and `vm_map_ram` is called as long as it succeeds.
* `maps_what_it_claims`: on a device that `MEMPHY_format` leaves in a defined state every call does what it should.
-/

namespace LamiaAtrium

open Radix

/-! ## What the call should do -/

/-- `frame` holds a table of the address space `m`, at one of the five levels. -/
def IsTable (k : CharKind) (m : MmStruct) (mp : MemphyStruct) (frame : AddrT) : Prop :=
  Addressable frame ∧ ∃ is : List (Fin 512), is.length < 5 ∧
    walkTables k mp m.pgd (is.map idxOf) = some (baseOf frame)

/-- `count` page numbers from turn `first` of the loop on. -/
def rangePgns (startPgn : AddrT) (first count : ℕ) : List AddrT :=
  (List.range' first count).map fun i => startPgn + BitVec.ofNat 64 i

/-- **A call of process `p` has mapped `n` pages from `mapstart` on.** -/
structure MapsRange (k : CharKind) (mm : ℕ → Option MmStruct) (p : ℕ) (m : MmStruct) (mp : MemphyStruct)
    (mapstart : AddrT) (n : ℕ) (rg : VmRgStruct) (m' : MmStruct) (mp' : MemphyStruct) : Prop where
  region : rg.rgStart = mapstart ∧ rg.rgEnd.toNat = mapstart.toNat + n * 4096
  enough : n ≤ mp.freeFpList.length
  pages : ∀ i < n, ∀ vaddr : AddrT, vaddr.toNat / 4096 = mapstart.toNat / 4096 + i →
    translateAddress k m' mp' vaddr
      = (mp.freeFpList[i]?).map fun f => BitVec.ofNat 64 (f.toNat * 4096 + vaddr.toNat % 4096)
  others : ∀ q, ∀ vaddr : AddrT, vaddr.toNat < 2 ^ 57 →
    ¬ (q = p ∧ mapstart.toNat ≤ vaddr.toNat ∧ vaddr.toNat < mapstart.toNat + n * 4096) →
      (Function.update mm p (some m') q).map (fun m => translateAddress k m mp' vaddr)
        = (mm q).map fun m => translateAddress k m mp vaddr
  removed : ∃ installed : List AddrT,
    mp.freeFpList = mp.freeFpList.take n ++ installed ++ mp'.freeFpList ∧ installed.Nodup ∧
      ∀ x, x ∈ installed ↔ IsTable k m' mp' x ∧ ¬ IsTable k m mp x
  fifo : m'.fifoPgn = (rangePgns (mapstart >>> 12) 0 n).reverse ++ m.fifoPgn

/-! ## The loop -/

section

variable {k : CharKind} {root : ℕ → Option AddrT} {mm : ℕ → Option MmStruct} {m : MmStruct} {mp : MemphyStruct}
  {p : ℕ} {r : AddrT}

/-- **One page is mapped.** -/
theorem Owned.mapPage (h : Owned k root mm mp) (hr : root p = some r) (hpgd : m.pgd = baseOf r) {pgn fpn : AddrT}
    (hfpn : Survives k fpn) {mp' : MemphyStruct} (hset : pteSetFpn k m mp pgn fpn = (0, mp')) :
    Owned k root mm mp' ∧
      (∀ {q r' is}, root q = some r' → is.length = 5 → walk (tables k mp') r' is
        = if q = p ∧ is = leafPath (pgn <<< 12) then some fpn else walk (tables k mp) r' is) ∧
      ∃ taken, mp.freeFpList = taken ++ mp'.freeFpList ∧ ∀ {q r'}, root q = some r' → ∀ y,
        InTree 5 (tables k mp') r' y ↔ InTree 5 (tables k mp) r' y ∨ (q = p ∧ y ∈ taken) := by
  obtain ⟨ok, mp₁, x, hstat, hins, hx, howned⟩ := h.pteSetFpn_insert hr hpgd pgn fpn
  obtain rfl := hx hfpn
  rw [hset] at hstat
  obtain ⟨hok, rfl⟩ := Prod.mk.inj hstat
  have htrue : ok = true := by
    cases ok with
    | true => rfl
    | false => exact absurd hok (by decide)
  subst htrue
  refine ⟨howned, ?_, insert_inTree h.forest h.fresh hr rfl hins⟩
  obtain ⟨-, -, hwalks⟩ := insert_spec h.forest h.fresh hr rfl hins
  intro q r' is hq his
  rw [hwalks hq his, leafPath]
  simp only [true_and]

/-- What the loop has done to the pages from turn `pgit` on: page after page has got the next frame, and the tables came
    from the front of the list. -/
structure LoopMapped (k : CharKind) (root : ℕ → Option AddrT) (mm : ℕ → Option MmStruct) (p : ℕ) (r startPgn : AddrT)
    (frames : List AddrT) (pgit : ℕ) (m : MmStruct) (mp : MemphyStruct) (m' : MmStruct) (mp' : MemphyStruct) :
    Prop where
  owned : Owned k root mm mp'
  fifo : m' = { m with fifoPgn := (rangePgns startPgn pgit frames.length).reverse ++ m.fifoPgn }
  taken : ∃ taken, mp.freeFpList = taken ++ mp'.freeFpList ∧ ∀ {q r'}, root q = some r' → ∀ y,
    InTree 5 (tables k mp') r' y ↔ InTree 5 (tables k mp) r' y ∨ (q = p ∧ y ∈ taken)
  others : ∀ {q r' is}, root q = some r' → is.length = 5 →
    ¬ (q = p ∧ ∃ pgn ∈ rangePgns startPgn pgit frames.length, is = leafPath (pgn <<< 12)) →
      walk (tables k mp') r' is = walk (tables k mp) r' is
  pages : ((rangePgns startPgn pgit frames.length).map fun pgn : AddrT => leafPath (pgn <<< 12)).Nodup →
    ∀ i, i < frames.length →
      walk (tables k mp') r (leafPath ((startPgn + BitVec.ofNat 64 (pgit + i)) <<< 12)) = frames[i]?

theorem LoopMapped.nil (h : Owned k root mm mp) (startPgn : AddrT) (pgit : ℕ) (m : MmStruct) :
    LoopMapped k root mm p r startPgn [] pgit m mp m mp := by
  refine ⟨h, rfl, ⟨[], rfl, ?_⟩, fun _ _ _ => rfl, ?_⟩
  · intro q r' _ y
    exact ⟨.inl, fun hy => hy.resolve_right fun hc => absurd hc.2 List.not_mem_nil⟩
  · intro _ i hi
    exact absurd hi (Nat.not_lt_zero i)

/-- One turn before the others. -/
theorem LoopMapped.cons (hr : root p = some r) {startPgn fpn : AddrT} {frames taken₁ : List AddrT} {pgit : ℕ}
    {mp₁ mp' : MemphyStruct} {m' : MmStruct} (hlist₁ : mp.freeFpList = taken₁ ++ mp₁.freeFpList)
    (hwalks₁ : ∀ {q r' is}, root q = some r' → is.length = 5 → walk (tables k mp₁) r' is
      = if q = p ∧ is = leafPath ((startPgn + BitVec.ofNat 64 pgit) <<< 12) then some fpn
        else walk (tables k mp) r' is)
    (htrees₁ : ∀ {q r'}, root q = some r' → ∀ y,
      InTree 5 (tables k mp₁) r' y ↔ InTree 5 (tables k mp) r' y ∨ (q = p ∧ y ∈ taken₁))
    (h : LoopMapped k root mm p r startPgn frames (pgit + 1)
      { m with fifoPgn := enlistPgnNode m.fifoPgn (startPgn + BitVec.ofNat 64 pgit) } mp₁ m' mp') :
    LoopMapped k root mm p r startPgn (fpn :: frames) pgit m mp m' mp' := by
  obtain ⟨howned, rfl, ⟨taken₂, hlist₂, htrees₂⟩, hmiss₂, hhit₂⟩ := h
  have hpgns : rangePgns startPgn pgit (frames.length + 1)
      = (startPgn + BitVec.ofNat 64 pgit) :: rangePgns startPgn (pgit + 1) frames.length := by
    rw [rangePgns, List.range'_succ, List.map_cons, rangePgns]
  constructor
  case owned => exact howned
  case fifo =>
    rw [List.length_cons, hpgns]
    simp only [enlistPgnNode, List.reverse_cons, List.append_assoc, List.singleton_append]
  case taken =>
    refine ⟨taken₁ ++ taken₂, by rw [hlist₁, hlist₂, List.append_assoc], ?_⟩
    intro q r' hq y
    rw [htrees₂ hq y, htrees₁ hq y, List.mem_append, or_assoc, ← and_or_left]
  case others =>
    rw [List.length_cons, hpgns]
    intro q r' is hq his hout
    rw [hmiss₂ hq his, hwalks₁ hq his, if_neg]
    · rintro ⟨rfl, rfl⟩
      exact hout ⟨rfl, _, List.mem_cons_self, rfl⟩
    · rintro ⟨rfl, pgn, hpgn, rfl⟩
      exact hout ⟨rfl, pgn, List.mem_cons_of_mem _ hpgn, rfl⟩
  case pages =>
    rw [List.length_cons, hpgns]
    intro hnodup i hi
    rw [List.map_cons, List.nodup_cons] at hnodup
    cases i with
    | zero =>
      -- no later page has the path of this one
      have hlater : ¬ (p = p ∧ ∃ pgn ∈ rangePgns startPgn (pgit + 1) frames.length,
          leafPath ((startPgn + BitVec.ofNat 64 pgit) <<< 12) = leafPath (pgn <<< 12)) := by
        rintro ⟨-, pgn, hpgn, hsame⟩
        exact hnodup.1 (List.mem_map.mpr ⟨pgn, hpgn, hsame.symm⟩)
      rw [Nat.add_zero, hmiss₂ hr (length_leafPath _) hlater, hwalks₁ hr (length_leafPath _), if_pos ⟨rfl, rfl⟩]
      rfl
    | succ i =>
      have hnext := hhit₂ hnodup.2 i (Nat.lt_of_succ_lt_succ hi)
      rw [Nat.add_assoc, Nat.add_comm 1 i] at hnext
      rw [hnext, List.getElem?_cons_succ]

/-- **The loop of `vmap_page_range`**, when no page fails: it maps page after page, each to the next frame, and takes
    the tables from the front of the list. -/
theorem vmapPageLoop_maps (hr : root p = some r) {startPgn : AddrT} {pgnum : ℤ} (frames : List AddrT) :
    ∀ {pgit : ℕ} {m : MmStruct} {mp : MemphyStruct} {pgit' : ℕ} {m' : MmStruct} {mp' : MemphyStruct},
      Owned k root mm mp → m.pgd = baseOf r → (∀ f ∈ frames, Survives k f) → (pgit + frames.length : ℤ) ≤ pgnum →
      vmapPageLoop k startPgn pgnum frames pgit m mp = (pgit', false, m', mp') →
        LoopMapped k root mm p r startPgn frames pgit m mp m' mp' := by
  induction frames with
  | nil =>
    intro pgit m mp pgit' m' mp' h _ _ _ hloop
    obtain ⟨-, rfl, rfl⟩ : pgit = pgit' ∧ m = m' ∧ mp = mp' := by simpa [vmapPageLoop] using hloop
    exact .nil h startPgn pgit m
  | cons fpn fpit ih =>
    intro pgit m mp pgit' m' mp' h hpgd hsurv hlen hloop
    rw [List.length_cons] at hlen
    push_cast at hlen
    have hmore : (pgit : ℤ) < pgnum := by omega
    rw [vmapPageLoop, if_pos hmore] at hloop
    cases hset : pteSetFpn k m mp (startPgn + BitVec.ofNat 64 pgit) fpn with
    | mk stat mp₁ =>
      simp only [hset] at hloop
      by_cases hstat : stat = 0
      · subst hstat
        rw [if_neg (not_not.mpr rfl)] at hloop
        obtain ⟨h₁, hwalks₁, taken₁, hlist₁, htrees₁⟩ := h.mapPage hr hpgd (hsurv fpn List.mem_cons_self) hset
        have hsurv' : ∀ f ∈ fpit, Survives k f := fun f hf => hsurv f (List.mem_cons_of_mem fpn hf)
        have hlen' : ((pgit + 1 : ℕ) + fpit.length : ℤ) ≤ pgnum := by
          push_cast
          omega
        have hpgd' : ({ m with fifoPgn := enlistPgnNode m.fifoPgn (startPgn + BitVec.ofNat 64 pgit) } : MmStruct).pgd
            = baseOf r := hpgd
        exact .cons hr hlist₁ hwalks₁ htrees₁ (ih h₁ hpgd' hsurv' hlen' hloop)
      · rw [if_pos hstat] at hloop
        exact absurd (congrArg (fun x => x.2.1) hloop) (by simp)

/-! ## The call -/

/-- **A call that returns 0** has run the loop over all its frames. -/
theorem vmMapRam_eq_zero {oom : ℕ → Bool} {mapstart : AddrT} {incpgnum : ℤ} {retRg rg : VmRgStruct} {m' : MmStruct}
    {mp' : MemphyStruct} (hcall : vmMapRam k oom m mp mapstart incpgnum retRg = (0, rg, m', mp')) :
    0 ≤ incpgnum ∧ incpgnum.toNat ≤ mp.freeFpList.length ∧
      rg = ⟨mapstart, mapstart + BitVec.ofInt 64 (incpgnum * paging64Pagesz)⟩ ∧
      vmapPageLoop k (mapstart >>> 12) incpgnum (mp.freeFpList.take incpgnum.toNat) 0 m
        { mp with freeFpList := mp.freeFpList.drop incpgnum.toNat } = (incpgnum.toNat, false, m', mp') := by
  have hfails : ∀ {x : VmRgStruct × MmStruct × MemphyStruct}, ¬ ((-1 : ℤ), x) = (0, rg, m', mp') :=
    fun hc => absurd (congrArg Prod.fst hc) (by simp)
  by_cases hnodes : NodesSuffice oom mp incpgnum
  swap
  · obtain ⟨l, hoom, -⟩ := @vmMapRam_oom k oom m mp mapstart incpgnum retRg hnodes
    rw [hoom] at hcall
    exact absurd hcall hfails
  by_cases hshort : mp.freeFpList.length < incpgnum.toNat
  · rw [vmMapRam_short hnodes hshort] at hcall
    exact absurd hcall hfails
  rw [vmMapRam, allocPagesRange_eq hnodes, if_neg hshort] at hcall
  dsimp only at hcall
  by_cases hneg : incpgnum < 0
  · -- a negative number of pages is an error code
    exfalso
    split at hcall
    · exact hfails hcall
    · split at hcall
      · exact hfails hcall
      · omega
  have hlen := not_lt.mp hshort
  have hframes : (mp.freeFpList.take incpgnum.toNat).length = incpgnum.toNat := by
    rw [List.length_take]
    omega
  rw [if_neg (by omega), if_neg (by omega), if_neg (lt_irrefl incpgnum), vmapPageRange] at hcall
  cases hloop : vmapPageLoop k (mapstart >>> 12) incpgnum (mp.freeFpList.take incpgnum.toNat) 0 m
    { mp with freeFpList := mp.freeFpList.drop incpgnum.toNat } with
  | mk pgit rest =>
    obtain ⟨failed, m₁, mp₁⟩ := rest
    rw [hloop] at hcall
    dsimp only at hcall
    obtain ⟨-, -, -, hall, hsome⟩ := vmapPageLoop_cases _ (by rw [hframes]; omega) hloop
    rw [hframes] at hall hsome
    split at hcall
    · exact absurd hcall hfails
    · rename_i hmapped
      cases failed with
      | true =>
        have hlt := (hsome rfl).1
        omega
      | false =>
        have hpgit := hall rfl
        rw [Nat.zero_add] at hpgit
        subst hpgit
        obtain ⟨-, rfl, rfl, rfl⟩ : (0 : ℤ) = 0 ∧ _ = rg ∧ m₁ = m' ∧ mp₁ = mp' := by simpa using hcall
        exact ⟨not_lt.mp hneg, hlen, rfl, rfl⟩

/-- Its tables are the tables of its tree. -/
theorem isTable_iff (hpgd : m.pgd = baseOf r) (hra : Addressable r) (x : AddrT) :
    IsTable k m mp x ↔ InTree 5 (tables k mp) r x := by
  constructor
  · rintro ⟨hx, is, his, hwalk⟩
    refine ⟨is, his, ?_⟩
    obtain ⟨hbase, haddr⟩ := @walkTables_walk k mp is r hra
    rw [hpgd, hbase] at hwalk
    obtain ⟨g, hg, hsame⟩ := Option.map_eq_some_iff.mp hwalk
    rw [hg, baseOf_inj (haddr g hg) hx hsame]
  · rintro ⟨is, his, hwalk⟩
    obtain ⟨hbase, haddr⟩ := @walkTables_walk k mp is r hra
    refine ⟨haddr x hwalk, is, his, ?_⟩
    rw [hpgd, hbase, hwalk, Option.map_some]

/-- The pages of a range that ends in the address space are distinct. -/
theorem toNat_rangePgn {mapstart : AddrT} {n i : ℕ} (hend : mapstart.toNat + n * 4096 ≤ 2 ^ 57) (hi : i < n) :
    (mapstart >>> 12 + BitVec.ofNat 64 i).toNat = mapstart.toNat / 4096 + i := by
  rw [BitVec.toNat_add, BitVec.toNat_ushiftRight, BitVec.toNat_ofNat, Nat.shiftRight_eq_div_pow]
  omega

theorem leafPath_rangePgn_inj {mapstart : AddrT} {n i : ℕ} {pgn : AddrT}
    (hend : mapstart.toNat + n * 4096 ≤ 2 ^ 57) (hi : i < n) (hpgn : pgn.toNat < 2 ^ 45)
    (h : leafPath (pgn <<< 12) = leafPath ((mapstart >>> 12 + BitVec.ofNat 64 i) <<< 12)) :
    pgn.toNat = mapstart.toNat / 4096 + i := by
  have hnat := toNat_rangePgn hend hi
  rw [leafPath_inj hpgn (by omega) h, hnat]

theorem nodup_rangePaths {mapstart : AddrT} {n : ℕ} (hend : mapstart.toNat + n * 4096 ≤ 2 ^ 57) :
    ((rangePgns (mapstart >>> 12) 0 n).map fun pgn : AddrT => leafPath (pgn <<< 12)).Nodup := by
  rw [rangePgns, List.map_map]
  apply List.Nodup.map_on _ List.nodup_range'
  intro i hi j hj hsame
  have hi' : i < n := by simpa using hi
  have hj' : j < n := by simpa using hj
  have hnat := toNat_rangePgn hend hi'
  have hinj : (mapstart >>> 12 + BitVec.ofNat 64 i).toNat = mapstart.toNat / 4096 + j :=
    leafPath_rangePgn_inj hend hj' (by omega) hsame
  omega

/-- A call that returns 0 keeps the tables owned, and the PGD. -/
theorem Owned.after_vmMapRam (h : Owned k root mm mp) (hm : mm p = some m) {oom : ℕ → Bool} {mapstart : AddrT}
    {incpgnum : ℤ} {retRg rg : VmRgStruct} {m' : MmStruct} {mp' : MemphyStruct}
    (hcall : vmMapRam k oom m mp mapstart incpgnum retRg = (0, rg, m', mp')) :
    Owned k root (Function.update mm p (some m')) mp' := by
  obtain ⟨r, hr, hpgd, -⟩ := h.root_of hm
  obtain ⟨hpos, hlen, -, hloop⟩ := vmMapRam_eq_zero hcall
  have hsurv := h.survives_take incpgnum.toNat
  obtain ⟨h', rfl, -⟩ := vmapPageLoop_maps hr _ (h.sublist (List.drop_sublist _ _)) hpgd hsurv
    (by rw [List.length_take]; omega) hloop
  exact h'.setMm hm rfl

/-- The page of an address, by its number. -/
theorem leafPath_of_page {mapstart vaddr : AddrT} {n i : ℕ} (hend : mapstart.toNat + n * 4096 ≤ 2 ^ 57) (hi : i < n)
    (hpage : vaddr.toNat / 4096 = mapstart.toNat / 4096 + i) :
    leafPath vaddr = leafPath ((mapstart >>> 12 + BitVec.ofNat 64 i) <<< 12) := by
  have hnat := toNat_rangePgn hend hi
  have hsame : vaddr >>> 12 = mapstart >>> 12 + BitVec.ofNat 64 i := by
    apply BitVec.eq_of_toNat_eq
    rw [hnat, BitVec.toNat_ushiftRight, Nat.shiftRight_eq_div_pow]
    exact hpage
  rw [← hsame, leafPath_page]

/-- The size of the region does not overflow. -/
theorem toNat_rangeEnd {mapstart : AddrT} {n : ℕ} (hend : mapstart.toNat + n * 4096 ≤ 2 ^ 57) :
    (mapstart + BitVec.ofInt 64 ((n : ℤ) * paging64Pagesz)).toNat = mapstart.toNat + n * 4096 := by
  have hofInt : BitVec.ofInt 64 ((n : ℤ) * paging64Pagesz) = BitVec.ofNat 64 (n * 4096) := by
    rw [← BitVec.ofInt_natCast]
    rfl
  rw [hofInt, BitVec.toNat_add, BitVec.toNat_ofNat]
  omega

/-- **An address whose leaf stays** translates as before, in every address space. -/
theorem Rooted.translate_update (h : Rooted k root mm mp) (hm : mm p = some m) {m' : MmStruct} {mp' : MemphyStruct}
    (hpgd : m'.pgd = m.pgd) {q : ℕ} {vaddr : AddrT}
    (hkeep : ∀ {r'}, root q = some r' →
      walk (tables k mp') r' (leafPath vaddr) = walk (tables k mp) r' (leafPath vaddr)) :
    (Function.update mm p (some m') q).map (fun m => translateAddress k m mp' vaddr)
      = (mm q).map fun m => translateAddress k m mp vaddr := by
  by_cases hqp : q = p
  · subst hqp
    obtain ⟨r, hr, hbase, hra⟩ := h.root_of hm
    rw [Function.update_self, hm, Option.map_some, Option.map_some, translateAddress_walk (hpgd.trans hbase) hra,
      translateAddress_walk hbase hra, hkeep hr]
  · rw [Function.update_of_ne hqp]
    cases hq : mm q with
    | none => rfl
    | some mq =>
      obtain ⟨r, hr, hbase, hra⟩ := h.root_of hq
      rw [Option.map_some, Option.map_some, translateAddress_walk hbase hra, translateAddress_walk hbase hra, hkeep hr]

/-- **A call that returns 0 has mapped its range.** -/
theorem Owned.mapsRange (h : Owned k root mm mp) (hm : mm p = some m) {oom : ℕ → Bool} {mapstart : AddrT}
    {incpgnum : ℤ} {retRg rg : VmRgStruct} {m' : MmStruct} {mp' : MemphyStruct} (halign : mapstart.toNat % 4096 = 0)
    (hend : mapstart.toNat + incpgnum.toNat * 4096 ≤ 2 ^ 57)
    (hcall : vmMapRam k oom m mp mapstart incpgnum retRg = (0, rg, m', mp')) :
    MapsRange k mm p m mp mapstart incpgnum.toNat rg m' mp' := by
  obtain ⟨r, hr, hpgd, hra⟩ := h.root_of hm
  obtain ⟨hpos, hlen, rfl, hloop⟩ := vmMapRam_eq_zero hcall
  have hsurv := h.survives_take incpgnum.toNat
  have hframes : (mp.freeFpList.take incpgnum.toNat).length = incpgnum.toNat := by
    rw [List.length_take]
    omega
  obtain ⟨-, hm', ⟨taken, hlist, htrees⟩, hmiss, hhit⟩ := vmapPageLoop_maps hr _ (h.sublist (List.drop_sublist _ _))
    hpgd hsurv (by rw [hframes]; omega) hloop
  have hpgd' : m'.pgd = baseOf r := by rw [hm', ← hpgd]
  rw [hframes] at hm' hmiss hhit
  rw [tables_freeFpList h.rdm] at htrees hmiss
  have hsplit : mp.freeFpList = mp.freeFpList.take incpgnum.toNat ++ taken ++ mp'.freeFpList := by
    have hdrop : mp.freeFpList.drop incpgnum.toNat = taken ++ mp'.freeFpList := hlist
    rw [List.append_assoc, ← hdrop, List.take_append_drop]
  refine ⟨⟨rfl, ?_⟩, hlen, ?_, ?_, ⟨taken, hsplit, ?_, ?_⟩, ?_⟩
  · obtain ⟨n, rfl⟩ := Int.eq_ofNat_of_zero_le hpos
    exact toNat_rangeEnd hend
  · intro i hi vaddr hpage
    have hleaf := hhit (nodup_rangePaths hend) i hi
    rw [Nat.zero_add, ← leafPath_of_page hend hi hpage, List.getElem?_take_of_lt hi] at hleaf
    rw [translateAddress_walk hpgd' hra, hleaf]
    congr 1
    funext f
    exact baseOf_add_offset
  · intro q vaddr hv hout
    apply h.translate_update hm (hpgd'.trans hpgd.symm)
    intro r' hr'
    apply hmiss hr' (length_leafPath vaddr)
    rintro ⟨rfl, pgn, hpgn, hpath⟩
    obtain ⟨i, hi, rfl⟩ := List.mem_map.mp hpgn
    have hi' : i < incpgnum.toNat := by simpa using hi
    have hpage : (vaddr >>> 12).toNat = vaddr.toNat / 4096 := by
      rw [BitVec.toNat_ushiftRight, Nat.shiftRight_eq_div_pow]
    rw [← leafPath_page vaddr] at hpath
    have hinj := leafPath_rangePgn_inj hend hi' (by omega) hpath
    exact hout ⟨rfl, by omega, by omega⟩
  · have hnodup := h.forest.nodup
    rw [hsplit, List.append_assoc] at hnodup
    exact (hnodup.of_append_right).of_append_left
  · intro x
    rw [isTable_iff hpgd' hra, isTable_iff hpgd hra, htrees hr]
    constructor
    · intro hx
      refine ⟨.inr ⟨rfl, hx⟩, ?_⟩
      -- it was free before
      rintro ⟨js, hjs, hwalk⟩
      have hfree : x ∈ mp.freeFpList := by
        rw [hsplit]
        exact List.mem_append_left _ (List.mem_append_right _ hx)
      exact h.forest.off_pool hr hjs hwalk hfree
    · rintro ⟨hold | ⟨-, hx⟩, hnot⟩
      · exact absurd hold hnot
      · exact hx
  · rw [hm']

end

/-! ## The system -/

/-- The device, and the address spaces. -/
structure RamState where
  mp : MemphyStruct
  mm : ℕ → Option MmStruct

/-- A call. -/
inductive RamEvent where
  | init (p : ℕ)
  | map (p : ℕ)

/-- One call. `vm_map_ram` may be asked for anything, as long as it returns 0. -/
inductive RamStep : RamState → RamEvent → RamState → Prop where
  | init {s p m₀ m link mp} : s.mm p = none → initMm m₀ s.mp link = (0, m, mp) →
      RamStep s (.init p) ⟨mp, Function.update s.mm p (some m)⟩
  | initFails {s p m₀ m link mp} {stat : ℤ} : s.mm p = none → initMm m₀ s.mp link = (stat, m, mp) → stat ≠ 0 →
      RamStep s (.init p) { s with mp }
  | map {s p m oom mapstart incpgnum retRg rg m' mp'} : s.mm p = some m →
      vmMapRam .unsigned oom m s.mp mapstart incpgnum retRg = (0, rg, m', mp') →
      RamStep s (.map p) ⟨mp', Function.update s.mm p (some m')⟩

/-- The runs on one device. -/
def ramSystem (mp₀ : MemphyStruct) (block : AddrT → BYTE) (link : List AddrT) (maxSize : AddrT) (randomflg : ℤ) :
    Lts.System RamState RamEvent where
  init s := s = ⟨initMemphy mp₀ block link maxSize randomflg, fun _ => none⟩
  step := RamStep

/-- A call keeps the tables owned. -/
theorem owned_ramStep {root : ℕ → Option AddrT} {s t : RamState} {e : RamEvent} (h : Owned .unsigned root s.mm s.mp)
    (hst : RamStep s e t) : ∃ root', Owned .unsigned root' t.mm t.mp := by
  cases hst with
  | @init p m₀ m link mp hp hinit =>
    obtain ⟨r, howned, -⟩ := h.after_initMm p hinit
    exact ⟨_, howned⟩
  | @initFails p m₀ m link mp stat hp hinit hstat =>
    obtain ⟨-, -, rfl⟩ := initMm_failed hinit hstat
    exact ⟨root, h⟩
  | map hm hcall => exact ⟨root, h.after_vmMapRam hm hcall⟩

theorem owned_of_ramReachable {mp₀ : MemphyStruct} {block : AddrT → BYTE} {link : List AddrT} {maxSize : AddrT}
    {randomflg : ℤ} (hr : randomflg ≠ 0) (hn : numfpOf maxSize ≤ 8192) (hcover : Covered block maxSize)
    (hformat : Formatted mp₀ link maxSize) {s : RamState}
    (hs : (ramSystem mp₀ block link maxSize randomflg).Reachable s) : ∃ root, Owned .unsigned root s.mm s.mp := by
  induction hs with
  | init hinit =>
    obtain rfl := hinit
    exact ⟨_, owned_initMemphy hr hn hcover hformat⟩
  | step _ hst ih =>
    obtain ⟨root, h⟩ := ih
    exact owned_ramStep h hst

/-- **`vm_map_ram` maps what it claims**, on a formatted device, in every run of calls that succeed. -/
theorem maps_what_it_claims (mp₀ : MemphyStruct) (block : AddrT → BYTE) (link : List AddrT) (maxSize : AddrT)
    (randomflg : ℤ) (hr : randomflg ≠ 0) (hn : numfpOf maxSize ≤ 8192) (hcover : Covered block maxSize)
    (hformat : Formatted mp₀ link maxSize) (s : RamState)
    (hs : (ramSystem mp₀ block link maxSize randomflg).Reachable s) (p : ℕ) (m : MmStruct) (hm : s.mm p = some m)
    (oom : ℕ → Bool) (mapstart : AddrT) (incpgnum : ℤ) (retRg rg : VmRgStruct) (m' : MmStruct) (mp' : MemphyStruct)
    (halign : mapstart.toNat % 4096 = 0) (hpos : 0 ≤ incpgnum)
    (hend : (mapstart.toNat : ℤ) + incpgnum * 4096 ≤ 2 ^ 57)
    (hcall : vmMapRam .unsigned oom m s.mp mapstart incpgnum retRg = (0, rg, m', mp')) :
    MapsRange .unsigned s.mm p m s.mp mapstart incpgnum.toNat rg m' mp' := by
  obtain ⟨root, howned⟩ := owned_of_ramReachable hr hn hcover hformat hs
  exact howned.mapsRange hm halign (by omega) hcall

/-- With frames for the pages and for the tables, and a node for every frame, the call returns 0. -/
theorem vmMapRam_succeeds {k : CharKind} {root : ℕ → Option AddrT} {mm : ℕ → Option MmStruct} {m : MmStruct}
    {mp : MemphyStruct} {p : ℕ} (h : Owned k root mm mp) (hm : mm p = some m) {oom : ℕ → Bool} {mapstart : AddrT}
    {incpgnum : ℤ} (retRg : VmRgStruct) (hpos : 0 < incpgnum) (hnodes : NodesSuffice oom mp incpgnum)
    (hroom : incpgnum.toNat + neededTables k m mp (mapstart >>> 12) incpgnum.toNat ≤ mp.freeFpList.length) :
    ∃ rg m' mp', vmMapRam k oom m mp mapstart incpgnum retRg = (0, rg, m', mp') := by
  have hlen : incpgnum.toNat ≤ mp.freeFpList.length := (Nat.le_add_right _ _).trans hroom
  obtain ⟨mapped, rg, m', mp', hcall, hmap⟩ := @vmMapRam_enough k oom m mp mapstart incpgnum retRg hpos hnodes hlen
  have hmaps := (mapsAll_iff h.toRooted hm (fun x hx => h.cleanFrame (List.mem_of_mem_drop hx)) hpos hlen).mpr hroom
  rw [MapsAll, hmap] at hmaps
  have hall : mapped = incpgnum.toNat := hmaps
  refine ⟨rg, m', mp', ?_⟩
  rw [hcall, if_neg (by omega)]

/-- A page lacks four tables at most. -/
theorem neededTables_le {k : CharKind} {m : MmStruct} {mp : MemphyStruct} {r : AddrT} (hpgd : m.pgd = baseOf r)
    (hra : Addressable r) (start : AddrT) (n : ℕ) : neededTables k m mp start n ≤ 4 * n := by
  have hlen : (rangePaths start 0 n).length = n := by rw [rangePaths, List.length_map, List.length_range']
  have hle : (lacking (tables k mp) r (rangePaths start 0 n)).card ≤ 4 * (rangePaths start 0 n).length := by
    apply card_lacking_le
    intro is his
    obtain ⟨i, -, rfl⟩ := List.mem_map.mp his
    exact Nat.le_refl 4
  rwa [hlen, ← neededTables_eq hpgd hra] at hle

/-- The first process of a device of 16 frames maps its first three pages. -/
theorem maps_what_it_claims_three : ∃ s m rg m' mp', (ramSystem rawMp (fun _ => 0) [] 4096 1).Reachable s ∧
    s.mm 0 = some m ∧ vmMapRam .unsigned (fun _ => false) m s.mp 0 3 ⟨0, 0⟩ = (0, rg, m', mp') ∧
    MapsRange .unsigned s.mm 0 m s.mp 0 3 rg m' mp' := by
  have hsize : 2 ≤ numfpOf 4096 ∧ numfpOf 4096 ≤ 8192 ∧ (numfpOf 4096).toNat = 16 := by decide
  obtain ⟨-, m, mram, hinit, howned, hlen, -⟩ := first_process hsize.1 hsize.2.1
  have hm : Function.update (fun _ : ℕ => none) 0 (some m) 0 = some m := Function.update_self ..
  have hreach : (ramSystem rawMp (fun _ => 0) [] 4096 1).Reachable
      ⟨mram, Function.update (fun _ => none) 0 (some m)⟩ := .step (.init rfl) (.init (p := 0) rfl hinit)
  obtain ⟨r, -, hpgd, hra⟩ := howned.root_of hm
  have hneeded := @neededTables_le .unsigned m mram r hpgd hra ((0 : AddrT) >>> 12) (3 : ℤ).toNat
  have hthree : (3 : ℤ).toNat = 3 := rfl
  have hroom :
      (3 : ℤ).toNat + neededTables .unsigned m mram ((0 : AddrT) >>> 12) (3 : ℤ).toNat ≤ mram.freeFpList.length := by
    omega
  obtain ⟨rg, m', mp', hcall⟩ := vmMapRam_succeeds howned hm ⟨0, 0⟩ (by decide)
    (show NodesSuffice (fun _ => false) mram 3 from fun _ _ _ => rfl) hroom
  refine ⟨_, m, rg, m', mp', hreach, hm, hcall, ?_⟩
  exact maps_what_it_claims rawMp (fun _ => 0) [] 4096 1 (by decide) hsize.2.1 (fun _ _ _ => rfl) (.inl hsize.1) _
    hreach 0 m hm (fun _ => false) 0 3 ⟨0, 0⟩ rg m' mp' (by decide) (by decide) (by decide) hcall

/-- **One frame, and a link that happens to name a frame and the PGD**: the first page gets the frame, and the PGD
    for all its tables. -/
theorem maps_what_it_claims_fails : ¬ ∀ (mp₀ : MemphyStruct) (block : AddrT → BYTE) (link : List AddrT)
    (maxSize : AddrT) (randomflg : ℤ), randomflg ≠ 0 → numfpOf maxSize ≤ 8192 → Covered block maxSize →
      ∀ s, (ramSystem mp₀ block link maxSize randomflg).Reachable s → ∀ p m, s.mm p = some m →
        ∀ (oom : ℕ → Bool) (mapstart : AddrT) (incpgnum : ℤ) (retRg rg : VmRgStruct) (m' : MmStruct)
          (mp' : MemphyStruct), mapstart.toNat % 4096 = 0 → 0 ≤ incpgnum →
          (mapstart.toNat : ℤ) + incpgnum * 4096 ≤ 2 ^ 57 →
          vmMapRam .unsigned oom m s.mp mapstart incpgnum retRg = (0, rg, m', mp') →
            MapsRange .unsigned s.mm p m s.mp mapstart incpgnum.toNat rg m' mp' := by
  intro hall
  have hlist : (initMemphy rawMp (fun _ => 0) [5, 0] 0x100000100 1).freeFpList = [0, 5, 0] := by
    rw [initMemphy_freeFpList, if_neg (by decide), if_pos (by decide)]
  obtain ⟨m, mp, hok, hpgd, hpool, hrdm, hempty, hfive⟩ := initMm_blank hlist
  -- the page gets frame 5, and only the PGD is left
  have hleft : tables .unsigned { mp with freeFpList := [0] } = tables .unsigned mp := tables_freeFpList hrdm _
  obtain ⟨mp', hset, hnone⟩ := @pteSetFpn_self m { mp with freeFpList := [0] } hpgd hrdm rfl
    (by rw [hleft]; exact hempty) (by rw [hleft]; exact hfive)
  have hcall : vmMapRam .unsigned (fun _ => false) m mp 0 1 ⟨0, 0⟩
      = (0, ⟨0, 4096⟩, { m with fifoPgn := 0 :: m.fifoPgn }, mp') := by
    have hpage : (0 : AddrT) >>> 12 + BitVec.ofNat 64 0 = 0 := by decide
    have hframes : mp.freeFpList.take (1 : ℤ).toNat = [5] ∧ mp.freeFpList.drop (1 : ℤ).toNat = [0] := by
      rw [hpool]
      exact ⟨rfl, rfl⟩
    have hlen : ¬ mp.freeFpList.length < (1 : ℤ).toNat := by
      rw [hpool]
      decide
    have hloop : vmapPageLoop .unsigned ((0 : AddrT) >>> 12) 1 [5] 0 m { mp with freeFpList := [0] }
        = (1, false, { m with fifoPgn := 0 :: m.fifoPgn }, mp') := by
      rw [vmapPageLoop, if_pos (by decide)]
      dsimp only
      rw [hpage, hset]
      rfl
    rw [vmMapRam, allocPagesRange_eq fun _ _ _ => rfl, hframes.1, hframes.2, if_neg hlen]
    dsimp only
    rw [if_neg (by decide), if_neg (by decide), if_neg (lt_irrefl _), vmapPageRange, hloop]
    rfl
  have hreach := Lts.System.Reachable.init (T := ramSystem rawMp (fun _ => 0) [5, 0] 0x100000100 1) rfl
  have hm : Function.update (fun _ : ℕ => none) 0 (some m) 0 = some m := Function.update_self ..
  have hmaps := hall rawMp (fun _ => 0) [5, 0] 0x100000100 1 (by decide) (by decide) (fun _ _ _ => rfl) _
    (hreach.step (.init (p := 0) rfl hok)) 0 m hm _ 0 1 _ _ _ _ (by decide) (by decide) (by decide) hcall
  have hpage := hmaps.pages 0 (by decide) 0 (by decide)
  have hfirst : mp.freeFpList[0]? = some 5 := by rw [hpool]; rfl
  rw [hfirst] at hpage
  have hpage' : translateAddress .unsigned m mp' 0 = some (BitVec.ofNat 64 (5 * 4096)) := hpage
  rw [hnone] at hpage'
  cases hpage'

end LamiaAtrium
