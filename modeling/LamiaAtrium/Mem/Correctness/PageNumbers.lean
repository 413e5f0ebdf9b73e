import LamiaAtrium.Mem.Correctness.Replacement
import LamiaAtrium.Mem.MapRam

/-!
# `Mem.Correctness.PageNumbers` — which page is an address on?

`vmap_page_range`, `vmap_pgd_memset` and `translate_address` cut an address at bit 12. `pg_getval` and `pg_setval`
narrow it to an `int` and cut it with the macros of the 22-bit scheme, at bit 8.

* `AccessesPage`, `MapsPage`, `LooksUpPage` say for each side what it does with an address, so that the page number
  is the one that shows in the result (`accessesPage_iff`, `mapsPage_iff`).
* `pagesAgree_iff`: below 2^57 the sides agree on sixteen blocks of 256 bytes.
-/

namespace LamiaAtrium

/-! ## The page of an address, on each side -/

/-- `pg_getval` and `pg_setval` ask `pg_getpage` for page `pgn`. -/
def AccessesPage (addr pgn : AddrT) : Prop := ∃ p : BitVec 32, p.signExtend 64 = pgn ∧
  ∀ k (s : Kernel) x data,
    s.pgGetval k x (addr.setWidth 32) data
        = (do let (fpn, s) ← s.pgGetpage k x p; .ok (if fpn.isSome then 0 else -1, data, s)) ∧
      s.pgSetval k x (addr.setWidth 32) data
        = (do let (fpn, s) ← s.pgGetpage k x p; .ok (if fpn.isSome then 0 else -1, s))

/-- `vmap_pgd_memset` and `vmap_page_range` of a single page set the entry of page `pgn`, and the second one enlists
    it. -/
def MapsPage (addr pgn : AddrT) : Prop := ∀ k mm mp fpn,
  vmapPgdMemset k mm mp addr 1
      = (if (pteSetFpn k mm mp pgn 0).1 ≠ 0 then -1 else 0, (pteSetFpn k mm mp pgn 0).2) ∧
    (vmapPageRange k mm mp addr 1 [fpn]).2.2
      = (if (pteSetFpn k mm mp pgn fpn).1 ≠ 0 then mm else { mm with fifoPgn := enlistPgnNode mm.fifoPgn pgn },
          (pteSetFpn k mm mp pgn fpn).2)

/-- `translate_address` reads the entry of page `pgn`. -/
def LooksUpPage (addr pgn : AddrT) : Prop := ∀ k mm mp,
  translateAddress k mm mp addr
    = (getPteAddress k mm mp pgn).bind fun pteAddr =>
        if entryPresent (get32bitEntry k mp pteAddr) then
          some (entryBase (get32bitEntry k mp pteAddr) + (addr &&& 0xFFF#64))
        else none

section

variable {addr pgn : AddrT}

/-- `PAGING_PGN` of the narrowed address. -/
def accessorPgn (addr : AddrT) : AddrT := (pagingPgn (addr.setWidth 32)).signExtend 64

/-- Two pages on the list, a swap frame, and a RAM of zero bytes: no page is present. -/
def blankListed : Kernel := { twoListedSwap with mram := { rawMp with rdmflg := true } }

/-- A fault in this state enlists the page that was asked for. -/
theorem fifo_of_fault (p : BitVec 32) : ∃ fpn t mm, blankListed.pgGetpage .unsigned 0 p = .ok (some fpn, t) ∧
    t.mm 0 = some mm ∧ mm.fifoPgn.head? = some (p.signExtend 64) := by
  have hm : blankListed.mm 0 = some listedMm := rfl
  have habsent : resident .unsigned blankListed listedMm p = false := by
    have hzero : ∀ a, get32bitEntry .unsigned blankListed.mram a = 0 := by
      intro a
      exact get32bitEntry_of_blank rfl fun _ _ => rfl
    have hnone : getPteAddress .unsigned listedMm blankListed.mram (p.signExtend 64) = none := by
      rw [getPteAddress, PdIndices.upper, walkTables, hzero, if_neg (by decide)]
    rw [resident, pteGetEntry, hnone]
    decide
  obtain ⟨vicpgn, rest, -, ⟨hnil, -⟩ | ⟨-, mswp, hget⟩⟩ := pgGetpage_of_two hm habsent (Nat.lt_irrefl 2)
  · cases hnil
  · exact ⟨_, _, _, hget, Kernel.mm_setMm_self .., rfl⟩

/-- **The accessors use bits 8 to 21.** -/
theorem accessesPage_iff : AccessesPage addr pgn ↔ pgn = accessorPgn addr := by
  constructor
  · rintro ⟨p, rfl, hsame⟩
    -- after a fault the page number is on the list
    obtain ⟨fpn, t, mm, hget, hmm, hhead⟩ := fifo_of_fault p
    obtain ⟨fpn', t', mm', hget', hmm', hhead'⟩ := fifo_of_fault (pagingPgn (addr.setWidth 32))
    have hset := (hsame .unsigned blankListed 0 0).2
    rw [Kernel.pgSetval, hget, hget'] at hset
    obtain ⟨-, rfl⟩ := Prod.mk.inj (Except.ok.inj hset)
    obtain rfl := Option.some.inj (hmm'.symm.trans hmm)
    exact Option.some.inj (hhead.symm.trans hhead')
  · rintro rfl
    exact ⟨_, rfl, fun _ _ _ _ => ⟨rfl, rfl⟩⟩

/-- On a sequential device every entry looks present, so no table is missing. -/
theorem allocTables_of_seq {k : CharKind} {mp : MemphyStruct} (h : mp.rdmflg = false) (is : List AddrT) :
    ∀ base, ∃ b, allocTables k mp base is = (some b, mp) := by
  induction is with
  | nil =>
    intro base
    exact ⟨base, rfl⟩
  | cons idx is ih =>
    intro base
    rw [allocTables, get32bitEntry_of_seq h, if_pos (by decide)]
    exact ih _

theorem pteSetFpn_of_seq {k : CharKind} {mm : MmStruct} {mp : MemphyStruct} (h : mp.rdmflg = false) (pgn fpn : AddrT) :
    (pteSetFpn k mm mp pgn fpn).1 = 0 := by
  obtain ⟨b, halloc⟩ := @allocTables_of_seq k mp h (getPdFromPagenum pgn).upper mm.pgd
  rw [pteSetFpn, halloc]

theorem mapsPage_shift (addr : AddrT) : MapsPage addr (addr >>> 12) := by
  intro k mm mp fpn
  constructor
  · show vmapPgdLoop k mm 1 mp (addr >>> 12) = _
    rw [vmapPgdLoop]
    dsimp only
    by_cases hstat : (pteSetFpn k mm mp (addr >>> 12) 0).1 = 0
    · rw [if_neg (not_not.mpr hstat), if_neg (not_not.mpr hstat)]
      rfl
    · rw [if_pos hstat, if_pos hstat]
  · have hpage : addr >>> 12 + BitVec.ofNat 64 0 = addr >>> 12 := BitVec.add_zero _
    rw [vmapPageRange, vmapPageLoop, if_pos (by decide), hpage]
    dsimp only
    by_cases hstat : (pteSetFpn k mm mp (addr >>> 12) fpn).1 = 0
    · rw [if_neg (not_not.mpr hstat), if_neg (not_not.mpr hstat)]
      rfl
    · rw [if_pos hstat, if_pos hstat]

/-- **The mappers use the bits from 12 on.** -/
theorem mapsPage_iff : MapsPage addr pgn ↔ pgn = addr >>> 12 := by
  constructor
  · intro h
    have hlisted := (h .signed rawMm rawMp 0).2
    rw [((mapsPage_shift addr) .signed rawMm rawMp 0).2, pteSetFpn_of_seq rfl, pteSetFpn_of_seq rfl] at hlisted
    have hfifo := congrArg (fun r => r.1.fifoPgn) hlisted
    exact (List.cons.inj hfifo).1.symm
  · rintro rfl
    exact mapsPage_shift addr

/-- The indices of a page are those of its addresses. -/
theorem getPdFromPagenum_shift (addr : AddrT) : getPdFromPagenum (addr >>> 12) = getPdFromAddress addr := by
  have hpath := leafPath_page addr
  have hidx : ∀ a : AddrT, getPdFromAddress a = ⟨idxOf (levelIdx 48 a), idxOf (levelIdx 39 a), idxOf (levelIdx 30 a),
      idxOf (levelIdx 21 a), idxOf (levelIdx 12 a)⟩ := by
    intro a
    simp only [getPdFromAddress, pagingAddrPgd, pagingAddrP4d, pagingAddrPud, pagingAddrPmd, pagingAddrPt,
      field_eq a (genmask64 56 48) 48 (by decide), field_eq a (genmask64 47 39) 39 (by decide),
      field_eq a (genmask64 38 30) 30 (by decide), field_eq a (genmask64 29 21) 21 (by decide),
      field_eq a (genmask64 20 12) 12 (by decide)]
  simp only [leafPath, upperPath, List.cons_append, List.nil_append, List.cons.injEq, and_true] at hpath
  rw [getPdFromPagenum, hidx, hidx, hpath.1, hpath.2.1, hpath.2.2.1, hpath.2.2.2.1, hpath.2.2.2.2]

/-- So does the translation. -/
theorem looksUpPage_shift (addr : AddrT) : LooksUpPage addr (addr >>> 12) := by
  intro k mm mp
  rw [translateAddress, getPteAddress, getPdFromPagenum_shift]
  cases walkTables k mp mm.pgd (getPdFromAddress addr).upper with
  | none => rfl
  | some ptBase => rfl

end

/-! ## Agreement -/

/-- The accessors, the mappers and the translation use one page number for the address. -/
def PageAgreed (addr : AddrT) : Prop := ∃ pgn, AccessesPage addr pgn ∧ MapsPage addr pgn ∧ LooksUpPage addr pgn

/-- **What should hold of any two addresses**: each has one page number, and the accessors consult the same entry for
    both exactly when they are on the same mapped page. -/
structure PagesAgree (a b : AddrT) : Prop where
  left : PageAgreed a
  right : PageAgreed b
  sameEntry : ∀ pa pb qa qb, MapsPage a pa → MapsPage b pb → AccessesPage a qa → AccessesPage b qb →
    (pa = pb ↔ getPdFromPagenum qa = getPdFromPagenum qb)

/-- **The sixteen blocks** of 256 bytes whose number `n` is right in both schemes: `n % 2^14 = n / 16`. -/
def InBlock (addr : AddrT) : Prop := ∃ m ≤ 15, addr.toNat / 256 = (2 ^ 18 * m - 1) / 15

theorem toNat_accessorPgn (addr : AddrT) : (accessorPgn addr).toNat = addr.toNat / 256 % 2 ^ 14 := by
  have hmask : genmask 21 8 >>> 8 = 0x3FFF#32 := by decide
  have hpgn : (pagingPgn (addr.setWidth 32)).toNat = addr.toNat / 256 % 2 ^ 14 := by
    rw [pagingPgn, BitVec.ushiftRight_and_distrib, hmask, BitVec.toNat_and, BitVec.toNat_ushiftRight,
      Nat.shiftRight_eq_div_pow, BitVec.toNat_setWidth]
    have hmod : addr.toNat % 2 ^ 32 / 2 ^ 8 &&& (0x3FFF#32).toNat = addr.toNat % 2 ^ 32 / 2 ^ 8 % 2 ^ 14 :=
      Nat.and_two_pow_sub_one_eq_mod _ 14
    rw [hmod]
    omega
  rw [accessorPgn, signExtend_of_lt (by rw [hpgn]; omega), BitVec.toNat_setWidth, hpgn]
  omega

/-- **Page numbers agree on the sixteen blocks.** -/
theorem accessorPgn_eq_iff {addr : AddrT} : accessorPgn addr = addr >>> 12 ↔ InBlock addr := by
  have hnat : accessorPgn addr = addr >>> 12 ↔ addr.toNat / 256 % 2 ^ 14 = addr.toNat / 256 / 16 := by
    rw [← BitVec.toNat_inj, toNat_accessorPgn, BitVec.toNat_ushiftRight, Nat.shiftRight_eq_div_pow,
      Nat.div_div_eq_div_mul]
  rw [hnat, InBlock]
  generalize addr.toNat / 256 = n
  constructor
  · intro heq
    have hm : n / 2 ^ 14 ≤ 15 := by omega
    refine ⟨n / 2 ^ 14, hm, ?_⟩
    generalize hblock : n / 2 ^ 14 = m at hm
    interval_cases m <;> omega
  · rintro ⟨m, hm, rfl⟩
    interval_cases m <;> rfl

/-- **Mapper and accessor agree exactly on the sixteen blocks.** -/
theorem pageAgreed_iff {addr : AddrT} : PageAgreed addr ↔ InBlock addr := by
  rw [← accessorPgn_eq_iff]
  constructor
  · rintro ⟨pgn, haccess, hmap, -⟩
    rw [← accessesPage_iff.mp haccess, mapsPage_iff.mp hmap]
  · intro heq
    exact ⟨addr >>> 12, accessesPage_iff.mpr heq.symm, mapsPage_shift addr, looksUpPage_shift addr⟩

/-- Different pages below 2^57 have different entries. -/
theorem getPdFromPagenum_inj {p q : AddrT} (hp : p.toNat < 2 ^ 45) (hq : q.toNat < 2 ^ 45)
    (h : getPdFromPagenum p = getPdFromPagenum q) : p = q := by
  apply leafPath_inj hp hq
  have hidx : ∀ {i j : Fin 512}, idxOf i = idxOf j → i = j := by
    intro i j hij
    have hnat := congrArg BitVec.toNat hij
    rw [idxOf, idxOf, BitVec.toNat_ofNat, BitVec.toNat_ofNat] at hnat
    exact Fin.ext (by omega)
  have hupper := congrArg PdIndices.upper h
  rw [getPdFromPagenum, getPdFromPagenum, upper_getPdFromAddress, upper_getPdFromAddress] at hupper
  have hpt := congrArg PdIndices.pt h
  rw [getPdFromPagenum, getPdFromPagenum, pt_getPdFromAddress, pt_getPdFromAddress] at hpt
  rw [leafPath, leafPath, List.map_injective_iff.mpr (fun _ _ => hidx) hupper, hidx hpt]

/-- **Two addresses below 2^57 are treated alike by all sides exactly when both are in one of the sixteen blocks.** -/
theorem pagesAgree_iff (a b : AddrT) (ha : a.toNat < 2 ^ 57) (hb : b.toNat < 2 ^ 57) :
    PagesAgree a b ↔ InBlock a ∧ InBlock b := by
  constructor
  · rintro ⟨hleft, hright, -⟩
    exact ⟨pageAgreed_iff.mp hleft, pageAgreed_iff.mp hright⟩
  · rintro ⟨hina, hinb⟩
    refine ⟨pageAgreed_iff.mpr hina, pageAgreed_iff.mpr hinb, ?_⟩
    intro pa pb qa qb hpa hpb hqa hqb
    rw [mapsPage_iff.mp hpa, mapsPage_iff.mp hpb, accessesPage_iff.mp hqa, accessesPage_iff.mp hqb,
      accessorPgn_eq_iff.mpr hina, accessorPgn_eq_iff.mpr hinb]
    constructor
    · intro heq
      rw [heq]
    · intro heq
      have hpage : ∀ {c : AddrT}, c.toNat < 2 ^ 57 → (c >>> 12).toNat < 2 ^ 45 := by
        intro c hc
        rw [BitVec.toNat_ushiftRight, Nat.shiftRight_eq_div_pow]
        omega
      exact getPdFromPagenum_inj (hpage ha) (hpage hb) heq

/-- The first and the second block: addresses 10 and 17476 * 256. -/
theorem pagesAgree_iff_blocks : PagesAgree 10 4473856 :=
  (pagesAgree_iff 10 4473856 (by decide) (by decide)).mpr ⟨⟨0, by decide, by decide⟩, ⟨1, by decide, by decide⟩⟩

/-- Address 256 is on page 0, and the accessors ask for page 1. -/
theorem pagesAgree_fails : ¬ ∀ a b : AddrT, a.toNat < 2 ^ 57 → b.toNat < 2 ^ 57 → PagesAgree a b := by
  intro h
  obtain ⟨pgn, haccess, hmap, -⟩ := (h 256 256 (by decide) (by decide)).left
  have hpgn := (accessesPage_iff.mp haccess).symm.trans (mapsPage_iff.mp hmap)
  exact absurd hpgn (by decide)

end LamiaAtrium
