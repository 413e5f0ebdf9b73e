import LamiaAtrium.Mem.RunAccess
import LamiaAtrium.Mem.Correctness.Enough

/-!
# `Mem.Correctness.PartOf` — a device and more free frames

`mm64.c` takes frames from the front of the free list, so what it does does not depend on how many more there are.

* `PartOf spare mp mp'`: `mp` is the device `mp'` without the last of its free frames.
* The functions of `mm64.c` do the same on both, and touch the same bytes, as long as the frames of `mp` are enough.
-/

namespace LamiaAtrium

/-- `mp` is `mp'` without the free frames `spare`. -/
structure PartOf (spare : List AddrT) (mp mp' : MemphyStruct) : Prop where
  rdmflg : mp'.rdmflg = mp.rdmflg
  storage : mp'.storage = mp.storage
  freeFpList : mp'.freeFpList = mp.freeFpList ++ spare

section

variable {k : CharKind} {spare : List AddrT} {mp mp' : MemphyStruct} {m : MmStruct}

theorem PartOf.write (h : PartOf spare mp mp') (a : AddrT) (b : BYTE) :
    PartOf spare (memphyWriteIgn mp a b) (memphyWriteIgn mp' a b) := by
  cases hrdm : mp.rdmflg with
  | true =>
    rw [memphyWriteIgn_of_rdm hrdm, memphyWriteIgn_of_rdm (h.rdmflg.trans hrdm), h.storage]
    exact ⟨h.rdmflg, rfl, h.freeFpList⟩
  | false =>
    rw [memphyWriteIgn_of_seq hrdm, memphyWriteIgn_of_seq (h.rdmflg.trans hrdm)]
    exact h

theorem PartOf.putEntryBytes (h : PartOf spare mp mp') (addr v : AddrT) :
    PartOf spare (LamiaAtrium.putEntryBytes mp addr v) (LamiaAtrium.putEntryBytes mp' addr v) := by
  simp only [LamiaAtrium.putEntryBytes, putBytesLoop]
  exact (((h.write _ _).write _ _).write _ _).write _ _

theorem PartOf.clearLoop (base : AddrT) (n : ℕ) : ∀ {mp mp' : MemphyStruct} {i : ℕ}, PartOf spare mp mp' →
    PartOf spare (LamiaAtrium.clearLoop base i n mp) (LamiaAtrium.clearLoop base i n mp') := by
  induction n with
  | zero =>
    intro mp mp' i h
    exact h
  | succ n ih =>
    intro mp mp' i h
    rw [LamiaAtrium.clearLoop, LamiaAtrium.clearLoop]
    exact ih (h.write _ _)

theorem PartOf.get32bitEntry (h : PartOf spare mp mp') (addr : AddrT) :
    LamiaAtrium.get32bitEntry k mp' addr = LamiaAtrium.get32bitEntry k mp addr := by
  cases hrdm : mp.rdmflg with
  | true => rw [get32bitEntry_of_rdm hrdm, get32bitEntry_of_rdm (h.rdmflg.trans hrdm), h.storage]
  | false => rw [get32bitEntry_of_seq hrdm, get32bitEntry_of_seq (h.rdmflg.trans hrdm)]

theorem PartOf.memphyAccess (h : PartOf spare mp mp') (addr : AddrT) :
    LamiaAtrium.memphyAccess mp' addr = LamiaAtrium.memphyAccess mp addr := by
  rw [LamiaAtrium.memphyAccess, LamiaAtrium.memphyAccess, h.rdmflg]

theorem PartOf.entryAccess (h : PartOf spare mp mp') (addr : AddrT) :
    LamiaAtrium.entryAccess mp' addr = LamiaAtrium.entryAccess mp addr := by
  simp only [LamiaAtrium.entryAccess, h.memphyAccess]

/-- The frame that is taken is the same. -/
theorem PartOf.take (h : PartOf spare mp mp') {fpn : AddrT} {rest : List AddrT} (hlist : mp.freeFpList = fpn :: rest) :
    mp'.freeFpList = fpn :: (rest ++ spare) ∧
      PartOf spare { mp with freeFpList := rest } { mp' with freeFpList := rest ++ spare } :=
  ⟨by rw [h.freeFpList, hlist, List.cons_append], h.rdmflg, h.storage, rfl⟩

/-- **The tables on the way.** -/
theorem PartOf.allocTables (is : List AddrT) : ∀ {mp mp' : MemphyStruct} {base : AddrT}, PartOf spare mp mp' →
    is.length ≤ mp.freeFpList.length →
      (LamiaAtrium.allocTables k mp' base is).1 = (LamiaAtrium.allocTables k mp base is).1 ∧
        PartOf spare (LamiaAtrium.allocTables k mp base is).2 (LamiaAtrium.allocTables k mp' base is).2 ∧
        allocAccess k mp' base is = allocAccess k mp base is := by
  induction is with
  | nil =>
    intro mp mp' base h _
    exact ⟨rfl, h, rfl⟩
  | cons idx is ih =>
    intro mp mp' base h hroom
    rw [List.length_cons] at hroom
    rw [LamiaAtrium.allocTables, LamiaAtrium.allocTables, allocAccess, allocAccess, h.get32bitEntry, h.entryAccess]
    by_cases hpresent : entryPresent (LamiaAtrium.get32bitEntry k mp (base + idx * 4)) = true
    · rw [if_pos hpresent, if_pos hpresent, if_pos hpresent, if_pos hpresent]
      obtain ⟨hres, hpart, hlist⟩ := ih h (by omega)
      exact ⟨hres, hpart, by rw [hlist]⟩
    · rw [if_neg hpresent, if_neg hpresent, if_neg hpresent, if_neg hpresent]
      cases hpool : mp.freeFpList with
      | nil =>
        rw [hpool] at hroom
        cases hroom
      | cons fpn rest =>
        obtain ⟨hpool', hpart⟩ := h.take hpool
        rw [memphyGetFreefp_cons hpool, memphyGetFreefp_cons hpool']
        rw [hpool, List.length_cons] at hroom
        have hroom' : is.length ≤ (LamiaAtrium.putEntryBytes { mp with freeFpList := rest } (base + idx * 4)
            (tableEntry fpn)).freeFpList.length := by
          rw [freeFpList_putEntryBytes]
          exact Nat.le_of_succ_le_succ hroom
        obtain ⟨hres, hpart', hlist⟩ := ih (hpart.putEntryBytes (base + idx * 4) (tableEntry fpn)) hroom'
        refine ⟨hres, hpart', ?_⟩
        dsimp only
        rw [hlist, hpart.entryAccess]

/-- **`pte_set_fpn`.** -/
theorem PartOf.pteSetFpn (h : PartOf spare mp mp') (hroom : 4 ≤ mp.freeFpList.length) (pgn fpn : AddrT) :
    (LamiaAtrium.pteSetFpn k m mp' pgn fpn).1 = (LamiaAtrium.pteSetFpn k m mp pgn fpn).1 ∧
      PartOf spare (LamiaAtrium.pteSetFpn k m mp pgn fpn).2 (LamiaAtrium.pteSetFpn k m mp' pgn fpn).2 ∧
      pteSetFpnAccess k m mp' pgn = pteSetFpnAccess k m mp pgn := by
  obtain ⟨hres, hpart, hlist⟩ := @PartOf.allocTables k spare (getPdFromPagenum pgn).upper mp mp' m.pgd h hroom
  rw [LamiaAtrium.pteSetFpn, LamiaAtrium.pteSetFpn, pteSetFpnAccess, pteSetFpnAccess, hlist]
  generalize LamiaAtrium.allocTables k mp m.pgd (getPdFromPagenum pgn).upper = r at hres hpart ⊢
  generalize LamiaAtrium.allocTables k mp' m.pgd (getPdFromPagenum pgn).upper = r' at hres hpart ⊢
  obtain ⟨o, mp₁⟩ := r
  obtain ⟨o', mp₁'⟩ := r'
  obtain rfl : o' = o := hres
  cases o' with
  | none => exact ⟨rfl, hpart, rfl⟩
  | some ptBase =>
    dsimp only at hpart ⊢
    rw [hpart.get32bitEntry, hpart.entryAccess]
    exact ⟨rfl, hpart.putEntryBytes _ _, rfl⟩

/-- **A map.** -/
theorem PartOf.vmapPgdLoop (n : ℕ) : ∀ {mp mp' : MemphyStruct} {pgn : AddrT}, PartOf spare mp mp' →
    4 * n ≤ mp.freeFpList.length →
      PartOf spare (LamiaAtrium.vmapPgdLoop k m n mp pgn).2 (LamiaAtrium.vmapPgdLoop k m n mp' pgn).2 ∧
        vmapPgdAccess k m n mp' pgn = vmapPgdAccess k m n mp pgn := by
  induction n with
  | zero =>
    intro mp mp' pgn h _
    exact ⟨h, rfl⟩
  | succ n ih =>
    intro mp mp' pgn h hroom
    have htakes := pteSetFpn_takes (k := k) m mp pgn 0
    obtain ⟨hres, hpart, hlist⟩ := h.pteSetFpn (k := k) (m := m) (by omega) pgn 0
    rw [LamiaAtrium.vmapPgdLoop, LamiaAtrium.vmapPgdLoop, vmapPgdAccess, vmapPgdAccess, hlist]
    generalize LamiaAtrium.pteSetFpn k m mp pgn 0 = r at htakes hres hpart ⊢
    generalize LamiaAtrium.pteSetFpn k m mp' pgn 0 = r' at hres hpart ⊢
    obtain ⟨stat, mp₁⟩ := r
    obtain ⟨stat', mp₁'⟩ := r'
    obtain rfl : stat' = stat := hres
    dsimp only at htakes hpart ⊢
    by_cases hstat : stat' = 0
    · rw [if_neg (not_not.mpr hstat), if_neg (not_not.mpr hstat), if_neg (not_not.mpr hstat),
        if_neg (not_not.mpr hstat)]
      obtain ⟨hmore, hlist'⟩ := ih hpart (by omega)
      exact ⟨hmore, by rw [hlist']⟩
    · rw [if_pos hstat, if_pos hstat, if_pos hstat, if_pos hstat]
      exact ⟨hpart, rfl⟩

/-- **`init_mm`.** -/
theorem PartOf.initMm (h : PartOf spare mp mp') (hroom : mp.freeFpList ≠ []) {m₀ : MmStruct} {link : List VmRgStruct}
    {stat : ℤ} {mram : MemphyStruct} (hinit : initMm m₀ mp' link = (stat, m, mram)) :
    ∃ mp₁, LamiaAtrium.initMm m₀ mp link = (0, m, mp₁) ∧ PartOf spare mp₁ mram := by
  obtain ⟨fpn, rest, hpool⟩ := List.exists_cons_of_ne_nil hroom
  obtain ⟨hpool', hpart⟩ := h.take hpool
  rw [LamiaAtrium.initMm, memphyGetFreefp_cons hpool'] at hinit
  obtain ⟨-, hinit⟩ := Prod.mk.inj hinit
  obtain ⟨rfl, rfl⟩ := Prod.mk.inj hinit
  rw [LamiaAtrium.initMm, memphyGetFreefp_cons hpool]
  exact ⟨_, rfl, hpart.clearLoop _ _⟩

theorem PartOf.initMmAccess (h : PartOf spare mp mp') (hroom : mp.freeFpList ≠ []) :
    LamiaAtrium.initMmAccess mp' = LamiaAtrium.initMmAccess mp := by
  obtain ⟨fpn, rest, hpool⟩ := List.exists_cons_of_ne_nil hroom
  obtain ⟨hpool', hpart⟩ := h.take hpool
  rw [LamiaAtrium.initMmAccess, LamiaAtrium.initMmAccess, memphyGetFreefp_cons hpool, memphyGetFreefp_cons hpool']
  simp only [hpart.memphyAccess]

theorem PartOf.walkAccess (h : PartOf spare mp mp') (is : List AddrT) : ∀ (base : AddrT),
    LamiaAtrium.walkAccess k mp' base is = LamiaAtrium.walkAccess k mp base is ∧
      walkTables k mp' base is = walkTables k mp base is := by
  induction is with
  | nil => exact fun _ => ⟨rfl, rfl⟩
  | cons idx is ih =>
    intro base
    obtain ⟨haccess, hwalk⟩ := ih (entryBase (LamiaAtrium.get32bitEntry k mp (base + idx * 4)))
    rw [LamiaAtrium.walkAccess, LamiaAtrium.walkAccess, walkTables, walkTables, h.get32bitEntry, h.entryAccess, haccess,
      hwalk]
    exact ⟨rfl, rfl⟩

theorem PartOf.pteGetEntryAccess (h : PartOf spare mp mp') (pgn : AddrT) :
    LamiaAtrium.pteGetEntryAccess k m mp' pgn = LamiaAtrium.pteGetEntryAccess k m mp pgn := by
  obtain ⟨haccess, hwalk⟩ := h.walkAccess (k := k) (getPdFromPagenum pgn).upper m.pgd
  have haddr : getPteAddress k m mp' pgn = getPteAddress k m mp pgn := by rw [getPteAddress, getPteAddress, hwalk]
  rw [LamiaAtrium.pteGetEntryAccess, LamiaAtrium.pteGetEntryAccess, getPteAccess, getPteAccess, haccess, haddr]
  simp only [h.entryAccess]

theorem PartOf.printAccess (h : PartOf spare mp mp') (is : List AddrT) : ∀ base : AddrT,
    LamiaAtrium.printAccess k mp' base is = LamiaAtrium.printAccess k mp base is := by
  induction is with
  | nil => exact fun _ => rfl
  | cons idx is ih =>
    intro base
    rw [LamiaAtrium.printAccess, LamiaAtrium.printAccess, h.get32bitEntry, h.entryAccess, ih]

theorem PartOf.printPgtblAccess (h : PartOf spare mp mp') (start : AddrT) :
    LamiaAtrium.printPgtblAccess k m mp' start = LamiaAtrium.printPgtblAccess k m mp start :=
  h.printAccess _ _

end

end LamiaAtrium
