import LamiaAtrium.Mem.Syscall
import LamiaAtrium.Mem.Tables

/-!
# `Mem.Access` — which bytes of a device the functions of `mm64.c` and `sys_mem.c` touch

`MEMPHY_read` and `MEMPHY_write` index the storage with the address that they are given. For each function there
is the list of these indices, in the order of the source.

* `AgreeOn A`: two devices have the same bytes at the indices in `A`.
* The `_local` lemmas say that a list is complete: devices that agree on the indices of a call give the same
  result, the same indices, and agree afterwards; the `_frame` lemmas say that no other byte changes.
-/

namespace LamiaAtrium

/-- `MEMPHY_read` and `MEMPHY_write`: a sequential device refuses both before the storage is touched. -/
def memphyAccess (mp : MemphyStruct) (addr : AddrT) : List AddrT := if mp.rdmflg then [addr] else []

/-- `get_32bit_entry`, and the loop that writes an entry. -/
def entryAccess (mp : MemphyStruct) (addr : AddrT) : List AddrT :=
  (List.range 4).flatMap fun i => memphyAccess mp (addr + BitVec.ofNat 64 i)

/-- The descent of `translate_address` and `get_pte_address`. -/
def walkAccess (k : CharKind) (mp : MemphyStruct) : AddrT → List AddrT → List AddrT
  | _, []           => []
  | base, idx :: is =>
    entryAccess mp (base + idx * 4) ++
      if entryPresent (get32bitEntry k mp (base + idx * 4)) then
        walkAccess k mp (entryBase (get32bitEntry k mp (base + idx * 4))) is
      else []

/-- `get_pte_address`. -/
def getPteAccess (k : CharKind) (mm : MmStruct) (mp : MemphyStruct) (pgn : AddrT) : List AddrT :=
  walkAccess k mp mm.pgd (getPdFromPagenum pgn).upper

/-- `translate_address`. -/
def translateAccess (k : CharKind) (mm : MmStruct) (mp : MemphyStruct) (vaddr : AddrT) : List AddrT :=
  walkAccess k mp mm.pgd (getPdFromAddress vaddr).upper ++
    match walkTables k mp mm.pgd (getPdFromAddress vaddr).upper with
    | none        => []
    | some ptBase => entryAccess mp (ptBase + (getPdFromAddress vaddr).pt * 4)

/-- `init_mm`. -/
def initMmAccess (mp : MemphyStruct) : List AddrT :=
  match memphyGetFreefp mp with
  | none           => []
  | some (fpn, mp) => (List.range paging64Pagesz).flatMap fun i =>
      memphyAccess mp (fpn * BitVec.ofNat 64 paging64Pagesz + BitVec.ofNat 64 i)

/-- Levels 1 to 4 of `pte_set_fpn`: an entry is read, and written when its table is missing. -/
def allocAccess (k : CharKind) : MemphyStruct → AddrT → List AddrT → List AddrT
  | _, _, []            => []
  | mp, base, idx :: is =>
    entryAccess mp (base + idx * 4) ++
      if entryPresent (get32bitEntry k mp (base + idx * 4)) then
        allocAccess k mp (entryBase (get32bitEntry k mp (base + idx * 4))) is
      else
        match memphyGetFreefp mp with
        | none           => []
        | some (fpn, mp) =>
          entryAccess mp (base + idx * 4) ++
            allocAccess k (putEntryBytes mp (base + idx * 4) (tableEntry fpn)) (entryBase (tableEntry fpn)) is

/-- `pte_set_fpn`: besides, the leaf entry is read and written. -/
def pteSetFpnAccess (k : CharKind) (mm : MmStruct) (mp : MemphyStruct) (pgn : AddrT) : List AddrT :=
  allocAccess k mp mm.pgd (getPdFromPagenum pgn).upper ++
    match allocTables k mp mm.pgd (getPdFromPagenum pgn).upper with
    | (none, _)         => []
    | (some ptBase, mp) =>
      entryAccess mp (ptBase + (getPdFromPagenum pgn).pt * 4) ++
        entryAccess mp (ptBase + (getPdFromPagenum pgn).pt * 4)

/-- `n` turns of the loop of `vmap_pgd_memset`. -/
def vmapPgdAccess (k : CharKind) (mm : MmStruct) : ℕ → MemphyStruct → AddrT → List AddrT
  | 0,     _,  _   => []
  | n + 1, mp, pgn =>
    pteSetFpnAccess k mm mp pgn ++
      match pteSetFpn k mm mp pgn 0 with
      | (stat, mp) => if stat ≠ 0 then [] else vmapPgdAccess k mm n mp (pgn + 1)

/-- One side of `__swap_cp_page`: the bytes of a frame, in the unit that swapping uses. -/
def swapAccess (mp : MemphyStruct) (fpn : AddrT) : List AddrT :=
  (List.range pagingPagesz).flatMap fun i =>
    memphyAccess mp (fpn * BitVec.ofNat 64 pagingPagesz + BitVec.ofNat 64 i)

/-- The bytes that a call of `__sys_memmap` touches, on each of the two devices. -/
structure DeviceAccess where
  mram : List AddrT
  activeMswp : List AddrT

/-- `__sys_memmap`. -/
def sysMemmapAccess (k : CharKind) (sched : SchedState ℕ) (s : Kernel) (pid : BitVec 32) (regs : ScRegs) :
    DeviceAccess :=
  match Kernel.findPcbByPid sched pid with
  | none => ⟨[], []⟩
  | some caller =>
    match (regs.a1.setWidth 32 : BitVec 32) with
    | 1#32 => -- SYSMEM_MAP_OP
      match s.mm caller with
      | none    => ⟨[], []⟩
      | some mm => ⟨vmapPgdAccess k mm (regs.a3.setWidth 32).toInt.toNat s.mram (regs.a2 >>> 12), []⟩
    | 3#32 => ⟨swapAccess s.mram regs.a2, swapAccess s.activeMswp regs.a3⟩ -- SYSMEM_SWP_OP
    | 4#32 => ⟨memphyAccess s.mram regs.a2, []⟩ -- SYSMEM_IO_READ
    | 5#32 => ⟨memphyAccess s.mram regs.a2, []⟩ -- SYSMEM_IO_WRITE
    | _    => ⟨[], []⟩

/-! ## The lists are complete -/

/-- The same device, up to bytes at indices that are not in `A`. -/
structure AgreeOn (A : AddrT → Prop) (mp mp' : MemphyStruct) : Prop where
  rdmflg : mp'.rdmflg = mp.rdmflg
  freeFpList : mp'.freeFpList = mp.freeFpList
  storage : ∀ a, A a → mp'.storage a = mp.storage a

section

variable {k : CharKind} {A : AddrT → Prop} {mp mp' : MemphyStruct} {m : MmStruct}

theorem AgreeOn.memphyAccess (h : AgreeOn A mp mp') (addr : AddrT) :
    LamiaAtrium.memphyAccess mp' addr = LamiaAtrium.memphyAccess mp addr := by
  rw [LamiaAtrium.memphyAccess, LamiaAtrium.memphyAccess, h.rdmflg]

theorem AgreeOn.entryAccess (h : AgreeOn A mp mp') (addr : AddrT) :
    LamiaAtrium.entryAccess mp' addr = LamiaAtrium.entryAccess mp addr := by
  simp only [LamiaAtrium.entryAccess, h.memphyAccess]

theorem mem_entryAccess {addr a : AddrT} :
    a ∈ entryAccess mp addr ↔ mp.rdmflg = true ∧ ∃ i < 4, a = addr + BitVec.ofNat 64 i := by
  simp only [entryAccess, memphyAccess, List.mem_flatMap, List.mem_range]
  cases mp.rdmflg <;> simp

/-- A byte that is written on both devices is the same. -/
theorem AgreeOn.write (h : AgreeOn A mp mp') (a : AddrT) (b : BYTE) :
    AgreeOn A (memphyWriteIgn mp a b) (memphyWriteIgn mp' a b) := by
  refine ⟨by rw [rdmflg_memphyWriteIgn, rdmflg_memphyWriteIgn, h.rdmflg],
    by rw [freeFpList_memphyWriteIgn, freeFpList_memphyWriteIgn, h.freeFpList], fun c hc => ?_⟩
  cases hrdm : mp.rdmflg with
  | true =>
    rw [memphyWriteIgn_of_rdm hrdm, memphyWriteIgn_of_rdm (h.rdmflg.trans hrdm)]
    show Function.update mp'.storage a b c = Function.update mp.storage a b c
    rw [Function.update_apply, Function.update_apply, h.storage c hc]
  | false =>
    rw [memphyWriteIgn_of_seq hrdm, memphyWriteIgn_of_seq (h.rdmflg.trans hrdm)]
    exact h.storage c hc

theorem AgreeOn.putEntryBytes (h : AgreeOn A mp mp') (addr v : AddrT) :
    AgreeOn A (LamiaAtrium.putEntryBytes mp addr v) (LamiaAtrium.putEntryBytes mp' addr v) := by
  simp only [LamiaAtrium.putEntryBytes, putBytesLoop]
  exact (((h.write _ _).write _ _).write _ _).write _ _

/-- Entries whose bytes agree are the same. -/
theorem AgreeOn.get32bitEntry (h : AgreeOn A mp mp') {addr : AddrT}
    (haccess : ∀ a ∈ LamiaAtrium.entryAccess mp addr, A a) :
    LamiaAtrium.get32bitEntry k mp' addr = LamiaAtrium.get32bitEntry k mp addr := by
  cases hrdm : mp.rdmflg with
  | true =>
    have hbyte : ∀ i < 4, mp'.storage (addr + BitVec.ofNat 64 i) = mp.storage (addr + BitVec.ofNat 64 i) :=
      fun i hi => h.storage _ (haccess _ (mem_entryAccess.mpr ⟨hrdm, i, hi, rfl⟩))
    rw [get32bitEntry_of_rdm hrdm, get32bitEntry_of_rdm (h.rdmflg.trans hrdm)]
    simp only [decodeBytes, hbyte 0 (by decide), hbyte 1 (by decide), hbyte 2 (by decide), hbyte 3 (by decide)]
  | false => rw [get32bitEntry_of_seq hrdm, get32bitEntry_of_seq (h.rdmflg.trans hrdm)]

theorem memphyGetFreefp_cons {fpn : AddrT} {rest : List AddrT} (h : mp.freeFpList = fpn :: rest) :
    memphyGetFreefp mp = some (fpn, { mp with freeFpList := rest }) := by
  rw [memphyGetFreefp, h]

/-- **The tables on the way**: devices that agree on the bytes touched give the same table. -/
theorem allocTables_local (is : List AddrT) : ∀ {mp mp' : MemphyStruct} {base : AddrT}, AgreeOn A mp mp' →
    (∀ a ∈ allocAccess k mp base is, A a) →
      (allocTables k mp' base is).1 = (allocTables k mp base is).1 ∧
        AgreeOn A (allocTables k mp base is).2 (allocTables k mp' base is).2 ∧
        allocAccess k mp' base is = allocAccess k mp base is := by
  induction is with
  | nil =>
    intro mp mp' base h _
    exact ⟨rfl, h, rfl⟩
  | cons idx is ih =>
    intro mp mp' base h haccess
    rw [allocAccess, List.forall_mem_append] at haccess
    obtain ⟨hentry, hrest⟩ := haccess
    have hsame : get32bitEntry k mp' (base + idx * 4) = get32bitEntry k mp (base + idx * 4) :=
      h.get32bitEntry hentry
    rw [allocTables, allocTables, allocAccess, allocAccess, hsame, h.entryAccess]
    by_cases hpresent : entryPresent (get32bitEntry k mp (base + idx * 4)) = true
    · rw [if_pos hpresent] at hrest
      rw [if_pos hpresent, if_pos hpresent, if_pos hpresent, if_pos hpresent]
      obtain ⟨hres, hagree, hlist⟩ := ih h hrest
      exact ⟨hres, hagree, by rw [hlist]⟩
    · rw [if_neg hpresent] at hrest
      rw [if_neg hpresent, if_neg hpresent, if_neg hpresent, if_neg hpresent]
      cases hpool : mp.freeFpList with
      | nil =>
        rw [memphyGetFreefp_eq_none.mpr hpool, memphyGetFreefp_eq_none.mpr (h.freeFpList.trans hpool)]
        exact ⟨rfl, h, rfl⟩
      | cons fpn rest =>
        rw [memphyGetFreefp_cons hpool] at hrest ⊢
        rw [memphyGetFreefp_cons (h.freeFpList.trans hpool)]
        have h₁ : AgreeOn A { mp with freeFpList := rest } { mp' with freeFpList := rest } :=
          ⟨h.rdmflg, rfl, h.storage⟩
        have hmore := fun a ha => hrest a (List.mem_append_right _ ha)
        obtain ⟨hres, hagree, hlist⟩ := ih (h₁.putEntryBytes (base + idx * 4) (tableEntry fpn)) hmore
        refine ⟨hres, hagree, ?_⟩
        dsimp only
        rw [hlist, h₁.entryAccess]

theorem pteSetFpn_local (h : AgreeOn A mp mp') {pgn : AddrT} (haccess : ∀ a ∈ pteSetFpnAccess k m mp pgn, A a)
    (fpn : AddrT) :
    (pteSetFpn k m mp' pgn fpn).1 = (pteSetFpn k m mp pgn fpn).1 ∧
      AgreeOn A (pteSetFpn k m mp pgn fpn).2 (pteSetFpn k m mp' pgn fpn).2 ∧
      pteSetFpnAccess k m mp' pgn = pteSetFpnAccess k m mp pgn := by
  rw [pteSetFpnAccess, List.forall_mem_append] at haccess
  obtain ⟨hupper, hleaf⟩ := haccess
  obtain ⟨hres, hagree, hlist⟩ := allocTables_local (getPdFromPagenum pgn).upper h hupper
  rw [pteSetFpn, pteSetFpn, pteSetFpnAccess, pteSetFpnAccess, hlist]
  generalize allocTables k mp m.pgd (getPdFromPagenum pgn).upper = r at hres hagree hleaf ⊢
  generalize allocTables k mp' m.pgd (getPdFromPagenum pgn).upper = r' at hres hagree ⊢
  obtain ⟨o, mp₁⟩ := r
  obtain ⟨o', mp₁'⟩ := r'
  obtain rfl : o' = o := hres
  cases o' with
  | none => exact ⟨rfl, hagree, rfl⟩
  | some ptBase =>
    dsimp only at hagree hleaf ⊢
    have hsame := hagree.get32bitEntry (k := k) fun a ha => hleaf a (List.mem_append_left _ ha)
    rw [hsame, hagree.entryAccess]
    exact ⟨rfl, hagree.putEntryBytes _ _, rfl⟩

theorem vmapPgdLoop_local (n : ℕ) : ∀ {mp mp' : MemphyStruct} {pgn : AddrT}, AgreeOn A mp mp' →
    (∀ a ∈ vmapPgdAccess k m n mp pgn, A a) →
      AgreeOn A (vmapPgdLoop k m n mp pgn).2 (vmapPgdLoop k m n mp' pgn).2 ∧
        vmapPgdAccess k m n mp' pgn = vmapPgdAccess k m n mp pgn := by
  induction n with
  | zero =>
    intro mp mp' pgn h _
    exact ⟨h, rfl⟩
  | succ n ih =>
    intro mp mp' pgn h haccess
    rw [vmapPgdAccess, List.forall_mem_append] at haccess
    obtain ⟨hpage, hrest⟩ := haccess
    obtain ⟨hres, hagree, hlist⟩ := pteSetFpn_local h hpage 0
    rw [vmapPgdLoop, vmapPgdLoop, vmapPgdAccess, vmapPgdAccess, hlist]
    generalize pteSetFpn k m mp pgn 0 = r at hres hagree hrest ⊢
    generalize pteSetFpn k m mp' pgn 0 = r' at hres hagree ⊢
    obtain ⟨stat, mp₁⟩ := r
    obtain ⟨stat', mp₁'⟩ := r'
    obtain rfl : stat' = stat := hres
    dsimp only at hagree hrest ⊢
    by_cases hstat : stat' = 0
    · rw [if_neg (not_not.mpr hstat)] at hrest
      rw [if_neg (not_not.mpr hstat), if_neg (not_not.mpr hstat), if_neg (not_not.mpr hstat),
        if_neg (not_not.mpr hstat)]
      obtain ⟨hmore, hlist'⟩ := ih hagree hrest
      exact ⟨hmore, by rw [hlist']⟩
    · rw [if_pos hstat, if_pos hstat, if_pos hstat, if_pos hstat]
      exact ⟨hagree, rfl⟩

/-! ## No other byte changes -/

theorem putEntryBytes_frame {addr v a : AddrT} (ha : a ∉ entryAccess mp addr) :
    (putEntryBytes mp addr v).storage a = mp.storage a := by
  cases hrdm : mp.rdmflg with
  | true =>
    apply storage_putEntryBytes_of_ne hrdm
    rintro i hi rfl
    exact ha (mem_entryAccess.mpr ⟨hrdm, i, hi, rfl⟩)
  | false => simp only [putEntryBytes, putBytesLoop, memphyWriteIgn_of_seq hrdm]

theorem allocTables_frame (is : List AddrT) : ∀ {mp : MemphyStruct} {base a : AddrT},
    a ∉ allocAccess k mp base is → (allocTables k mp base is).2.storage a = mp.storage a := by
  induction is with
  | nil =>
    intro mp base a _
    rfl
  | cons idx is ih =>
    intro mp base a ha
    rw [allocAccess, List.mem_append, not_or] at ha
    obtain ⟨-, hrest⟩ := ha
    rw [allocTables]
    by_cases hpresent : entryPresent (get32bitEntry k mp (base + idx * 4)) = true
    · rw [if_pos hpresent] at hrest ⊢
      exact ih hrest
    · rw [if_neg hpresent] at hrest ⊢
      cases hpool : mp.freeFpList with
      | nil => rw [memphyGetFreefp_eq_none.mpr hpool]
      | cons fpn rest =>
        rw [memphyGetFreefp_cons hpool] at hrest ⊢
        dsimp only at hrest ⊢
        rw [List.mem_append, not_or] at hrest
        rw [ih hrest.2, putEntryBytes_frame hrest.1]

theorem pteSetFpn_frame {pgn fpn a : AddrT} (ha : a ∉ pteSetFpnAccess k m mp pgn) :
    (pteSetFpn k m mp pgn fpn).2.storage a = mp.storage a := by
  rw [pteSetFpnAccess, List.mem_append, not_or] at ha
  obtain ⟨hupper, hleaf⟩ := ha
  rw [← allocTables_frame (getPdFromPagenum pgn).upper hupper, pteSetFpn]
  generalize allocTables k mp m.pgd (getPdFromPagenum pgn).upper = r at hleaf ⊢
  obtain ⟨o, mp₁⟩ := r
  cases o with
  | none => rfl
  | some ptBase =>
    dsimp only at hleaf ⊢
    rw [List.mem_append, not_or] at hleaf
    exact putEntryBytes_frame hleaf.1

theorem vmapPgdLoop_frame (n : ℕ) : ∀ {mp : MemphyStruct} {pgn a : AddrT},
    a ∉ vmapPgdAccess k m n mp pgn → (vmapPgdLoop k m n mp pgn).2.storage a = mp.storage a := by
  induction n with
  | zero =>
    intro mp pgn a _
    rfl
  | succ n ih =>
    intro mp pgn a ha
    rw [vmapPgdAccess, List.mem_append, not_or] at ha
    obtain ⟨hpage, hrest⟩ := ha
    have hfirst : (pteSetFpn k m mp pgn 0).2.storage a = mp.storage a := pteSetFpn_frame hpage
    rw [← hfirst, vmapPgdLoop]
    generalize pteSetFpn k m mp pgn 0 = r at hrest ⊢
    obtain ⟨stat, mp₁⟩ := r
    dsimp only at hrest ⊢
    by_cases hstat : stat = 0
    · rw [if_neg (not_not.mpr hstat)] at hrest ⊢
      exact ih hrest
    · rw [if_pos hstat]

theorem mem_swapAccess {fpn a : AddrT} :
    a ∈ swapAccess mp fpn ↔ mp.rdmflg = true ∧
      ∃ i < pagingPagesz, a = fpn * BitVec.ofNat 64 pagingPagesz + BitVec.ofNat 64 i := by
  simp only [swapAccess, memphyAccess, List.mem_flatMap, List.mem_range]
  cases mp.rdmflg <;> simp

/-! ## Swapping -/

/-- What is read depends on the byte at the index alone. -/
theorem AgreeOn.memphyRead (h : AgreeOn A mp mp') {a : AddrT} (ha : mp.rdmflg = true → A a) :
    (LamiaAtrium.memphyRead mp' a).map Prod.fst = (LamiaAtrium.memphyRead mp a).map Prod.fst := by
  cases hrdm : mp.rdmflg with
  | true =>
    rw [memphyRead_of_rdm hrdm, memphyRead_of_rdm (h.rdmflg.trans hrdm), Option.map_some, Option.map_some,
      h.storage a (ha hrdm)]
  | false => simp [LamiaAtrium.memphyRead, memphySeqRead, hrdm, h.rdmflg]

theorem swapCpLoop_local {B : AddrT → Prop} {src src' : MemphyStruct} {srcfpn dstfpn : AddrT} (n : ℕ)
    (h : AgreeOn A src src') : ∀ {i : ℕ} {data : BYTE} {dst dst' : MemphyStruct}, AgreeOn B dst dst' →
      (src.rdmflg = true → ∀ j, i ≤ j → j < i + n →
        A (srcfpn * BitVec.ofNat 64 pagingPagesz + BitVec.ofNat 64 j)) →
      AgreeOn B (swapCpLoop src srcfpn dstfpn i n data dst) (swapCpLoop src' srcfpn dstfpn i n data dst') := by
  induction n with
  | zero =>
    intro i data dst dst' hdst _
    exact hdst
  | succ n ih =>
    intro i data dst dst' hdst haccess
    rw [swapCpLoop, swapCpLoop, h.memphyRead fun hrdm => haccess hrdm i (Nat.le_refl i) (by omega)]
    exact ih (hdst.write _ _) fun hrdm j hij hj => haccess hrdm j (by omega) (by omega)

theorem swapCpLoop_frame {src : MemphyStruct} {srcfpn dstfpn a : AddrT} (n : ℕ) :
    ∀ {i : ℕ} {data : BYTE} {dst : MemphyStruct},
      (dst.rdmflg = true → ∀ j, i ≤ j → j < i + n →
        a ≠ dstfpn * BitVec.ofNat 64 pagingPagesz + BitVec.ofNat 64 j) →
      (swapCpLoop src srcfpn dstfpn i n data dst).storage a = dst.storage a := by
  induction n with
  | zero =>
    intro i data dst _
    rfl
  | succ n ih =>
    intro i data dst ha
    rw [swapCpLoop, ih]
    · cases hrdm : dst.rdmflg with
      | true =>
        rw [memphyWriteIgn_of_rdm hrdm]
        exact Function.update_of_ne (ha hrdm i (Nat.le_refl i) (by omega)) ..
      | false => rw [memphyWriteIgn_of_seq hrdm]
    · intro hrdm j hij hj
      rw [rdmflg_memphyWriteIgn] at hrdm
      exact ha hrdm j (by omega) (by omega)

theorem swapCpPage_frame {src dst : MemphyStruct} {srcfpn dstfpn a : AddrT} {junk : BYTE}
    (ha : a ∉ swapAccess dst dstfpn) : (swapCpPage src srcfpn dst dstfpn junk).storage a = dst.storage a := by
  apply swapCpLoop_frame
  rintro hrdm j - hj rfl
  exact ha (mem_swapAccess.mpr ⟨hrdm, j, by omega, rfl⟩)

theorem swapCpPage_local {B : AddrT → Prop} {src src' dst dst' : MemphyStruct} {srcfpn : AddrT}
    (h : AgreeOn A src src') (hdst : AgreeOn B dst dst') (haccess : ∀ a ∈ swapAccess src srcfpn, A a)
    (dstfpn : AddrT) (junk : BYTE) :
    AgreeOn B (swapCpPage src srcfpn dst dstfpn junk) (swapCpPage src' srcfpn dst' dstfpn junk) := by
  apply swapCpLoop_local _ h hdst
  intro hrdm j _ hj
  exact haccess _ (mem_swapAccess.mpr ⟨hrdm, j, by omega, rfl⟩)

/-! ## The system call -/

theorem memphyWriteIgn_frame {a addr : AddrT} (ha : a ∉ memphyAccess mp addr) (b : BYTE) :
    (memphyWriteIgn mp addr b).storage a = mp.storage a := by
  cases hrdm : mp.rdmflg with
  | true =>
    rw [memphyAccess, if_pos hrdm, List.mem_singleton] at ha
    rw [memphyWriteIgn_of_rdm hrdm]
    exact Function.update_of_ne ha ..
  | false => rw [memphyWriteIgn_of_seq hrdm]

end

section

variable {k : CharKind} {sched : SchedState ℕ} {s s' t : Kernel} {pid : BitVec 32} {regs regs' : ScRegs} {junk : BYTE}
  {stat : ℤ}

/-- **A call changes no byte that is not in its lists.** -/
theorem sysMemmap_frame (h : s.sysMemmap k sched pid regs junk = .ok (stat, regs', t)) :
    (∀ a ∉ (sysMemmapAccess k sched s pid regs).mram, t.mram.storage a = s.mram.storage a) ∧
      ∀ a ∉ (sysMemmapAccess k sched s pid regs).activeMswp, t.activeMswp.storage a = s.activeMswp.storage a := by
  unfold Kernel.sysMemmap at h
  unfold sysMemmapAccess
  cases hcaller : Kernel.findPcbByPid sched pid with
  | none =>
    rw [hcaller] at h
    cases h
    exact ⟨fun _ _ => rfl, fun _ _ => rfl⟩
  | some caller =>
    rw [hcaller] at h
    dsimp only at h ⊢
    split at h
    · -- map
      rename_i hop
      rw [hop]
      obtain ⟨mm, hmm, h⟩ := bind_eq_ok.mp h
      rw [Kernel.mmOf_eq_ok] at hmm
      cases h
      rw [hmm]
      exact ⟨fun a ha => vmapPgdLoop_frame _ ha, fun _ _ => rfl⟩
    · cases h
      exact ⟨fun _ _ => rfl, fun _ _ => rfl⟩
    · -- swap
      rename_i hop
      rw [hop]
      have ht : (s.mmSwapPage regs.a2 regs.a3 junk).2 = t :=
        congrArg (fun r => r.2.2) (Except.ok.inj h)
      rw [← ht, Kernel.mram_mmSwapPage, Kernel.activeMswp_mmSwapPage]
      exact ⟨fun _ _ => rfl, fun a ha => swapCpPage_frame ha⟩
    · cases h
      exact ⟨fun _ _ => rfl, fun _ _ => rfl⟩
    · -- physical write
      rename_i hop
      rw [hop]
      cases h
      exact ⟨fun a ha => memphyWriteIgn_frame ha _, fun _ _ => rfl⟩
    · cases h
      exact ⟨fun _ _ => rfl, fun _ _ => rfl⟩

/-- Kernels that agree on the bytes that a call touches do the same. -/
theorem sysMemmap_agrees {A B : AddrT → Prop} (hmm : s'.mm = s.mm) (hram : AgreeOn A s.mram s'.mram)
    (hswp : AgreeOn B s.activeMswp s'.activeMswp) (haccess : ∀ a ∈ (sysMemmapAccess k sched s pid regs).mram, A a)
    (h : s.sysMemmap k sched pid regs junk = .ok (stat, regs', t)) :
    ∃ t', s'.sysMemmap k sched pid regs junk = .ok (stat, regs', t') ∧ t'.mm = t.mm ∧
      AgreeOn A t.mram t'.mram ∧ AgreeOn B t.activeMswp t'.activeMswp := by
  unfold sysMemmapAccess at haccess
  unfold Kernel.sysMemmap at h ⊢
  cases hcaller : Kernel.findPcbByPid sched pid with
  | none =>
    rw [hcaller] at h
    cases h
    exact ⟨s', rfl, hmm, hram, hswp⟩
  | some caller =>
    rw [hcaller] at h haccess
    dsimp only at h haccess ⊢
    split at h
    · -- map
      rename_i hop
      rw [hop] at haccess
      obtain ⟨mm, hcallermm, h⟩ := bind_eq_ok.mp h
      rw [Kernel.mmOf_eq_ok] at hcallermm
      cases h
      rw [hcallermm] at haccess
      have hmm' : s'.mmOf caller = .ok mm := Kernel.mmOf_eq_ok.mpr (by rw [hmm]; exact hcallermm)
      dsimp only at haccess ⊢
      rw [hmm']
      exact ⟨_, rfl, hmm, (vmapPgdLoop_local _ hram haccess).1, hswp⟩
    · cases h
      exact ⟨s', rfl, hmm, hram, hswp⟩
    · -- swap
      rename_i hop
      rw [hop] at haccess
      have hres := Except.ok.inj h
      have ht : (s.mmSwapPage regs.a2 regs.a3 junk).2 = t := congrArg (fun r => r.2.2) hres
      have hstat : 0 = stat := congrArg Prod.fst hres
      have hregs : regs = regs' := congrArg (fun r => r.2.1) hres
      rw [← ht, ← hstat, ← hregs]
      refine ⟨_, rfl, ?_, ?_, ?_⟩
      · rw [Kernel.mm_mmSwapPage, Kernel.mm_mmSwapPage]
        exact hmm
      · rw [Kernel.mram_mmSwapPage, Kernel.mram_mmSwapPage]
        exact hram
      · rw [Kernel.activeMswp_mmSwapPage, Kernel.activeMswp_mmSwapPage]
        exact swapCpPage_local hram hswp haccess _ _
    · -- physical read
      rename_i hop
      rw [hop] at haccess
      cases h
      refine ⟨s', ?_, hmm, hram, hswp⟩
      rw [hram.memphyRead fun hrdm => haccess _ (by rw [memphyAccess, if_pos hrdm]; exact List.mem_singleton_self _)]
    · -- physical write
      cases h
      exact ⟨_, rfl, hmm, hram.write _ _, hswp⟩
    · cases h
      exact ⟨s', rfl, hmm, hram, hswp⟩

/-- **A call depends on no byte that is not in its lists.** -/
theorem sysMemmap_local (hmm : s'.mm = s.mm)
    (hram : AgreeOn (· ∈ (sysMemmapAccess k sched s pid regs).mram) s.mram s'.mram)
    (hswp : AgreeOn (· ∈ (sysMemmapAccess k sched s pid regs).activeMswp) s.activeMswp s'.activeMswp)
    (h : s.sysMemmap k sched pid regs junk = .ok (stat, regs', t)) :
    ∃ t', s'.sysMemmap k sched pid regs junk = .ok (stat, regs', t') ∧ t'.mm = t.mm ∧
      AgreeOn (· ∈ (sysMemmapAccess k sched s pid regs).mram) t.mram t'.mram ∧
      AgreeOn (· ∈ (sysMemmapAccess k sched s pid regs).activeMswp) t.activeMswp t'.activeMswp :=
  sysMemmap_agrees hmm hram hswp (fun _ ha => ha) h

end

end LamiaAtrium
