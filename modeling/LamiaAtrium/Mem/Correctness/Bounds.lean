import LamiaAtrium.Mem.Correctness.Exclusive
import LamiaAtrium.Mem.Correctness.Inside

/-!
# `Mem.Correctness.Bounds` — the registers of a system call and the end of the storage

`__sys_memmap` hands the registers of its caller to `MEMPHY_read` and `MEMPHY_write`, and neither compares an
address with `maxsz`.

* `Contained`: a call touches no byte beyond the end, and is refused when its registers name one.
* `contained_iff_callInside`: so it is exactly when the caller is not found, or the registers name bytes of the
  devices; for a map, when the page-table entries on the way are inside.
* `contained_of_inside`: with all tables and free frames inside, every map request is contained.
-/

namespace LamiaAtrium

/-- The four bytes of an entry are storage. -/
def EntryInside (mp : MemphyStruct) (addr : AddrT) : Prop :=
  mp.rdmflg = true → ∀ i < 4, ((addr + BitVec.ofNat 64 i).toNat : ℤ) < mp.maxsz

/-- The entries on the way to the last table are inside: those of the tables that are there, and those of the
    free frames that become a table. -/
def TablesInside (k : CharKind) : MemphyStruct → AddrT → List AddrT → Prop
  | _,  _,    []        => True
  | mp, base, idx :: is =>
    EntryInside mp (base + idx * 4) ∧
      if entryPresent (get32bitEntry k mp (base + idx * 4)) then
        TablesInside k mp (entryBase (get32bitEntry k mp (base + idx * 4))) is
      else
        ∀ fpn rest, mp.freeFpList = fpn :: rest →
          TablesInside k (putEntryBytes { mp with freeFpList := rest } (base + idx * 4) (tableEntry fpn))
            (entryBase (tableEntry fpn)) is

/-- The entries on the way of a page, and the one of the page. -/
def PageInside (k : CharKind) (m : MmStruct) (mp : MemphyStruct) (pgn : AddrT) : Prop :=
  TablesInside k mp m.pgd (getPdFromPagenum pgn).upper ∧
    ∀ ptBase, (allocTables k mp m.pgd (getPdFromPagenum pgn).upper).1 = some ptBase →
      EntryInside mp (ptBase + (getPdFromPagenum pgn).pt * 4)

/-- The same for `n` pages, up to the first one that fails. -/
def PagesInside (k : CharKind) (m : MmStruct) : ℕ → MemphyStruct → AddrT → Prop
  | 0,     _,  _   => True
  | n + 1, mp, pgn =>
    PageInside k m mp pgn ∧
      ((pteSetFpn k m mp pgn 0).1 = 0 → PagesInside k m n (pteSetFpn k m mp pgn 0).2 (pgn + 1))

/-- The bytes of a frame, in the unit that swapping uses. -/
def CopyInside (mp : MemphyStruct) (fpn : AddrT) : Prop :=
  ∀ i < pagingPagesz, ((fpn * BitVec.ofNat 64 pagingPagesz + BitVec.ofNat 64 i).toNat : ℤ) < mp.maxsz

/-- **The registers name a byte beyond the end**: of the two frames of a swap, or by the address of a physical
    access. The address of a map request is virtual. -/
def OutOfRange (s : Kernel) (regs : ScRegs) : Prop :=
  match (regs.a1.setWidth 32 : BitVec 32) with
  | 3#32 => ¬ (CopyInside s.mram regs.a2 ∧ CopyInside s.activeMswp regs.a3)
  | 4#32 => ¬ (regs.a2.toNat : ℤ) < s.mram.maxsz
  | 5#32 => ¬ (regs.a2.toNat : ℤ) < s.mram.maxsz
  | _    => False

/-- **`SYSCALL 17` stays on the devices**: every index that it touches is below `maxsz`, and a request out of range
    returns an error and changes no byte. -/
structure Contained (k : CharKind) (sched : SchedState ℕ) (s : Kernel) (x : ℕ) (regs : ScRegs) (junk : BYTE) :
    Prop where
  mram : Within s.mram (sysMemmapAccess k sched s (pidOf x) regs).mram
  activeMswp : Within s.activeMswp (sysMemmapAccess k sched s (pidOf x) regs).activeMswp
  refused : OutOfRange s regs → ∃ stat t, s.libsyscall k sched x 17 regs.a1 regs.a2 regs.a3 junk = .ok (stat, t) ∧
    stat ≠ 0 ∧ t.mram.storage = s.mram.storage ∧ t.activeMswp.storage = s.activeMswp.storage

/-- What the registers of a caller that is found have to be like. -/
def CallInside (k : CharKind) (s : Kernel) (caller : ℕ) (regs : ScRegs) : Prop :=
  match (regs.a1.setWidth 32 : BitVec 32) with
  | 1#32 => ∀ m, s.mm caller = some m →
      PagesInside k m (regs.a3.setWidth 32).toInt.toNat s.mram (regs.a2 >>> 12)
  | 3#32 => CopyInside s.mram regs.a2 ∧ CopyInside s.activeMswp regs.a3
  | 4#32 => (regs.a2.toNat : ℤ) < s.mram.maxsz
  | 5#32 => (regs.a2.toNat : ℤ) < s.mram.maxsz
  | _    => True

section

variable {k : CharKind} {mp mp' : MemphyStruct} {m : MmStruct}

/-! ## Page tables -/

theorem within_congr {l : List AddrT} (hsz : mp'.maxsz = mp.maxsz) : Within mp' l ↔ Within mp l :=
  ⟨fun h => h.of_maxsz hsz.symm, fun h => h.of_maxsz hsz⟩

theorem within_entryAccess {addr : AddrT} : Within mp (entryAccess mp addr) ↔ EntryInside mp addr := by
  constructor
  · intro h hrdm i hi
    exact h _ (mem_entryAccess.mpr ⟨hrdm, i, hi, rfl⟩)
  · intro h a ha
    obtain ⟨hrdm, i, hi, rfl⟩ := mem_entryAccess.mp ha
    exact h hrdm i hi

/-- The size and the kind of a device stay. -/
structure SameShape (mp mp' : MemphyStruct) : Prop where
  maxsz : mp'.maxsz = mp.maxsz
  rdmflg : mp'.rdmflg = mp.rdmflg

theorem allocTables_shape (is : List AddrT) : ∀ (mp : MemphyStruct) (base : AddrT),
    SameShape mp (allocTables k mp base is).2 := by
  induction is with
  | nil =>
    intro mp base
    exact ⟨rfl, rfl⟩
  | cons idx is ih =>
    intro mp base
    rw [allocTables]
    by_cases hpresent : entryPresent (get32bitEntry k mp (base + idx * 4)) = true
    · rw [if_pos hpresent]
      exact ih mp _
    · rw [if_neg hpresent]
      cases hpool : mp.freeFpList with
      | nil =>
        rw [memphyGetFreefp_eq_none.mpr hpool]
        exact ⟨rfl, rfl⟩
      | cons fpn rest =>
        rw [memphyGetFreefp_cons hpool]
        obtain ⟨hsz, hrdm⟩ := ih (putEntryBytes { mp with freeFpList := rest } (base + idx * 4) (tableEntry fpn))
          (entryBase (tableEntry fpn))
        refine ⟨hsz.trans ?_, hrdm.trans ?_⟩
        · rw [maxsz_putEntryBytes]
        · rw [rdmflg_putEntryBytes]

theorem EntryInside.congr (h : SameShape mp mp') {addr : AddrT} : EntryInside mp' addr ↔ EntryInside mp addr := by
  rw [EntryInside, EntryInside, h.maxsz, h.rdmflg]

theorem within_allocAccess (is : List AddrT) : ∀ {mp : MemphyStruct} {base : AddrT},
    Within mp (allocAccess k mp base is) ↔ TablesInside k mp base is := by
  induction is with
  | nil =>
    intro mp base
    exact ⟨fun _ => trivial, fun _ => within_nil mp⟩
  | cons idx is ih =>
    intro mp base
    rw [allocAccess, TablesInside, within_append, within_entryAccess]
    refine and_congr_right fun hentry => ?_
    by_cases hpresent : entryPresent (get32bitEntry k mp (base + idx * 4)) = true
    · rw [if_pos hpresent, if_pos hpresent]
      exact ih
    · rw [if_neg hpresent, if_neg hpresent]
      cases hpool : mp.freeFpList with
      | nil =>
        rw [memphyGetFreefp_eq_none.mpr hpool]
        exact ⟨fun _ fpn rest hnil => absurd hnil (List.cons_ne_nil fpn rest).symm, fun _ => within_nil mp⟩
      | cons fpn rest =>
        rw [memphyGetFreefp_cons hpool]
        have hentry' : Within mp (entryAccess { mp with freeFpList := rest } (base + idx * 4)) :=
          within_entryAccess.mpr hentry
        have hsz : (putEntryBytes { mp with freeFpList := rest } (base + idx * 4) (tableEntry fpn)).maxsz
            = mp.maxsz := maxsz_putEntryBytes ..
        dsimp only
        rw [within_append, and_iff_right hentry', ← within_congr hsz, ih]
        constructor
        · rintro h fpn' rest' heq
          obtain ⟨rfl, rfl⟩ := List.cons.inj heq
          exact h
        · intro h
          exact h fpn rest rfl

theorem within_pteSetFpnAccess {pgn : AddrT} : Within mp (pteSetFpnAccess k m mp pgn) ↔ PageInside k m mp pgn := by
  have hshape := @allocTables_shape k (getPdFromPagenum pgn).upper mp m.pgd
  rw [pteSetFpnAccess, PageInside, within_append, within_allocAccess]
  refine and_congr_right fun _ => ?_
  generalize allocTables k mp m.pgd (getPdFromPagenum pgn).upper = r at hshape ⊢
  obtain ⟨o, mp₁⟩ := r
  cases o with
  | none => exact ⟨fun _ ptBase hnone => absurd hnone (by simp), fun _ => within_nil mp⟩
  | some ptBase =>
    dsimp only at hshape ⊢
    rw [within_append, and_self, ← within_congr hshape.maxsz, within_entryAccess, EntryInside.congr hshape]
    constructor
    · rintro h _ hsome
      obtain rfl := Option.some.inj hsome
      exact h
    · intro h
      exact h ptBase rfl

/-- `pte_set_fpn` keeps the size. -/
theorem maxsz_pteSetFpn (pgn fpn : AddrT) : (pteSetFpn k m mp pgn fpn).2.maxsz = mp.maxsz := by
  have hshape := @allocTables_shape k (getPdFromPagenum pgn).upper mp m.pgd
  rw [pteSetFpn]
  generalize allocTables k mp m.pgd (getPdFromPagenum pgn).upper = r at hshape ⊢
  obtain ⟨o, mp₁⟩ := r
  cases o with
  | none => exact hshape.maxsz
  | some ptBase => exact (maxsz_putEntryBytes ..).trans hshape.maxsz

theorem within_vmapPgdAccess (n : ℕ) : ∀ {mp : MemphyStruct} {pgn : AddrT},
    Within mp (vmapPgdAccess k m n mp pgn) ↔ PagesInside k m n mp pgn := by
  induction n with
  | zero =>
    intro mp pgn
    exact ⟨fun _ => trivial, fun _ => within_nil mp⟩
  | succ n ih =>
    intro mp pgn
    have hsz := @maxsz_pteSetFpn k mp m pgn 0
    rw [vmapPgdAccess, PagesInside, within_append, within_pteSetFpnAccess]
    refine and_congr_right fun _ => ?_
    generalize pteSetFpn k m mp pgn 0 = r at hsz ⊢
    obtain ⟨stat, mp₁⟩ := r
    dsimp only at hsz ⊢
    by_cases hstat : stat = 0
    · rw [if_neg (not_not.mpr hstat), ← within_congr hsz, ih]
      exact ⟨fun h _ => h, fun h => h hstat⟩
    · rw [if_pos hstat]
      exact ⟨fun _ hzero => absurd hzero hstat, fun _ => within_nil mp⟩

/-- **Tables and free frames inside** keep every map inside. -/
theorem Owned.pagesInside {root : ℕ → Option AddrT} {mm : ℕ → Option MmStruct} {p : ℕ} (hm : mm p = some m) (n : ℕ) :
    ∀ {mp : MemphyStruct} {pgn : AddrT}, Owned k root mm mp → Inside k root mp → PagesInside k m n mp pgn := by
  induction n with
  | zero =>
    intro mp pgn _ _
    trivial
  | succ n ih =>
    intro mp pgn h hin
    obtain ⟨r, hr, hpgd, -⟩ := h.root_of hm
    obtain ⟨hpage, howned, hin', -⟩ := h.pteSetFpn_inside hin hr hpgd pgn 0
    exact ⟨within_pteSetFpnAccess.mp hpage, fun _ => ih howned hin'⟩

theorem CopyInside.swapAccess {fpn : AddrT} (h : CopyInside mp fpn) : Within mp (LamiaAtrium.swapAccess mp fpn) := by
  intro a ha
  obtain ⟨-, i, hi, rfl⟩ := mem_swapAccess.mp ha
  exact h i hi

theorem within_memphyAccess {addr : AddrT} (h : (addr.toNat : ℤ) < mp.maxsz) : Within mp (memphyAccess mp addr) := by
  intro a ha
  unfold memphyAccess at ha
  split at ha
  · obtain rfl := List.mem_singleton.mp ha
    exact h
  · cases ha

end

/-! ## The call -/

section

variable {k : CharKind} {sched : SchedState ℕ} {s t : Kernel} {x caller : ℕ} {regs : ScRegs} {junk : BYTE}

theorem libsyscall_eq_ok {stat : ℤ} (a1 a2 a3 : BitVec 64) :
    s.libsyscall k sched x 17 a1 a2 a3 junk = .ok (stat, t) ↔
      ∃ regs', s.sysMemmap k sched (pidOf x) ⟨a1, a2, a3⟩ junk = .ok (stat, regs', t) := by
  show (s.sysMemmap k sched (pidOf x) ⟨a1, a2, a3⟩ junk >>= _) = _ ↔ _
  rw [bind_eq_ok]
  constructor
  · rintro ⟨⟨stat', regs', t'⟩, h, hret⟩
    obtain ⟨rfl, rfl⟩ := Prod.mk.inj (Except.ok.inj hret)
    exact ⟨regs', h⟩
  · rintro ⟨regs', h⟩
    exact ⟨_, h, rfl⟩

/-- **`__sys_memmap` refuses nothing** once it has found its caller. -/
theorem sysMemmap_stat (hfind : Kernel.findPcbByPid sched (pidOf x) = some caller) {stat : ℤ} {regs' : ScRegs}
    (h : s.sysMemmap k sched (pidOf x) regs junk = .ok (stat, regs', t)) : stat = 0 := by
  unfold Kernel.sysMemmap at h
  rw [hfind] at h
  dsimp only at h
  split at h
  · obtain ⟨mm, -, h⟩ := bind_eq_ok.mp h
    exact (congrArg Prod.fst (Except.ok.inj h)).symm
  all_goals exact (congrArg Prod.fst (Except.ok.inj h)).symm

theorem outOfRange_not_refused (hfind : Kernel.findPcbByPid sched (pidOf x) = some caller)
    (h : Contained k sched s x regs junk) : ¬ OutOfRange s regs := by
  intro hout
  obtain ⟨stat, t, hcall, hstat, -⟩ := h.refused hout
  obtain ⟨regs', hsys⟩ := (libsyscall_eq_ok ..).mp hcall
  exact hstat (sysMemmap_stat hfind hsys)

/-- **A caller that is not found** gets an error, and nothing is touched. -/
theorem contained_of_absent (hfind : Kernel.findPcbByPid sched (pidOf x) = none) :
    Contained k sched s x regs junk := by
  have haccess : sysMemmapAccess k sched s (pidOf x) regs = ⟨[], []⟩ := by
    unfold sysMemmapAccess
    rw [hfind]
  have hcall : s.sysMemmap k sched (pidOf x) regs junk = .ok (-1, regs, s) := by
    unfold Kernel.sysMemmap
    rw [hfind]
  refine ⟨?_, ?_, fun _ => ⟨-1, s, (libsyscall_eq_ok ..).mpr ⟨regs, hcall⟩, by decide, rfl, rfl⟩⟩
  · rw [haccess]
    exact within_nil _
  · rw [haccess]
    exact within_nil _

/-- A contained call stays on the devices: what it does not touch it would have to refuse. -/
theorem callInside_of_contained (hfind : Kernel.findPcbByPid sched (pidOf x) = some caller)
    (h : Contained k sched s x regs junk) : CallInside k s caller regs := by
  have hin := outOfRange_not_refused hfind h
  have hram := h.mram
  unfold OutOfRange at hin
  unfold sysMemmapAccess at hram
  rw [hfind] at hram
  unfold CallInside
  dsimp only at hram
  split
  · -- map
    rename_i hop
    rw [hop] at hram
    intro m hm
    rw [hm] at hram
    exact (within_vmapPgdAccess _).mp hram
  · -- swap
    rename_i hop
    rw [hop] at hin
    exact not_not.mp hin
  · rename_i hop
    rw [hop] at hin
    exact not_not.mp hin
  · rename_i hop
    rw [hop] at hin
    exact not_not.mp hin
  · trivial

/-- A call that stays on the devices touches their storage only. -/
theorem sysMemmapAccess_within (hfind : Kernel.findPcbByPid sched (pidOf x) = some caller)
    (h : CallInside k s caller regs) :
    Within s.mram (sysMemmapAccess k sched s (pidOf x) regs).mram ∧
      Within s.activeMswp (sysMemmapAccess k sched s (pidOf x) regs).activeMswp := by
  unfold CallInside at h
  unfold sysMemmapAccess
  rw [hfind]
  dsimp only
  split
  · rename_i hop
    rw [hop] at h
    split
    · exact ⟨within_nil _, within_nil _⟩
    · rename_i m hm
      exact ⟨(within_vmapPgdAccess _).mpr (h m hm), within_nil _⟩
  · rename_i hop
    rw [hop] at h
    exact ⟨h.1.swapAccess, h.2.swapAccess⟩
  · rename_i hop
    rw [hop] at h
    exact ⟨within_memphyAccess h, within_nil _⟩
  · rename_i hop
    rw [hop] at h
    exact ⟨within_memphyAccess h, within_nil _⟩
  · exact ⟨within_nil _, within_nil _⟩

/-- Its registers name no byte beyond the end. -/
theorem not_outOfRange_of_callInside (h : CallInside k s caller regs) : ¬ OutOfRange s regs := by
  intro hout
  unfold CallInside at h
  unfold OutOfRange at hout
  split at hout
  · rename_i hop
    rw [hop] at h
    exact hout h
  · rename_i hop
    rw [hop] at h
    exact hout h
  · rename_i hop
    rw [hop] at h
    exact hout h
  · exact hout

/-- **When a call stays on the devices.** -/
theorem contained_iff_callInside (hfind : Kernel.findPcbByPid sched (pidOf x) = some caller) :
    Contained k sched s x regs junk ↔ CallInside k s caller regs := by
  refine ⟨callInside_of_contained hfind, fun h => ?_⟩
  obtain ⟨hram, hswp⟩ := sysMemmapAccess_within hfind h
  exact ⟨hram, hswp, fun hout => absurd hout (not_outOfRange_of_callInside h)⟩

/-- The registers of a physical read of the last address. -/
def lastRead : ScRegs := ⟨4, 18446744073709551615, 0⟩

/-- No device is that large. -/
theorem not_callInside_lastRead (hsz : s.mram.maxsz < 2 ^ 31) (caller : ℕ) : ¬ CallInside k s caller lastRead := by
  intro h
  have hlast : (lastRead.a2.toNat : ℤ) < s.mram.maxsz := h
  have hnat : lastRead.a2.toNat = 18446744073709551615 := rfl
  rw [hnat] at hlast
  omega

end

/-- **When system calls stay on the devices.** Each one does exactly when its caller is not found, or its registers
    meet the condition; so all calls of a process do exactly when it is not found. With tables and free frames
    inside, a map always does. -/
theorem contained_iff (k : CharKind) (sched : SchedState ℕ) (s : Kernel) (x : ℕ) (junk : BYTE) :
    (∀ regs, Contained k sched s x regs junk ↔
        ∀ caller, Kernel.findPcbByPid sched (pidOf x) = some caller → CallInside k s caller regs) ∧
      (s.mram.maxsz < 2 ^ 31 →
        ((∀ regs, Contained k sched s x regs junk) ↔ Kernel.findPcbByPid sched (pidOf x) = none)) ∧
      ∀ root, Owned k root s.mm s.mram → Inside k root s.mram →
        ∀ regs : ScRegs, (regs.a1.setWidth 32 : BitVec 32) = 1#32 → Contained k sched s x regs junk := by
  have hcall : ∀ regs, Contained k sched s x regs junk ↔
      ∀ caller, Kernel.findPcbByPid sched (pidOf x) = some caller → CallInside k s caller regs := by
    intro regs
    cases hfind : Kernel.findPcbByPid sched (pidOf x) with
    | none => exact ⟨fun _ caller hc => absurd hc (by simp), fun _ => contained_of_absent hfind⟩
    | some caller =>
      rw [contained_iff_callInside hfind]
      constructor
      · rintro h _ hc
        obtain rfl := Option.some.inj hc
        exact h
      · intro h
        exact h caller rfl
  refine ⟨hcall, fun hsz => ⟨fun h => ?_, fun hfind regs => contained_of_absent hfind⟩, ?_⟩
  · cases hfind : Kernel.findPcbByPid sched (pidOf x) with
    | none => rfl
    | some caller => exact absurd ((hcall lastRead).mp (h lastRead) caller hfind) (not_callInside_lastRead hsz caller)
  · intro root howned hin regs hop
    rw [hcall regs]
    intro caller _
    unfold CallInside
    rw [hop]
    intro m hm
    exact howned.pagesInside hm _ hin

/-- **A physical write at 2^40** to a RAM device of 1 MiB, by the only process. -/
theorem contained_fails : ¬ ∀ (k : CharKind) (cfg : Config) (ram swp : DeviceBoot) (s : OsState cfg.numCpus Kernel),
    (osSystem cfg (kernelMachine k ram swp)).Reachable s → ∀ x regs junk,
      Contained k s.sched s.mem x regs junk := by
  intro hall
  have hsize : 2 ≤ numfpOf 1048576 ∧ numfpOf 1048576 ≤ 8192 := by decide
  obtain ⟨-, m, mram, hinit, -⟩ := first_process hsize.1 hsize.2
  obtain ⟨s, h, hmem, -, -, -, hfind⟩ := oneCall_dispatched ⟨.syscall, 17, 5, 1099511627776, 65⟩ hinit
  have hcontained := hall _ _ _ _ s h 0 ⟨5, 1099511627776, 65⟩ 0
  rw [contained_iff_callInside hfind] at hcontained
  have hroom : ((1099511627776 : AddrT).toNat : ℤ) < s.mem.mram.maxsz := hcontained
  have hsz : mram.maxsz = (zeroDevice 1048576).device.maxsz := maxsz_initMm hinit
  have hram : s.mem.mram = mram := by
    rw [hmem]
    rfl
  rw [hram, hsz, DeviceBoot.device, initMemphy_maxsz] at hroom
  exact absurd hroom (by decide)

end LamiaAtrium
