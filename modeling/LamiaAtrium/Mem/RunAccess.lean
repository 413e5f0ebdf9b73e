import LamiaAtrium.Mem.Access
import LamiaAtrium.Mem.Run

/-!
# `Mem.RunAccess` — which bytes of the devices an instruction touches

`Mem.Access` has the lists for `mm64.c` and `sys_mem.c`. An instruction comes to the devices on three ways: a READ and a
WRITE look up the entry of their page, a system call number 17 is `__sys_memmap`, and each of the four operations of
`libmem.c` ends with `print_pgtbl`. ALLOC and FREE work on the regions alone otherwise.

`run_frame` and `run_agrees` say that `runAccess` is complete: an instruction changes no other byte, and its outcome
depends on no other byte. `loads_frame` and `loads_agrees` say it of a load.
-/

namespace LamiaAtrium

/-- `pte_get_entry`. -/
def pteGetEntryAccess (k : CharKind) (mm : MmStruct) (mp : MemphyStruct) (pgn : AddrT) : List AddrT :=
  getPteAccess k mm mp pgn ++
    match getPteAddress k mm mp pgn with
    | none         => []
    | some pteAddr => entryAccess mp pteAddr

/-- `__read` and `__write`: the calls of `pg_getpage` read the same entry, once or twice. -/
def regionAccess (k : CharKind) (s : Kernel) (x : ℕ) (rgid : BitVec 32) (offset : AddrT) : List AddrT :=
  match s.mm x, getSymrgById rgid with
  | some mm, some i =>
    match symrgAt mm i with
    | .ok currg =>
      pteGetEntryAccess k mm s.mram ((pagingPgn ((currg.rgStart + offset).setWidth 32)).signExtend 64)
    | .error _  => []
  | _, _ => []

/-- The entries on the way of `print_pgtbl`, which goes on whether they are present or not. -/
def printAccess (k : CharKind) (mp : MemphyStruct) : AddrT → List AddrT → List AddrT
  | _, []           => []
  | base, idx :: is =>
    entryAccess mp (base + idx * 4) ++ printAccess k mp (entryBase (get32bitEntry k mp (base + idx * 4))) is

/-- `print_pgtbl`. -/
def printPgtblAccess (k : CharKind) (mm : MmStruct) (mp : MemphyStruct) (start : AddrT) : List AddrT :=
  printAccess k mp mm.pgd (getPdFromAddress start).upper

/-- `print_pgtbl(proc, 0, -1)`, after `liballoc`, `libfree`, `libread` and `libwrite`: RAM and the PGD are then as they
    were before. All but `libread` leave it out when they fail. -/
def dumpAccess (k : CharKind) (s : Kernel) (x : ℕ) : List AddrT :=
  match s.mm x with
  | none    => []
  | some mm => printPgtblAccess k mm s.mram 0

/-- `run`. The system call of `__alloc` is `SYSMEM_INC_OP`, which touches nothing. -/
def runAccess (k : CharKind) (sched : SchedState ℕ) (s : Kernel) (x : ℕ) (ins : InstT) : DeviceAccess :=
  match ins.opcode with
  | .calc    => ⟨[], []⟩
  | .alloc   => ⟨dumpAccess k s x, []⟩
  | .free    => ⟨dumpAccess k s x, []⟩
  | .read    => ⟨regionAccess k s x (ins.arg0.setWidth 32) ins.arg1 ++ dumpAccess k s x, []⟩
  | .write   => ⟨regionAccess k s x (ins.arg1.setWidth 32) ins.arg2 ++ dumpAccess k s x, []⟩
  | .syscall =>
    if ins.arg0.setWidth 32 = 17#32 then sysMemmapAccess k sched s (pidOf x) ⟨ins.arg1, ins.arg2, ins.arg3⟩
    else ⟨[], []⟩

/-! ## Other devices -/

/-- The same device, but for its free list. -/
structure SameBytes (mp mp' : MemphyStruct) : Prop where
  storage : mp'.storage = mp.storage
  maxsz : mp'.maxsz = mp.maxsz
  rdmflg : mp'.rdmflg = mp.rdmflg

theorem SameBytes.refl (mp : MemphyStruct) : SameBytes mp mp := ⟨rfl, rfl, rfl⟩

/-- No byte of the devices has changed. -/
structure KeepsBytes (s t : Kernel) : Prop where
  mram : SameBytes s.mram t.mram
  activeMswp : SameBytes s.activeMswp t.activeMswp

theorem KeepsBytes.refl (s : Kernel) : KeepsBytes s s := ⟨.refl _, .refl _⟩

/-- The devices are the same ones. -/
structure KeepsDevices (s t : Kernel) : Prop where
  mram : t.mram = s.mram
  activeMswp : t.activeMswp = s.activeMswp

theorem KeepsDevices.keepsBytes {s t : Kernel} (h : KeepsDevices s t) : KeepsBytes s t := by
  refine ⟨?_, ?_⟩
  · rw [h.mram]
    exact .refl _
  · rw [h.activeMswp]
    exact .refl _

/-- The same address spaces over other devices. -/
def Kernel.onDevices (s : Kernel) (mram mswp : MemphyStruct) : Kernel := { s with mram := mram, activeMswp := mswp }

section

variable {k : CharKind} {sched : SchedState ℕ} {s : Kernel} {x : ℕ} {mram mswp : MemphyStruct}

/-- Two sequences of calls that begin with the same one. -/
theorem bind_eq_map {ε α β γ : Type} {r : Except ε α} {f : α → Except ε γ} {f' : α → Except ε β} {g : β → γ}
    (h : ∀ a, f a = (f' a).map g) : (r >>= f) = (r >>= f').map g := by
  cases r with
  | error e => rfl
  | ok a => exact h a

/-- `__alloc` does the same over any devices. -/
theorem alloc_onDevices (vmaid rgid : BitVec 32) (size : AddrT) (junk : BYTE) :
    (s.onDevices mram mswp).alloc k sched x vmaid rgid size junk
      = (s.alloc k sched x vmaid rgid size junk).map fun r => (r.1, r.2.1, r.2.2.onDevices mram mswp) := by
  unfold Kernel.alloc
  refine bind_eq_map fun mm => bind_eq_map fun vma => bind_eq_map fun found => ?_
  obtain ⟨newrg, mm⟩ := found
  cases newrg with
  | some rgnode => exact bind_eq_map fun mm => rfl
  | none =>
    refine bind_eq_map fun area => ?_
    -- the system call changes nothing on either side
    obtain ⟨stat, regs, hsys⟩ :=
      Kernel.syscall_inc k sched (s.setMm x mm) (pidOf x) (vmaid.signExtend 64) size junk
    obtain ⟨stat', regs', hsys'⟩ :=
      Kernel.syscall_inc k sched ((s.onDevices mram mswp).setMm x mm) (pidOf x) (vmaid.signExtend 64) size junk
    dsimp only
    rw [hsys, hsys']
    show ((s.setMm x mm).mmOf x >>= _) = Except.map _ ((s.setMm x mm).mmOf x >>= _)
    exact bind_eq_map fun mm => bind_eq_map fun mm => rfl

/-- And so does `__free`. -/
theorem free_onDevices (vmaid rgid : BitVec 32) :
    (s.onDevices mram mswp).free x vmaid rgid
      = (s.free x vmaid rgid).map fun r => (r.1, r.2.onDevices mram mswp) := by
  unfold Kernel.free
  cases getSymrgById rgid with
  | none => rfl
  | some i =>
    refine bind_eq_map fun mm => bind_eq_map fun rgnode => ?_
    split
    · rfl
    · exact bind_eq_map fun mm => bind_eq_map fun listed => rfl

/-- An allocation leaves the devices alone. -/
theorem keepsDevices_of_alloc {vmaid rgid : BitVec 32} {size addr : AddrT} {junk : BYTE} {stat : ℤ} {t : Kernel}
    (h : s.alloc k sched x vmaid rgid size junk = .ok (stat, addr, t)) : KeepsDevices s t := by
  have hself : s.alloc k sched x vmaid rgid size junk
      = (s.alloc k sched x vmaid rgid size junk).map fun r => (r.1, r.2.1, r.2.2.onDevices s.mram s.activeMswp) :=
    alloc_onDevices vmaid rgid size junk
  rw [h] at hself
  rw [(Prod.mk.inj (Prod.mk.inj (Except.ok.inj hself)).2).2]
  exact ⟨rfl, rfl⟩

theorem keepsDevices_of_free {vmaid rgid : BitVec 32} {stat : ℤ} {t : Kernel}
    (h : s.free x vmaid rgid = .ok (stat, t)) : KeepsDevices s t := by
  have hself : s.free x vmaid rgid = (s.free x vmaid rgid).map fun r => (r.1, r.2.onDevices s.mram s.activeMswp) :=
    free_onDevices vmaid rgid
  rw [h] at hself
  rw [(Prod.mk.inj (Except.ok.inj hself)).2]
  exact ⟨rfl, rfl⟩

end

/-! ## The entry of a page -/

/-- The same kernel, up to bytes of the two devices at indices that are not in `A` and `B`. -/
structure Agrees (A B : AddrT → Prop) (s s' : Kernel) : Prop where
  mm : s'.mm = s.mm
  mram : AgreeOn A s.mram s'.mram
  activeMswp : AgreeOn B s.activeMswp s'.activeMswp

/-- What keeps its devices goes on to agree. -/
theorem Agrees.onDevices {A B : AddrT → Prop} {s s' t : Kernel} (h : Agrees A B s s') (hkeep : KeepsDevices s t) :
    Agrees A B t (t.onDevices s'.mram s'.activeMswp) := by
  refine ⟨rfl, ?_, ?_⟩
  · rw [hkeep.mram]
    exact h.mram
  · rw [hkeep.activeMswp]
    exact h.activeMswp

section

variable {k : CharKind} {A B : AddrT → Prop} {mp mp' : MemphyStruct} {m : MmStruct}

theorem walkTables_local (is : List AddrT) : ∀ {base : AddrT}, AgreeOn A mp mp' →
    (∀ a ∈ walkAccess k mp base is, A a) → walkTables k mp' base is = walkTables k mp base is := by
  induction is with
  | nil =>
    intro base _ _
    rfl
  | cons idx is ih =>
    intro base h haccess
    rw [walkAccess, List.forall_mem_append] at haccess
    obtain ⟨hentry, hrest⟩ := haccess
    rw [walkTables, walkTables, h.get32bitEntry hentry]
    by_cases hpresent : entryPresent (get32bitEntry k mp (base + idx * 4)) = true
    · rw [if_pos hpresent] at hrest
      rw [if_pos hpresent, if_pos hpresent]
      exact ih h hrest
    · rw [if_neg hpresent, if_neg hpresent]

theorem pteGetEntry_local (h : AgreeOn A mp mp') {pgn : AddrT} (haccess : ∀ a ∈ pteGetEntryAccess k m mp pgn, A a) :
    pteGetEntry k m mp' pgn = pteGetEntry k m mp pgn := by
  rw [pteGetEntryAccess, List.forall_mem_append] at haccess
  obtain ⟨hwalk, hentry⟩ := haccess
  have haddr : getPteAddress k m mp' pgn = getPteAddress k m mp pgn := by
    rw [getPteAddress, getPteAddress, walkTables_local _ h hwalk]
  rw [pteGetEntry, pteGetEntry, haddr]
  cases hpte : getPteAddress k m mp pgn with
  | none => rfl
  | some pteAddr =>
    rw [hpte] at hentry
    dsimp only
    rw [h.get32bitEntry hentry]

variable {s s' t : Kernel} {x : ℕ}

/-- `pg_getpage` reads the entry of its page, and takes a frame of the swap device at most. -/
theorem pgGetpage_local (h : Agrees A B s s') {pgn : BitVec 32} {fpn : Option (BitVec 32)} (hm : s.mm x = some m)
    (haccess : ∀ a ∈ pteGetEntryAccess k m s.mram (pgn.signExtend 64), A a)
    (hrun : s.pgGetpage k x pgn = .ok (fpn, t)) :
    ∃ t', s'.pgGetpage k x pgn = .ok (fpn, t') ∧ Agrees A B t t' := by
  have hm' : s'.mm x = some m := by rw [h.mm, hm]
  unfold Kernel.pgGetpage at hrun ⊢
  rw [Kernel.mmOf_eq_ok.mpr hm] at hrun
  rw [Kernel.mmOf_eq_ok.mpr hm']
  simp only [bind, Except.bind] at hrun ⊢
  rw [pteGetEntry_local h.mram haccess]
  split at hrun
  · rename_i hpresent
    obtain ⟨rfl, rfl⟩ := Prod.mk.inj (Except.ok.inj hrun)
    rw [if_pos hpresent]
    exact ⟨s', rfl, h⟩
  · rename_i habsent
    rw [if_neg habsent]
    cases hvictim : findVictimPage m with
    | error e =>
      rw [hvictim] at hrun
      cases hrun
    | ok found =>
      obtain ⟨victim, mm⟩ := found
      rw [hvictim] at hrun
      cases victim with
      | none =>
        obtain ⟨rfl, rfl⟩ := Prod.mk.inj (Except.ok.inj hrun)
        exact ⟨s', rfl, h⟩
      | some vicpgn =>
        dsimp only at hrun ⊢
        cases hpool : s.activeMswp.freeFpList with
        | nil =>
          rw [memphyGetFreefp_eq_none.mpr hpool] at hrun
          rw [memphyGetFreefp_eq_none.mpr (h.activeMswp.freeFpList.trans hpool)]
          obtain ⟨rfl, rfl⟩ := Prod.mk.inj (Except.ok.inj hrun)
          exact ⟨_, rfl, by simp only [Kernel.setMm, h.mm], h.mram, h.activeMswp⟩
        | cons swpfpn rest =>
          rw [memphyGetFreefp_cons hpool] at hrun
          rw [memphyGetFreefp_cons (h.activeMswp.freeFpList.trans hpool)]
          obtain ⟨rfl, rfl⟩ := Prod.mk.inj (Except.ok.inj hrun)
          exact ⟨_, rfl, by simp only [Kernel.setMm, h.mm], h.mram,
            h.activeMswp.rdmflg, rfl, h.activeMswp.storage⟩

theorem keepsBytes_of_pgGetpage {pgn : BitVec 32} {fpn : Option (BitVec 32)}
    (hrun : s.pgGetpage k x pgn = .ok (fpn, t)) : KeepsBytes s t := by
  obtain ⟨mm, -, hrun⟩ := bind_eq_ok.mp hrun
  dsimp only at hrun
  split at hrun
  · cases hrun
    exact .refl s
  · obtain ⟨⟨victim, mm⟩, -, hrun⟩ := bind_eq_ok.mp hrun
    cases victim with
    | none =>
      cases hrun
      exact .refl s
    | some vicpgn =>
      dsimp only at hrun
      cases hpool : s.activeMswp.freeFpList with
      | nil =>
        rw [memphyGetFreefp_eq_none.mpr hpool] at hrun
        cases hrun
        exact ⟨.refl _, ⟨rfl, rfl, rfl⟩⟩
      | cons swpfpn rest =>
        rw [memphyGetFreefp_cons hpool] at hrun
        cases hrun
        exact ⟨.refl _, ⟨rfl, rfl, rfl⟩⟩

end

/-! ## Instructions -/

section

variable {k : CharKind} {A B : AddrT → Prop} {sched : SchedState ℕ} {s s' t : Kernel} {x : ℕ} {junk : BYTE}
  {stat : ℤ}

/-- The page of a register is looked up in the entry that `regionAccess` lists. -/
theorem regionAccess_eq {m : MmStruct} (hm : s.mm x = some m) {rgid : BitVec 32} {i : ℕ}
    (hi : getSymrgById rgid = some i) {currg : VmRgStruct} (hrg : symrgAt m i = .ok currg) (offset : AddrT) :
    regionAccess k s x rgid offset
      = pteGetEntryAccess k m s.mram ((pagingPgn ((currg.rgStart + offset).setWidth 32)).signExtend 64) := by
  unfold regionAccess
  rw [hm, hi]
  dsimp only
  rw [hrg]

theorem libread_local (h : Agrees A B s s') {rgid : BitVec 32} {offset : AddrT} {dest : BitVec 32}
    (haccess : ∀ a ∈ regionAccess k s x rgid offset, A a)
    (hrun : s.libread k x rgid offset junk = .ok (stat, dest, t)) :
    ∃ t', s'.libread k x rgid offset junk = .ok (stat, dest, t') ∧ Agrees A B t t' := by
  obtain ⟨⟨v, data, u⟩, hread, hrun⟩ := bind_eq_ok.mp hrun
  cases hrun
  unfold Kernel.read at hread
  cases hi : getSymrgById rgid with
  | none =>
    rw [hi] at hread
    cases hread
  | some i =>
    rw [hi] at hread
    obtain ⟨m, hm, hread⟩ := bind_eq_ok.mp hread
    obtain ⟨currg, hrg, hread⟩ := bind_eq_ok.mp hread
    obtain ⟨⟨v', data', u'⟩, hget, hread⟩ := bind_eq_ok.mp hread
    cases hread
    obtain ⟨⟨fpn, u''⟩, hpage, hget⟩ := bind_eq_ok.mp hget
    cases hget
    rw [Kernel.mmOf_eq_ok] at hm
    rw [regionAccess_eq hm hi hrg] at haccess
    obtain ⟨t', hpage', hagree⟩ := pgGetpage_local h hm haccess hpage
    refine ⟨t', ?_, hagree⟩
    have hm' : s'.mmOf x = .ok m := by rw [Kernel.mmOf_eq_ok, h.mm, hm]
    simp only [Kernel.libread, Kernel.read, hi, hm', hrg, Kernel.pgGetval, hpage', bind, Except.bind]

theorem libwrite_local (h : Agrees A B s s') {rgid : BitVec 32} {data : BYTE} {offset : AddrT}
    (haccess : ∀ a ∈ regionAccess k s x rgid offset, A a) (hrun : s.libwrite k x data rgid offset = .ok (stat, t)) :
    ∃ t', s'.libwrite k x data rgid offset = .ok (stat, t') ∧ Agrees A B t t' := by
  unfold Kernel.libwrite Kernel.write at hrun ⊢
  obtain ⟨m, hm, hrun⟩ := bind_eq_ok.mp hrun
  obtain ⟨vma, hvma, hrun⟩ := bind_eq_ok.mp hrun
  have hm' : s'.mmOf x = .ok m := by
    rw [Kernel.mmOf_eq_ok] at hm ⊢
    rw [h.mm, hm]
  simp only [hm', hvma, bind, Except.bind]
  cases hi : getSymrgById rgid with
  | none =>
    rw [hi] at hrun
    cases hrun
    exact ⟨s', rfl, h⟩
  | some i =>
    rw [hi] at hrun
    cases vma with
    | none =>
      cases hrun
      exact ⟨s', rfl, h⟩
    | some j =>
      obtain ⟨currg, hrg, hrun⟩ := bind_eq_ok.mp hrun
      obtain ⟨⟨v, u⟩, hset, hrun⟩ := bind_eq_ok.mp hrun
      cases hrun
      obtain ⟨⟨fpn, u'⟩, hpage, hset⟩ := bind_eq_ok.mp hset
      cases hset
      rw [Kernel.mmOf_eq_ok] at hm
      rw [regionAccess_eq hm hi hrg] at haccess
      obtain ⟨t', hpage', hagree⟩ := pgGetpage_local h hm haccess hpage
      refine ⟨t', ?_, hagree⟩
      simp only [hrg, Kernel.pgSetval, hpage', bind, Except.bind]

theorem keepsBytes_of_libread {rgid : BitVec 32} {offset : AddrT} {dest : BitVec 32}
    (hrun : s.libread k x rgid offset junk = .ok (stat, dest, t)) : KeepsBytes s t := by
  obtain ⟨⟨v, data, u⟩, hread, hrun⟩ := bind_eq_ok.mp hrun
  cases hrun
  unfold Kernel.read at hread
  split at hread
  · cases hread
  · obtain ⟨m, -, hread⟩ := bind_eq_ok.mp hread
    obtain ⟨currg, -, hread⟩ := bind_eq_ok.mp hread
    obtain ⟨⟨v', data', u'⟩, hget, hread⟩ := bind_eq_ok.mp hread
    cases hread
    obtain ⟨⟨fpn, u''⟩, hpage, hget⟩ := bind_eq_ok.mp hget
    cases hget
    exact keepsBytes_of_pgGetpage hpage

theorem keepsBytes_of_libwrite {rgid : BitVec 32} {data : BYTE} {offset : AddrT}
    (hrun : s.libwrite k x data rgid offset = .ok (stat, t)) : KeepsBytes s t := by
  unfold Kernel.libwrite Kernel.write at hrun
  obtain ⟨m, -, hrun⟩ := bind_eq_ok.mp hrun
  obtain ⟨vma, -, hrun⟩ := bind_eq_ok.mp hrun
  split at hrun
  · obtain ⟨currg, -, hrun⟩ := bind_eq_ok.mp hrun
    obtain ⟨⟨v, u⟩, hset, hrun⟩ := bind_eq_ok.mp hrun
    cases hrun
    obtain ⟨⟨fpn, u'⟩, hpage, hset⟩ := bind_eq_ok.mp hset
    cases hset
    exact keepsBytes_of_pgGetpage hpage
  · cases hrun
    exact .refl s

/-- One number of the table does something. -/
theorem syscall_eq (s : Kernel) (pid nr : BitVec 32) (regs : ScRegs) :
    s.syscall k sched pid nr regs junk
      = if nr = 17#32 then s.sysMemmap k sched pid regs junk else .ok (0, regs, s) := by
  unfold Kernel.syscall
  split
  · rfl
  · rfl
  · rename_i hnr
    rw [if_neg hnr]

/-- The bytes change in system calls only. -/
theorem keepsBytes_of_run {ins : InstT} (h : s.run k sched x ins junk = .ok (stat, t)) (hop : ins.opcode ≠ .syscall) :
    KeepsBytes s t := by
  unfold Kernel.run at h
  cases hins : ins.opcode with
  | «calc» =>
    rw [hins] at h
    cases h
    exact .refl s
  | alloc =>
    rw [hins] at h
    obtain ⟨⟨v, addr, u⟩, halloc, h⟩ := bind_eq_ok.mp h
    cases h
    exact (keepsDevices_of_alloc halloc).keepsBytes
  | free =>
    rw [hins] at h
    exact (keepsDevices_of_free h).keepsBytes
  | read =>
    rw [hins] at h
    obtain ⟨⟨v, dest, u⟩, hread, h⟩ := bind_eq_ok.mp h
    cases h
    exact keepsBytes_of_libread hread
  | write =>
    rw [hins] at h
    exact keepsBytes_of_libwrite h
  | syscall => exact absurd hins hop

/-- A system call that does something is `__sys_memmap`. -/
theorem sysMemmap_of_run {ins : InstT} (h : s.run k sched x ins junk = .ok (stat, t)) (hop : ins.opcode = .syscall) :
    KeepsBytes s t ∨ ins.arg0.setWidth 32 = 17#32 ∧
      ∃ regs', s.sysMemmap k sched (pidOf x) ⟨ins.arg1, ins.arg2, ins.arg3⟩ junk = .ok (stat, regs', t) := by
  unfold Kernel.run at h
  rw [hop] at h
  obtain ⟨⟨v, regs, u⟩, hsys, h⟩ := bind_eq_ok.mp h
  cases h
  rw [syscall_eq] at hsys
  split at hsys
  · rename_i hnr
    exact .inr ⟨hnr, regs, hsys⟩
  · cases hsys
    exact .inl (.refl s)

/-- **An instruction changes no byte that is not in its lists.** -/
theorem run_frame {ins : InstT} (h : s.run k sched x ins junk = .ok (stat, t)) :
    (∀ a ∉ (runAccess k sched s x ins).mram, t.mram.storage a = s.mram.storage a) ∧
      ∀ a ∉ (runAccess k sched s x ins).activeMswp, t.activeMswp.storage a = s.activeMswp.storage a := by
  have hall : KeepsBytes s t → (∀ a ∉ (runAccess k sched s x ins).mram, t.mram.storage a = s.mram.storage a) ∧
      ∀ a ∉ (runAccess k sched s x ins).activeMswp, t.activeMswp.storage a = s.activeMswp.storage a :=
    fun hkeep => ⟨fun a _ => by rw [hkeep.mram.storage], fun a _ => by rw [hkeep.activeMswp.storage]⟩
  by_cases hop : ins.opcode = .syscall
  · rcases sysMemmap_of_run h hop with hkeep | ⟨hnr, regs', hsys⟩
    · exact hall hkeep
    · unfold runAccess
      rw [hop]
      dsimp only
      rw [if_pos hnr]
      exact sysMemmap_frame hsys
  · exact hall (keepsBytes_of_run h hop)

/-- **An instruction depends on no byte that is not in its lists.** The swap device is only written. -/
theorem run_agrees {ins : InstT} (h : Agrees A B s s') (haccess : ∀ a ∈ (runAccess k sched s x ins).mram, A a)
    (hrun : s.run k sched x ins junk = .ok (stat, t)) :
    ∃ t', s'.run k sched x ins junk = .ok (stat, t') ∧ Agrees A B t t' := by
  have hon : s' = s.onDevices s'.mram s'.activeMswp := by
    rw [Kernel.onDevices, ← h.mm]
  unfold Kernel.run at hrun ⊢
  unfold runAccess at haccess
  cases hop : ins.opcode with
  | «calc» =>
    rw [hop] at hrun haccess
    cases hrun
    exact ⟨s', rfl, h⟩
  | alloc =>
    rw [hop] at hrun haccess
    obtain ⟨⟨v, addr, u⟩, halloc, hrun⟩ := bind_eq_ok.mp hrun
    cases hrun
    have halloc' : (s.onDevices s'.mram s'.activeMswp).alloc k sched x 0 (ins.arg1.setWidth 32) ins.arg0 junk
        = .ok (stat, addr, t.onDevices s'.mram s'.activeMswp) := by
      rw [alloc_onDevices, halloc]
      rfl
    rw [← hon] at halloc'
    refine ⟨t.onDevices s'.mram s'.activeMswp, ?_, h.onDevices (keepsDevices_of_alloc halloc)⟩
    simp only [Kernel.liballoc, halloc', bind, Except.bind]
  | free =>
    rw [hop] at hrun haccess
    have hfree : s.free x 0 (ins.arg0.setWidth 32) = .ok (stat, t) := hrun
    have hfree' : (s.onDevices s'.mram s'.activeMswp).free x 0 (ins.arg0.setWidth 32)
        = .ok (stat, t.onDevices s'.mram s'.activeMswp) := by
      rw [free_onDevices, hfree]
      rfl
    rw [← hon] at hfree'
    exact ⟨_, hfree', h.onDevices (keepsDevices_of_free hfree)⟩
  | read =>
    rw [hop] at hrun haccess
    obtain ⟨⟨v, dest, u⟩, hread, hrun⟩ := bind_eq_ok.mp hrun
    cases hrun
    obtain ⟨t', hread', hagree⟩ := libread_local h (fun a ha => haccess a (List.mem_append_left _ ha)) hread
    refine ⟨t', ?_, hagree⟩
    simp only [hread', bind, Except.bind]
  | write =>
    rw [hop] at hrun haccess
    exact libwrite_local h (fun a ha => haccess a (List.mem_append_left _ ha)) hrun
  | syscall =>
    rw [hop] at hrun haccess
    obtain ⟨⟨v, regs, u⟩, hsys, hrun⟩ := bind_eq_ok.mp hrun
    cases hrun
    unfold Kernel.libsyscall
    rw [syscall_eq] at hsys ⊢
    dsimp only at haccess ⊢
    by_cases hnr : ins.arg0.setWidth 32 = 17#32
    · rw [if_pos hnr] at hsys haccess
      obtain ⟨t', hsys', hmm, hram, hswp⟩ := sysMemmap_agrees h.mm h.mram h.activeMswp haccess hsys
      rw [if_pos hnr, hsys']
      exact ⟨t', rfl, hmm, hram, hswp⟩
    · rw [if_neg hnr] at hsys
      cases hsys
      rw [if_neg hnr]
      exact ⟨s', rfl, h⟩

end

/-! ## Loads -/

section

variable {A B : AddrT → Prop} {mp mp' : MemphyStruct} {s s' t : Kernel} {x : ℕ}

theorem AgreeOn.clearLoop (base : AddrT) (n : ℕ) : ∀ {mp mp' : MemphyStruct} {i : ℕ}, AgreeOn A mp mp' →
    AgreeOn A (LamiaAtrium.clearLoop base i n mp) (LamiaAtrium.clearLoop base i n mp') := by
  induction n with
  | zero =>
    intro mp mp' i h
    exact h
  | succ n ih =>
    intro mp mp' i h
    rw [LamiaAtrium.clearLoop, LamiaAtrium.clearLoop]
    exact ih (h.write _ _)

/-- `init_mm` reads no byte. -/
theorem loads_agrees (h : Agrees A B s s') (hload : Kernel.Loads x s t) :
    ∃ t', Kernel.Loads x s' t' ∧ Agrees A B t t' := by
  cases hload with
  | @initMm stat m₀ m mram link hinit =>
    cases hpool : s.mram.freeFpList with
    | nil =>
      have hinit' : initMm m₀ s'.mram link = (-1, m₀, s'.mram) :=
        initMm_of_nil m₀ (h.mram.freeFpList.trans hpool) link
      rw [initMm_of_nil m₀ hpool] at hinit
      obtain ⟨rfl, rfl⟩ := Prod.mk.inj (Prod.mk.inj hinit).2
      exact ⟨_, .initMm hinit', by simp only [Kernel.setMm, h.mm], h.mram, h.activeMswp⟩
    | cons fpn rest =>
      have hpart : AgreeOn A { s.mram with freeFpList := rest } { s'.mram with freeFpList := rest } :=
        ⟨h.mram.rdmflg, rfl, h.mram.storage⟩
      have hpool' : s'.mram.freeFpList = fpn :: rest := h.mram.freeFpList.trans hpool
      obtain ⟨mram', hinit', hagree⟩ : ∃ mram', initMm m₀ s'.mram link = (stat, m, mram') ∧ AgreeOn A mram mram' := by
        rw [initMm, memphyGetFreefp_cons hpool] at hinit
        rw [initMm, memphyGetFreefp_cons hpool']
        obtain ⟨rfl, hpair⟩ := Prod.mk.inj hinit
        obtain ⟨rfl, hmram⟩ := Prod.mk.inj hpair
        refine ⟨_, rfl, ?_⟩
        rw [← hmram]
        exact hpart.clearLoop _ _
      exact ⟨_, .initMm hinit', by simp only [Kernel.setMm, h.mm], hagree, h.activeMswp⟩

theorem mem_initMmAccess {fpn : AddrT} {rest : List AddrT} (hrdm : mp.rdmflg = true)
    (hpool : mp.freeFpList = fpn :: rest) {j : ℕ} (hj : j < paging64Pagesz) :
    fpn * BitVec.ofNat 64 paging64Pagesz + BitVec.ofNat 64 j ∈ initMmAccess mp := by
  have hrdm' : ({ mp with freeFpList := rest } : MemphyStruct).rdmflg = true := hrdm
  rw [initMmAccess, memphyGetFreefp_cons hpool]
  simp only [List.mem_flatMap, List.mem_range, memphyAccess, if_pos hrdm', List.mem_singleton]
  exact ⟨j, hj, rfl⟩

/-- `init_mm` changes no byte that is not in its list. -/
theorem initMm_frame (hrdm : mp.rdmflg = true) {m₀ m : MmStruct} {link : List VmRgStruct} {stat : ℤ}
    (hinit : initMm m₀ mp link = (stat, m, mp')) {a : AddrT} (ha : a ∉ initMmAccess mp) :
    mp'.storage a = mp.storage a := by
  cases hpool : mp.freeFpList with
  | nil =>
    rw [initMm_of_nil m₀ hpool] at hinit
    rw [← (Prod.mk.inj (Prod.mk.inj hinit).2).2]
  | cons fpn rest =>
    rw [initMm, memphyGetFreefp_cons hpool] at hinit
    have hrdm' : ({ mp with freeFpList := rest } : MemphyStruct).rdmflg = true := hrdm
    have hne : ∀ j, 0 ≤ j → j < 0 + paging64Pagesz →
        a ≠ fpn * BitVec.ofNat 64 paging64Pagesz + BitVec.ofNat 64 j := by
      rintro j - hj rfl
      rw [Nat.zero_add] at hj
      exact ha (mem_initMmAccess hrdm hpool hj)
    rw [← (Prod.mk.inj (Prod.mk.inj hinit).2).2, storage_clearLoop_of_ne hrdm' hne]

theorem loads_frame (hrdm : s.mram.rdmflg = true) (hload : Kernel.Loads x s t) :
    (∀ a ∉ initMmAccess s.mram, t.mram.storage a = s.mram.storage a) ∧ t.activeMswp = s.activeMswp := by
  cases hload with
  | initMm hinit => exact ⟨fun a ha => initMm_frame hrdm hinit ha, rfl⟩

end

end LamiaAtrium
