import LamiaAtrium.Mem.Syscall

/-!
# `Mem.Libmem` — `libmem.c`: regions, pages, and the library calls of the instructions

* Regions: `symrgtbl` maps a register index to its region, and `vm_freerg_list` of an area holds the free
  ones. `carve` is the first-fit loop of `get_free_vmrg_area`.
* Pages: `pg_getpage` picks a victim when a page is not present, and neither copies nor maps anything.
* An area is named by its position in `mmap`; `vmaid` and `rgid` are the C `int`s.
* `data` of `pg_getval` and `__read` is the caller's variable; what an uninitialised one holds is a
  parameter.
-/

namespace LamiaAtrium

/-! ## Areas -/

/-- The loop of `get_vma_by_num`, at the area with position `i`. Running off the end reads `vm_id` through
    `NULL`. -/
def getVmaLoop (vmaid : BitVec 32) : ℕ → List VmAreaStruct → Except Fault ℕ
  | _, []          => .error .nullDeref
  | i, vma :: rest =>
    if (vma.vmId.setWidth 32 : BitVec 32).slt vmaid then getVmaLoop vmaid (i + 1) rest else .ok i

/-- `get_vma_by_num`; `none` is `NULL`. -/
def getVmaByNum (mm : MmStruct) (vmaid : BitVec 32) : Except Fault (Option ℕ) :=
  match mm.mmap with
  | [] => .ok none
  | l  => (getVmaLoop vmaid 0 l).map some

/-- The area behind a pointer of `get_vma_by_num`. -/
def areaAt (mm : MmStruct) (vma : Option ℕ) : Except Fault (ℕ × VmAreaStruct) :=
  match vma with
  | none => .error .nullDeref
  | some i =>
    match mm.mmap[i]? with
    | none   => .error .nullDeref
    | some v => .ok (i, v)

theorem areaAt_eq_ok {mm : MmStruct} {vma : Option ℕ} {i : ℕ} {v : VmAreaStruct} :
    areaAt mm vma = .ok (i, v) ↔ vma = some i ∧ mm.mmap[i]? = some v := by
  cases vma with
  | none => simp [areaAt]
  | some j =>
    unfold areaAt
    dsimp only
    constructor
    · intro h
      split at h
      · cases h
      · rename_i w hv
        obtain ⟨rfl, rfl⟩ := Prod.mk.inj (Except.ok.inj h)
        exact ⟨rfl, hv⟩
    · rintro ⟨hj, hv⟩
      obtain rfl := Option.some.inj hj
      rw [hv]

/-- `OVERLAP` (`mm.h`): the macro expands to 0. -/
def overlap (_x1 _x2 _y1 _y2 : AddrT) : Bool := false

/-- The loop of `validate_overlap_vm_area`, at the area with position `i`; `cur` is the position of `cur_area`. -/
def validateLoop (cur : ℕ) (curArea : VmAreaStruct) : ℕ → List VmAreaStruct → ℤ
  | _, []          => 0
  | i, vma :: rest =>
    if i ≠ cur ∧ overlap curArea.vmStart curArea.vmEnd vma.vmStart vma.vmEnd = true then -1
    else validateLoop cur curArea (i + 1) rest

/-- `validate_overlap_vm_area`: the planned range is compared with itself only, the loop has the bounds of
    `cur_area`. -/
def validateOverlapVmArea (mm : MmStruct) (vmaid : BitVec 32) (vmastart vmaend : AddrT) : Except Fault ℤ :=
  if vmaend ≤ vmastart then .ok (-1)
  else if mm.mmap.isEmpty then .ok (-1)
  else do
    match ← getVmaByNum mm vmaid with
    | none => .ok (-1)
    | some i =>
      let (cur, curArea) ← areaAt mm (some i)
      .ok (validateLoop cur curArea 0 mm.mmap)

/-- `enlist_vm_freerg_list`: in front of the list of the first area, unless the region is empty. -/
def enlistVmFreergList (mm : MmStruct) (rgElmt : VmRgStruct) : Except Fault (ℤ × MmStruct) :=
  match mm.mmap with
  | [] => .error .nullDeref
  | vma :: rest =>
    if rgElmt.rgEnd ≤ rgElmt.rgStart then .ok (-1, mm)
    else .ok (0, { mm with mmap := { vma with vmFreergList := rgElmt :: vma.vmFreergList } :: rest })

/-! ## The symbol table -/

/-- `get_symrg_byid`: a pointer into `symrgtbl`, as an index. Index 30 is let through. -/
def getSymrgById (rgid : BitVec 32) : Option ℕ :=
  if rgid.toInt < 0 ∨ (pagingMaxSymtblSz : ℤ) < rgid.toInt then none else some rgid.toNat

/-- Read `symrgtbl[i]`. -/
def symrgAt (mm : MmStruct) (i : ℕ) : Except Fault VmRgStruct :=
  if h : i < pagingMaxSymtblSz then .ok (mm.symrgtbl.get ⟨i, h⟩) else .error .outOfBounds

/-- Write `symrgtbl[i]`. -/
def setSymrg (mm : MmStruct) (i : ℕ) (rg : VmRgStruct) : Except Fault MmStruct :=
  if h : i < pagingMaxSymtblSz then .ok { mm with symrgtbl := mm.symrgtbl.set i rg h } else .error .outOfBounds

theorem lt_of_symrgAt {mm : MmStruct} {i : ℕ} {rg : VmRgStruct} (h : symrgAt mm i = .ok rg) :
    i < pagingMaxSymtblSz := by
  unfold symrgAt at h
  split at h
  · assumption
  · cases h

theorem lt_of_setSymrg {mm mm' : MmStruct} {i : ℕ} {rg : VmRgStruct} (h : setSymrg mm i rg = .ok mm') :
    i < pagingMaxSymtblSz := by
  unfold setSymrg at h
  split at h
  · assumption
  · cases h

theorem setSymrg_of_lt {mm : MmStruct} {i : ℕ} (h : i < pagingMaxSymtblSz) (rg : VmRgStruct) :
    setSymrg mm i rg = .ok { mm with symrgtbl := mm.symrgtbl.set i rg h } := by
  rw [setSymrg, dif_pos h]

/-! ## Allocation -/

/-- What a node of the free list becomes when its region is used up: its successor is copied over it and
    freed; the last node stays as an empty region. -/
def cloneNext (rgit : VmRgStruct) : List VmRgStruct → List VmRgStruct
  | nextrg :: rest => nextrg :: rest
  | []             => [⟨rgit.rgEnd, rgit.rgEnd⟩]

/-- The loop of `get_free_vmrg_area`: the first region with room gives its first `size` bytes. -/
def carve (size : AddrT) : List VmRgStruct → Option VmRgStruct × List VmRgStruct
  | [] => (none, [])
  | rgit :: rest =>
    if rgit.rgStart + size ≤ rgit.rgEnd then
      (some ⟨rgit.rgStart, rgit.rgStart + size⟩,
        if rgit.rgStart + size < rgit.rgEnd then ⟨rgit.rgStart + size, rgit.rgEnd⟩ :: rest
        else cloneNext rgit rest)
    else ((carve size rest).1, rgit :: (carve size rest).2)

/-- `get_free_vmrg_area`; `size` is an `int`. `rg_start == -1` means that nothing was found, even when the
    loop has just carved a region there. -/
def getFreeVmrgArea (mm : MmStruct) (vmaid size : BitVec 32) : Except Fault (Option VmRgStruct × MmStruct) := do
  let (i, vma) ← areaAt mm (← getVmaByNum mm vmaid)
  let (newrg, list) := carve (size.signExtend 64) vma.vmFreergList
  .ok (newrg.filter (·.rgStart != -1), { mm with mmap := mm.mmap.set i { vma with vmFreergList := list } })

namespace Kernel

/-- `__alloc`. `old_sbrk` is an `int`; `inc_sz` is computed and never read, and neither is the result of
    the system call. -/
def alloc (k : CharKind) (sched : SchedState ℕ) (s : Kernel) (x : ℕ) (vmaid rgid : BitVec 32) (size : AddrT)
    (junk : BYTE) : Except Fault (ℤ × AddrT × Kernel) := do
  let mm ← s.mmOf x
  let vma ← getVmaByNum mm vmaid
  match ← getFreeVmrgArea mm vmaid (size.setWidth 32) with
  | (some rgnode, mm) =>
    let mm ← setSymrg mm rgid.toNat rgnode
    .ok (0, rgnode.rgStart, s.setMm x mm)
  | (none, mm) =>
    let (_, curVma) ← areaAt mm vma
    let oldSbrk : AddrT := (curVma.sbrk.setWidth 32 : BitVec 32).signExtend 64
    let (_, _, s) ← (s.setMm x mm).syscall k sched (pidOf x) 17 ⟨2, vmaid.signExtend 64, size⟩ junk
    let mm ← s.mmOf x
    let mm ← setSymrg mm rgid.toNat ⟨oldSbrk, oldSbrk + size⟩
    .ok (0, oldSbrk, s.setMm x mm)

/-- `__free`. -/
def free (s : Kernel) (x : ℕ) (_vmaid rgid : BitVec 32) : Except Fault (ℤ × Kernel) :=
  match getSymrgById rgid with
  | none => .ok (-1, s)
  | some i => do
    let mm ← s.mmOf x
    let rgnode ← symrgAt mm i
    if rgnode.rgStart = 0 ∧ rgnode.rgEnd = 0 then .ok (-1, s)
    else
      let mm ← setSymrg mm i ⟨0, 0⟩
      let (_, mm) ← enlistVmFreergList mm rgnode
      .ok (0, s.setMm x mm)

/-- `liballoc`. -/
def liballoc (k : CharKind) (sched : SchedState ℕ) (s : Kernel) (x : ℕ) (size : AddrT) (regIndex : BitVec 32)
    (junk : BYTE) : Except Fault (ℤ × Kernel) := do
  let (val, _, s) ← s.alloc k sched x 0 regIndex size junk
  .ok (val, s)

/-- `libfree`. -/
def libfree (s : Kernel) (x : ℕ) (regIndex : BitVec 32) : Except Fault (ℤ × Kernel) := s.free x 0 regIndex

/-! ### When they go through -/

/-- An allocation finds its area, and its register is one of the table. -/
def Allocates (s : Kernel) (x : ℕ) (rgid : BitVec 32) : Prop :=
  ∃ mm area, s.mm x = some mm ∧ (getVmaByNum mm 0 >>= areaAt mm) = .ok area ∧ rgid.toNat < pagingMaxSymtblSz

/-- There is a region to be freed, and an area to list it in. -/
def Frees (s : Kernel) (x : ℕ) (rgid : BitVec 32) : Prop :=
  ∃ mm i rg, s.mm x = some mm ∧ getSymrgById rgid = some i ∧ symrgAt mm i = .ok rg ∧
    ¬ (rg.rgStart = 0 ∧ rg.rgEnd = 0) ∧ mm.mmap ≠ []

section

variable {k : CharKind} {sched : SchedState ℕ} {s t : Kernel} {x : ℕ} {size : AddrT} {rgid : BitVec 32} {junk : BYTE}
  {stat : ℤ}

/-- **An allocation that returns** reports success, whatever its system call did. -/
theorem liballoc_spec (h : s.liballoc k sched x size rgid junk = .ok (stat, t)) :
    stat = 0 ∧ s.Allocates x rgid ∧ (t.mm x).isSome := by
  obtain ⟨⟨val, addr, u⟩, halloc, h⟩ := bind_eq_ok.mp h
  obtain ⟨rfl, rfl⟩ := Prod.mk.inj (Except.ok.inj h)
  obtain ⟨mm, hm, halloc⟩ := bind_eq_ok.mp halloc
  obtain ⟨vma, -, halloc⟩ := bind_eq_ok.mp halloc
  obtain ⟨⟨newrg, mm₁⟩, hfree, halloc⟩ := bind_eq_ok.mp halloc
  obtain ⟨vma', hvma, hfree⟩ := bind_eq_ok.mp hfree
  obtain ⟨area, harea, -⟩ := bind_eq_ok.mp hfree
  have hallocates : rgid.toNat < pagingMaxSymtblSz → s.Allocates x rgid := fun hr =>
    ⟨mm, area, mmOf_eq_ok.mp hm, bind_eq_ok.mpr ⟨vma', hvma, harea⟩, hr⟩
  cases newrg with
  | some rgnode =>
    obtain ⟨mm₂, hset, halloc⟩ := bind_eq_ok.mp halloc
    obtain ⟨rfl, -, rfl⟩ := Prod.mk.inj (Except.ok.inj halloc)
    exact ⟨rfl, hallocates (lt_of_setSymrg hset), by rw [mm_setMm_self]; rfl⟩
  | none =>
    obtain ⟨cur, -, halloc⟩ := bind_eq_ok.mp halloc
    obtain ⟨sys, -, halloc⟩ := bind_eq_ok.mp halloc
    obtain ⟨mm₂, -, halloc⟩ := bind_eq_ok.mp halloc
    obtain ⟨mm₃, hset, halloc⟩ := bind_eq_ok.mp halloc
    obtain ⟨rfl, -, rfl⟩ := Prod.mk.inj (Except.ok.inj halloc)
    exact ⟨rfl, hallocates (lt_of_setSymrg hset), by rw [mm_setMm_self]; rfl⟩

theorem Allocates.liballoc (h : s.Allocates x rgid) : ∃ t, s.liballoc k sched x size rgid junk = .ok (0, t) := by
  obtain ⟨mm, ⟨i, v⟩, hm, harea, hr⟩ := h
  obtain ⟨vma, hvma, harea⟩ := bind_eq_ok.mp harea
  obtain ⟨newrg, list, hfree⟩ : ∃ newrg list, getFreeVmrgArea mm 0 (size.setWidth 32)
      = .ok (newrg, { mm with mmap := mm.mmap.set i { v with vmFreergList := list } }) :=
    ⟨_, _, bind_eq_ok.mpr ⟨vma, hvma, bind_eq_ok.mpr ⟨(i, v), harea, rfl⟩⟩⟩
  suffices hall : ∃ addr t, s.alloc k sched x 0 rgid size junk = .ok (0, addr, t) by
    obtain ⟨addr, t, halloc⟩ := hall
    exact ⟨t, bind_eq_ok.mpr ⟨(0, addr, t), halloc, rfl⟩⟩
  unfold Kernel.alloc
  rw [mmOf_eq_ok.mpr hm]
  simp only [bind, Except.bind, hvma, hfree]
  cases newrg with
  | some rgnode =>
    dsimp only
    rw [setSymrg_of_lt hr]
    exact ⟨_, _, rfl⟩
  | none =>
    -- the area is still there, and the system call comes back
    obtain ⟨rfl, hv⟩ := areaAt_eq_ok.mp harea
    have hcur : areaAt { mm with mmap := mm.mmap.set i { v with vmFreergList := list } } (some i)
        = .ok (i, { v with vmFreergList := list }) := by
      refine areaAt_eq_ok.mpr ⟨rfl, ?_⟩
      rw [List.getElem?_set_self (List.getElem?_eq_some_iff.mp hv).1]
    obtain ⟨stat, regs, hsys⟩ := syscall_inc k sched
      (s.setMm x { mm with mmap := mm.mmap.set i { v with vmFreergList := list } }) (pidOf x)
      ((0 : BitVec 32).signExtend 64) size junk
    have hm' := mmOf_eq_ok.mpr (mm_setMm_self s x { mm with mmap := mm.mmap.set i { v with vmFreergList := list } })
    dsimp only
    simp only [hcur, hsys, hm', setSymrg_of_lt hr]
    exact ⟨_, _, rfl⟩

/-- **A FREE that returns** has refused its register, or it has listed a region. -/
theorem libfree_spec (h : s.libfree x rgid = .ok (stat, t)) :
    stat = -1 ∨ stat = 0 ∧ s.Frees x rgid ∧ t.mram = s.mram ∧ (t.mm x).isSome := by
  unfold libfree Kernel.free at h
  cases hid : getSymrgById rgid with
  | none =>
    rw [hid] at h
    exact .inl (congrArg Prod.fst (Except.ok.inj h)).symm
  | some i =>
    rw [hid] at h
    obtain ⟨mm, hm, h⟩ := bind_eq_ok.mp h
    obtain ⟨rg, hrg, h⟩ := bind_eq_ok.mp h
    dsimp only at h
    split at h
    · exact .inl (congrArg Prod.fst (Except.ok.inj h)).symm
    · rename_i hsome
      obtain ⟨mm₁, hset, h⟩ := bind_eq_ok.mp h
      obtain ⟨⟨listed, mm₂⟩, henlist, h⟩ := bind_eq_ok.mp h
      obtain ⟨rfl, rfl⟩ := Prod.mk.inj (Except.ok.inj h)
      rw [setSymrg_of_lt (lt_of_symrgAt hrg)] at hset
      obtain rfl := Except.ok.inj hset
      have hmmap : mm.mmap ≠ [] := by
        intro hnil
        unfold enlistVmFreergList at henlist
        rw [hnil] at henlist
        cases henlist
      exact .inr ⟨rfl, ⟨mm, i, rg, mmOf_eq_ok.mp hm, hid, hrg, hsome, hmmap⟩, rfl, by rw [mm_setMm_self]; rfl⟩

theorem Frees.libfree (h : s.Frees x rgid) : ∃ t, s.libfree x rgid = .ok (0, t) := by
  obtain ⟨mm, i, rg, hm, hid, hrg, hsome, hmmap⟩ := h
  obtain ⟨vma, rest, hcons⟩ := List.exists_cons_of_ne_nil hmmap
  obtain ⟨listed, hlist⟩ : ∃ listed, enlistVmFreergList
      { mm with symrgtbl := mm.symrgtbl.set i ⟨0, 0⟩ (lt_of_symrgAt hrg) } rg = .ok listed := by
    unfold enlistVmFreergList
    rw [hcons]
    dsimp only
    split
    · exact ⟨_, rfl⟩
    · exact ⟨_, rfl⟩
  refine ⟨s.setMm x listed.2, ?_⟩
  unfold Kernel.libfree Kernel.free
  rw [hid]
  dsimp only
  rw [mmOf_eq_ok.mpr hm]
  simp only [bind, Except.bind, hrg, if_neg hsome, setSymrg_of_lt (lt_of_symrgAt hrg), hlist]

end

end Kernel

/-! ## Pages -/

/-- The walk of `find_victim_page` to the last node, which it unlinks: `front` are the nodes up to `prev`, `pg` is
    followed by the rest. `prev` is `NULL` until the first turn. -/
def victimLoop (front : List AddrT) (pg : AddrT) : List AddrT → Except Fault (AddrT × List AddrT)
  | pgNext :: rest => victimLoop (front ++ [pg]) pgNext rest
  | []             => if front = [] then .error .nullDeref else .ok (pg, front)

/-- `find_victim_page`: the oldest page, at the end of the list. -/
def findVictimPage (mm : MmStruct) : Except Fault (Option AddrT × MmStruct) :=
  match mm.fifoPgn with
  | [] => .ok (none, mm)
  | pg :: rest => do
    let (retpgn, list) ← victimLoop [] pg rest
    .ok (some retpgn, { mm with fifoPgn := list })

/-- The walk ends at the last node, with all others in front of it. -/
theorem victimLoop_append (pgn : AddrT) (nodes : List AddrT) : ∀ (front : List AddrT) (pg : AddrT),
    victimLoop front pg (nodes ++ [pgn]) = .ok (pgn, front ++ pg :: nodes) := by
  induction nodes with
  | nil =>
    intro front pg
    exact if_neg (List.append_ne_nil_of_right_ne_nil front (List.cons_ne_nil pg []))
  | cons pgNext nodes ih =>
    intro front pg
    rw [List.cons_append, victimLoop, ih, List.append_assoc]
    rfl

theorem findVictimPage_nil {mm : MmStruct} (h : mm.fifoPgn = []) : findVictimPage mm = .ok (none, mm) := by
  rw [findVictimPage, h]

/-- **With a single page in the list, `prev` is still `NULL`** when the page is unlinked. -/
theorem findVictimPage_singleton {mm : MmStruct} {pgn : AddrT} (h : mm.fifoPgn = [pgn]) :
    findVictimPage mm = .error .nullDeref := by
  rw [findVictimPage, h]
  rfl

/-- **With more than one page, the last one is taken.** -/
theorem findVictimPage_append {mm : MmStruct} {pgn : AddrT} {rest : List AddrT} (hrest : rest ≠ [])
    (h : mm.fifoPgn = rest ++ [pgn]) : findVictimPage mm = .ok (some pgn, { mm with fifoPgn := rest }) := by
  obtain ⟨pg, nodes, rfl⟩ := List.exists_cons_of_ne_nil hrest
  rw [findVictimPage, h]
  dsimp only [List.cons_append]
  rw [victimLoop_append]
  rfl

namespace Kernel

/-- `pg_getpage`; `none` is `-1`. The victim is neither copied nor unmapped, and the page is not mapped. -/
def pgGetpage (k : CharKind) (s : Kernel) (x : ℕ) (pgn : BitVec 32) :
    Except Fault (Option (BitVec 32) × Kernel) := do
  let mm ← s.mmOf x
  let fpn := pagingFpn (pteGetEntry k mm s.mram (pgn.signExtend 64))
  if pagingPagePresent (pteGetEntry k mm s.mram (pgn.signExtend 64)) then .ok (some fpn, s)
  else
    match ← findVictimPage mm with
    | (none, _) => .ok (none, s)
    | (some _, mm) =>
      match memphyGetFreefp s.activeMswp with
      | none => .ok (none, s.setMm x mm)
      | some (_, mswp) =>
        .ok (some fpn, { s with activeMswp := mswp }.setMm x { mm with fifoPgn := pgn.signExtend 64 :: mm.fifoPgn })

/-- `pg_getval`: never stores through `data`. -/
def pgGetval (k : CharKind) (s : Kernel) (x : ℕ) (addr : BitVec 32) (data : BYTE) :
    Except Fault (ℤ × BYTE × Kernel) := do
  let (fpn, s) ← s.pgGetpage k x (pagingPgn addr)
  .ok (if fpn.isSome then 0 else -1, data, s)

/-- `pg_setval`: never stores `value`. -/
def pgSetval (k : CharKind) (s : Kernel) (x : ℕ) (addr : BitVec 32) (_value : BYTE) : Except Fault (ℤ × Kernel) := do
  let (fpn, s) ← s.pgGetpage k x (pagingPgn addr)
  .ok (if fpn.isSome then 0 else -1, s)

/-- `__read`. -/
def read (k : CharKind) (s : Kernel) (x : ℕ) (_vmaid rgid : BitVec 32) (offset : AddrT) (data : BYTE) :
    Except Fault (ℤ × BYTE × Kernel) :=
  match getSymrgById rgid with
  | none => .error .nullDeref
  | some i => do
    let currg ← symrgAt (← s.mmOf x) i
    let (_, data, s) ← s.pgGetval k x ((currg.rgStart + offset).setWidth 32) data
    .ok (0, data, s)

/-- `libread`: the status, and what it stores through `destination`; `data` is its uninitialised local. -/
def libread (k : CharKind) (s : Kernel) (x : ℕ) (source : BitVec 32) (offset : AddrT) (data : BYTE) :
    Except Fault (ℤ × BitVec 32 × Kernel) := do
  let (val, data, s) ← s.read k x 0 source offset data
  .ok (val, k.extend data, s)

/-- `__write`. -/
def write (k : CharKind) (s : Kernel) (x : ℕ) (vmaid rgid : BitVec 32) (offset : AddrT) (value : BYTE) :
    Except Fault (ℤ × Kernel) := do
  let mm ← s.mmOf x
  match getSymrgById rgid, ← getVmaByNum mm vmaid with
  | some i, some _ =>
    let currg ← symrgAt mm i
    let (_, s) ← s.pgSetval k x ((currg.rgStart + offset).setWidth 32) value
    .ok (0, s)
  | _, _ => .ok (-1, s)

/-- `libwrite`. -/
def libwrite (k : CharKind) (s : Kernel) (x : ℕ) (data : BYTE) (destination : BitVec 32) (offset : AddrT) :
    Except Fault (ℤ × Kernel) := s.write k x 0 destination offset data

end Kernel

/-! ## Teardown -/

/-- `caller->krnl->mm->pgd[pagenum]`: the word of the simulator's own memory that `pgd`, which is an address of the
    device, leads to as a pointer. -/
def pgdEntry (host : AddrT → AddrT) (mm : MmStruct) (pagenum : ℕ) : BitVec 32 :=
  (host (mm.pgd + BitVec.ofNat 64 (8 * pagenum))).setWidth 32

namespace Kernel

/-- One turn of the loop of `free_pcb_memph`; `fpn` is an `int`. -/
def freePcbTurn (s : Kernel) (pte : BitVec 32) : Kernel :=
  if pagingPagePresent pte then { s with mram := memphyPutFreefp s.mram ((pagingFpn pte).signExtend 64) }
  else { s with activeMswp := memphyPutFreefp s.activeMswp ((pagingSwp pte).signExtend 64) }

/-- `free_pcb_memph`; nothing calls it. -/
def freePcbMemph (host : AddrT → AddrT) (s : Kernel) (x : ℕ) : Except Fault (ℤ × Kernel) := do
  let mm ← s.mmOf x
  if mm.pgd = 0 then .error .nullDeref
  else .ok (0, ((List.range pagingMaxPgn).map (pgdEntry host mm)).foldl freePcbTurn s)

end Kernel

end LamiaAtrium
