import LamiaAtrium.Mem.Run
import LamiaAtrium.Mem.Correctness.Regions

/-!
# `Mem.Correctness.Store` — what a READ delivers

`Stored` describes the states of any run after a WRITE of a byte by a process, as long as nothing has touched
that byte or its register since. `pg_setval` and `pg_getval` only look up the page, so the byte goes nowhere;
`read_delivers_iff` says that a READ delivers it exactly when the uninitialised local of `libread` holds it.
-/

namespace LamiaAtrium

/-! ## The runs between a WRITE and a READ -/

/-- Process `x` neither writes to `addr` nor frees or reallocates register `r`. -/
def Untouched (x : ℕ) (r : BitVec 32) (addr : AddrT) (s : Kernel) : MemEvent → Prop
  | .load y       => y ≠ x
  | .exec y ins _ => y = x →
    match ins.opcode with
    | .write => ∀ mm rg, s.mm x = some mm → symrgAt mm (ins.arg1.setWidth 32 : BitVec 32).toNat = .ok rg →
        rg.rgStart + ins.arg2 ≠ addr
    | .alloc => ins.arg1.setWidth 32 ≠ r
    | .free  => ins.arg0.setWidth 32 ≠ r
    | _      => True

/-- **The states in which a READ of `(r, o)` should deliver `v`.** In some run process `x` has written `v`
    there, inside the live region of `r`, with success, and has not touched it since. -/
inductive Stored (k : CharKind) (ram swp : DeviceBoot) (x : ℕ) (r : BitVec 32) (o : AddrT) (v : BYTE) :
    AddrT → Kernel → Prop where
  | write {s t mm rg sched ins junk} : (kernelMachine k ram swp).system.Reachable s → s.mm x = some mm →
      symrgAt mm r.toNat = .ok rg → rg.rgStart.toNat + o.toNat < rg.rgEnd.toNat →
      ins.opcode = .write → ins.arg0.setWidth 8 = v → ins.arg1.setWidth 32 = r → ins.arg2 = o →
      s.run k sched x ins junk = .ok (0, t) → Stored k ram swp x r o v (rg.rgStart + o) t
  | step {addr s e t} : Stored k ram swp x r o v addr s → (kernelMachine k ram swp).system.step s e t →
      Untouched x r addr s e → Stored k ram swp x r o v addr t

/-! ## READ -/

theorem extend_injective (k : CharKind) {a b : BYTE} (h : (k.extend a : BitVec 32) = k.extend b) : a = b := by
  have hlow : ∀ c : BYTE, (k.extend c : BitVec 32).setWidth 8 = c := by
    cases k <;> decide
  rw [← hlow a, h, hlow b]

/-- **`libread` stores its uninitialised local.** -/
theorem libread_dest {k : CharKind} {s t : Kernel} {x : ℕ} {r : BitVec 32} {o : AddrT} {data : BYTE} {stat : ℤ}
    {dest : BitVec 32} (h : s.libread k x r o data = .ok (stat, dest, t)) : dest = k.extend data := by
  unfold Kernel.libread Kernel.read at h
  obtain ⟨⟨val, data', s'⟩, hread, hdest⟩ := bind_eq_ok.mp h
  split at hread
  · cases hread
  · obtain ⟨mm, -, hread⟩ := bind_eq_ok.mp hread
    obtain ⟨currg, -, hread⟩ := bind_eq_ok.mp hread
    obtain ⟨⟨got, data'', s''⟩, hget, hread⟩ := bind_eq_ok.mp hread
    -- `pg_getval` hands `data` back as it was
    obtain ⟨⟨fpn, u⟩, -, hget⟩ := bind_eq_ok.mp hget
    cases hget
    cases hread
    cases hdest
    rfl

/-- **A READ delivers the byte of the last WRITE exactly when its uninitialised local holds it.** -/
theorem read_delivers_iff (k : CharKind) (ram swp : DeviceBoot) (x : ℕ) (r : BitVec 32) (o addr : AddrT)
    (v : BYTE) (s : Kernel) (_ : Stored k ram swp x r o v addr s) (data : BYTE) (dest : BitVec 32) (t : Kernel)
    (hread : s.libread k x r o data = .ok (0, dest, t)) : dest = k.extend v ↔ data = v := by
  rw [libread_dest hread]
  constructor
  · intro h
    exact extend_injective k h
  · rintro rfl
    rfl

/-! ## A run -/

section

variable {k : CharKind} {s : Kernel} {x : ℕ} {mm : MmStruct} {vma : VmAreaStruct}

/-- While no page has been mapped, a page lookup changes nothing. -/
theorem pgGetpage_of_noPage (hm : s.mm x = some mm) (hfifo : mm.fifoPgn = []) (pgn : BitVec 32) :
    ∃ fpn, s.pgGetpage k x pgn = .ok (fpn, s) := by
  unfold Kernel.pgGetpage
  rw [Kernel.mmOf_eq_ok.mpr hm]
  simp only [bind, Except.bind, findVictimPage_nil hfifo]
  split
  · exact ⟨_, rfl⟩
  · exact ⟨_, rfl⟩

theorem getSymrgById_register (r : Fin pagingMaxSymtblSz) : getSymrgById (BitVec.ofNat 32 r) = some (r : ℕ) := by
  revert r
  decide

/-- READ and WRITE report success without a page. -/
theorem libwrite_of_noPage (hm : s.mm x = some mm) (harea : OneArea mm vma) (hfifo : mm.fifoPgn = [])
    (v : BYTE) (r : Fin pagingMaxSymtblSz) (o : AddrT) :
    s.libwrite k x v (BitVec.ofNat 32 r) o = .ok (0, s) := by
  have hrg : symrgAt mm r = .ok (mm.symrgtbl.get r) := dif_pos r.isLt
  obtain ⟨fpn, hpage⟩ := pgGetpage_of_noPage (k := k) hm hfifo
    (pagingPgn (((mm.symrgtbl.get r).rgStart + o).setWidth 32))
  unfold Kernel.libwrite Kernel.write Kernel.pgSetval
  rw [Kernel.mmOf_eq_ok.mpr hm]
  simp only [bind, Except.bind, getSymrgById_register, harea.getVmaByNum_eq, hrg, hpage]

theorem libread_of_noPage (hm : s.mm x = some mm) (hfifo : mm.fifoPgn = []) (r : Fin pagingMaxSymtblSz)
    (o : AddrT) (data : BYTE) :
    s.libread k x (BitVec.ofNat 32 r) o data = .ok (0, k.extend data, s) := by
  have hrg : symrgAt mm r = .ok (mm.symrgtbl.get r) := dif_pos r.isLt
  obtain ⟨fpn, hpage⟩ := pgGetpage_of_noPage (k := k) hm hfifo
    (pagingPgn (((mm.symrgtbl.get r).rgStart + o).setWidth 32))
  unfold Kernel.libread Kernel.read Kernel.pgGetval
  simp only [getSymrgById_register, Kernel.mmOf_eq_ok.mpr hm, bind, Except.bind, hrg, hpage]

end

/-- A device of 4096 bytes. -/
def fourK : DeviceBoot := zeroDevice 4096

/-- `alloc 100 1` and `write 5 1 0`, by the only process. -/
theorem stored_five : ∃ s, Stored .signed fourK fourK 0 1 0 5 0 s ∧
    ∀ data, s.libread .signed 0 1 0 data = .ok (0, CharKind.extend .signed data, s) := by
  obtain ⟨m, mram, hinit⟩ : ∃ m mram,
      initMm rawMm fourK.device [] = (0, m, mram) := ⟨_, _, rfl⟩
  obtain ⟨hmmap, -, hfifo⟩ := initMm_area hinit
  have harea : OneArea m (vma0 []) := ⟨hmmap, rfl, rfl⟩
  let T := (kernelMachine .signed fourK fourK).system
  have h₀ : T.Reachable (.boot fourK fourK) := .init rfl
  have hload : Kernel.Loads 0 (.boot fourK fourK)
      (Kernel.setMm { Kernel.boot fourK fourK with mram } 0 m) := .initMm hinit
  have h₁ := h₀.step (l := MemEvent.load 0) hload
  have hm := Kernel.mm_setMm_self { Kernel.boot fourK fourK with mram } 0 m
  have halloc := liballoc_eq .signed .static hm harea 100 regB 0
  have h₂ := h₁.step (l := MemEvent.exec 0 ⟨.alloc, 100, 1, 0, 0⟩ .static) ⟨0, 0, halloc⟩
  -- the region is live
  have hm₂ := Kernel.mm_setMm_self (Kernel.setMm { Kernel.boot fourK fourK with mram } 0 m) 0
    (afterAlloc m (vma0 []) 100 regB)
  have harea₂ : OneArea (afterAlloc m (vma0 []) 100 regB) (vma0 []) := ⟨rfl, rfl, rfl⟩
  have hfifo₂ : (afterAlloc m (vma0 []) 100 regB).fifoPgn = [] := hfifo
  have hlive : (afterAlloc m (vma0 []) 100 regB).symrgtbl.get regB = ⟨0, 100⟩ := by
    rw [afterAlloc, get_set, if_pos rfl]
    decide
  have hrg : symrgAt (afterAlloc m (vma0 []) 100 regB) (1 : BitVec 32).toNat = .ok ⟨0, 100⟩ := by
    rw [← hlive]
    exact dif_pos regB.isLt
  have hwrite : Kernel.run .signed .static _ 0 ⟨.write, 5, 1, 0, 0⟩ 0 = .ok (0, _) :=
    libwrite_of_noPage hm₂ harea₂ hfifo₂ 5 regB 0
  refine ⟨_, .write h₂ hm₂ hrg (by decide) rfl rfl rfl rfl hwrite, ?_⟩
  exact libread_of_noPage hm₂ hfifo₂ regB 0

/-- Its READ, when the local happens to hold 5. -/
theorem read_delivers_iff_five : ∃ (s : Kernel) (dest : BitVec 32) (t : Kernel),
    s.libread .signed 0 1 0 5 = .ok (0, dest, t) ∧
    (dest = CharKind.extend .signed 5 ↔ (5 : BYTE) = 5) := by
  obtain ⟨s, hs, hread⟩ := stored_five
  exact ⟨s, _, s, hread 5, read_delivers_iff .signed fourK fourK 0 1 0 0 5 s hs 5 _ s (hread 5)⟩

/-- **A READ that delivers something else**: the local holds 0. -/
theorem read_loses_write : ¬ ∀ (k : CharKind) (ram swp : DeviceBoot) (x : ℕ) (r : BitVec 32) (o addr : AddrT)
    (v : BYTE) (s : Kernel), Stored k ram swp x r o v addr s → ∀ (data : BYTE) (dest : BitVec 32) (t : Kernel),
      s.libread k x r o data = .ok (0, dest, t) → dest = k.extend v := by
  intro hall
  obtain ⟨s, hs, hread⟩ := stored_five
  exact absurd (hall .signed fourK fourK 0 1 0 0 5 s hs 0 _ s (hread 0)) (by decide)

end LamiaAtrium
