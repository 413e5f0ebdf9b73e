import Mathlib.Tactic
import LamiaAtrium.Mem.Types

/-!
# `Mem.Memphy` — `mm-memphy.c`: the storage devices

A status `int` that is `-1` on failure and leaves everything as it was is an `Option`: `none` is `-1`.
Memory that the code leaves uninitialised is a parameter: `initMemphy` takes what `malloc` returned for the
storage block, what the structure held before, and the link that `MEMPHY_format` never writes.
-/

namespace LamiaAtrium

/-! ## Access -/

/-- The `n` turns of the loop of `MEMPHY_mv_csr`: `cursor = (cursor + 1) % maxsz`. -/
def mvCsrLoop (maxsz : ℤ) : ℕ → ℤ → ℤ
  | 0,     cursor => cursor
  | n + 1, cursor => mvCsrLoop maxsz n ((cursor + 1).tmod maxsz)

/-- `MEMPHY_mv_csr`: at most `offset` turns and at most `maxsz`. -/
def memphyMvCsr (mp : MemphyStruct) (offset : AddrT) : MemphyStruct :=
  { mp with cursor := mvCsrLoop mp.maxsz (min offset.toNat mp.maxsz.toNat) 0 }

/-- `MEMPHY_seq_read`: refuses exactly the devices it is meant for. -/
def memphySeqRead (mp : MemphyStruct) (addr : AddrT) : Option (BYTE × MemphyStruct) :=
  if !mp.rdmflg then none
  else some (mp.storage addr, memphyMvCsr mp addr)

/-- `MEMPHY_read`. -/
def memphyRead (mp : MemphyStruct) (addr : AddrT) : Option (BYTE × MemphyStruct) :=
  if mp.rdmflg then some (mp.storage addr, mp) else memphySeqRead mp addr

/-- `MEMPHY_seq_write`. -/
def memphySeqWrite (mp : MemphyStruct) (addr : AddrT) (value : BYTE) : Option MemphyStruct :=
  if !mp.rdmflg then none
  else
    let mp := memphyMvCsr mp addr
    some { mp with storage := Function.update mp.storage addr value }

/-- `MEMPHY_write`. -/
def memphyWrite (mp : MemphyStruct) (addr : AddrT) (data : BYTE) : Option MemphyStruct :=
  if mp.rdmflg then some { mp with storage := Function.update mp.storage addr data }
  else memphySeqWrite mp addr data

/-- `MEMPHY_write` as every caller uses it: the status is ignored. -/
def memphyWriteIgn (mp : MemphyStruct) (addr : AddrT) (data : BYTE) : MemphyStruct :=
  (memphyWrite mp addr data).getD mp

/-! ## Frames -/

/-- A node of the list while it is built: its frame, and the frames that `fp_next` leads to. -/
structure FramephyStruct where
  fpn : AddrT
  fpNext : List AddrT

/-- `n` turns of the loop of `MEMPHY_format`, from frame `iter` on, and the list that they leave: `linked` are the
    frames of the nodes in front of `fst`. -/
def formatLoop : ℕ → ℕ → List AddrT → FramephyStruct → List AddrT
  | 0,     _,    linked, fst => linked ++ fst.fpn :: fst.fpNext
  | n + 1, iter, linked, fst =>
    let newfst : FramephyStruct := ⟨BitVec.ofNat 64 iter, []⟩ -- newfst->fp_next = NULL
    -- fst->fp_next = newfst: what the node led to until now is out of the list
    formatLoop n (iter + 1) (linked ++ [fst.fpn]) newfst

/-- `MEMPHY_format`. With no whole page the list pointer keeps what it held. `fp_next` of the first node is not set:
    `link` is what it leads to in the block that `malloc` returned. -/
def memphyFormat (mp : MemphyStruct) (pagesz : ℤ) (link : List AddrT) : MemphyStruct :=
  let numfp := mp.maxsz.tdiv pagesz
  if numfp ≤ 0 then mp
  else { mp with freeFpList := formatLoop (numfp.toNat - 1) 1 [] ⟨0, link⟩ }

/-- `MEMPHY_get_freefp`. -/
def memphyGetFreefp (mp : MemphyStruct) : Option (AddrT × MemphyStruct) :=
  match mp.freeFpList with
  | [] => none
  | fpn :: rest => some (fpn, { mp with freeFpList := rest })

/-- `MEMPHY_put_freefp`. -/
def memphyPutFreefp (mp : MemphyStruct) (fpn : AddrT) : MemphyStruct :=
  { mp with freeFpList := fpn :: mp.freeFpList }

/-- `init_memphy`. `mp` is the structure as it was, `block` the storage as `malloc` returned it, `link` the
    unset link of `memphyFormat`. -/
def initMemphy (mp : MemphyStruct) (block : AddrT → BYTE) (link : List AddrT) (maxSize : AddrT)
    (randomflg : ℤ) : MemphyStruct :=
  let mp := { mp with
    storage := fun a => if a < maxSize then 0 else block a
    maxsz := (maxSize.setWidth 32).toInt }
  let mp := memphyFormat mp pagingPagesz link
  let mp := { mp with rdmflg := decide (randomflg ≠ 0) }
  if !mp.rdmflg then { mp with cursor := 0 } else mp

/-! ## What the operations do -/

section

variable {mp : MemphyStruct}

theorem memphyRead_of_rdm (h : mp.rdmflg = true) (a : AddrT) :
    memphyRead mp a = some (mp.storage a, mp) := by
  rw [memphyRead, if_pos h]

theorem memphyWrite_of_rdm (h : mp.rdmflg = true) (a : AddrT) (b : BYTE) :
    memphyWrite mp a b = some { mp with storage := Function.update mp.storage a b } := by
  rw [memphyWrite, if_pos h]

/-- A read never changes the device. -/
theorem memphyRead_state {a : AddrT} {b : BYTE} {mp' : MemphyStruct}
    (h : memphyRead mp a = some (b, mp')) : mp' = mp := by
  unfold memphyRead memphySeqRead at h
  split at h
  · exact (Prod.mk.inj (Option.some.inj h)).2.symm
  · rename_i hr
    rw [if_pos (by simpa using hr)] at h
    exact absurd h (by simp)

@[simp] theorem rdmflg_memphyWriteIgn (mp : MemphyStruct) (a : AddrT) (b : BYTE) :
    (memphyWriteIgn mp a b).rdmflg = mp.rdmflg := by
  unfold memphyWriteIgn memphyWrite memphySeqWrite
  split
  · rfl
  · split <;> rfl

@[simp] theorem freeFpList_memphyWriteIgn (mp : MemphyStruct) (a : AddrT) (b : BYTE) :
    (memphyWriteIgn mp a b).freeFpList = mp.freeFpList := by
  unfold memphyWriteIgn memphyWrite memphySeqWrite
  split
  · rfl
  · split <;> rfl

@[simp] theorem maxsz_memphyWriteIgn (mp : MemphyStruct) (a : AddrT) (b : BYTE) :
    (memphyWriteIgn mp a b).maxsz = mp.maxsz := by
  unfold memphyWriteIgn memphyWrite memphySeqWrite
  split
  · rfl
  · split <;> rfl

theorem memphyWriteIgn_of_rdm (h : mp.rdmflg = true) (a : AddrT) (b : BYTE) :
    memphyWriteIgn mp a b = { mp with storage := Function.update mp.storage a b } := by
  rw [memphyWriteIgn, memphyWrite_of_rdm h, Option.getD_some]

/-- A sequential device keeps its bytes. -/
theorem memphyWriteIgn_of_seq (h : mp.rdmflg = false) (a : AddrT) (b : BYTE) : memphyWriteIgn mp a b = mp := by
  simp [memphyWriteIgn, memphyWrite, memphySeqWrite, h]

theorem memphyGetFreefp_eq_some {fpn : AddrT} {mp' : MemphyStruct}
    (h : memphyGetFreefp mp = some (fpn, mp')) :
    mp.freeFpList = fpn :: mp'.freeFpList ∧ mp' = { mp with freeFpList := mp'.freeFpList } := by
  unfold memphyGetFreefp at h
  split at h
  · exact absurd h (by simp)
  · rename_i f rest hlist
    obtain ⟨rfl, rfl⟩ := Prod.mk.inj (Option.some.inj h)
    exact ⟨hlist, rfl⟩

theorem memphyGetFreefp_eq_none : memphyGetFreefp mp = none ↔ mp.freeFpList = [] := by
  unfold memphyGetFreefp
  split
  · rename_i h; simp [h]
  · rename_i h; simp [h]

end

/-! ## A freshly initialised device -/

/-- From a node on that is terminated, the loop only appends. -/
theorem formatLoop_terminated (n : ℕ) : ∀ (iter : ℕ) (linked : List AddrT) (fpn : AddrT),
    formatLoop n iter linked ⟨fpn, []⟩ = linked ++ fpn :: (List.range' iter n).map (BitVec.ofNat 64) := by
  induction n with
  | zero =>
    intro iter linked fpn
    rfl
  | succ n ih =>
    intro iter linked fpn
    rw [formatLoop, ih, List.append_assoc, List.range'_succ, List.map_cons]
    rfl

/-- The first turn cuts off whatever the first node led to. -/
theorem formatLoop_succ (n iter : ℕ) (linked : List AddrT) (fst : FramephyStruct) :
    formatLoop (n + 1) iter linked fst
      = linked ++ fst.fpn :: (List.range' iter (n + 1)).map (BitVec.ofNat 64) := by
  rw [formatLoop, formatLoop_terminated, List.append_assoc, List.range'_succ, List.map_cons]
  rfl

/-- **What the loop leaves**: all frames in order, but for a single one. -/
theorem formatLoop_eq {numfp : ℕ} (h : 2 ≤ numfp) (link : List AddrT) :
    formatLoop (numfp - 1) 1 [] ⟨0, link⟩ = (List.range numfp).map (BitVec.ofNat 64) := by
  obtain ⟨n, rfl⟩ := Nat.exists_eq_add_of_le' h
  rw [show n + 2 - 1 = n + 1 by omega, formatLoop_succ, List.nil_append, List.range_eq_range', List.range'_succ,
    List.map_cons]
  rfl

section

variable (mp : MemphyStruct) (block : AddrT → BYTE) (link : List AddrT) (maxSize : AddrT) (randomflg : ℤ)

/-- The number of frames that `init_memphy` cuts a device of `maxSize` bytes into. -/
def numfpOf (maxSize : AddrT) : ℤ := (maxSize.setWidth 32).toInt.tdiv pagingPagesz

/-- Formatting touches the free list only. -/
theorem memphyFormat_eq (pagesz : ℤ) :
    memphyFormat mp pagesz link = { mp with freeFpList := (memphyFormat mp pagesz link).freeFpList } := by
  unfold memphyFormat
  dsimp only
  split <;> rfl

/-- **The list that `MEMPHY_format` builds**: with two frames or more the frames in order, with one the frame and
    whatever its node led to. -/
theorem memphyFormat_freeFpList (pagesz : ℤ) :
    (memphyFormat mp pagesz link).freeFpList
      = if mp.maxsz.tdiv pagesz ≤ 0 then mp.freeFpList
        else if mp.maxsz.tdiv pagesz = 1 then 0 :: link
        else (List.range (mp.maxsz.tdiv pagesz).toNat).map (BitVec.ofNat 64) := by
  unfold memphyFormat
  generalize mp.maxsz.tdiv pagesz = numfp
  dsimp only
  by_cases hnone : numfp ≤ 0
  · rw [if_pos hnone, if_pos hnone]
  rw [if_neg hnone, if_neg hnone]
  by_cases hone : numfp = 1
  · rw [if_pos hone, hone]
    rfl
  · rw [if_neg hone]
    exact formatLoop_eq (by omega) link

theorem initMemphy_rdmflg : (initMemphy mp block link maxSize randomflg).rdmflg = decide (randomflg ≠ 0) := by
  unfold initMemphy; dsimp only; split <;> rfl

theorem initMemphy_storage (a : AddrT) :
    (initMemphy mp block link maxSize randomflg).storage a = if a < maxSize then 0 else block a := by
  unfold initMemphy
  dsimp only
  rw [memphyFormat_eq]
  split <;> rfl

/-- A size is an `int`. -/
theorem initMemphy_maxsz :
    (initMemphy mp block link maxSize randomflg).maxsz = (maxSize.setWidth 32).toInt := by
  unfold initMemphy
  dsimp only
  rw [memphyFormat_eq]
  split <;> rfl

/-- The free list after `init_memphy`: all frames in order, unless the device has fewer than two. -/
theorem initMemphy_freeFpList :
    (initMemphy mp block link maxSize randomflg).freeFpList
      = if numfpOf maxSize ≤ 0 then mp.freeFpList
        else if numfpOf maxSize = 1 then 0 :: link
        else (List.range (numfpOf maxSize).toNat).map (BitVec.ofNat 64) := by
  have hkeep : (initMemphy mp block link maxSize randomflg).freeFpList
      = (memphyFormat { mp with
          storage := fun a => if a < maxSize then 0 else block a
          maxsz := (maxSize.setWidth 32).toInt } pagingPagesz link).freeFpList := by
    unfold initMemphy
    dsimp only
    split <;> rfl
  rw [hkeep]
  exact memphyFormat_freeFpList _ link pagingPagesz

end

end LamiaAtrium
