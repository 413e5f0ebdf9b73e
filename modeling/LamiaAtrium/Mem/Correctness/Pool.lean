import LamiaAtrium.Lib.Lts
import LamiaAtrium.Lib.Regions
import LamiaAtrium.Mem.Correctness.PageTable
import LamiaAtrium.Mem.MapRam

/-!
# `Mem.Correctness.Pool` — the free frames of a device

* `formats_iff`: what `init_memphy` makes of the list, for every size and whatever memory held.
* `framePoolSystem`: the four routines that push and pop frames, in any order. `FrameInv` is their invariant, and
  `frames_conserved` what follows: no frame is lost, and none is in two places.
-/

namespace LamiaAtrium

/-! ## Formatting -/

/-- The frames of a device, by number. -/
def deviceFrames (maxSize : AddrT) : List AddrT := (List.range (numfpOf maxSize).toNat).map (BitVec.ofNat 64)

/-- **Formatting yields exactly the frames of the device** when it has at least two of them, or when the pointer
    that is never set happens to be `NULL`. -/
theorem formats_iff (mp : MemphyStruct) (block : AddrT → BYTE) (link : List AddrT) (maxSize : AddrT) (randomflg : ℤ) :
    (initMemphy mp block link maxSize randomflg).freeFpList = deviceFrames maxSize ↔ Formatted mp link maxSize := by
  constructor
  · rw [initMemphy_freeFpList, deviceFrames]
    intro hlist
    by_cases hnone : numfpOf maxSize ≤ 0
    · rw [if_pos hnone, Int.toNat_of_nonpos hnone] at hlist
      exact .inr (.inr ⟨hnone, hlist⟩)
    · rw [if_neg hnone] at hlist
      by_cases hone : numfpOf maxSize = 1
      · rw [if_pos hone, hone] at hlist
        exact .inr (.inl ⟨hone, (List.cons.inj hlist).2⟩)
      · exact .inl (by omega)
  · intro h
    exact freeFpList_of_formatted block randomflg h

/-- A device of one page, where the node of its frame still points at another one. -/
theorem formats_fails : ¬ ∀ (mp : MemphyStruct) (block : AddrT → BYTE) (link : List AddrT) (maxSize : AddrT)
    (randomflg : ℤ), 0 ≤ (maxSize.setWidth 32 : BitVec 32).toInt →
      (initMemphy mp block link maxSize randomflg).freeFpList = deviceFrames maxSize := by
  intro h
  have hlist := h rawMp (fun _ => 0) [7] 256 1 (by decide)
  rw [initMemphy_freeFpList, if_neg (by decide), if_pos (by decide)] at hlist
  exact absurd hlist (by decide)

/-! ## Frames in use -/

/-- A device, the frames that callers hold, and the lists of `alloc_pages_range` that are not freed yet. -/
structure FramePool where
  mp : MemphyStruct
  held : List AddrT
  lists : List (List AddrT)

/-- A call of one of the four routines. -/
inductive PoolCall where
  | getFreefp
  | putFreefp (fpn : AddrT)
  | allocPagesRange (reqPgnum : ℤ)
  | freeFrameList (frmLst : List AddrT)

/-- One call, where `malloc` succeeds. What is put or freed is held by somebody. -/
inductive FramePoolStep (s : FramePool) : PoolCall → FramePool → Prop where
  | get {fpn mp} : memphyGetFreefp s.mp = some (fpn, mp) →
      FramePoolStep s .getFreefp ⟨mp, fpn :: s.held, s.lists⟩
  | getNone : memphyGetFreefp s.mp = none → FramePoolStep s .getFreefp s
  | put {fpn} : fpn ∈ s.held →
      FramePoolStep s (.putFreefp fpn) ⟨memphyPutFreefp s.mp fpn, s.held.erase fpn, s.lists⟩
  | alloc {req ret frames mp} : allocPagesRange (fun _ => false) s.mp req = (ret, frames, mp) →
      FramePoolStep s (.allocPagesRange req) ⟨mp, frames ++ s.held, frames :: s.lists⟩
  | free {l} : l ∈ s.lists → l ⊆ s.held →
      FramePoolStep s (.freeFrameList l) ⟨freeFrameList s.mp l, s.held.diff l, s.lists.erase l⟩

/-- Any sequence of calls on a device that `init_memphy` has set up. -/
def framePoolSystem (mp : MemphyStruct) : Lts.System FramePool PoolCall where
  init s := s = ⟨mp, [], []⟩
  step := FramePoolStep

/-- **What a call of `alloc_pages_range` may do**: the frames come off the front of the list, in this order, and it
    only returns less than what is asked for when there are no more. -/
structure AllocExact (mp : MemphyStruct) (req ret : ℤ) (frames : List AddrT) (mp' : MemphyStruct) : Prop where
  popped : mp.freeFpList = frames ++ mp'.freeFpList
  distinct : frames.Nodup
  length : frames.length = ret.toNat
  served : ret < req ∨ ret = req
  short : ret < req → mp'.freeFpList = [] ∧ (frames.length : ℤ) = ret

theorem allocExact {mp mp' : MemphyStruct} {req ret : ℤ} {frames : List AddrT} (hnodup : mp.freeFpList.Nodup)
    (h : allocPagesRange (fun _ => false) mp req = (ret, frames, mp')) : AllocExact mp req ret frames mp' := by
  rw [allocPagesRange_eq fun _ _ _ => rfl] at h
  obtain ⟨rfl, rfl, rfl⟩ := by simpa only [Prod.mk.injEq] using h
  have htake : (mp.freeFpList.take req.toNat).length = min req.toNat mp.freeFpList.length := List.length_take
  refine ⟨(List.take_append_drop ..).symm, hnodup.sublist (List.take_sublist ..), ?_, ?_, ?_⟩
  · rw [htake]
    split <;> omega
  · split
    · left
      omega
    · exact .inr rfl
  · intro hlt
    by_cases hlen : mp.freeFpList.length < req.toNat
    · rw [if_pos hlen, htake]
      exact ⟨List.drop_eq_nil_of_le hlen.le, by omega⟩
    · rw [if_neg hlen] at hlt
      exact absurd hlt (lt_irrefl req)

/-- Every frame is free or held, and the lists are without repetition. -/
structure PoolInv (all : List AddrT) (s : FramePool) : Prop where
  conserved : Pool.Conserved all s.mp.freeFpList s.held
  lists : ∀ l ∈ s.lists, l.Nodup

/-- **One call keeps every frame.** -/
theorem poolInv_step {all : List AddrT} (hall : all.Nodup) {s t : FramePool} {c : PoolCall} (h : PoolInv all s)
    (hst : FramePoolStep s c t) : PoolInv all t := by
  cases hst with
  | @get fpn mp hget =>
    obtain ⟨hlist, -⟩ := memphyGetFreefp_eq_some hget
    have htaken := h.conserved.take 1
    rw [hlist] at htaken
    exact ⟨htaken, h.lists⟩
  | getNone _ => exact h
  | @put fpn hheld =>
    refine ⟨?_, h.lists⟩
    have hback := h.conserved.giveBack (List.nodup_singleton fpn) (by simpa using hheld)
    rw [List.diff_cons, List.diff_nil] at hback
    exact hback
  | @alloc req ret frames mp halloc =>
    have hexact := allocExact (h.conserved.nodup hall).1 halloc
    rw [allocPagesRange_eq fun _ _ _ => rfl] at halloc
    obtain ⟨-, rfl, rfl⟩ := by simpa only [Prod.mk.injEq] using halloc
    exact ⟨h.conserved.take req.toNat, List.forall_mem_cons.mpr ⟨hexact.distinct, h.lists⟩⟩
  | @free l hl hheld =>
    refine ⟨?_, fun l' hl' => h.lists l' (List.mem_of_mem_erase hl')⟩
    rw [freeFrameList_eq]
    exact h.conserved.giveBack (h.lists l hl) hheld

/-- **The free frames and the frames held are the frames of the device**, each once, in every run on a device of at
    least two frames; and `alloc_pages_range` takes what it returns from the front of the list. -/
theorem frames_conserved (mp₀ : MemphyStruct) (block : AddrT → BYTE) (link : List AddrT) (maxSize : AddrT)
    (randomflg : ℤ) (htwo : 2 ≤ numfpOf maxSize) (s : FramePool)
    (hs : (framePoolSystem (initMemphy mp₀ block link maxSize randomflg)).Reachable s) :
    (s.mp.freeFpList ++ s.held).Perm (deviceFrames maxSize) ∧ (s.mp.freeFpList ++ s.held).Nodup ∧
      ∀ req ret frames mp, allocPagesRange (fun _ => false) s.mp req = (ret, frames, mp) →
        AllocExact s.mp req ret frames mp := by
  have hinv : PoolInv (deviceFrames maxSize) s := by
    apply hs.invariant
    · rintro s rfl
      refine ⟨?_, fun l hl => absurd hl List.not_mem_nil⟩
      show (_ ++ []).Perm _
      rw [List.append_nil, freeFpList_of_formatted block randomflg (.inl htwo), deviceFrames]
    · intro s c t h hst
      exact poolInv_step (nodup_frameNumbers maxSize) h hst
  refine ⟨hinv.conserved, hinv.conserved.nodup_iff.mpr (nodup_frameNumbers maxSize), ?_⟩
  intro req ret frames mp halloc
  exact allocExact (hinv.conserved.nodup (nodup_frameNumbers maxSize)).1 halloc

/-- Two frames: one is taken, then five are asked for, and the one that is left comes. -/
theorem frames_conserved_short : ∃ s : FramePool, s.mp.freeFpList = [] ∧ s.held = [1, 0] ∧ s.lists = [[1]] ∧
    (s.mp.freeFpList ++ s.held).Perm (deviceFrames 512) := by
  have hlist : (initMemphy rawMp (fun _ => 0) [] 512 1).freeFpList = [0, 1] :=
    freeFpList_of_formatted (fun _ => 0) 1 (.inl (by decide))
  have hget : memphyGetFreefp (initMemphy rawMp (fun _ => 0) [] 512 1)
      = some (0, { initMemphy rawMp (fun _ => 0) [] 512 1 with freeFpList := [1] }) := by
    rw [memphyGetFreefp, hlist]
  have h₀ : (framePoolSystem (initMemphy rawMp (fun _ => 0) [] 512 1)).Reachable ⟨_, [], []⟩ := .init rfl
  have h₁ := h₀.step (.get hget)
  have halloc : allocPagesRange (fun _ => false) { initMemphy rawMp (fun _ => 0) [] 512 1 with freeFpList := [1] } 5
      = (1, [1], { initMemphy rawMp (fun _ => 0) [] 512 1 with freeFpList := [] }) :=
    allocPagesRange_eq fun _ _ _ => rfl
  have h₂ := h₁.step (.alloc halloc)
  exact ⟨_, rfl, rfl, rfl, (frames_conserved rawMp (fun _ => 0) [] 512 1 (by decide) _ h₂).1⟩

end LamiaAtrium
