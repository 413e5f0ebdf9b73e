import Mathlib.Tactic
import LamiaAtrium.Timer.Timer

/-!
# `Timer.Correctness.Lockstep` — the slot barrier keeps its devices in lockstep

`slot_lockstep`: in every reachable state a device that has not detached has entered `next_slot` exactly
`_time` or `_time + 1` times and has left it at most `_time` times; so nobody leaves a slot that
somebody else has not reached yet.

The invariant `DevOk` is per device and looks at the timer only through two flags. A device is *collected*
when the first loop of the round has passed it: if it has not detached its `done` is then set, and stays set,
because only the second loop clears it. A device is *owed* its release when `_time` has been incremented
and the second loop has not cleared it yet.
-/

namespace LamiaAtrium

/-! ## The two views of the timer -/

/-- The first loop of the current round has passed position `j`. -/
def TimerPc.collected (j : ℕ) : TimerPc → Bool
  | .lockEvent i => j < i
  | .test i => j < i
  | .wait i => j < i
  | .sleepEvent i _ => j < i
  | .count i => j ≤ i
  | .unlockEvent i => j ≤ i
  | .tick => true
  | _ => false

/-- The slot has been counted and the second loop has not cleared position `j` yet. -/
def TimerPc.owed (j : ℕ) : TimerPc → Bool
  | .lockTimer i => i ≤ j
  | .clear i => i ≤ j
  | .signal i => i < j
  | .unlockTimer i => i < j
  | _ => false

/-- Between setting `done` and seeing it cleared. -/
def DevPc.inSlot : DevPc → Bool
  | .signalEvent => true
  | .unlockEvent => true
  | .lockTimer => true
  | .testDone => true
  | .waitDone => true
  | .sleepTimer _ => true
  | _ => false

/-- After setting `fsh`. -/
def DevPc.detached : DevPc → Bool
  | .detachSignal => true
  | .detachUnlock => true
  | .gone => true
  | _ => false

/-- **The invariant of one device**, for the current `_time` and the two views of the timer. -/
structure DevOk (time : ℕ) (collected owed : Bool) (v : Dev) : Prop where
  slots : v.entered = v.returned + if v.pc.inSlot then 1 else 0
  done_inSlot : v.done = true → v.pc.inSlot = true
  returned_le : v.returned ≤ time
  fsh_detached : v.fsh = true → v.pc.detached = true
  collected_done : v.fsh = false → collected = true → v.done = true
  owed_done : v.fsh = false → owed = true → v.done = true ∧ v.entered = time
  entered_eq : v.fsh = false → owed = false → v.entered = if v.done then time + 1 else time

/-- Every device of the list is in order. -/
def Lockstep {n : ℕ} (s : TimerState (Fin n)) : Prop :=
  ∀ j d, (devListOf n)[j]? = some d → DevOk s.time (s.pc.collected j) (s.pc.owed j) (s.dev d)

/-! ## Device steps -/

section

variable {time : ℕ} {collected owed : Bool} {v v' : Dev}

theorem DevOk.not_done (h : DevOk time collected owed v) (hpc : v.pc.inSlot = false) :
    v.done = false := by
  cases hd : v.done with
  | false => rfl
  | true => rw [h.done_inSlot hd] at hpc; exact absurd hpc (by simp)

theorem DevOk.not_fsh (h : DevOk time collected owed v) (hpc : v.pc.detached = false) :
    v.fsh = false := by
  cases hf : v.fsh with
  | false => rfl
  | true => rw [h.fsh_detached hf] at hpc; exact absurd hpc (by simp)

/-- With `done` clear and `fsh` clear the device has entered exactly `_time` times. -/
theorem DevOk.entered_eq_time (h : DevOk time collected owed v) (hd : v.done = false)
    (hf : v.fsh = false) : owed = false ∧ v.entered = time := by
  have ho : owed = false := by
    cases ho : owed with
    | false => rfl
    | true => rw [(h.owed_done hf ho).1] at hd; exact absurd hd (by simp)
  have := h.entered_eq hf ho
  rw [hd] at this
  exact ⟨ho, by simpa using this⟩

/-- A step that moves locks or the program counter within one zone keeps the invariant. -/
theorem DevOk.of_same (h : DevOk time collected owed v) (hd : v'.done = v.done) (hf : v'.fsh = v.fsh)
    (he : v'.entered = v.entered) (hr : v'.returned = v.returned) (hs : v'.pc.inSlot = v.pc.inSlot)
    (hdet : v.pc.detached = true → v'.pc.detached = true) : DevOk time collected owed v' where
  slots := by rw [he, hr, hs]; exact h.slots
  done_inSlot := by rw [hd, hs]; exact h.done_inSlot
  returned_le := by rw [hr]; exact h.returned_le
  fsh_detached := by rw [hf]; exact fun hfsh => hdet (h.fsh_detached hfsh)
  collected_done := by rw [hf, hd]; exact h.collected_done
  owed_done := by rw [hf, hd, he]; exact h.owed_done
  entered_eq := by rw [hf, hd, he]; exact h.entered_eq

/-- **A step of the device's own thread keeps its invariant.** -/
theorem devOk_step {e : Option DevEvent} (h : DevOk time collected owed v) (hst : DevStep v e v') :
    DevOk time collected owed v' := by
  cases hst with
  | setDone hpc =>
    have hd : v.done = false := h.not_done (by rw [hpc]; rfl)
    have hf : v.fsh = false := h.not_fsh (by rw [hpc]; rfl)
    obtain ⟨ho, heq⟩ := h.entered_eq_time hd hf
    have hslots := h.slots
    rw [hpc] at hslots
    refine ⟨?_, fun _ => rfl, h.returned_le, fun hf' => ?_, fun _ _ => rfl, fun _ ho' => ?_, fun _ _ => ?_⟩
    · show v.entered + 1 = v.returned + 1
      simpa [DevPc.inSlot] using hslots
    · exact absurd hf' (by simp [hf])
    · exact absurd ho' (by simp [ho])
    · show v.entered + 1 = time + 1
      rw [heq]
  | released hpc hd =>
    have hf : v.fsh = false := h.not_fsh (by rw [hpc]; rfl)
    obtain ⟨-, heq⟩ := h.entered_eq_time hd hf
    have hslots := h.slots
    rw [hpc] at hslots
    have hslots' : v.entered = v.returned + 1 := by simpa [DevPc.inSlot] using hslots
    refine ⟨hslots', fun hd' => ?_, ?_, fun hf' => ?_, h.collected_done, h.owed_done, h.entered_eq⟩
    · exact absurd hd' (by simp [hd])
    · show v.returned + 1 ≤ time
      omega
    · exact absurd hf' (by simp [hf])
  | setFsh hpc =>
    have hd : v.done = false := h.not_done (by rw [hpc]; rfl)
    have hslots := h.slots
    rw [hpc] at hslots
    refine ⟨hslots, fun hd' => ?_, h.returned_le, fun _ => rfl, fun hf => ?_, fun hf => ?_, fun hf => ?_⟩
    · exact absurd hd' (by simp [hd])
    all_goals exact absurd hf (by simp)
  | call hpc => exact h.of_same rfl rfl rfl rfl (by rw [hpc]; rfl) (by rw [hpc]; exact id)
  | lockEvent hpc => exact h.of_same rfl rfl rfl rfl (by rw [hpc]; rfl) (by rw [hpc]; exact id)
  | signalEvent hpc => exact h.of_same rfl rfl rfl rfl (by rw [hpc]; rfl) (by rw [hpc]; exact id)
  | unlockEvent hpc => exact h.of_same rfl rfl rfl rfl (by rw [hpc]; rfl) (by rw [hpc]; exact id)
  | lockTimer hpc => exact h.of_same rfl rfl rfl rfl (by rw [hpc]; rfl) (by rw [hpc]; exact id)
  | busy hpc => exact h.of_same rfl rfl rfl rfl (by rw [hpc]; rfl) (by rw [hpc]; exact id)
  | wait hpc => exact h.of_same rfl rfl rfl rfl (by rw [hpc]; rfl) (by rw [hpc]; exact id)
  | wake hpc => exact h.of_same rfl rfl rfl rfl (by rw [hpc]; rfl) (by rw [hpc]; exact id)
  | relock hpc => exact h.of_same rfl rfl rfl rfl (by rw [hpc]; rfl) (by rw [hpc]; exact id)
  | ret hpc => exact h.of_same rfl rfl rfl rfl (by rw [hpc]; rfl) (by rw [hpc]; exact id)
  | detach hpc => exact h.of_same rfl rfl rfl rfl (by rw [hpc]; rfl) (by rw [hpc]; exact id)
  | detachLock hpc => exact h.of_same rfl rfl rfl rfl (by rw [hpc]; rfl) (by rw [hpc]; exact id)
  | detachSignal hpc => exact h.of_same rfl rfl rfl rfl (by rw [hpc]; rfl) (by rw [hpc]; exact id)
  | detachUnlock hpc => exact h.of_same rfl rfl rfl rfl (by rw [hpc]; rfl) (by rw [hpc]; exact id)

end

/-! ## Timer steps -/

section

variable {n : ℕ} {s : TimerState (Fin n)}

/-- A lock step of the timer on the device at its position: no flag and no counter changes. -/
theorem DevOk.setLock {time : ℕ} {collected owed : Bool} {v : Dev} (h : DevOk time collected owed v)
    (ev tm : Option Holder) : DevOk time collected owed { v with eventLock := ev, timerLock := tm } :=
  h.of_same rfl rfl rfl rfl rfl id

theorem collected_wakeBy (l : List (Fin n)) (d : Fin n) (pc : TimerPc) (j : ℕ) :
    (pc.wakeBy l d).collected j = pc.collected j := by
  cases pc with
  | sleepEvent i woken => simp only [TimerPc.wakeBy]; split <;> rfl
  | _ => rfl

theorem owed_wakeBy (l : List (Fin n)) (d : Fin n) (pc : TimerPc) (j : ℕ) :
    (pc.wakeBy l d).owed j = pc.owed j := by
  cases pc with
  | sleepEvent i woken => simp only [TimerPc.wakeBy]; split <;> rfl
  | _ => rfl

/-- A step that changes the state of one device at most: everybody else only sees the timer move. -/
theorem Lockstep.update (h : Lockstep s) {i : ℕ} {d : Fin n} (hd : (devListOf n)[i]? = some d) {v : Dev}
    {pc : TimerPc}
    (hself : DevOk s.time (s.pc.collected i) (s.pc.owed i) (s.dev d) →
      DevOk s.time (pc.collected i) (pc.owed i) v)
    (hother : ∀ j, j ≠ i → pc.collected j = s.pc.collected j ∧ pc.owed j = s.pc.owed j) :
    Lockstep { s.setDev d v with pc := pc } := by
  refine forall_setDev (P := fun j => DevOk s.time (s.pc.collected j) (s.pc.owed j))
    (Q := fun j => DevOk s.time (pc.collected j) (pc.owed j)) h hd hself fun j hji w hw => ?_
  rw [(hother j hji).1, (hother j hji).2]
  exact hw

/-- A step of the timer alone that changes neither view. -/
theorem Lockstep.move (h : Lockstep s) {t : TimerState (Fin n)} (htime : t.time = s.time)
    (hdev : t.dev = s.dev)
    (hviews : ∀ j d, (devListOf n)[j]? = some d →
      t.pc.collected j = s.pc.collected j ∧ t.pc.owed j = s.pc.owed j) :
    Lockstep t := by
  intro j d hj
  rw [htime, hdev, (hviews j d hj).1, (hviews j d hj).2]
  exact h j d hj

/-- Positions of devices lie before the end of `dev_list`. -/
theorem pos_lt_of_end {i j : ℕ} {d : Fin n} (hend : (devListOf n)[i]? = none)
    (hj : (devListOf n)[j]? = some d) : j < i := by
  have h1 := List.getElem?_eq_none_iff.mp hend
  have h2 := (List.getElem?_eq_some_iff.mp hj).1
  omega

end

/-- **One step keeps the barrier in lockstep.** -/
theorem lockstep_step {n : ℕ} {s t : TimerState (Fin n)} {l : Option (SlotEvent (Fin n))}
    (h : Lockstep s) (hst : TimerStep (devListOf n) s l t) : Lockstep t := by
  cases hst with
  | round hpc =>
    refine h.move rfl rfl fun j d _ => ?_
    rw [hpc]; simp [TimerPc.collected, TimerPc.owed]
  | @lockEventEnd i hpc hend =>
    refine h.move rfl rfl fun j d hj => ?_
    have := pos_lt_of_end hend hj
    rw [hpc]; simp [TimerPc.collected, TimerPc.owed, this]
  | @testPass i d hpc hd hpass =>
    -- the test is what makes the device collected
    have hsame : ({ s with pc := .count i } : TimerState (Fin n))
        = { s.setDev d (s.dev d) with pc := .count i } := by
      rw [TimerState.setDev, Function.update_eq_self]
    rw [hsame]
    refine h.update hd (fun hok => ?_) (fun j hji => ?_)
    · rw [hpc] at hok
      refine { hok with collected_done := fun hf _ => ?_ }
      rcases hpass with hdone | hfsh
      · exact hdone
      · exact absurd hf (by simp [hfsh])
    · rw [hpc]
      refine ⟨?_, rfl⟩
      simp only [TimerPc.collected, decide_eq_decide]
      omega
  | @unlockEvent i d hpc hd =>
    refine h.update hd (fun hok => ?_) (fun j _ => ?_)
    · rw [hpc] at hok
      have hview : (TimerPc.lockEvent (i + 1)).collected i = (TimerPc.unlockEvent i).collected i := by
        simp [TimerPc.collected]
      rw [hview]
      exact hok.setLock _ _
    · rw [hpc]
      simp only [TimerPc.collected, TimerPc.owed, decide_eq_decide, and_true]
      omega
  | tick hpc =>
    -- everybody is collected: the slot is counted, and everybody is owed a release
    intro j d hj
    have hok := h j d hj
    rw [hpc] at hok
    refine ⟨hok.slots, hok.done_inSlot, Nat.le_succ_of_le hok.returned_le, hok.fsh_detached,
      fun _ hc => ?_, fun hf _ => ?_, fun _ ho => ?_⟩
    · simp [TimerPc.collected] at hc
    · have hdone := hok.collected_done hf rfl
      have hent := hok.entered_eq hf rfl
      rw [hdone] at hent
      exact ⟨hdone, by simpa using hent⟩
    · simp [TimerPc.owed] at ho
  | @lockTimerEnd i hpc hend =>
    refine h.move rfl rfl fun j d hj => ?_
    have := pos_lt_of_end hend hj
    rw [hpc]; simp [TimerPc.collected, TimerPc.owed, this]
  | @clear i d hpc hd =>
    refine h.update hd (fun hok => ?_) (fun j hji => ?_)
    · rw [hpc] at hok
      refine ⟨hok.slots, fun hd' => ?_, hok.returned_le, hok.fsh_detached, fun _ hc => ?_, fun _ ho => ?_,
        fun hf _ => ?_⟩
      · exact absurd hd' (by simp)
      · simp [TimerPc.collected] at hc
      · simp [TimerPc.owed] at ho
      · have := (hok.owed_done hf (by simp [TimerPc.owed])).2
        simpa using this
    · rw [hpc]
      refine ⟨rfl, ?_⟩
      simp only [TimerPc.owed, decide_eq_decide]
      omega
  | @signal i d hpc hd =>
    refine h.update hd (fun hok => ?_) (fun j _ => by rw [hpc]; exact ⟨rfl, rfl⟩)
    rw [hpc] at hok
    refine hok.of_same rfl rfl rfl rfl ?_ ?_
    · cases hdpc : (s.dev d).pc <;> rfl
    · cases hdpc : (s.dev d).pc <;> exact id
  | @unlockTimer i d hpc hd =>
    refine h.update hd (fun hok => ?_) (fun j _ => ?_)
    · rw [hpc] at hok
      have hview : (TimerPc.lockTimer (i + 1)).owed i = (TimerPc.unlockTimer i).owed i := by
        simp [TimerPc.owed]
      rw [hview]
      exact hok.setLock _ _
    · rw [hpc]
      simp only [TimerPc.collected, TimerPc.owed, decide_eq_decide, true_and]
      omega
  | exitTest hpc =>
    refine h.move rfl rfl fun j d _ => ?_
    rw [hpc]
    show (if s.fsh = s.event then TimerPc.ended else TimerPc.top).collected j = _ ∧ _
    split <;> exact ⟨rfl, rfl⟩
  | lockEvent hpc hd | wait hpc hd | relock hpc hd | lockTimer hpc hd =>
    refine h.update hd (fun hok => ?_) (fun j _ => by rw [hpc]; exact ⟨rfl, rfl⟩)
    rw [hpc] at hok
    exact hok.setLock _ _
  | stopped hpc | testFail hpc | wake hpc | count hpc =>
    exact h.move rfl rfl fun j d _ => by rw [hpc]; exact ⟨rfl, rfl⟩
  | @device d e v hmem hdst =>
    obtain ⟨i, hd⟩ := List.mem_iff_getElem?.mp hmem
    have hviews : ∀ j,
        (if (s.dev d).pc.signals then s.pc.wakeBy (devListOf n) d else s.pc).collected j = s.pc.collected j ∧
        (if (s.dev d).pc.signals then s.pc.wakeBy (devListOf n) d else s.pc).owed j = s.pc.owed j := by
      intro j
      split
      · exact ⟨collected_wakeBy _ _ _ _, owed_wakeBy _ _ _ _⟩
      · exact ⟨rfl, rfl⟩
    refine h.update hd (fun hok => ?_) (fun j _ => hviews j)
    rw [(hviews i).1, (hviews i).2]
    exact devOk_step hok hdst
  | stopTimer => exact h.move rfl rfl fun j d _ => ⟨rfl, rfl⟩

theorem lockstep_of_reachable {n : ℕ} {s : TimerState (Fin n)} (h : (timerSystem n).Reachable s) :
    Lockstep s := by
  refine h.invariant (fun s hs => ?_) (fun _ _ _ => lockstep_step)
  intro j d _
  rw [hs]
  exact ⟨rfl, fun hd => absurd hd (by simp [TimerState.start, Dev.attached]), Nat.le_refl _,
    fun hf => absurd hf (by simp [TimerState.start, Dev.attached]), fun _ hc => absurd hc (by
      simp [TimerState.start, TimerPc.collected]), fun _ ho => absurd ho (by
      simp [TimerState.start, TimerPc.owed]), fun _ _ => rfl⟩

/-! ## The lockstep theorem -/

section

variable {n : ℕ} {s : TimerState (Fin n)}

theorem Lockstep.entered (h : Lockstep s) (d : Fin n) (hf : (s.dev d).fsh = false) :
    (s.dev d).entered = s.time ∨ (s.dev d).entered = s.time + 1 := by
  obtain ⟨j, hj⟩ := List.mem_iff_getElem?.mp (mem_devListOf d)
  have hok := h j d hj
  cases ho : s.pc.owed j with
  | true => exact .inl (hok.owed_done hf ho).2
  | false =>
    have := hok.entered_eq hf ho
    split at this
    · exact .inr this
    · exact .inl this

theorem Lockstep.returned (h : Lockstep s) (d : Fin n) : (s.dev d).returned ≤ s.time := by
  obtain ⟨j, hj⟩ := List.mem_iff_getElem?.mp (mem_devListOf d)
  exact (h j d hj).returned_le

theorem Lockstep.slots (h : Lockstep s) (d : Fin n) :
    (s.dev d).entered = (s.dev d).returned + if (s.dev d).pc.inSlot then 1 else 0 := by
  obtain ⟨j, hj⟩ := List.mem_iff_getElem?.mp (mem_devListOf d)
  exact (h j d hj).slots

theorem Lockstep.not_fsh (h : Lockstep s) (d : Fin n) (hpc : (s.dev d).pc.detached = false) :
    (s.dev d).fsh = false := by
  obtain ⟨j, hj⟩ := List.mem_iff_getElem?.mp (mem_devListOf d)
  exact (h j d hj).not_fsh hpc

end

/-- **Lockstep.** In every reachable state each device that has not detached has entered `next_slot`
    either `_time` or `_time + 1` times and has returned from it at most `_time` times; and whatever
    number of slots a device has left, every device that has not detached has entered as many. -/
theorem slot_lockstep {n : ℕ} {s : TimerState (Fin n)} (h : (timerSystem n).Reachable s) :
    (∀ d, (s.dev d).fsh = false →
      ((s.dev d).entered = s.time ∨ (s.dev d).entered = s.time + 1) ∧ (s.dev d).returned ≤ s.time) ∧
    ∀ d d', (s.dev d').fsh = false → (s.dev d).returned ≤ (s.dev d').entered := by
  have hl := lockstep_of_reachable h
  refine ⟨fun d hf => ⟨hl.entered d hf, hl.returned d⟩, fun d d' hf => ?_⟩
  have := hl.returned d
  rcases hl.entered d' hf with h' | h' <;> omega

/-- Two devices, one of which has entered its first slot. -/
theorem slot_lockstep_entered : ∃ s : TimerState (Fin 2), (s.dev 0).entered = 1 ∧
    ((s.dev 0).entered = s.time ∨ (s.dev 0).entered = s.time + 1) ∧ (s.dev 1).entered = s.time := by
  have h : (timerSystem 2).Reachable (.start 2) := .init rfl
  have h := h.step (.device (e := some .call) (mem_devListOf 0) (.call rfl))
  have h := h.step (.device (mem_devListOf 0) (.lockEvent rfl rfl))
  have h := h.step (.device (mem_devListOf 0) (.setDone rfl))
  exact ⟨_, rfl, ((slot_lockstep h).1 0 rfl).1, rfl⟩

end LamiaAtrium
