import LamiaAtrium.Timer.Correctness.Lockstep

/-!
# `Timer.Correctness.Wakeups` — no wake-up of the slot barrier is lost

`no_lost_wakeup`: whoever sleeps without a wake-up on its way has a reason to, and the timer leaves its loop only
when nobody is in `next_slot`.

* A wake-up is on its way while the other side stands at its `pthread_cond_signal`, and when it has come the
  sleeper is woken. `TimerPc.at` is what the timer is doing to the device at one position.
* `HandOff` is the invariant of one device: who holds its two locks, and what the flags are while either side is
  about to sleep, or sleeps. The flags that a sleeper has tested are written under the lock that it held then.
* `Tally`: the timer's two counters are equal only when every device counted so far has set `fsh`.
-/

namespace LamiaAtrium

/-! ## Program points -/

/-- What the timer is doing to one device. -/
inductive TimerAt where
  | away
  | counting  -- with `event_lock`
  | waiting   -- with `event_lock`, about to sleep
  | asleep    -- not woken yet
  | clearing  -- with `timer_lock`
  | signaling -- with `timer_lock`, before the signal
deriving DecidableEq

/-- What it is doing to the device at position `j`. -/
def TimerPc.at (j : ℕ) : TimerPc → TimerAt
  | .test i => if i = j then .counting else .away
  | .wait i => if i = j then .waiting else .away
  | .sleepEvent i woken => if i = j ∧ woken = false then .asleep else .away
  | .count i => if i = j then .counting else .away
  | .unlockEvent i => if i = j then .counting else .away
  | .clear i => if i = j then .clearing else .away
  | .signal i => if i = j then .signaling else .away
  | .unlockTimer i => if i = j then .clearing else .away
  | _ => .away

/-- The device's signal wakes the timer. -/
def TimerAt.wakeBy (signals : Bool) : TimerAt → TimerAt
  | .asleep => if signals then .away else .asleep
  | a => a

/-- The timer holds `event_lock`. -/
def TimerAt.holdsEvent : TimerAt → Bool
  | .counting => true
  | .waiting => true
  | _ => false

/-- The timer holds `timer_lock`. -/
def TimerAt.holdsTimer : TimerAt → Bool
  | .clearing => true
  | .signaling => true
  | _ => false

/-- The device holds `event_lock`. -/
def DevPc.holdsEvent : DevPc → Bool
  | .setDone => true
  | .signalEvent => true
  | .unlockEvent => true
  | .setFsh => true
  | .detachSignal => true
  | .detachUnlock => true
  | _ => false

/-- The device holds `timer_lock`. -/
def DevPc.holdsTimer : DevPc → Bool
  | .testDone => true
  | .waitDone => true
  | .unlockTimer => true
  | _ => false

/-- The device is inside `next_slot`. -/
def DevPc.inNextSlot : DevPc → Bool
  | .lockEvent => true
  | .setDone => true
  | .signalEvent => true
  | .unlockEvent => true
  | .lockTimer => true
  | .testDone => true
  | .waitDone => true
  | .sleepTimer _ => true
  | .unlockTimer => true
  | _ => false

theorem not_inNextSlot_of_detached {pc : DevPc} (h : pc.detached = true) : pc.inNextSlot = false := by
  cases pc <;> first | rfl | cases h

/-! ## The invariant of one device -/

/-- **The two hand-offs**, `event_lock` with `event_cond` and `timer_lock` with `timer_cond`. -/
structure HandOff (a : TimerAt) (v : Dev) : Prop where
  event_timer : a.holdsEvent = true → v.eventLock = some .timer
  event_dev : v.pc.holdsEvent = true → v.eventLock = some .device
  timer_timer : a.holdsTimer = true → v.timerLock = some .timer
  timer_dev : v.pc.holdsTimer = true → v.timerLock = some .device
  waiting : a = .waiting → v.done = false ∧ v.fsh = false
  asleep : a = .asleep → v.pc.signals = false → v.done = false ∧ v.fsh = false
  busy : v.pc = .waitDone → v.done = true
  sleeping : v.pc = .sleepTimer false → v.done = true ∨ a = .signaling

section

variable {a : TimerAt} {v v' : Dev}

/-- While the device holds `event_lock`, the timer is not at its test. -/
theorem HandOff.not_holdsEvent (h : HandOff a v) (hpc : v.pc.holdsEvent = true) : a.holdsEvent = false := by
  cases ha : a.holdsEvent with
  | false => rfl
  | true =>
    have hlock := h.event_timer ha
    rw [h.event_dev hpc] at hlock
    cases hlock

/-- While the device holds `timer_lock`, the timer does not clear `done`. -/
theorem HandOff.not_holdsTimer (h : HandOff a v) (hpc : v.pc.holdsTimer = true) : a.holdsTimer = false := by
  cases ha : a.holdsTimer with
  | false => rfl
  | true =>
    have hlock := h.timer_timer ha
    rw [h.timer_dev hpc] at hlock
    cases hlock

theorem holdsEvent_wakeBy (signals : Bool) : (a.wakeBy signals).holdsEvent = a.holdsEvent := by
  cases a <;> cases signals <;> rfl

theorem holdsTimer_wakeBy (signals : Bool) : (a.wakeBy signals).holdsTimer = a.holdsTimer := by
  cases a <;> cases signals <;> rfl

theorem wakeBy_eq_asleep {signals : Bool} (h : a.wakeBy signals = .asleep) : a = .asleep ∧ signals = false := by
  cases a <;> cases signals <;> first | exact ⟨rfl, rfl⟩ | cases h

theorem wakeBy_eq_waiting {signals : Bool} (h : a.wakeBy signals = .waiting) : a = .waiting := by
  cases a <;> cases signals <;> first | rfl | cases h

/-- **A step of the device**, when it respects the locks: flags are written under `event_lock` and before a signal. -/
theorem HandOff.of_step (h : HandOff a v) (hevent : a.holdsEvent = true → v'.eventLock = v.eventLock)
    (heventDev : v'.pc.holdsEvent = true → v'.eventLock = some .device)
    (htimer : a.holdsTimer = true → v'.timerLock = v.timerLock)
    (htimerDev : v'.pc.holdsTimer = true → v'.timerLock = some .device)
    (hflags : (v'.done = v.done ∧ v'.fsh = v.fsh) ∨ (a.holdsEvent = false ∧ v'.pc.signals = true))
    (hbusy : v'.pc = .waitDone → v'.done = true) (hsleeping : v'.pc = .sleepTimer false → v'.done = true) :
    HandOff (a.wakeBy v.pc.signals) v' where
  event_timer := by
    rw [holdsEvent_wakeBy]
    intro ha
    rw [hevent ha, h.event_timer ha]
  event_dev := heventDev
  timer_timer := by
    rw [holdsTimer_wakeBy]
    intro ha
    rw [htimer ha, h.timer_timer ha]
  timer_dev := htimerDev
  waiting := by
    intro ha
    have hwait := wakeBy_eq_waiting ha
    rcases hflags with ⟨hdone, hfsh⟩ | ⟨hno, -⟩
    · rw [hdone, hfsh]
      exact h.waiting hwait
    · rw [hwait] at hno
      cases hno
  asleep := by
    intro ha hsig
    obtain ⟨hasleep, hold⟩ := wakeBy_eq_asleep ha
    rcases hflags with ⟨hdone, hfsh⟩ | ⟨-, hnew⟩
    · rw [hdone, hfsh]
      exact h.asleep hasleep hold
    · rw [hnew] at hsig
      cases hsig
  busy := hbusy
  sleeping := fun hpc => .inl (hsleeping hpc)

/-- **A step of the device's own thread keeps its invariant.** -/
theorem handOff_devStep {e : Option DevEvent} (h : HandOff a v) (hst : DevStep v e v') :
    HandOff (a.wakeBy v.pc.signals) v' := by
  -- a free lock is not the timer's
  have hevent (hlock : v.eventLock = none) (ha : a.holdsEvent = true) : False := by
    rw [h.event_timer ha] at hlock
    cases hlock
  have htimer (hlock : v.timerLock = none) (ha : a.holdsTimer = true) : False := by
    rw [h.timer_timer ha] at hlock
    cases hlock
  cases hst with
  | setDone hpc =>
    have hev : v.pc.holdsEvent = true := by rw [hpc]; rfl
    exact h.of_step (fun _ => rfl) (fun _ => h.event_dev hev) (fun _ => rfl) (fun hp => nomatch hp)
      (.inr ⟨h.not_holdsEvent hev, rfl⟩) (fun _ => rfl) (fun _ => rfl)
  | setFsh hpc =>
    have hev : v.pc.holdsEvent = true := by rw [hpc]; rfl
    exact h.of_step (fun _ => rfl) (fun _ => h.event_dev hev) (fun _ => rfl) (fun hp => nomatch hp)
      (.inr ⟨h.not_holdsEvent hev, rfl⟩) (fun hp => nomatch hp) (fun hp => nomatch hp)
  | busy hpc hdone =>
    have htm : v.pc.holdsTimer = true := by rw [hpc]; rfl
    exact h.of_step (fun _ => rfl) (fun hp => nomatch hp) (fun _ => rfl) (fun _ => h.timer_dev htm)
      (.inl ⟨rfl, rfl⟩) (fun _ => hdone) (fun hp => nomatch hp)
  | wait hpc =>
    -- `done` has been set since the test: the timer could not take the lock
    have htm : v.pc.holdsTimer = true := by rw [hpc]; rfl
    refine h.of_step (fun _ => rfl) (fun hp => nomatch hp) (fun ha => ?_) (fun hp => nomatch hp)
      (.inl ⟨rfl, rfl⟩) (fun hp => nomatch hp) (fun _ => h.busy hpc)
    rw [h.not_holdsTimer htm] at ha
    cases ha
  | lockEvent hpc hlock | detachLock hpc hlock =>
    exact h.of_step (fun ha => (hevent hlock ha).elim) (fun _ => rfl) (fun _ => rfl) (fun hp => nomatch hp)
      (.inl ⟨rfl, rfl⟩) (fun hp => nomatch hp) (fun hp => nomatch hp)
  | unlockEvent hpc | detachUnlock hpc =>
    have hev : v.pc.holdsEvent = true := by rw [hpc]; rfl
    refine h.of_step (fun ha => ?_) (fun hp => nomatch hp) (fun _ => rfl) (fun hp => nomatch hp)
      (.inl ⟨rfl, rfl⟩) (fun hp => nomatch hp) (fun hp => nomatch hp)
    rw [h.not_holdsEvent hev] at ha
    cases ha
  | lockTimer hpc hlock | relock hpc hlock =>
    exact h.of_step (fun _ => rfl) (fun hp => nomatch hp) (fun ha => (htimer hlock ha).elim) (fun _ => rfl)
      (.inl ⟨rfl, rfl⟩) (fun hp => nomatch hp) (fun hp => nomatch hp)
  | ret hpc =>
    have htm : v.pc.holdsTimer = true := by rw [hpc]; rfl
    refine h.of_step (fun _ => rfl) (fun hp => nomatch hp) (fun ha => ?_) (fun hp => nomatch hp)
      (.inl ⟨rfl, rfl⟩) (fun hp => nomatch hp) (fun hp => nomatch hp)
    rw [h.not_holdsTimer htm] at ha
    cases ha
  | released hpc _ =>
    have htm : v.pc.holdsTimer = true := by rw [hpc]; rfl
    exact h.of_step (fun _ => rfl) (fun hp => nomatch hp) (fun _ => rfl) (fun _ => h.timer_dev htm)
      (.inl ⟨rfl, rfl⟩) (fun hp => nomatch hp) (fun hp => nomatch hp)
  | signalEvent hpc | detachSignal hpc =>
    have hev : v.pc.holdsEvent = true := by rw [hpc]; rfl
    exact h.of_step (fun _ => rfl) (fun _ => h.event_dev hev) (fun _ => rfl) (fun hp => nomatch hp)
      (.inl ⟨rfl, rfl⟩) (fun hp => nomatch hp) (fun hp => nomatch hp)
  | call hpc | wake hpc | detach hpc =>
    exact h.of_step (fun _ => rfl) (fun hp => nomatch hp) (fun _ => rfl) (fun hp => nomatch hp)
      (.inl ⟨rfl, rfl⟩) (fun hp => nomatch hp) (fun hp => nomatch hp)

end

/-! ## All devices -/

/-- Every device of the list is in order. -/
def HandOffs {n : ℕ} (s : TimerState (Fin n)) : Prop :=
  ∀ j d, (devListOf n)[j]? = some d → HandOff (s.pc.at j) (s.dev d)

section

variable {n : ℕ} {s : TimerState (Fin n)}

/-- A step that changes the state of one device at most: the timer is at none of the others. -/
theorem HandOffs.update (h : HandOffs s) {i : ℕ} {d : Fin n} (hd : (devListOf n)[i]? = some d) {v : Dev}
    {pc : TimerPc} (hself : HandOff (s.pc.at i) (s.dev d) → HandOff (pc.at i) v)
    (hother : ∀ j, j ≠ i → pc.at j = s.pc.at j) : HandOffs { s.setDev d v with pc := pc } := by
  refine forall_setDev (P := fun j => HandOff (s.pc.at j)) (Q := fun j => HandOff (pc.at j)) h hd hself
    fun j hji w hw => ?_
  rw [hother j hji]
  exact hw

/-- A step of the timer at one device: it is at none of the others, before and after. -/
theorem HandOffs.turn (h : HandOffs s) {i : ℕ} {d : Fin n} (hd : (devListOf n)[i]? = some d) {v : Dev} {pc : TimerPc}
    {a b : TimerAt} (hbefore : ∀ j, s.pc.at j = if i = j then a else .away)
    (hafter : ∀ j, pc.at j = if i = j then b else .away) (hself : HandOff a (s.dev d) → HandOff b v) :
    HandOffs { s.setDev d v with pc := pc } := by
  refine h.update hd (fun hok => ?_) (fun j hj => ?_)
  · rw [hbefore, if_pos rfl] at hok
    rw [hafter, if_pos rfl]
    exact hself hok
  · rw [hbefore, hafter, if_neg (Ne.symm hj), if_neg (Ne.symm hj)]

/-- A step of the timer alone that leaves it where it is, for every device. -/
theorem HandOffs.move (h : HandOffs s) {t : TimerState (Fin n)} (hdev : t.dev = s.dev)
    (hat : ∀ j d, (devListOf n)[j]? = some d → t.pc.at j = s.pc.at j) : HandOffs t := by
  intro j d hj
  rw [hdev, hat j d hj]
  exact h j d hj

theorem wakeBy_false (a : TimerAt) : a.wakeBy false = a := by cases a <;> rfl

/-- The signal of the device wakes the timer when it sleeps there. -/
theorem at_wakeBy_self {i : ℕ} {d : Fin n} (hd : (devListOf n)[i]? = some d) (pc : TimerPc) :
    (pc.wakeBy (devListOf n) d).at i = (pc.at i).wakeBy true := by
  cases pc with
  | sleepEvent m woken =>
    simp only [TimerPc.wakeBy]
    by_cases hm : m = i
    · subst hm
      rw [if_pos hd]
      cases woken <;> simp [TimerPc.at, TimerAt.wakeBy]
    · rw [if_neg fun hmd => hm (devListOf_inj hmd hd)]
      simp [TimerPc.at, TimerAt.wakeBy, hm]
  | _ =>
    simp only [TimerPc.wakeBy, TimerPc.at]
    first | rfl | split <;> rfl

/-- For the other devices it is as before. -/
theorem at_wakeBy_of_ne {i j : ℕ} {d : Fin n} (hd : (devListOf n)[i]? = some d) (hj : j ≠ i) (pc : TimerPc) :
    (pc.wakeBy (devListOf n) d).at j = pc.at j := by
  cases pc with
  | sleepEvent m woken =>
    simp only [TimerPc.wakeBy]
    split
    · rename_i hm
      obtain rfl := devListOf_inj hm hd
      simp [TimerPc.at, Ne.symm hj]
    · rfl
  | _ => rfl

end

/-! ## Timer steps -/

section

variable {a : TimerAt} {v : Dev}

/-- The timer takes `event_lock`. -/
theorem HandOff.lockEvent (h : HandOff .away v) (hlock : v.eventLock = none) :
    HandOff .counting { v with eventLock := some .timer } where
  event_timer _ := rfl
  event_dev hpc := by
    have hdev := h.event_dev hpc
    rw [hlock] at hdev
    cases hdev
  timer_timer ha := nomatch ha
  timer_dev := h.timer_dev
  waiting ha := nomatch ha
  asleep ha := nomatch ha
  busy := h.busy
  sleeping hpc := (h.sleeping hpc).imp_right fun ha => nomatch ha

/-- It takes `timer_lock`. -/
theorem HandOff.lockTimer (h : HandOff .away v) (hlock : v.timerLock = none) :
    HandOff .clearing { v with timerLock := some .timer } where
  event_timer ha := nomatch ha
  event_dev := h.event_dev
  timer_timer _ := rfl
  timer_dev hpc := by
    have hdev := h.timer_dev hpc
    rw [hlock] at hdev
    cases hdev
  waiting ha := nomatch ha
  asleep ha := nomatch ha
  busy := h.busy
  sleeping hpc := (h.sleeping hpc).imp_right fun ha => nomatch ha

/-- It gives `event_lock` back, and has looked at the flags if it sleeps now. -/
theorem HandOff.unlockEvent (h : HandOff a v) (ha : a.holdsEvent = true) {b : TimerAt}
    (hb : b = .away ∨ (b = .asleep ∧ a = .waiting)) : HandOff b { v with eventLock := none } where
  event_timer hbev := by
    rcases hb with rfl | ⟨rfl, -⟩ <;> cases hbev
  event_dev hpc := by
    have hev := h.not_holdsEvent hpc
    rw [ha] at hev
    cases hev
  timer_timer hbtm := by
    rcases hb with rfl | ⟨rfl, -⟩ <;> cases hbtm
  timer_dev := h.timer_dev
  waiting hbw := by
    rcases hb with rfl | ⟨rfl, -⟩ <;> cases hbw
  asleep hbs _ := by
    rcases hb with rfl | ⟨-, hwait⟩
    · cases hbs
    · exact h.waiting hwait
  busy := h.busy
  sleeping hpc := (h.sleeping hpc).imp_right fun hsig => by
    rw [hsig] at ha
    cases ha

/-- It gives `timer_lock` back. -/
theorem HandOff.unlockTimer (h : HandOff .clearing v) : HandOff .away { v with timerLock := none } where
  event_timer ha := nomatch ha
  event_dev := h.event_dev
  timer_timer ha := nomatch ha
  timer_dev hpc := by
    have htm := h.not_holdsTimer hpc
    cases htm
  waiting ha := nomatch ha
  asleep ha := nomatch ha
  busy := h.busy
  sleeping hpc := (h.sleeping hpc).imp_right fun ha => nomatch ha

/-- It clears `done`, and will signal. -/
theorem HandOff.clear (h : HandOff .clearing v) : HandOff .signaling { v with done := false } where
  event_timer ha := nomatch ha
  event_dev := h.event_dev
  timer_timer _ := h.timer_timer rfl
  timer_dev := h.timer_dev
  waiting ha := nomatch ha
  asleep ha := nomatch ha
  busy hpc := by
    have hpc' : v.pc = .waitDone := hpc
    have htm := h.not_holdsTimer (by rw [hpc']; rfl)
    cases htm
  sleeping _ := .inr rfl

/-- It signals: the device is not asleep any more. -/
theorem HandOff.signal (h : HandOff .signaling v) : HandOff .clearing { v with pc := v.pc.wake } where
  event_timer ha := nomatch ha
  event_dev hpc := h.event_dev (by cases hv : v.pc <;> rw [hv] at hpc <;> exact hpc)
  timer_timer _ := h.timer_timer rfl
  timer_dev hpc := h.timer_dev (by cases hv : v.pc <;> rw [hv] at hpc <;> exact hpc)
  waiting ha := nomatch ha
  asleep ha := nomatch ha
  busy hpc := h.busy (by cases hv : v.pc <;> rw [hv] at hpc <;> first | rfl | cases hpc)
  sleeping hpc := by cases hv : v.pc <;> rw [hv] at hpc <;> cases hpc

/-- It has found both flags clear. -/
theorem HandOff.testFail (h : HandOff .counting v) (hdone : v.done = false) (hfsh : v.fsh = false) :
    HandOff .waiting v where
  event_timer _ := h.event_timer rfl
  event_dev := h.event_dev
  timer_timer ha := nomatch ha
  timer_dev := h.timer_dev
  waiting _ := ⟨hdone, hfsh⟩
  asleep ha := nomatch ha
  busy := h.busy
  sleeping hpc := (h.sleeping hpc).imp_right fun ha => nomatch ha

/-- It wakes up on its own. -/
theorem HandOff.wake (h : HandOff .asleep v) : HandOff .away v where
  event_timer ha := nomatch ha
  event_dev := h.event_dev
  timer_timer ha := nomatch ha
  timer_dev := h.timer_dev
  waiting ha := nomatch ha
  asleep ha := nomatch ha
  busy := h.busy
  sleeping hpc := (h.sleeping hpc).imp_right fun ha => nomatch ha

end

/-- **One step keeps the hand-offs.** -/
theorem handOffs_step {n : ℕ} {s t : TimerState (Fin n)} {l : Option (SlotEvent (Fin n))} (h : HandOffs s)
    (hst : TimerStep (devListOf n) s l t) : HandOffs t := by
  have hstay (d : Fin n) (pc : TimerPc) :
      ({ s with pc := pc } : TimerState (Fin n)) = { s.setDev d (s.dev d) with pc := pc } := by
    rw [TimerState.setDev, Function.update_eq_self]
  cases hst with
  | @lockEvent i d hpc hd hlock =>
    apply h.turn hd (fun j => ?_) (fun j => rfl) (fun hok => hok.lockEvent hlock)
    rw [hpc]
    exact (ite_self _).symm
  | @relock i d hpc hd hlock =>
    apply h.turn hd (fun j => ?_) (fun j => rfl) (fun hok => hok.lockEvent hlock)
    rw [hpc]
    simp [TimerPc.at]
  | @testFail i d hpc hd hdone hfsh =>
    rw [hstay d]
    apply h.turn hd (fun j => ?_) (fun j => rfl) (fun hok => hok.testFail hdone hfsh)
    rw [hpc]
    rfl
  | @wait i d hpc hd =>
    apply h.turn hd (fun j => ?_) (fun j => ?_) (fun hok => hok.unlockEvent rfl (.inr ⟨rfl, rfl⟩))
    · rw [hpc]
      rfl
    · simp [TimerPc.at]
  | @wake i hpc =>
    intro j d hj
    have hok := h j d hj
    rw [hpc] at hok
    simp only [TimerPc.at, and_true, Bool.true_eq_false, and_false, if_false] at hok ⊢
    by_cases hij : i = j
    · rw [if_pos hij] at hok
      exact hok.wake
    · rw [if_neg hij] at hok
      exact hok
  | @unlockEvent i d hpc hd =>
    apply h.turn (a := .counting) hd (fun j => ?_) (fun j => (ite_self _).symm)
      (fun hok => hok.unlockEvent rfl (.inl rfl))
    rw [hpc]
    rfl
  | @lockTimer i d hpc hd hlock =>
    apply h.turn hd (fun j => ?_) (fun j => rfl) (fun hok => hok.lockTimer hlock)
    rw [hpc]
    exact (ite_self _).symm
  | @clear i d hpc hd =>
    apply h.turn hd (fun j => ?_) (fun j => rfl) (fun hok => hok.clear)
    rw [hpc]
    rfl
  | @signal i d hpc hd =>
    apply h.turn hd (fun j => ?_) (fun j => rfl) (fun hok => hok.signal)
    rw [hpc]
    rfl
  | @unlockTimer i d hpc hd =>
    apply h.turn hd (fun j => ?_) (fun j => (ite_self _).symm) (fun hok => hok.unlockTimer)
    rw [hpc]
    rfl
  | @device d e v hmem hdst =>
    obtain ⟨i, hd⟩ := List.mem_iff_getElem?.mp hmem
    refine h.update hd (fun hok => ?_) (fun j hj => ?_)
    · have hdev := handOff_devStep hok hdst
      cases hsig : (s.dev d).pc.signals with
      | false =>
        rw [hsig, wakeBy_false] at hdev
        exact hdev
      | true =>
        rw [hsig] at hdev
        rw [if_pos rfl, at_wakeBy_self hd]
        exact hdev
    · split
      · exact at_wakeBy_of_ne hd hj s.pc
      · rfl
  | exitTest hpc =>
    refine h.move rfl fun j d _ => ?_
    rw [hpc]
    show (if s.fsh = s.event then TimerPc.ended else TimerPc.top).at j = _
    split <;> rfl
  | round hpc | stopped hpc | lockEventEnd hpc | testPass hpc | count hpc | tick hpc | lockTimerEnd hpc =>
    exact h.move rfl fun j d _ => by rw [hpc]; rfl
  | stopTimer => exact h.move rfl fun j d _ => rfl

theorem handOff_attached : HandOff .away .attached where
  event_timer ha := nomatch ha
  event_dev hpc := nomatch hpc
  timer_timer ha := nomatch ha
  timer_dev hpc := nomatch hpc
  waiting ha := nomatch ha
  asleep ha := nomatch ha
  busy hpc := nomatch hpc
  sleeping hpc := nomatch hpc

theorem handOffs_of_reachable {n : ℕ} {s : TimerState (Fin n)} (h : (timerSystem n).Reachable s) : HandOffs s := by
  refine h.invariant (fun s hs => ?_) (fun _ _ _ => handOffs_step)
  intro j d _
  rw [hs]
  exact handOff_attached

/-! ## The counters of the timer -/

/-- The device at position `j` has been counted in this round. -/
def TimerPc.counted (j : ℕ) : TimerPc → Bool
  | .top => false
  | .lockEvent i => j < i
  | .test i => j < i
  | .wait i => j < i
  | .sleepEvent i _ => j < i
  | .count i => j < i
  | .unlockEvent i => j ≤ i
  | .ended => false
  | _ => true

theorem counted_wakeBy {n : ℕ} (d : Fin n) (pc : TimerPc) (j : ℕ) :
    (pc.wakeBy (devListOf n) d).counted j = pc.counted j := by
  cases pc with
  | sleepEvent i woken =>
    simp only [TimerPc.wakeBy]
    split <;> rfl
  | _ => rfl

/-- A device that has detached stays so. -/
theorem detached_devStep {v v' : Dev} {e : Option DevEvent} (hst : DevStep v e v') (h : v.pc.detached = true) :
    v'.pc.detached = true := by
  cases hst with
  | detachSignal _ | detachUnlock _ => rfl
  | call hpc | lockEvent hpc _ | setDone hpc | signalEvent hpc | unlockEvent hpc | lockTimer hpc _ | busy hpc _
  | wait hpc | wake hpc | relock hpc _ | released hpc _ | ret hpc | detach hpc | detachLock hpc _ | setFsh hpc =>
    rw [hpc] at h
    cases h

theorem fsh_devStep {v v' : Dev} {e : Option DevEvent} (hst : DevStep v e v') (h : v.fsh = true) : v'.fsh = true := by
  cases hst with
  | setFsh _ => rfl
  | _ => exact h

/-- **When the timer leaves its loop, everybody has detached.** -/
structure Tally {n : ℕ} (s : TimerState (Fin n)) : Prop where
  le : s.fsh ≤ s.event
  all : s.fsh = s.event → ∀ j d, (devListOf n)[j]? = some d → s.pc.counted j = true → (s.dev d).fsh = true
  stop : s.stop = true → ∀ d, (s.dev d).pc.detached = true
  ended : s.pc = .ended → ∀ d, (s.dev d).pc.detached = true

/-- No device goes back on its detaching. -/
def StayDetached {n : ℕ} (s t : TimerState (Fin n)) : Prop :=
  ∀ d, ((s.dev d).fsh = true → (t.dev d).fsh = true) ∧
    ((s.dev d).pc.detached = true → (t.dev d).pc.detached = true)

section

variable {n : ℕ} {s t : TimerState (Fin n)}

theorem stayDetached_setDev {d : Fin n} {v : Dev} {pc : TimerPc} (hfsh : (s.dev d).fsh = true → v.fsh = true)
    (hpc : (s.dev d).pc.detached = true → v.pc.detached = true) :
    StayDetached s { s.setDev d v with pc := pc } := by
  intro d'
  show (_ → (Function.update s.dev d v d').fsh = true) ∧ (_ → (Function.update s.dev d v d').pc.detached = true)
  by_cases hd : d' = d
  · subst hd
    rw [Function.update_self]
    exact ⟨hfsh, hpc⟩
  · rw [Function.update_of_ne hd]
    exact ⟨id, id⟩

/-- A step that counts nobody. -/
theorem Tally.move (h : Tally s) (hfsh : t.fsh = s.fsh) (hevent : t.event = s.event) (hstop : t.stop = s.stop)
    (hdev : StayDetached s t)
    (hpc : ∀ j d, (devListOf n)[j]? = some d → t.pc.counted j = true → s.pc.counted j = true)
    (hended : t.pc = .ended → ∀ d, (t.dev d).pc.detached = true) : Tally t where
  le := by
    rw [hfsh, hevent]
    exact h.le
  all := by
    rw [hfsh, hevent]
    intro heq j d hj hcounted
    exact (hdev d).1 (h.all heq j d hj (hpc j d hj hcounted))
  stop := by
    rw [hstop]
    intro hs d
    exact (hdev d).2 (h.stop hs d)
  ended := hended

end

/-- **One step keeps the tally.** -/
theorem tally_step {n : ℕ} {s t : TimerState (Fin n)} {l : Option (SlotEvent (Fin n))} (hl : Lockstep s) (h : Tally s)
    (hst : TimerStep (devListOf n) s l t) : Tally t := by
  have hsame (pc : TimerPc) : StayDetached s { s with pc := pc } := fun d => ⟨id, id⟩
  have hlock (d : Fin n) {v : Dev} (pc : TimerPc) (hfsh : v.fsh = (s.dev d).fsh) (hdet : v.pc = (s.dev d).pc) :
      StayDetached s { s.setDev d v with pc := pc } :=
    stayDetached_setDev (fun hf => hfsh.trans hf) (fun hp => by rw [hdet]; exact hp)
  cases hst with
  | round hpc =>
    refine ⟨Nat.le_refl 0, fun _ j d _ hcounted => ?_, h.stop, TimerPc.noConfusion⟩
    simp [TimerPc.counted] at hcounted
  | stopped hpc hstop =>
    exact h.move rfl rfl rfl (hsame _) (fun j d _ hcounted => Bool.noConfusion hcounted) (fun _ => h.stop hstop)
  | @count i d hpc hd =>
    -- equal counters stay equal only over a device that has detached
    refine ⟨?_, fun heq j d' hj hcounted => ?_, h.stop, TimerPc.noConfusion⟩
    · show (if (s.dev d).fsh then s.fsh + 1 else s.fsh) ≤ s.event + 1
      have hle := h.le
      split <;> omega
    · have heq' : (if (s.dev d).fsh then s.fsh + 1 else s.fsh) = s.event + 1 := heq
      have hle := h.le
      have hfsh : (s.dev d).fsh = true := by
        by_contra hno
        rw [if_neg hno] at heq'
        omega
      rw [if_pos hfsh] at heq'
      by_cases hji : j = i
      · subst hji
        obtain rfl : d = d' := Option.some.inj (hd.symm.trans hj)
        exact hfsh
      · refine h.all (by omega) j d' hj ?_
        rw [hpc]
        simp only [TimerPc.counted, decide_eq_true_eq] at hcounted ⊢
        omega
  | exitTest hpc =>
    refine h.move rfl rfl rfl (hsame _) (fun j d _ _ => by rw [hpc]; rfl) fun hended d => ?_
    have hbreak : s.fsh = s.event := by
      by_contra hne
      have hpc' : (if s.fsh = s.event then TimerPc.ended else TimerPc.top) = .ended := hended
      rw [if_neg hne] at hpc'
      cases hpc'
    obtain ⟨j, hj⟩ := List.mem_iff_getElem?.mp (mem_devListOf d)
    exact (hl j d hj).fsh_detached (h.all hbreak j d hj (by rw [hpc]; rfl))
  | @device d e v hmem hdst =>
    have hstay := fun pc => @stayDetached_setDev n s d v pc (fsh_devStep hdst) (detached_devStep hdst)
    refine h.move rfl rfl rfl (hstay _) (fun j d' _ => ?_) fun hended d' => ?_
    · split
      · rw [counted_wakeBy]
        exact id
      · exact id
    · have hpc : s.pc = .ended := by
        cases hs : s.pc with
        | ended => rfl
        | sleepEvent i woken =>
          simp only [hs, TimerPc.wakeBy] at hended
          split at hended
          · split at hended <;> cases hended
          · cases hended
        | _ =>
          simp only [hs, TimerPc.wakeBy] at hended
          split at hended <;> cases hended
      exact (hstay .ended d').2 (h.ended hpc d')
  | stopTimer hgone =>
    refine ⟨h.le, h.all, fun _ d => ?_, h.ended⟩
    have hd : (s.dev d).pc = .gone := hgone d (mem_devListOf d)
    show (s.dev d).pc.detached = true
    rw [hd]
    rfl
  | @lockEventEnd i hpc hend =>
    refine h.move rfl rfl rfl (hsame _) (fun j d hj _ => ?_) TimerPc.noConfusion
    have hlt := pos_lt_of_end hend hj
    rw [hpc]
    simpa [TimerPc.counted] using hlt
  | @unlockEvent i d hpc hd =>
    refine h.move rfl rfl rfl (hlock d _ rfl rfl) (fun j d' _ hcounted => ?_) TimerPc.noConfusion
    rw [hpc]
    simp only [TimerPc.counted, decide_eq_true_eq] at hcounted ⊢
    omega
  | @signal i d hpc hd =>
    refine h.move rfl rfl rfl (stayDetached_setDev id fun hp => ?_) (fun j d' _ _ => by rw [hpc]; rfl)
      TimerPc.noConfusion
    cases hv : (s.dev d).pc <;> rw [hv] at hp <;> first | rfl | cases hp
  | lockEvent hpc | wait hpc | relock hpc =>
    exact h.move rfl rfl rfl (hlock _ _ rfl rfl) (fun j d _ hc => by rw [hpc]; exact hc) TimerPc.noConfusion
  | testFail hpc | testPass hpc | wake hpc =>
    exact h.move rfl rfl rfl (hsame _) (fun j d _ hc => by rw [hpc]; exact hc) TimerPc.noConfusion
  | tick hpc | lockTimerEnd hpc =>
    exact h.move rfl rfl rfl (fun d => ⟨id, id⟩) (fun j d _ _ => by rw [hpc]; rfl) TimerPc.noConfusion
  | lockTimer hpc | clear hpc | unlockTimer hpc =>
    exact h.move rfl rfl rfl (hlock _ _ rfl rfl) (fun j d _ _ => by rw [hpc]; rfl) TimerPc.noConfusion

theorem tally_start (n : ℕ) : Tally (.start n) where
  le := Nat.le_refl 0
  all _ _ _ _ hcounted := Bool.noConfusion hcounted
  stop hstop := Bool.noConfusion hstop
  ended hpc := TimerPc.noConfusion hpc

theorem tally_of_reachable {n : ℕ} {s : TimerState (Fin n)} (h : (timerSystem n).Reachable s) : Tally s := by
  refine Lts.System.Reachable.invariant_of (J := Lockstep) (fun _ => lockstep_of_reachable) (fun s hs => ?_)
    (fun _ _ _ => tally_step) h
  rw [hs]
  exact tally_start n

/-! ## The theorem -/

/-- A wake-up for the timer, asleep on the `event_cond` of `v`, is on its way: the device is about to signal. -/
def WakesTimer (v : Dev) : Prop := v.pc.signals = true

/-- A wake-up for a device, asleep on its `timer_cond`, is on its way: the timer is about to signal. -/
def WakesDevice {n : ℕ} (s : TimerState (Fin n)) (d : Fin n) : Prop :=
  ∃ i, s.pc = .signal i ∧ (devListOf n)[i]? = some d

/-- **No wake-up is lost.** While the timer sleeps on a device without a wake-up on its way, the device is not asleep
    in `next_slot` and its flags are clear; a device that sleeps without one has `done` set; and once the timer has
    left its loop no device is in `next_slot`. -/
theorem no_lost_wakeup {n : ℕ} {s : TimerState (Fin n)} (h : (timerSystem n).Reachable s) :
    (∀ i d, s.pc = .sleepEvent i false → (devListOf n)[i]? = some d → ¬ WakesTimer (s.dev d) →
      (s.dev d).pc ≠ .sleepTimer false ∧ (s.dev d).done = false ∧ (s.dev d).fsh = false) ∧
    (∀ d, (s.dev d).pc = .sleepTimer false → ¬ WakesDevice s d → (s.dev d).done = true) ∧
    (s.pc = .ended → ∀ d, (s.dev d).pc.inNextSlot = false) := by
  have hand := handOffs_of_reachable h
  refine ⟨fun i d hpc hd hwake => ?_, fun d hpc hwake => ?_, fun hended d => ?_⟩
  · have hok := hand i d hd
    rw [hpc] at hok
    simp only [TimerPc.at, and_true, if_true] at hok
    obtain ⟨hdone, hfsh⟩ := hok.asleep rfl (Bool.eq_false_iff.mpr hwake)
    refine ⟨fun hsleep => ?_, hdone, hfsh⟩
    rcases hok.sleeping hsleep with hset | hsig
    · rw [hdone] at hset
      cases hset
    · cases hsig
  · obtain ⟨j, hj⟩ := List.mem_iff_getElem?.mp (mem_devListOf d)
    rcases (hand j d hj).sleeping hpc with hset | hsig
    · exact hset
    · refine absurd ?_ hwake
      cases hs : s.pc with
      | signal i =>
        rw [hs] at hsig
        by_cases hij : i = j
        · exact ⟨i, hs, by rw [hij]; exact hj⟩
        · simp [TimerPc.at, hij] at hsig
      | _ =>
        rw [hs] at hsig
        simp only [TimerPc.at] at hsig
        first | cases hsig | (split at hsig <;> cases hsig)
  · exact not_inNextSlot_of_detached ((tally_of_reachable h).ended hended d)

/-- One device: the timer has found it busy and sleeps; the device has not called `next_slot` yet. -/
theorem no_lost_wakeup_asleep : ∃ s : TimerState (Fin 1), s.pc = .sleepEvent 0 false ∧
    (s.dev 0).pc ≠ .sleepTimer false ∧ (s.dev 0).done = false ∧ (s.dev 0).fsh = false := by
  have h : (timerSystem 1).Reachable (.start 1) := .init rfl
  have h := h.step (.round rfl rfl)
  have h := h.step (.lockEvent (d := 0) rfl rfl rfl)
  have h := h.step (.testFail (d := 0) rfl rfl rfl rfl)
  have h := h.step (.wait (d := 0) rfl rfl)
  exact ⟨_, rfl, (no_lost_wakeup h).1 0 0 rfl rfl (fun hwake => nomatch hwake)⟩

end LamiaAtrium
