import LamiaAtrium.Timer.Correctness.Wakeups

/-!
# `Timer.Correctness.Moves` — somebody can always move

`Wakeups` says that nobody sleeps through its wake-up. With it goes what the mutexes are for: `Locks` says who holds
each of them, so a thread that finds a mutex taken knows where its holder is. `barrier_moves`: the timer or a device can
go on with its work, unless a thread is on its own between two calls, or everything has come to its end.
-/

namespace LamiaAtrium

/-! ## Who holds a mutex -/

/-- The holder of a mutex that the timer and the device take where the two flags say so. -/
def holderOf (timer device : Bool) : Option Holder :=
  if timer then some .timer else if device then some .device else none

/-- **The mutexes of a device** are held by who is at a point between locking and unlocking. -/
structure Locks (a : TimerAt) (v : Dev) : Prop where
  event : v.eventLock = holderOf a.holdsEvent v.pc.holdsEvent
  timer : v.timerLock = holderOf a.holdsTimer v.pc.holdsTimer

section

variable {a : TimerAt} {v v' : Dev}

theorem holderOf_device {timer : Bool} (h : holderOf timer false = none) : holderOf timer true = some .device := by
  cases timer with
  | false => rfl
  | true => cases h

/-- The timer's turn with `event_lock` is not the device's. -/
theorem HandOff.dev_event (hand : HandOff a v) (ha : a.holdsEvent = true) : v.pc.holdsEvent = false := by
  cases hpc : v.pc.holdsEvent with
  | false => rfl
  | true =>
    rw [hand.not_holdsEvent hpc] at ha
    cases ha

theorem HandOff.dev_timer (hand : HandOff a v) (ha : a.holdsTimer = true) : v.pc.holdsTimer = false := by
  cases hpc : v.pc.holdsTimer with
  | false => rfl
  | true =>
    rw [hand.not_holdsTimer hpc] at ha
    cases ha

theorem locks_devStep {e : Option DevEvent} (h : Locks a v) (hand : HandOff a v) (hst : DevStep v e v') :
    Locks (a.wakeBy v.pc.signals) v' := by
  have hevent := h.event
  have htimer := h.timer
  cases hst with
  | lockEvent hpc hlock | detachLock hpc hlock =>
    rw [hpc] at hevent htimer
    refine ⟨?_, ?_⟩
    · rw [holdsEvent_wakeBy]
      exact (holderOf_device (hevent.symm.trans hlock)).symm
    · rw [holdsTimer_wakeBy]
      exact htimer
  | unlockEvent hpc | detachUnlock hpc =>
    have hfree := hand.not_holdsEvent (by rw [hpc]; rfl)
    rw [hpc] at htimer
    refine ⟨?_, ?_⟩
    · rw [holdsEvent_wakeBy, hfree]
      rfl
    · rw [holdsTimer_wakeBy]
      exact htimer
  | lockTimer hpc hlock | relock hpc hlock =>
    rw [hpc] at hevent htimer
    refine ⟨?_, ?_⟩
    · rw [holdsEvent_wakeBy]
      exact hevent
    · rw [holdsTimer_wakeBy]
      exact (holderOf_device (htimer.symm.trans hlock)).symm
  | wait hpc | ret hpc =>
    have hfree := hand.not_holdsTimer (by rw [hpc]; rfl)
    rw [hpc] at hevent
    refine ⟨?_, ?_⟩
    · rw [holdsEvent_wakeBy]
      exact hevent
    · rw [holdsTimer_wakeBy, hfree]
      rfl
  | call hpc | setDone hpc | signalEvent hpc | busy hpc _ | wake hpc | released hpc _ | detach hpc | setFsh hpc
  | detachSignal hpc =>
    rw [hpc] at hevent htimer
    refine ⟨?_, ?_⟩
    · rw [holdsEvent_wakeBy]
      exact hevent
    · rw [holdsTimer_wakeBy]
      exact htimer

end

/-- Every device of the list. -/
def AllLocks {n : ℕ} (s : TimerState (Fin n)) : Prop :=
  ∀ j d, (devListOf n)[j]? = some d → Locks (s.pc.at j) (s.dev d)

section

variable {n : ℕ} {s : TimerState (Fin n)}

/-- A step of the timer at one device: it is at none of the others, before and after. -/
theorem AllLocks.turn (h : AllLocks s) {i : ℕ} {d : Fin n} (hd : (devListOf n)[i]? = some d) {v : Dev} {pc : TimerPc}
    {a b : TimerAt} (hbefore : ∀ j, s.pc.at j = if i = j then a else .away)
    (hafter : ∀ j, pc.at j = if i = j then b else .away) (hself : Locks a (s.dev d) → Locks b v) :
    AllLocks { s.setDev d v with pc := pc } := by
  refine forall_setDev (P := fun j => Locks (s.pc.at j)) (Q := fun j => Locks (pc.at j)) h hd (fun hok => ?_)
    fun j hji w hw => ?_
  · rw [hbefore, if_pos rfl] at hok
    rw [hafter, if_pos rfl]
    exact hself hok
  · rw [hbefore, if_neg (Ne.symm hji)] at hw
    rw [hafter, if_neg (Ne.symm hji)]
    exact hw

/-- A step of the timer alone. -/
theorem AllLocks.move (h : AllLocks s) {t : TimerState (Fin n)} (hdev : t.dev = s.dev)
    (hat : ∀ j d, (devListOf n)[j]? = some d → Locks (s.pc.at j) (s.dev d) → Locks (t.pc.at j) (s.dev d)) :
    AllLocks t := by
  intro j d hj
  rw [hdev]
  exact hat j d hj (h j d hj)

theorem holdsTimer_wake (pc : DevPc) : pc.wake.holdsTimer = pc.holdsTimer := by cases pc <;> rfl

theorem holdsEvent_wake (pc : DevPc) : pc.wake.holdsEvent = pc.holdsEvent := by cases pc <;> rfl

/-- **One step keeps the mutexes with their holders.** -/
theorem allLocks_step {t : TimerState (Fin n)} {l : Option (SlotEvent (Fin n))} (h : AllLocks s) (hand : HandOffs s)
    (hst : TimerStep (devListOf n) s l t) : AllLocks t := by
  cases hst with
  | @lockEvent i d hpc hd hlock =>
    refine h.turn (a := .away) hd (fun j => ?_) (fun j => rfl) fun hok => ⟨rfl, hok.timer⟩
    rw [hpc]
    exact (ite_self _).symm
  | @relock i d hpc hd hlock =>
    refine h.turn (a := .away) hd (fun j => ?_) (fun j => rfl) fun hok => ⟨rfl, hok.timer⟩
    rw [hpc]
    simp [TimerPc.at]
  | @wait i d hpc hd =>
    have hdev := hand i d hd
    rw [hpc] at hdev
    have hfree := hdev.dev_event (by simp [TimerPc.at, TimerAt.holdsEvent])
    refine h.turn (a := .waiting) (b := .asleep) hd (fun j => by rw [hpc]; rfl) (fun j => by simp [TimerPc.at])
      fun hok => ⟨?_, hok.timer⟩
    show none = holderOf false _
    rw [hfree]
    rfl
  | @unlockEvent i d hpc hd =>
    have hdev := hand i d hd
    rw [hpc] at hdev
    have hfree := hdev.dev_event (by simp [TimerPc.at, TimerAt.holdsEvent])
    refine h.turn (a := .counting) hd (fun j => by rw [hpc]; rfl) (fun j => (ite_self _).symm) ?_
    refine fun hok => ⟨?_, hok.timer⟩
    show none = holderOf false _
    rw [hfree]
    rfl
  | @lockTimer i d hpc hd hlock =>
    refine h.turn (a := .away) hd (fun j => ?_) (fun j => rfl) fun hok => ⟨hok.event, rfl⟩
    rw [hpc]
    exact (ite_self _).symm
  | @clear i d hpc hd =>
    exact h.turn (a := .clearing) hd (fun j => by rw [hpc]; rfl) (fun j => rfl) fun hok => ⟨hok.event, hok.timer⟩
  | @signal i d hpc hd =>
    refine h.turn (a := .signaling) (b := .clearing) hd (fun j => by rw [hpc]; rfl) (fun j => rfl) fun hok => ⟨?_, ?_⟩
    · show _ = holderOf _ (s.dev d).pc.wake.holdsEvent
      rw [holdsEvent_wake]
      exact hok.event
    · show _ = holderOf _ (s.dev d).pc.wake.holdsTimer
      rw [holdsTimer_wake]
      exact hok.timer
  | @unlockTimer i d hpc hd =>
    have hdev := hand i d hd
    rw [hpc] at hdev
    have hfree := hdev.dev_timer (by simp [TimerPc.at, TimerAt.holdsTimer])
    refine h.turn (a := .clearing) hd (fun j => by rw [hpc]; rfl) (fun j => (ite_self _).symm) ?_
    refine fun hok => ⟨hok.event, ?_⟩
    show none = holderOf false _
    rw [hfree]
    rfl
  | @device d e v hmem hdst =>
    obtain ⟨i, hd⟩ := List.mem_iff_getElem?.mp hmem
    refine forall_setDev (P := fun j => Locks (s.pc.at j)) h hd (fun hok => ?_) fun j hj w hw => ?_
    · have hdev := locks_devStep hok (hand i d hd) hdst
      cases hsig : (s.dev d).pc.signals with
      | false =>
        rw [hsig, wakeBy_false] at hdev
        exact hdev
      | true =>
        rw [hsig] at hdev
        rw [if_pos rfl, at_wakeBy_self hd]
        exact hdev
    · split
      · rw [at_wakeBy_of_ne hd hj s.pc]
        exact hw
      · exact hw
  | wake hpc =>
    refine h.move rfl fun j d _ hok => ?_
    rw [hpc] at hok
    simp only [TimerPc.at, and_true, Bool.true_eq_false, and_false, if_false] at hok ⊢
    split at hok
    · exact ⟨hok.event, hok.timer⟩
    · exact hok
  | @testFail i _ hpc _ _ _ =>
    refine h.move rfl fun j d _ hok => ?_
    rw [hpc] at hok
    simp only [TimerPc.at] at hok ⊢
    by_cases hij : i = j
    · rw [if_pos hij] at hok ⊢
      exact ⟨hok.event, hok.timer⟩
    · rw [if_neg hij] at hok ⊢
      exact hok
  | exitTest hpc =>
    refine h.move rfl fun j d _ hok => ?_
    rw [hpc] at hok
    show Locks ((if s.fsh = s.event then TimerPc.ended else TimerPc.top).at j) _
    split <;> exact hok
  | round hpc | stopped hpc | lockEventEnd hpc | testPass hpc | count hpc | tick hpc | lockTimerEnd hpc =>
    refine h.move rfl fun j d _ hok => ?_
    rw [hpc] at hok
    exact hok
  | stopTimer => exact h.move rfl fun j d _ hok => hok

theorem allLocks_of_reachable (h : (timerSystem n).Reachable s) : AllLocks s := by
  refine Lts.System.Reachable.invariant_of (J := HandOffs) (fun _ => handOffs_of_reachable) (fun s hs => ?_)
    (fun _ _ _ hand hok => allLocks_step hok hand) h
  intro j d _
  rw [hs]
  exact ⟨rfl, rfl⟩

/-! ## Where the timer is, and who has detached -/

/-- The timer works at a position of `dev_list`. -/
def TimerPc.inList (n : ℕ) : TimerPc → Prop
  | .test i => i < n
  | .wait i => i < n
  | .sleepEvent i _ => i < n
  | .count i => i < n
  | .unlockEvent i => i < n
  | .clear i => i < n
  | .signal i => i < n
  | .unlockTimer i => i < n
  | _ => True

theorem pos_lt {i : ℕ} {d : Fin n} (h : (devListOf n)[i]? = some d) : i < n := by
  have hi := (List.getElem?_eq_some_iff.mp h).1
  rwa [devListOf_eq, List.length_reverse, List.length_finRange] at hi

theorem exists_dev {i : ℕ} (h : i < n) : ∃ d : Fin n, (devListOf n)[i]? = some d := by
  have hi : i < (devListOf n).length := by rwa [devListOf_eq, List.length_reverse, List.length_finRange]
  exact ⟨_, List.getElem?_eq_getElem hi⟩

theorem inList_wakeBy (d : Fin n) (pc : TimerPc) : (pc.wakeBy (devListOf n) d).inList n ↔ pc.inList n := by
  cases pc with
  | sleepEvent i woken =>
    simp only [TimerPc.wakeBy]
    split <;> rfl
  | _ => rfl

theorem inList_of_reachable (h : (timerSystem n).Reachable s) : s.pc.inList n := by
  refine h.invariant (I := fun s => s.pc.inList n) (fun s hs => ?_) fun s l t hin hst => ?_
  · rw [hs]
    trivial
  cases hst with
  | lockEvent _ hd _ | testFail _ hd _ _ | wait _ hd | testPass _ hd _ | relock _ hd _ | count _ hd | lockTimer _ hd _
  | clear _ hd | signal _ hd => exact pos_lt hd
  | wake hpc =>
    rw [hpc] at hin
    exact hin
  | exitTest _ =>
    show TimerPc.inList n (if s.fsh = s.event then TimerPc.ended else TimerPc.top)
    split <;> trivial
  | stopTimer _ => exact hin
  | @device d e v _ _ =>
    show TimerPc.inList n (if (s.dev d).pc.signals = true then s.pc.wakeBy (devListOf n) d else s.pc)
    split
    · exact (inList_wakeBy d s.pc).mpr hin
    · exact hin
  | _ => trivial

theorem fsh_of_detached (h : (timerSystem n).Reachable s) (d : Fin n) (hpc : (s.dev d).pc.detached = true) :
    (s.dev d).fsh = true := by
  revert hpc
  refine h.invariant (I := fun s => (s.dev d).pc.detached = true → (s.dev d).fsh = true) (fun s hs => ?_)
    fun s l t hok hst => ?_
  · rw [hs]
    intro hpc
    cases hpc
  have hset : ∀ {d' : Fin n} {v : Dev}, (d' = d → v.pc.detached = true → v.fsh = true) →
      ((s.setDev d' v).dev d).pc.detached = true → ((s.setDev d' v).dev d).fsh = true := by
    intro d' v hv
    by_cases hd : d = d'
    · subst hd
      simp only [TimerState.setDev, Function.update_self]
      exact hv rfl
    · simp only [TimerState.setDev, Function.update_of_ne hd]
      exact hok
  cases hst with
  | @lockEvent _ d' _ _ _ | @wait _ d' _ _ | @relock _ d' _ _ _ | @unlockEvent _ d' _ _ | @lockTimer _ d' _ _ _
  | @clear _ d' _ _ | @unlockTimer _ d' _ _ =>
    refine hset fun hd => ?_
    subst hd
    exact hok
  | @signal _ d' _ _ =>
    refine hset fun hd hdet => ?_
    subst hd
    refine hok ?_
    cases hpc : (s.dev d').pc with
    | sleepTimer woken =>
      rw [hpc] at hdet
      cases hdet
    | _ =>
      rw [hpc] at hdet
      exact hdet
  | @device d' e v _ hdst =>
    refine hset fun hd hdet => ?_
    subst hd
    cases hdst with
    | setFsh _ => rfl
    | detachSignal hpc | detachUnlock hpc => exact hok (by rw [hpc]; rfl)
    | call hpc | lockEvent hpc _ | setDone hpc | signalEvent hpc | unlockEvent hpc | lockTimer hpc _ | busy hpc _
    | wait hpc | wake hpc | relock hpc _ | released hpc _ | ret hpc | detach hpc | detachLock hpc _ => cases hdet
  | _ => exact hok

/-! ## Somebody can move -/

/-- A step for nothing: the timer or a device wakes up without a signal, or `stop_timer` is called again. -/
def TimerState.Spurious (s t : TimerState (Fin n)) : Prop :=
  (∃ i, s.pc = .sleepEvent i false ∧ t = { s with pc := .sleepEvent i true }) ∨
    (∃ d, (s.dev d).pc = .sleepTimer false ∧ t = s.setDev d { s.dev d with pc := .sleepTimer true }) ∨
    (s.stop = true ∧ t = s)

/-- The barrier can go on without a thread. -/
def TimerState.Works (s : TimerState (Fin n)) : Prop := ∃ t, TimerStep (devListOf n) s none t ∧ ¬ s.Spurious t

/-- The timer goes on. -/
theorem works_of_timer {t : TimerState (Fin n)} (hst : TimerStep (devListOf n) s none t) (hpc : t.pc ≠ s.pc)
    (hsleep : ∀ i, s.pc ≠ .sleepEvent i false) : s.Works := by
  refine ⟨t, hst, ?_⟩
  rintro (⟨i, hi, -⟩ | ⟨d, -, rfl⟩ | ⟨-, rfl⟩)
  · exact hsleep i hi
  · exact hpc rfl
  · exact hpc rfl

/-- A device goes on. -/
theorem works_of_device {d : Fin n} {v : Dev} (hst : DevStep (s.dev d) none v) (hpc : v.pc ≠ (s.dev d).pc)
    (hsleep : (s.dev d).pc ≠ .sleepTimer false) : s.Works := by
  refine ⟨_, .device (e := none) (mem_devListOf d) hst, ?_⟩
  have hself : ((s.setDev d v).dev d).pc = v.pc := by simp [TimerState.setDev]
  rintro (⟨i, -, ht⟩ | ⟨d', hd', ht⟩ | ⟨-, ht⟩)
  · have hdev := congrArg (fun u => (u.dev d).pc) ht
    exact hpc (hself.symm.trans hdev)
  · have hdev := congrArg (fun u => (u.dev d).pc) ht
    by_cases hdd : d = d'
    · subst hdd
      exact hsleep hd'
    · refine hpc (hself.symm.trans (hdev.trans ?_))
      simp [TimerState.setDev, Function.update_of_ne hdd]
  · have hdev := congrArg (fun u => (u.dev d).pc) ht
    exact hpc (hself.symm.trans hdev)

/-- Who holds a mutex goes on, unless it is about to return to its thread. -/
theorem works_of_holds {d : Fin n} (hheld : (s.dev d).pc.holdsEvent = true ∨ (s.dev d).pc.holdsTimer = true)
    (hret : (s.dev d).pc ≠ .unlockTimer) : s.Works := by
  cases hpc : (s.dev d).pc with
  | setDone => exact works_of_device (.setDone hpc) (by simp [hpc]) (by simp [hpc])
  | signalEvent => exact works_of_device (.signalEvent hpc) (by simp [hpc]) (by simp [hpc])
  | unlockEvent => exact works_of_device (.unlockEvent hpc) (by simp [hpc]) (by simp [hpc])
  | waitDone => exact works_of_device (.wait hpc) (by simp [hpc]) (by simp [hpc])
  | setFsh => exact works_of_device (.setFsh hpc) (by simp [hpc]) (by simp [hpc])
  | detachSignal => exact works_of_device (.detachSignal hpc) (by simp [hpc]) (by simp [hpc])
  | detachUnlock => exact works_of_device (.detachUnlock hpc) (by simp [hpc]) (by simp [hpc])
  | testDone =>
    cases hdone : (s.dev d).done with
    | true => exact works_of_device (.busy hpc hdone) (by simp [hpc]) (by simp [hpc])
    | false => exact works_of_device (.released hpc hdone) (by simp [hpc]) (by simp [hpc])
  | unlockTimer => exact absurd hpc hret
  | _ =>
    rw [hpc] at hheld
    simp [DevPc.holdsEvent, DevPc.holdsTimer] at hheld

/-- Where the timer waits for `event_lock`, the lock is free or the device goes on. -/
theorem event_free_or_works {j : ℕ} {d : Fin n} (hlocks : AllLocks s) (hd : (devListOf n)[j]? = some d)
    (hat : (s.pc.at j).holdsEvent = false) : (s.dev d).eventLock = none ∨ s.Works := by
  cases hdev : (s.dev d).pc.holdsEvent with
  | false =>
    left
    rw [(hlocks j d hd).event, hat, hdev]
    rfl
  | true =>
    refine .inr (works_of_holds (.inl hdev) fun hpc => ?_)
    rw [hpc] at hdev
    cases hdev

/-- Where the timer sleeps on a device, the device can wake it: it is at work, or on its own. -/
theorem works_of_asleep {i : ℕ} {d : Fin n} (hs : (timerSystem n).Reachable s) (hpc : s.pc = .sleepEvent i false)
    (hd : (devListOf n)[i]? = some d) (hout : (s.dev d).pc ≠ .out) (hret : (s.dev d).pc ≠ .unlockTimer) : s.Works := by
  have hlocks := allLocks_of_reachable hs i d hd
  have hand := handOffs_of_reachable hs i d hd
  rw [hpc] at hlocks hand
  simp only [TimerPc.at, and_self, if_true] at hlocks hand
  have hevent : (s.dev d).pc.holdsEvent = false → (s.dev d).eventLock = none := by
    intro hdev
    rw [hlocks.event, hdev]
    rfl
  have htimer : (s.dev d).pc.holdsTimer = false → (s.dev d).timerLock = none := by
    intro hdev
    rw [hlocks.timer, hdev]
    rfl
  cases hdpc : (s.dev d).pc with
  | out => exact absurd hdpc hout
  | unlockTimer => exact absurd hdpc hret
  | lockEvent =>
    exact works_of_device (.lockEvent hdpc (hevent (by rw [hdpc]; rfl))) (by simp [hdpc]) (by simp [hdpc])
  | detachLock =>
    exact works_of_device (.detachLock hdpc (hevent (by rw [hdpc]; rfl))) (by simp [hdpc]) (by simp [hdpc])
  | lockTimer =>
    exact works_of_device (.lockTimer hdpc (htimer (by rw [hdpc]; rfl))) (by simp [hdpc]) (by simp [hdpc])
  | sleepTimer woken =>
    cases woken with
    | true => exact works_of_device (.relock hdpc (htimer (by rw [hdpc]; rfl))) (by simp [hdpc]) (by simp [hdpc])
    | false =>
      -- it would have `done` set, and the timer has seen it clear
      rcases hand.sleeping hdpc with hdone | hsig
      · rw [(hand.asleep rfl (by rw [hdpc]; rfl)).1] at hdone
        cases hdone
      · cases hsig
  | gone =>
    have hfsh := fsh_of_detached hs d (by rw [hdpc]; rfl)
    rw [(hand.asleep rfl (by rw [hdpc]; rfl)).2] at hfsh
    cases hfsh
  | setDone | signalEvent | unlockEvent | setFsh | detachSignal | detachUnlock | testDone | waitDone =>
    exact works_of_holds (by rw [hdpc]; simp [DevPc.holdsEvent, DevPc.holdsTimer]) hret

/-- **Somebody can move.** In every reachable state of the barrier the timer or a device goes on with its work, or a
    thread is outside of `next_slot` or about to return from it, or everybody has come to the end. -/
theorem barrier_moves (hs : (timerSystem n).Reachable s) :
    s.Works ∨ (∃ d, (s.dev d).pc = .out ∨ (s.dev d).pc = .unlockTimer) ∨
      (s.pc = .ended ∧ ∀ d, (s.dev d).pc = .gone) := by
  by_cases hthread : ∃ d, (s.dev d).pc = .out ∨ (s.dev d).pc = .unlockTimer
  · exact .inr (.inl hthread)
  rw [not_exists] at hthread
  have hout : ∀ d, (s.dev d).pc ≠ .out := fun d hd => hthread d (.inl hd)
  have hret : ∀ d, (s.dev d).pc ≠ .unlockTimer := fun d hd => hthread d (.inr hd)
  have hlocks := allLocks_of_reachable hs
  have hin := inList_of_reachable hs
  cases hpc : s.pc with
  | top =>
    left
    cases hstop : s.stop with
    | true => exact works_of_timer (.stopped hpc hstop) (by simp [hpc]) (by simp [hpc])
    | false => exact works_of_timer (.round hpc hstop) (by simp [hpc]) (by simp [hpc])
  | lockEvent i =>
    left
    cases hd : (devListOf n)[i]? with
    | none => exact works_of_timer (.lockEventEnd hpc hd) (by simp [hpc]) (by simp [hpc])
    | some d =>
      rcases event_free_or_works hlocks hd (by rw [hpc]; rfl) with hfree | hworks
      · exact works_of_timer (.lockEvent hpc hd hfree) (by simp [hpc]) (by simp [hpc])
      · exact hworks
  | lockTimer i =>
    left
    cases hd : (devListOf n)[i]? with
    | none => exact works_of_timer (.lockTimerEnd hpc hd) (by simp [hpc]) (by simp [hpc])
    | some d =>
      have hlock := (hlocks i d hd).timer
      rw [hpc] at hlock
      cases hdev : (s.dev d).pc.holdsTimer with
      | true => exact works_of_holds (.inr hdev) (hret d)
      | false =>
        rw [hdev] at hlock
        exact works_of_timer (.lockTimer hpc hd hlock) (by simp [hpc]) (by simp [hpc])
  | tick => exact .inl (works_of_timer (.tick hpc) (by simp [hpc]) (by simp [hpc]))
  | exitTest =>
    refine .inl (works_of_timer (.exitTest hpc) ?_ (by simp [hpc]))
    rw [hpc]
    show (if s.fsh = s.event then TimerPc.ended else TimerPc.top) ≠ _
    split <;> simp
  | ended =>
    by_cases hall : ∀ d, (s.dev d).pc = .gone
    · exact .inr (.inr ⟨rfl, hall⟩)
    · -- a device that is still on its way out
      obtain ⟨d, hd⟩ := not_forall.mp hall
      have hdet := (tally_of_reachable hs).ended hpc d
      refine .inl (works_of_holds (d := d) (.inl ?_) (hret d))
      cases hdpc : (s.dev d).pc with
      | gone => exact absurd hdpc hd
      | detachSignal | detachUnlock => rfl
      | _ =>
        rw [hdpc] at hdet
        cases hdet
  | test i =>
    left
    rw [hpc] at hin
    obtain ⟨d, hd⟩ := exists_dev hin
    by_cases hflags : (s.dev d).done = true ∨ (s.dev d).fsh = true
    · exact works_of_timer (.testPass hpc hd hflags) (by simp [hpc]) (by simp [hpc])
    · rw [not_or, Bool.not_eq_true, Bool.not_eq_true] at hflags
      exact works_of_timer (.testFail hpc hd hflags.1 hflags.2) (by simp [hpc]) (by simp [hpc])
  | sleepEvent i woken =>
    left
    rw [hpc] at hin
    obtain ⟨d, hd⟩ := exists_dev hin
    cases woken with
    | false => exact works_of_asleep hs hpc hd (hout d) (hret d)
    | true =>
      rcases event_free_or_works hlocks hd (by rw [hpc]; simp [TimerPc.at, TimerAt.holdsEvent]) with hfree | hworks
      · exact works_of_timer (.relock hpc hd hfree) (by simp [hpc]) (by simp [hpc])
      · exact hworks
  | wait i | count i | unlockEvent i | clear i | signal i | unlockTimer i =>
    left
    rw [hpc] at hin
    obtain ⟨d, hd⟩ := exists_dev hin
    first
      | exact works_of_timer (.wait hpc hd) (by simp [hpc]) (by simp [hpc])
      | exact works_of_timer (.count hpc hd) (by simp [hpc]) (by simp [hpc])
      | exact works_of_timer (.unlockEvent hpc hd) (by simp [hpc]) (by simp [hpc])
      | exact works_of_timer (.clear hpc hd) (by simp [hpc]) (by simp [hpc])
      | exact works_of_timer (.signal hpc hd) (by simp [hpc]) (by simp [hpc])
      | exact works_of_timer (.unlockTimer hpc hd) (by simp [hpc]) (by simp [hpc])

end

end LamiaAtrium
