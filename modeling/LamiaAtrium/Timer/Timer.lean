import Mathlib.Data.List.FinRange
import Mathlib.Logic.Function.Basic
import LamiaAtrium.Lib.Lts

/-!
# `Timer.Timer` — `timer.c`: the slot barrier at the grain of its locks and condition variables

One timer thread runs `timer_routine`; every attached device thread calls `next_slot` any number of
times and finally `detach_event`. A step is one access to shared state: taking or releasing a mutex,
testing or writing a flag, going to sleep on a condition variable, being woken.

* `done` and `fsh` are the two flags of `struct timer_id_t`; `done` is set under `event_lock` and cleared
  under `timer_lock`, so the two writes do not exclude one another.
* `pthread_cond_wait` releases its mutex and goes to sleep in one step, after the step that has found that it
  must wait; a signal wakes the sleeper, a sleeper may also wake on its own, and a woken thread takes the
  mutex again before it goes on.
* `entered` and `returned` are history variables: how often the device has set `done` to `1` in
  `next_slot`, and how often it has then seen `done = 0`.

The labels are the calls a device thread makes: `call d` and `ret d` are the start and the end of
`next_slot`, `detach d` is the start of `detach_event`; every other step carries no label.
-/

namespace LamiaAtrium

/-- Who holds a mutex: `event_lock` and `timer_lock` of a device are only ever taken by the device's own
    thread and by the timer. -/
inductive Holder where
  | timer
  | device
deriving DecidableEq

/-- Where the timer thread is; `i` is the position of `temp` in `dev_list`. -/
inductive TimerPc where
  | top                                -- `while (!timer_stop)`
  | lockEvent (i : ℕ)                  -- first loop, before `pthread_mutex_lock(&event_lock)`
  | test (i : ℕ)                       -- `while (!done && !fsh)`
  | wait (i : ℕ)                       -- before `pthread_cond_wait(&event_cond)`
  | sleepEvent (i : ℕ) (woken : Bool)  -- inside `pthread_cond_wait(&event_cond)`
  | count (i : ℕ)                      -- `if (fsh) fsh++; event++;`
  | unlockEvent (i : ℕ)
  | tick                               -- `_time++`
  | lockTimer (i : ℕ)                  -- second loop, before `pthread_mutex_lock(&timer_lock)`
  | clear (i : ℕ)                      -- `done = 0`
  | signal (i : ℕ)                     -- `pthread_cond_signal(&timer_cond)`
  | unlockTimer (i : ℕ)
  | exitTest                           -- `if (fsh == event) break;`
  | ended
deriving DecidableEq

/-- Where a device thread is. -/
inductive DevPc where
  | out                                -- between calls
  | lockEvent                          -- `next_slot`
  | setDone
  | signalEvent
  | unlockEvent
  | lockTimer
  | testDone                           -- `while (done)`
  | waitDone                           -- before `pthread_cond_wait(&timer_cond)`
  | sleepTimer (woken : Bool)          -- inside `pthread_cond_wait(&timer_cond)`
  | unlockTimer
  | detachLock                         -- `detach_event`
  | setFsh
  | detachSignal
  | detachUnlock
  | gone
deriving DecidableEq

/-- `struct timer_id_t`, the program counter of its thread, and the two history variables. -/
structure Dev where
  done : Bool
  fsh : Bool
  eventLock : Option Holder
  timerLock : Option Holder
  pc : DevPc
  entered : ℕ
  returned : ℕ

/-- A device as `attach_event` leaves it. -/
def Dev.attached : Dev := ⟨false, false, none, none, .out, 0, 0⟩

/-- The calls of a device thread. -/
inductive SlotEvent (D : Type) where
  | call (d : D)
  | ret (d : D)
  | detach (d : D)

/-- What a device thread is about to do, without the device. -/
inductive DevEvent where
  | call
  | ret
  | detach

/-- The event of the thread of device `d`. -/
def DevEvent.at {D : Type} (d : D) : DevEvent → SlotEvent D
  | .call => .call d
  | .ret => .ret d
  | .detach => .detach d

/-- The statics of `timer.c` and the locals of `timer_routine`. -/
structure TimerState (D : Type) where
  time : ℕ
  stop : Bool
  pc : TimerPc
  fsh : ℕ
  event : ℕ
  dev : D → Dev

/-- One step of a device thread, on its own device. -/
inductive DevStep : Dev → Option DevEvent → Dev → Prop where
  | call {v} : v.pc = .out → DevStep v (some .call) { v with pc := .lockEvent }
  | lockEvent {v} : v.pc = .lockEvent → v.eventLock = none →
      DevStep v none { v with eventLock := some .device, pc := .setDone }
  | setDone {v} : v.pc = .setDone →
      DevStep v none { v with done := true, entered := v.entered + 1, pc := .signalEvent }
  | signalEvent {v} : v.pc = .signalEvent → DevStep v none { v with pc := .unlockEvent }
  | unlockEvent {v} : v.pc = .unlockEvent →
      DevStep v none { v with eventLock := none, pc := .lockTimer }
  | lockTimer {v} : v.pc = .lockTimer → v.timerLock = none →
      DevStep v none { v with timerLock := some .device, pc := .testDone }
  | busy {v} : v.pc = .testDone → v.done = true → DevStep v none { v with pc := .waitDone }
  | wait {v} : v.pc = .waitDone → DevStep v none { v with timerLock := none, pc := .sleepTimer false }
  | wake {v} : v.pc = .sleepTimer false → DevStep v none { v with pc := .sleepTimer true }
  | relock {v} : v.pc = .sleepTimer true → v.timerLock = none →
      DevStep v none { v with timerLock := some .device, pc := .testDone }
  | released {v} : v.pc = .testDone → v.done = false →
      DevStep v none { v with returned := v.returned + 1, pc := .unlockTimer }
  | ret {v} : v.pc = .unlockTimer → DevStep v (some .ret) { v with timerLock := none, pc := .out }
  | detach {v} : v.pc = .out → DevStep v (some .detach) { v with pc := .detachLock }
  | detachLock {v} : v.pc = .detachLock → v.eventLock = none →
      DevStep v none { v with eventLock := some .device, pc := .setFsh }
  | setFsh {v} : v.pc = .setFsh → DevStep v none { v with fsh := true, pc := .detachSignal }
  | detachSignal {v} : v.pc = .detachSignal → DevStep v none { v with pc := .detachUnlock }
  | detachUnlock {v} : v.pc = .detachUnlock → DevStep v none { v with eventLock := none, pc := .gone }

/-- Is the device thread at its `pthread_cond_signal(&event_cond)`? -/
def DevPc.signals : DevPc → Bool
  | .signalEvent => true
  | .detachSignal => true
  | _ => false

section

variable {D : Type} [DecidableEq D]

/-- The signal on the `event_cond` of `d` reaches the timer when it sleeps there, and is lost otherwise. -/
def TimerPc.wakeBy (devList : List D) (d : D) : TimerPc → TimerPc
  | .sleepEvent i woken => if devList[i]? = some d then .sleepEvent i true else .sleepEvent i woken
  | pc => pc

/-- The signal on `timer_cond` wakes the device when it sleeps there. -/
def DevPc.wake : DevPc → DevPc
  | .sleepTimer _ => .sleepTimer true
  | pc => pc

/-- Replace the state of device `d`. -/
def TimerState.setDev (s : TimerState D) (d : D) (v : Dev) : TimerState D :=
  { s with dev := Function.update s.dev d v }

/-- One step of the barrier: a step of `timer_routine`, of a device thread, or `stop_timer` once every
    device thread has detached. -/
inductive TimerStep (devList : List D) : TimerState D → Option (SlotEvent D) → TimerState D → Prop where
  | round {s} : s.pc = .top → s.stop = false →
      TimerStep devList s none { s with pc := .lockEvent 0, fsh := 0, event := 0 }
  | stopped {s} : s.pc = .top → s.stop = true → TimerStep devList s none { s with pc := .ended }
  | lockEvent {s i d} : s.pc = .lockEvent i → devList[i]? = some d → (s.dev d).eventLock = none →
      TimerStep devList s none
        { s.setDev d { s.dev d with eventLock := some .timer } with pc := .test i }
  | lockEventEnd {s i} : s.pc = .lockEvent i → devList[i]? = none →
      TimerStep devList s none { s with pc := .tick }
  | testFail {s i d} : s.pc = .test i → devList[i]? = some d →
      (s.dev d).done = false → (s.dev d).fsh = false → TimerStep devList s none { s with pc := .wait i }
  | wait {s i d} : s.pc = .wait i → devList[i]? = some d →
      TimerStep devList s none
        { s.setDev d { s.dev d with eventLock := none } with pc := .sleepEvent i false }
  | testPass {s i d} : s.pc = .test i → devList[i]? = some d →
      (s.dev d).done = true ∨ (s.dev d).fsh = true → TimerStep devList s none { s with pc := .count i }
  | wake {s i} : s.pc = .sleepEvent i false → TimerStep devList s none { s with pc := .sleepEvent i true }
  | relock {s i d} : s.pc = .sleepEvent i true → devList[i]? = some d → (s.dev d).eventLock = none →
      TimerStep devList s none
        { s.setDev d { s.dev d with eventLock := some .timer } with pc := .test i }
  | count {s i d} : s.pc = .count i → devList[i]? = some d →
      TimerStep devList s none
        { s with fsh := if (s.dev d).fsh then s.fsh + 1 else s.fsh
                 event := s.event + 1
                 pc := .unlockEvent i }
  | unlockEvent {s i d} : s.pc = .unlockEvent i → devList[i]? = some d →
      TimerStep devList s none
        { s.setDev d { s.dev d with eventLock := none } with pc := .lockEvent (i + 1) }
  | tick {s} : s.pc = .tick → TimerStep devList s none { s with time := s.time + 1, pc := .lockTimer 0 }
  | lockTimer {s i d} : s.pc = .lockTimer i → devList[i]? = some d → (s.dev d).timerLock = none →
      TimerStep devList s none
        { s.setDev d { s.dev d with timerLock := some .timer } with pc := .clear i }
  | lockTimerEnd {s i} : s.pc = .lockTimer i → devList[i]? = none →
      TimerStep devList s none { s with pc := .exitTest }
  | clear {s i d} : s.pc = .clear i → devList[i]? = some d →
      TimerStep devList s none { s.setDev d { s.dev d with done := false } with pc := .signal i }
  | signal {s i d} : s.pc = .signal i → devList[i]? = some d →
      TimerStep devList s none
        { s.setDev d { s.dev d with pc := (s.dev d).pc.wake } with pc := .unlockTimer i }
  | unlockTimer {s i d} : s.pc = .unlockTimer i → devList[i]? = some d →
      TimerStep devList s none
        { s.setDev d { s.dev d with timerLock := none } with pc := .lockTimer (i + 1) }
  | exitTest {s} : s.pc = .exitTest →
      TimerStep devList s none { s with pc := if s.fsh = s.event then .ended else .top }
  | device {s d e v} : d ∈ devList → DevStep (s.dev d) e v →
      TimerStep devList s (e.map (DevEvent.at d))
        { s.setDev d v with pc := if (s.dev d).pc.signals then s.pc.wakeBy devList d else s.pc }
  | stopTimer {s} : (∀ d ∈ devList, (s.dev d).pc = .gone) →
      TimerStep devList s none { s with stop := true }

end

/-- `attach_event`: a new device goes to the head of `dev_list`. -/
def attachEvent {D : Type} (devList : List D) (d : D) : List D := d :: devList

/-- `dev_list` after `n` devices have been attached in order. -/
def devListOf (n : ℕ) : List (Fin n) := (List.finRange n).foldl attachEvent []

/-- The state in which `start_timer` creates the timer thread. -/
def TimerState.start (n : ℕ) : TimerState (Fin n) := ⟨0, false, .top, 0, 0, fun _ => .attached⟩

/-- The barrier over `n` devices attached before `start_timer`. -/
def timerSystem (n : ℕ) : Lts.System (TimerState (Fin n)) (Option (SlotEvent (Fin n))) where
  init s := s = .start n
  step := TimerStep (devListOf n)

/-! ## `dev_list` holds every device once -/

theorem foldl_attachEvent {D : Type} (l acc : List D) : l.foldl attachEvent acc = l.reverse ++ acc := by
  induction l generalizing acc with
  | nil => rfl
  | cons d l ih => rw [List.foldl_cons, ih, attachEvent, List.reverse_cons, List.append_assoc]; rfl

theorem devListOf_eq (n : ℕ) : devListOf n = (List.finRange n).reverse := by
  rw [devListOf, foldl_attachEvent, List.append_nil]

theorem mem_devListOf {n : ℕ} (d : Fin n) : d ∈ devListOf n := by
  rw [devListOf_eq, List.mem_reverse]; exact List.mem_finRange d

theorem nodup_devListOf (n : ℕ) : (devListOf n).Nodup := by
  rw [devListOf_eq, List.nodup_reverse]; exact List.nodup_finRange n

/-- A position determines its device, and the device its position. -/
theorem devListOf_inj {n : ℕ} {i j : ℕ} {d : Fin n} (hi : (devListOf n)[i]? = some d)
    (hj : (devListOf n)[j]? = some d) : i = j := by
  obtain ⟨hi', hid⟩ := List.getElem?_eq_some_iff.mp hi
  obtain ⟨hj', hjd⟩ := List.getElem?_eq_some_iff.mp hj
  exact (nodup_devListOf n).getElem_inj_iff.mp (hid.trans hjd.symm)

/-- One device of the list changes: what holds at its position afterwards, and goes on to hold at the others,
    holds at all of them. -/
theorem forall_setDev {n : ℕ} {s : TimerState (Fin n)} {P Q : ℕ → Dev → Prop} {i : ℕ} {d : Fin n} {v : Dev}
    (h : ∀ j d', (devListOf n)[j]? = some d' → P j (s.dev d')) (hd : (devListOf n)[i]? = some d)
    (hself : P i (s.dev d) → Q i v) (hother : ∀ j, j ≠ i → ∀ w, P j w → Q j w) :
    ∀ j d', (devListOf n)[j]? = some d' → Q j ((s.setDev d v).dev d') := by
  intro j d' hj
  by_cases hdd : d' = d
  · subst hdd
    obtain rfl := devListOf_inj hj hd
    simp only [TimerState.setDev, Function.update_self]
    exact hself (h j d' hj)
  · have hji : j ≠ i := by
      rintro rfl
      exact hdd (Option.some.inj (hj.symm.trans hd))
    simp only [TimerState.setDev, Function.update_of_ne hdd]
    exact hother j hji _ (h j d' hj)

end LamiaAtrium
