import LamiaAtrium.Lib.Runs
import LamiaAtrium.Os.Correctness.Deadline
import LamiaAtrium.Timer.Correctness.Moves

/-!
# `Os.Correctness.Effort` — no slot takes long

* `effort` is what the threads can still do in the current slot: each step of a thread lowers it, and what a signal
  adds for the sleeper it wakes, the one who signals has paid for. Only the tick of `_time` fills it up again.
* `slots_are_short`: the number of steps of any run is bounded by the slots that have passed, so no interleaving keeps
  `_time` from advancing. No fairness is assumed: the barrier stops a thread that is ahead.

The exception are the steps that are for nothing: a sleeper may wake without a signal, as `pthread_cond_wait` allows.
-/

namespace LamiaAtrium

/-! ## A thread between two slots -/

/-- The steps of `cpu_routine` up to the next `next_slot`; the last one of a round pays for the return to the top. -/
def CpuPc.effort : CpuPc → ℕ
  | .inSlot => 7
  | .top => 6
  | .getAfterFree => 5
  | .getAfterPut => 5
  | .check => 4
  | .run => 3
  | .slot => 2
  | .leaving => 2
  | .exited => 0

/-- The steps of `ld_routine`. -/
def LdPc.effort : LdPc → ℕ
  | .inSlot => 7
  | .inWaitSlot => 7
  | .top => 6
  | .waitTest => 5
  | .initMm => 4
  | .add => 3
  | .setDone => 3
  | .slot => 2
  | .waitSlot => 2
  | .leaving => 2
  | .exited => 0

/-- The steps of `next_slot` and `detach_event`, as long as `done` is set. The signal to the timer pays for three. -/
def DevPc.effort : DevPc → ℕ
  | .unlockTimer => 16
  | .out => 16
  | .lockEvent => 10
  | .setDone => 9
  | .signalEvent => 8
  | .unlockEvent => 4
  | .lockTimer => 3
  | .sleepTimer woken => if woken then 3 else 0
  | .testDone => 2
  | .waitDone => 1
  | .detachLock => 7
  | .setFsh => 6
  | .detachSignal => 5
  | .detachUnlock => 1
  | .gone => 0

/-- When `done` has been cleared, the thread returns and goes through its next round. -/
def Dev.effort (v : Dev) : ℕ := v.pc.effort + if v.pc.inSlot = true ∧ v.done = false then 15 else 0

/-- The steps of `timer_routine` up to `_time++`, with `k` devices. In the second loop, clearing `done` pays for the
    round of the device, and the signal for its waking. -/
def TimerPc.effort (k : ℕ) : TimerPc → ℕ
  | .lockTimer i => 22 * (k - i) + 4 * k + 4
  | .clear i => 22 * (k - i) + 4 * k + 3
  | .signal i => 22 * (k - i) + 4 * k - 13
  | .unlockTimer i => 22 * (k - i) + 4 * k - 17
  | .exitTest => 4 * k + 3
  | .top => 4 * k + 2
  | .lockEvent i => 4 * (k - i) + 1
  | .test i => 4 * (k - i)
  | .wait i => 4 * (k - i) - 1
  | .sleepEvent i woken => if woken then 4 * (k - i) + 1 else 4 * (k - i) - 2
  | .count i => 4 * (k - i) - 1
  | .unlockEvent i => 4 * (k - i) - 2
  | .tick => 0
  | .ended => 0

/-- What a tick adds, with `k` devices. -/
def tickEffort (k : ℕ) : ℕ := 26 * k + 5

/-- What a step of the barrier takes off at least: the label of a `next_slot` also pays for the round of its thread. -/
def toll {A : Type} (calls : A → Bool) : Option A → ℕ
  | none => 1
  | some e => if calls e then 6 else 0

def DevEvent.calls : DevEvent → Bool
  | .call => true
  | _ => false

def SlotEvent.calls {D : Type} : SlotEvent D → Bool
  | .call _ => true
  | _ => false

theorem toll_at {D : Type} (d : D) (e : Option DevEvent) :
    toll SlotEvent.calls (e.map (DevEvent.at d)) = toll DevEvent.calls e := by
  cases e with
  | none => rfl
  | some e => cases e <;> rfl

/-- **A step of a device** lowers its effort, unless it wakes up without a signal. -/
theorem devStep_effort {v v' : Dev} {e : Option DevEvent} (h : DevStep v e v') :
    (e = none ∧ v.pc = .sleepTimer false ∧ v' = { v with pc := .sleepTimer true }) ∨
      v'.effort + toll DevEvent.calls e + (if v.pc.signals then 3 else 0) ≤ v.effort := by
  cases h with
  | wake hpc => exact .inl ⟨rfl, hpc, rfl⟩
  | call hpc | ret hpc | detach hpc | lockEvent hpc _ | setDone hpc | signalEvent hpc | unlockEvent hpc
  | lockTimer hpc _ | busy hpc _ | wait hpc | relock hpc _ | detachLock hpc _ | setFsh hpc | detachSignal hpc
  | detachUnlock hpc =>
    right
    simp [Dev.effort, DevPc.effort, DevPc.inSlot, DevPc.signals, toll, DevEvent.calls, hpc] <;> omega
  | released hpc hdone =>
    right
    simp [Dev.effort, DevPc.effort, DevPc.inSlot, DevPc.signals, toll, hpc, hdone]

/-- The signal of the timer wakes the device, which has three steps more to do. -/
theorem effort_wake (v : Dev) : Dev.effort { v with pc := v.pc.wake } ≤ v.effort + 3 := by
  obtain ⟨done, -, -, -, pc, -, -⟩ := v
  cases pc with
  | sleepTimer woken => cases woken <;> simp [Dev.effort, DevPc.effort, DevPc.wake, DevPc.inSlot]; omega
  | _ => exact Nat.le_add_right _ 3

/-- Clearing `done` opens a round. -/
theorem effort_clear (v : Dev) : Dev.effort { v with done := false } ≤ v.effort + 15 := by
  unfold Dev.effort
  dsimp only
  split <;> omega

/-! ## The barrier -/

section

variable {k : ℕ} {s t : TimerState (Fin k)}

/-- What the timer and the devices can do in this slot. -/
def TimerState.effort (s : TimerState (Fin k)) : ℕ :=
  s.pc.effort k + (if s.stop then 0 else 1) + ∑ d, (s.dev d).effort

theorem sum_effort_setDev (s : TimerState (Fin k)) (d : Fin k) (v : Dev) :
    (∑ d', ((s.setDev d v).dev d').effort) + (s.dev d).effort = (∑ d', (s.dev d').effort) + v.effort := by
  have hfun : (fun d' => ((s.setDev d v).dev d').effort)
      = Function.update (fun d' => (s.dev d').effort) d v.effort := by
    funext d'
    by_cases hd : d' = d
    · subst hd
      simp [TimerState.setDev]
    · simp [TimerState.setDev, Function.update_of_ne hd]
  rw [hfun]
  exact sum_update_add _ _ _

/-- One device and the position of the timer change. -/
theorem effort_setDev (s : TimerState (Fin k)) (d : Fin k) (v : Dev) (pc : TimerPc) :
    TimerState.effort { s.setDev d v with pc := pc } + (s.pc.effort k + (s.dev d).effort)
      = s.effort + (pc.effort k + v.effort) := by
  have hsum := sum_effort_setDev s d v
  show pc.effort k + (if s.stop then 0 else 1) + (∑ d', ((s.setDev d v).dev d').effort) + _
    = s.pc.effort k + (if s.stop then 0 else 1) + (∑ d', (s.dev d').effort) + _
  omega

theorem effort_turn {d : Fin k} {v : Dev} {pc : TimerPc} {c : ℕ}
    (h : pc.effort k + v.effort + c ≤ s.pc.effort k + (s.dev d).effort) :
    TimerState.effort { s.setDev d v with pc := pc } + c ≤ s.effort := by
  have heq := effort_setDev s d v pc
  omega

/-- The signal of a device adds three steps to the timer at most. -/
theorem effort_wakeBy (d : Fin k) (pc : TimerPc) : (pc.wakeBy (devListOf k) d).effort k ≤ pc.effort k + 3 := by
  cases pc with
  | sleepEvent i woken =>
    simp only [TimerPc.wakeBy]
    split <;> cases woken <;> simp [TimerPc.effort]
    all_goals omega
  | _ => exact Nat.le_add_right _ 3

/-- **A step of the barrier** lowers the effort, unless it is for nothing or a tick. -/
theorem timerStep_effort {e : Option (SlotEvent (Fin k))} (h : TimerStep (devListOf k) s e t) :
    (e = none ∧ s.Spurious t) ∨
      t.effort + toll SlotEvent.calls e + tickEffort k * s.time ≤ s.effort + tickEffort k * t.time := by
  cases h with
  | wake hpc => exact .inl ⟨rfl, .inl ⟨_, hpc, rfl⟩⟩
  | stopTimer hgone =>
    cases hstop : s.stop with
    | true => exact .inl ⟨rfl, .inr (.inr ⟨hstop, by rw [← hstop]⟩)⟩
    | false =>
      right
      simp [TimerState.effort, toll, hstop]
  | round hpc _ | stopped hpc _ | lockTimerEnd hpc _ | lockEventEnd hpc _ =>
    right
    simp [TimerState.effort, TimerPc.effort, toll, hpc]
  | testFail hpc hd _ _ | testPass hpc hd _ | count hpc hd =>
    right
    have hi := pos_lt hd
    simp [TimerState.effort, TimerPc.effort, toll, hpc]
    omega
  | exitTest hpc =>
    right
    simp only [TimerState.effort, toll, hpc]
    split <;> simp [TimerPc.effort]
  | tick hpc =>
    right
    simp [TimerState.effort, TimerPc.effort, toll, tickEffort, hpc, Nat.mul_add]
    omega
  | lockEvent hpc hd _ | wait hpc hd | relock hpc hd _ | unlockEvent hpc hd | lockTimer hpc hd _
  | unlockTimer hpc hd =>
    -- only the lock of the device changes
    right
    have hi := pos_lt hd
    refine Nat.add_le_add_right (effort_turn ?_) _
    rw [hpc]
    show _ + (s.dev _).effort + 1 ≤ _
    simp only [TimerPc.effort, Bool.false_eq_true, if_true, if_false]
    omega
  | @clear i d hpc hd =>
    right
    have hi := pos_lt hd
    refine Nat.add_le_add_right (effort_turn ?_) _
    have hround := effort_clear (s.dev d)
    rw [hpc]
    simp only [TimerPc.effort, toll]
    omega
  | @signal i d hpc hd =>
    right
    have hi := pos_lt hd
    refine Nat.add_le_add_right (effort_turn ?_) _
    have hwake := effort_wake (s.dev d)
    rw [hpc]
    simp only [TimerPc.effort, toll]
    omega
  | @device d e v _ hdst =>
    rw [toll_at]
    rcases devStep_effort hdst with ⟨rfl, hpc, rfl⟩ | hdev
    · left
      rw [hpc]
      exact ⟨rfl, .inr (.inl ⟨d, hpc, rfl⟩)⟩
    · right
      refine Nat.add_le_add_right (effort_turn ?_) _
      by_cases hsig : (s.dev d).pc.signals = true
      · have hwake := effort_wakeBy d s.pc
        rw [if_pos hsig] at hdev ⊢
        omega
      · rw [if_neg hsig] at hdev ⊢
        omega

end

/-! ## The threads -/

section

variable {n : ℕ} {M : Type} {cfg : Config} {mach : Machine M}

/-- What the threads can do in this slot. -/
def OsState.effort (s : OsState n M) : ℕ := s.ld.effort + ∑ c, (s.cpu c).pc.effort

/-- Entering `next_slot` charges a thread with the way back to its loop. -/
def OsEvent.charge : OsEvent n → ℕ
  | .slot (.call _) => 6
  | _ => 0

theorem sum_effort_cpu {s t : OsState n M} (c : Fin n) (h : ∀ d, d ≠ c → t.cpu d = s.cpu d) :
    (∑ d, (t.cpu d).pc.effort) + (s.cpu c).pc.effort = (∑ d, (s.cpu d).pc.effort) + (t.cpu c).pc.effort := by
  have hfun : (fun d => (t.cpu d).pc.effort)
      = Function.update (fun d => (s.cpu d).pc.effort) c (t.cpu c).pc.effort := by
    funext d
    by_cases hd : d = c
    · subst hd
      rw [Function.update_self]
    · rw [Function.update_of_ne hd, h d hd]
  rw [hfun]
  exact sum_update_add _ _ _

theorem cpuStep_effort {s t : OsState n M} {c : Fin n} {e : OsEvent n} (h : CpuStep cfg mach s c e t) :
    (t.cpu c).pc.effort + 1 ≤ (s.cpu c).pc.effort + e.charge := by
  cases h with
  | getIdle hpc _ =>
    rw [cpu_setCpu_self, hpc]
    dsimp only
    split <;> simp [CpuPc.effort, OsEvent.charge]
  | reap hpc _ _ | getAfterFree hpc | put hpc _ _ _ _ | getAfterPut hpc | keep hpc _ _ _ | stop hpc _ _
  | idle hpc _ _ | dispatch hpc _ | run hpc _ _ | call hpc | ret hpc | detach hpc =>
    simp [CpuPc.effort, OsEvent.charge, hpc]

theorem ldStep_effort {now : ℕ} {s t : OsState n M} {e : OsEvent n} (h : LdStep cfg mach now s e t) :
    t.ld.effort + 1 ≤ s.ld.effort + e.charge := by
  cases h with
  | load hpc _ | allLoaded hpc _ | early hpc _ | onTime hpc _ | callWait hpc | retWait hpc | initMm hpc _
  | add hpc _ | call hpc | ret hpc | setDone hpc | detach hpc => simp [LdPc.effort, OsEvent.charge, hpc]

/-- **A step of a thread** lowers its effort, unless it enters `next_slot`. -/
theorem osStep_effort {now : ℕ} {s t : OsState n M} {e : OsEvent n} (h : OsStep cfg mach now s e t) :
    t.effort + 1 ≤ s.effort + e.charge := by
  unfold OsState.effort
  cases h with
  | @cpu c _ _ hc =>
    have hown := cpuStep_effort hc
    have hsum := sum_effort_cpu c fun d hd => hc.cpu_of_ne hd
    rw [hc.loader.2.1]
    omega
  | ld hl =>
    have hown := ldStep_effort hl
    have hsame : t.cpu = s.cpu := by cases hl <;> rfl
    rw [hsame]
    omega

/-! ## The simulator -/

/-- A step for nothing. -/
def BootState.Spurious (s t : BootState n M) : Prop := t.os = s.os ∧ s.timer.Spurious t.timer

/-- What everybody can do in this slot. -/
def BootState.effort (s : BootState n M) : ℕ := s.os.effort + s.timer.effort

/-- **A step of the simulator** lowers the effort, unless it is for nothing or a tick. -/
theorem bootStep_effort {s t : BootState n M} {l : Option (OsEvent n)} (h : BootStep cfg mach s l t)
    (hbusy : ¬ s.Spurious t) :
    t.effort + 1 + tickEffort (n + 1) * s.timer.time ≤ s.effort + tickEffort (n + 1) * t.timer.time := by
  unfold BootState.effort
  cases h with
  | @thread l u hl hos =>
    have hown := osStep_effort hos
    have hfree : l.charge = 0 := by
      cases l with
      | slot e => exact absurd rfl (hl e)
      | _ => rfl
    show u.effort + s.timer.effort + 1 + tickEffort (n + 1) * s.timer.time
      ≤ s.os.effort + s.timer.effort + tickEffort (n + 1) * s.timer.time
    omega
  | @timer u ht =>
    rcases timerStep_effort ht with ⟨-, hspurious⟩ | hown
    · exact absurd ⟨rfl, hspurious⟩ hbusy
    · have hone : toll SlotEvent.calls (none : Option (SlotEvent (Fin (n + 1)))) = 1 := rfl
      show s.os.effort + u.effort + 1 + tickEffort (n + 1) * s.timer.time
        ≤ s.os.effort + s.timer.effort + tickEffort (n + 1) * u.time
      omega
  | @slot e w u hos ht =>
    have hown := osStep_effort hos
    have hslot := (timerStep_effort ht).resolve_left fun hno => by simp at hno
    have hcharge : (OsEvent.slot e : OsEvent n).charge = toll SlotEvent.calls (some e) := by cases e <;> rfl
    show w.effort + u.effort + 1 + tickEffort (n + 1) * s.timer.time
      ≤ s.os.effort + s.timer.effort + tickEffort (n + 1) * u.time
    omega

/-- What a spurious step adds: the steps back to sleep. -/
theorem spurious_effort {s t : BootState n M} (h : s.Spurious t) :
    t.effort + tickEffort (n + 1) * s.timer.time ≤ s.effort + 3 + tickEffort (n + 1) * t.timer.time := by
  obtain ⟨hos, htimer⟩ := h
  unfold BootState.effort
  rw [hos]
  rcases htimer with ⟨i, hpc, ht⟩ | ⟨d, hpc, ht⟩ | ⟨-, ht⟩
  · rw [ht]
    simp [TimerState.effort, TimerPc.effort, hpc]
    omega
  · have hown : Dev.effort { s.timer.dev d with pc := .sleepTimer true } = (s.timer.dev d).effort + 3 := by
      simp [Dev.effort, DevPc.effort, DevPc.inSlot, hpc]
      omega
    have heq : (s.timer.setDev d { s.timer.dev d with pc := .sleepTimer true }).effort + _ = _ :=
      effort_setDev s.timer d { s.timer.dev d with pc := .sleepTimer true } s.timer.pc
    have htime : t.timer.time = s.timer.time := by rw [ht]; rfl
    rw [htime, ht]
    omega
  · rw [ht]
    omega

theorem effort_le (s : BootState n M) : s.effort ≤ 56 * n + 61 := by
  have hld : s.os.ld.effort ≤ 7 := by cases s.os.ld <;> simp [LdPc.effort]
  have hcpu : ∑ c, (s.os.cpu c).pc.effort ≤ n * 7 := by
    refine (Finset.sum_le_card_nsmul _ _ 7 fun c _ => ?_).trans (by simp)
    cases (s.os.cpu c).pc <;> simp [CpuPc.effort]
  have hdev : ∑ d, (s.timer.dev d).effort ≤ (n + 1) * 23 := by
    refine (Finset.sum_le_card_nsmul _ _ 23 fun d _ => ?_).trans (by simp)
    generalize s.timer.dev d = v
    obtain ⟨done, -, -, -, pc, -, -⟩ := v
    unfold Dev.effort
    cases pc with
    | sleepTimer woken => cases woken <;> simp [DevPc.effort, DevPc.inSlot] <;> split <;> omega
    | _ => simp [DevPc.effort, DevPc.inSlot] <;> split <;> omega
  have htimer : s.timer.pc.effort (n + 1) ≤ 26 * (n + 1) + 4 := by
    cases s.timer.pc with
    | sleepEvent i woken => cases woken <;> simp [TimerPc.effort] <;> omega
    | _ => simp [TimerPc.effort] <;> omega
  have hstop : (if s.timer.stop = true then 0 else 1) ≤ 1 := by split <;> omega
  unfold BootState.effort OsState.effort TimerState.effort
  omega

/-- The steps of a run are paid for. -/
theorem paid_for {s t : BootState cfg.numCpus M} {steps spurious : ℕ}
    (h : (bootSystem cfg mach).Counted BootState.Spurious s steps spurious t) :
    t.effort + steps + tickEffort (cfg.numCpus + 1) * s.timer.time
      ≤ s.effort + 3 * spurious + tickEffort (cfg.numCpus + 1) * t.timer.time :=
  h.le (fun _ _ _ hst hbusy => bootStep_effort hst hbusy) fun _ _ => spurious_effort

theorem tickEffort_eq (n : ℕ) : tickEffort (n + 1) = 26 * n + 31 := by
  unfold tickEffort
  omega

/-- **No slot takes long.** In every run of the simulator, whatever the configuration, the memory below the threads and
    the interleaving, the number of steps is bounded by the slots that pass: at most `26 * num_cpus + 31` for each, and
    `56 * num_cpus + 61` for the slot in which the run ends. Waking up without a signal costs three steps. -/
theorem slots_are_short (cfg : Config) (mach : Machine M) (s t : BootState cfg.numCpus M) (steps spurious : ℕ)
    (h : (bootSystem cfg mach).Counted BootState.Spurious s steps spurious t) :
    steps + (26 * cfg.numCpus + 31) * s.timer.time
      ≤ (26 * cfg.numCpus + 31) * t.timer.time + (56 * cfg.numCpus + 61) + 3 * spurious := by
  have hpaid := paid_for h
  have hstart := effort_le s
  rw [tickEffort_eq] at hpaid
  omega

end

/-- The run of `oneBoot_twice`: two slots pass. -/
theorem slots_are_short_two : ∃ (t : BootState oneProcess.numCpus Unit) (steps spurious : ℕ),
    (bootSystem oneProcess noMemory).Counted BootState.Spurious ⟨.start _ (), .start _⟩ steps spurious t ∧
      t.timer.time = 2 ∧
      steps + (26 * 1 + 31) * 0 ≤ (26 * 1 + 31) * t.timer.time + (56 * 1 + 61) + 3 * spurious := by
  obtain ⟨t, h, htime⟩ := oneBoot_twice
  obtain ⟨s, steps, spurious, ⟨⟨m, -, hos⟩, htimer⟩, hrun⟩ := h.of_guard.counted BootState.Spurious
  obtain rfl : s = ⟨.start _ (), .start _⟩ := by
    obtain ⟨os, timer⟩ := s
    dsimp only at hos htimer
    rw [hos, htimer]
  exact ⟨t, steps, spurious, hrun, htime, slots_are_short oneProcess noMemory _ _ steps spurious hrun⟩

end LamiaAtrium
