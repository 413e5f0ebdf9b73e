import LamiaAtrium.Os.Correctness.Places
import LamiaAtrium.Os.Correctness.Shutdown
import LamiaAtrium.Timer.Correctness.Lockstep

/-!
# `Os.Correctness.Completion` — what is left when every thread has stopped

`completion_at_shutdown`: when the loader and all CPUs have left their loops, the queues are empty and every
process has executed its code, once and in order.

A CPU stops on two separate reads, an empty `get_proc` and then `done`, and the loader may add a process in
between. The barrier makes that harmless: `done` is set at least one whole slot after the last `add`, and a
CPU that has seen the queues empty before that `add` cannot have passed the slot (`Stale`). The invariant
`SpentEmpty` says that the queues are empty whenever every CPU has seen them so and is not stale.
-/

namespace LamiaAtrium

open SchedState

variable {n : ℕ} {M : Type} {cfg : Config} {mach : Machine M}

/-! ## The threads alone -/

/-- After the loop of `ld_routine`. -/
def LdPc.loaded : LdPc → Bool
  | .setDone => true
  | .leaving => true
  | .exited => true
  | _ => false

/-- After `done = 1`. -/
def LdPc.left : LdPc → Bool
  | .leaving => true
  | .exited => true
  | _ => false

/-- **What the locals of the threads say about the statics.** -/
structure Orderly (cfg : Config) (s : OsState n M) : Prop where
  done_iff : s.done = s.ld.left
  loaded : s.ld.loaded = true → cfg.numProcesses ≤ s.i
  stopped : ∀ c, (s.cpu c).pc.left = true → s.done = true ∧ (s.cpu c).proc = none
  executed : ∀ x, s.executed x = (cfg.code x).take (s.procPc x)

/-- A CPU step leaves the loader's part of the state alone. -/
theorem CpuStep.loader {s t : OsState n M} {c : Fin n} {e : OsEvent n} (h : CpuStep cfg mach s c e t) :
    t.done = s.done ∧ t.ld = s.ld ∧ t.i = s.i := by
  cases h with
  | run _ _ hrun => cases hrun <;> exact ⟨rfl, rfl, rfl⟩
  | _ => exact ⟨rfl, rfl, rfl⟩

/-- `run` extends the list of executed instructions by the one at `pc`. -/
theorem Run.executed {s t : OsState n M} {x : ℕ} (h : Run cfg mach s x t)
    (hs : ∀ y, s.executed y = (cfg.code y).take (s.procPc y)) (y : ℕ) :
    t.executed y = (cfg.code y).take (t.procPc y) := by
  cases h with
  | atEnd _ => exact hs y
  | exec hins _ =>
    by_cases hy : y = x
    · subst hy
      simp only [Function.update_self]
      rw [hs, List.take_add_one, hins]
      rfl
    · simp only [Function.update_of_ne hy]
      exact hs y

theorem orderly_cpuStep {s t : OsState n M} {c : Fin n} {e : OsEvent n} (h : Orderly cfg s)
    (hc : CpuStep cfg mach s c e t) : Orderly cfg t := by
  obtain ⟨hdone, hld, hi⟩ := hc.loader
  refine ⟨by rw [hdone, hld]; exact h.done_iff, by rw [hld, hi]; exact h.loaded, ?_, ?_⟩
  · intro d hleft
    rw [hdone]
    by_cases hd : d = c
    · subst hd
      cases hc with
      | stop hpc hproc hset =>
        rw [cpu_setCpu_self]
        exact ⟨hset, hproc⟩
      | detach hpc =>
        rw [cpu_setCpu_self]
        exact h.stopped d (by rw [hpc]; rfl)
      | getIdle _ _ =>
        rw [cpu_setCpu_self] at hleft
        exfalso
        revert hleft
        dsimp only
        split <;> simp [CpuPc.left]
      | _ =>
        rw [cpu_setCpu_self] at hleft
        exact absurd hleft (by simp [CpuPc.left])
    · rw [hc.cpu_of_ne hd] at hleft ⊢
      exact h.stopped d hleft
  · intro x
    cases hc with
    | run _ _ hrun => exact hrun.executed h.executed x
    | _ => exact h.executed x

theorem orderly_ldStep {now : ℕ} {s t : OsState n M} {e : OsEvent n} (h : Orderly cfg s)
    (hl : LdStep cfg mach now s e t) : Orderly cfg t := by
  have hdone := h.done_iff
  cases hl with
  | allLoaded hpc hend =>
    rw [hpc] at hdone
    exact ⟨hdone, fun _ => Nat.not_lt.mp hend, h.stopped, h.executed⟩
  | setDone hpc =>
    exact ⟨rfl, fun _ => h.loaded (by rw [hpc]; rfl), fun c hleft => ⟨rfl, (h.stopped c hleft).2⟩,
      h.executed⟩
  | detach hpc =>
    rw [hpc] at hdone
    exact ⟨hdone, fun _ => h.loaded (by rw [hpc]; rfl), h.stopped, h.executed⟩
  | load hpc _ | early hpc _ | onTime hpc _ | callWait hpc | retWait hpc | initMm hpc _ | add hpc _
  | call hpc | ret hpc =>
    rw [hpc] at hdone
    exact ⟨hdone, fun hc => absurd hc (by simp [LdPc.loaded]), h.stopped, h.executed⟩

theorem orderly_of_reachable {s : OsState cfg.numCpus M} (h : (osSystem cfg mach).Reachable s) :
    Orderly cfg s := by
  refine h.invariant ?_ ?_
  · rintro s ⟨m, -, rfl⟩
    refine ⟨rfl, fun hc => absurd hc (by simp [OsState.start, LdPc.loaded]), ?_, fun x => rfl⟩
    intro c hc
    exact absurd hc (by simp [OsState.start, CpuPc.left])
  · rintro s e t hs ⟨now, hst⟩
    cases hst with
    | cpu hc => exact orderly_cpuStep hs hc
    | ld hl => exact orderly_ldStep hs hl

/-! ## The threads on the barrier -/

/-- Where a thread is with respect to the timer. -/
inductive ThreadPhase where
  | out        -- outside every timer call
  | slot       -- inside `next_slot`
  | detached   -- inside `detach_event`, or past it
deriving DecidableEq

def CpuPc.phase : CpuPc → ThreadPhase
  | .inSlot => .slot
  | .exited => .detached
  | _ => .out

def LdPc.phase : LdPc → ThreadPhase
  | .inWaitSlot => .slot
  | .inSlot => .slot
  | .exited => .detached
  | _ => .out

def DevPc.phase : DevPc → ThreadPhase
  | .out => .out
  | .detachLock => .detached
  | .setFsh => .detached
  | .detachSignal => .detached
  | .detachUnlock => .detached
  | .gone => .detached
  | _ => .slot

/-- The phase of a thread, by its device. -/
def OsState.phase (s : OsState n M) (d : Fin (n + 1)) : ThreadPhase :=
  Fin.lastCases s.ld.phase (fun c => (s.cpu c).pc.phase) d

@[simp] theorem phase_ldDev (s : OsState n M) : s.phase ldDev = s.ld.phase := Fin.lastCases_last

@[simp] theorem phase_cpuDev (s : OsState n M) (c : Fin n) : s.phase (cpuDev c) = (s.cpu c).pc.phase :=
  Fin.lastCases_castSucc c

theorem cpuDev_ne_ldDev (c : Fin n) : cpuDev c ≠ ldDev := (Fin.castSucc_lt_last c).ne

/-- What a timer call does to the phase of device `d`. -/
def SlotEvent.phaseAfter {D : Type} [DecidableEq D] (d : D) (old : ThreadPhase) : SlotEvent D → ThreadPhase
  | .call d' => if d = d' then .slot else old
  | .ret d' => if d = d' then .out else old
  | .detach d' => if d = d' then .detached else old

/-- What a step of a thread does to the phase of device `d`. -/
def OsEvent.phaseAfter (d : Fin (n + 1)) (old : ThreadPhase) : OsEvent n → ThreadPhase
  | .slot e => e.phaseAfter d old
  | _ => old

/-- **The phases of the threads change at timer calls only.** -/
theorem OsStep.phase {now : ℕ} {s t : OsState n M} {e : OsEvent n} (h : OsStep cfg mach now s e t)
    (d : Fin (n + 1)) : t.phase d = e.phaseAfter d (s.phase d) := by
  cases h with
  | @cpu c e t hc =>
    have hsame : d ≠ cpuDev c → t.phase d = s.phase d := by
      intro hd
      induction d using Fin.lastCases with
      | last =>
        show t.phase ldDev = s.phase ldDev
        rw [phase_ldDev, phase_ldDev, hc.loader.2.1]
      | cast c' =>
        show t.phase (cpuDev c') = s.phase (cpuDev c')
        rw [phase_cpuDev, phase_cpuDev, hc.cpu_of_ne (fun hcc => hd (by rw [hcc]; rfl))]
    by_cases hd : d = cpuDev c
    · subst hd
      rw [phase_cpuDev, phase_cpuDev]
      cases hc with
      | getIdle hpc _ =>
        rw [cpu_setCpu_self, hpc]
        dsimp only
        split <;> rfl
      | call hpc | ret hpc | detach hpc =>
        rw [cpu_setCpu_self]
        exact (if_pos rfl).symm
      | reap hpc _ _ | getAfterFree hpc | put hpc _ _ _ _ | getAfterPut hpc | keep hpc _ _ _ | stop hpc _ _
      | idle hpc _ _ | dispatch hpc _ | run hpc _ _ =>
        rw [cpu_setCpu_self, hpc]
        rfl
    · rw [hsame hd]
      cases hc with
      | call _ | ret _ | detach _ => exact (if_neg hd).symm
      | _ => rfl
  | ld hl =>
    induction d using Fin.lastCases with
    | last =>
      show OsState.phase _ ldDev = OsEvent.phaseAfter ldDev (OsState.phase s ldDev) _
      rw [phase_ldDev, phase_ldDev]
      cases hl with
      | callWait hpc | retWait hpc | call hpc | ret hpc | detach hpc => exact (if_pos rfl).symm
      | load hpc _ | allLoaded hpc _ | early hpc _ | onTime hpc _ | initMm hpc _ | add hpc _ | setDone hpc =>
        rw [hpc]
        rfl
    | cast c =>
      show OsState.phase _ (cpuDev c) = OsEvent.phaseAfter (cpuDev c) (OsState.phase s (cpuDev c)) _
      rw [phase_cpuDev, phase_cpuDev]
      cases hl with
      | callWait hpc | retWait hpc | call hpc | ret hpc | detach hpc =>
        exact (if_neg (cpuDev_ne_ldDev c)).symm
      | _ => rfl

/-- Slots the thread of a device has entered, counting one it is about to enter. -/
def Dev.round (v : Dev) : ℕ :=
  v.entered + match v.pc with
    | .out => 1
    | .lockEvent => 1
    | .setDone => 1
    | _ => 0

/-- What a step of the barrier does to device `d`: its phase follows the label, and the count of the slots
    changes at the end of `next_slot` only. -/
structure DevMoves {D : Type} [DecidableEq D] (e : Option (SlotEvent D)) (d : D) (v w : Dev) : Prop where
  phase : w.pc.phase = match e with
    | none => v.pc.phase
    | some e => e.phaseAfter d v.pc.phase
  round : e ≠ some (.ret d) → w.pc.phase ≠ .detached → w.round = v.round
  entered : v.pc.phase = .out → w.entered = v.entered

theorem DevMoves.refl {D : Type} [DecidableEq D] (d : D) (v : Dev) : DevMoves none d v v :=
  ⟨rfl, fun _ _ => rfl, fun _ => rfl⟩

theorem devMoves_of_devStep {D : Type} [DecidableEq D] {d : D} {v w : Dev} {e : Option DevEvent}
    (h : DevStep v e w) : DevMoves (e.map (DevEvent.at d)) d v w := by
  cases h with
  | call hpc =>
    refine ⟨(if_pos rfl).symm, fun _ _ => ?_, fun _ => rfl⟩
    simp only [Dev.round, hpc]
  | ret hpc =>
    refine ⟨(if_pos rfl).symm, fun hne _ => absurd rfl hne, fun _ => rfl⟩
  | detach hpc =>
    exact ⟨(if_pos rfl).symm, fun _ hne => absurd rfl hne, fun _ => rfl⟩
  | setDone hpc =>
    refine ⟨by rw [hpc]; rfl, fun _ _ => ?_, fun hout => ?_⟩
    · simp only [Dev.round, hpc]
    · rw [hpc] at hout
      exact absurd hout (by simp [DevPc.phase])
  | lockEvent hpc _ | signalEvent hpc | unlockEvent hpc | lockTimer hpc _ | busy hpc _ | wait hpc | wake hpc
  | relock hpc _ | released hpc _ | detachLock hpc _ | setFsh hpc | detachSignal hpc | detachUnlock hpc =>
    refine ⟨by rw [hpc]; rfl, fun _ _ => ?_, fun _ => rfl⟩
    simp only [Dev.round, hpc]

theorem phase_wake (pc : DevPc) : pc.wake.phase = pc.phase := by cases pc <;> rfl

theorem round_wake (v : Dev) : Dev.round { v with pc := v.pc.wake } = v.round := by
  obtain ⟨_, _, _, _, pc, _, _⟩ := v
  cases pc <;> rfl

/-- A step of the barrier, seen from device `d`. -/
theorem devMoves_of_timerStep {D : Type} [DecidableEq D] {devList : List D} {s t : TimerState D}
    {e : Option (SlotEvent D)} (h : TimerStep devList s e t) (d : D) : DevMoves e d (s.dev d) (t.dev d) := by
  -- the timer only touches locks and flags of the device it is at, or wakes it
  have hset : ∀ {d' : D} {v : Dev}, v.pc.phase = (s.dev d').pc.phase → v.round = (s.dev d').round →
      v.entered = (s.dev d').entered → DevMoves none d (s.dev d) ((s.setDev d' v).dev d) := by
    intro d' v hphase hround hentered
    by_cases hd : d = d'
    · subst hd
      simp only [TimerState.setDev, Function.update_self]
      exact ⟨hphase, fun _ _ => hround, fun _ => hentered⟩
    · simp only [TimerState.setDev, Function.update_of_ne hd]
      exact .refl d _
  cases h with
  | lockEvent _ _ _ | wait _ _ | relock _ _ _ | unlockEvent _ _ | lockTimer _ _ _ | clear _ _
  | unlockTimer _ _ => exact hset rfl rfl rfl
  | signal _ _ =>
    exact hset (phase_wake _) (round_wake _) rfl
  | round _ _ | stopped _ _ | lockEventEnd _ _ | testFail _ _ _ _ | testPass _ _ _ | wake _ | count _ _ | tick _
  | lockTimerEnd _ _ | exitTest _ | stopTimer _ => exact .refl d _
  | @device d' e v _ hdst =>
    by_cases hd : d = d'
    · subst hd
      simp only [TimerState.setDev, Function.update_self]
      exact devMoves_of_devStep hdst
    · simp only [TimerState.setDev, Function.update_of_ne hd]
      refine ⟨?_, fun _ _ => rfl, fun _ => rfl⟩
      cases e with
      | none => rfl
      | some e => cases e <;> exact (if_neg hd).symm

/-- **Threads and devices agree** on who is inside a timer call. -/
def Synced (s : BootState n M) : Prop := ∀ d, s.os.phase d = (s.timer.dev d).pc.phase

theorem synced_of_reachable {s : BootState cfg.numCpus M} (h : (bootSystem cfg mach).Reachable s) :
    Synced s := by
  refine h.invariant ?_ ?_
  · rintro s ⟨⟨m, -, hos⟩, htimer⟩ d
    rw [hos, htimer]
    induction d using Fin.lastCases with
    | last => exact phase_ldDev _
    | cast c => exact phase_cpuDev _ c
  · rintro s l t hs hst d
    cases hst with
    | thread hl hos =>
      show OsState.phase _ d = _
      rw [hos.phase d, ← hs d]
      cases ‹OsEvent _› with
      | slot e => exact absurd rfl (hl e)
      | _ => rfl
    | timer ht =>
      rw [(devMoves_of_timerStep ht d).phase]
      exact hs d
    | slot hos ht =>
      show OsState.phase _ d = _
      rw [(devMoves_of_timerStep ht d).phase, hos.phase d, hs d]
      rfl

/-! ## Nobody is stranded -/

/-- The loader has added a process and has not passed the slot after it. -/
def LdPc.adding : LdPc → Bool
  | .slot => true
  | .inSlot => true
  | _ => false

/-- CPU `c` has not entered the slot that the loader enters after its last `add`. -/
def Stale (s : BootState n M) (c : Fin n) : Prop :=
  s.os.ld.adding = true ∧ (s.timer.dev (cpuDev c)).entered < (s.timer.dev ldDev).round

/-- CPU `c` has stopped, or has seen the queues empty after the loader's last `add`. -/
def Spent (s : BootState n M) (c : Fin n) : Prop :=
  (s.os.cpu c).pc.left = true ∨ ((s.os.cpu c).pc = .check ∧ (s.os.cpu c).proc = none ∧ ¬ Stale s c)

/-- **The invariant**: when every CPU is spent, nothing is queued. -/
def SpentEmpty (s : BootState n M) : Prop := (∀ c, Spent s c) → ∀ p, s.os.sched.ready p = []

theorem SpentEmpty.of_back {s t : BootState n M} (h : SpentEmpty s)
    (hsched : t.os.sched = s.os.sched) (hback : ∀ c, Spent t c → Spent s c) : SpentEmpty t := by
  intro hall
  rw [hsched]
  exact h fun c => hback c (hall c)

/-- A stale CPU outside the timer stays stale while the loader does not leave its slot. -/
theorem Stale.step {s t : BootState n M} {c : Fin n} {e : Option (SlotEvent (Fin (n + 1)))} (h : Stale s c)
    (hmove : ∀ d, DevMoves e d (s.timer.dev d) (t.timer.dev d)) (hs : Synced s) (ht : Synced t)
    (hout : (s.os.cpu c).pc.phase = .out) (hld : t.os.ld.adding = true) (he : e ≠ some (.ret ldDev)) :
    Stale t c := by
  refine ⟨hld, ?_⟩
  have hphase : (s.timer.dev (cpuDev c)).pc.phase = .out := by rw [← hs, phase_cpuDev, hout]
  have hon : (t.timer.dev ldDev).pc.phase ≠ .detached := by
    rw [← ht, phase_ldDev]
    revert hld
    cases t.os.ld <;> simp [LdPc.adding, LdPc.phase]
  rw [(hmove (cpuDev c)).entered hphase, (hmove ldDev).round he hon]
  exact h.2

/-- A CPU that is not touched by a step is spent afterwards only if it was before. -/
theorem Spent.back {s t : BootState n M} {c : Fin n} (h : Spent t c) (hcpu : t.os.cpu c = s.os.cpu c)
    (hstale : (s.os.cpu c).pc = .check → Stale s c → Stale t c) : Spent s c := by
  rcases h with hleft | ⟨hpc, hproc, hfresh⟩
  · rw [hcpu] at hleft
    exact .inl hleft
  · rw [hcpu] at hpc hproc
    exact .inr ⟨hpc, hproc, fun hs => hfresh (hstale hpc hs)⟩

theorem not_stale {s : BootState n M} {c : Fin n} (h : s.os.ld.adding = false) : ¬ Stale s c := by
  rintro ⟨hadd, -⟩
  rw [h] at hadd
  exact absurd hadd (by simp)

/-- A CPU elsewhere in its loop is not spent. -/
theorem not_spent {s : BootState n M} {c : Fin n} {v : Cpu} (hv : s.os.cpu c = v) (hleft : v.pc.left = false)
    (hcheck : v.pc ≠ .check) : ¬ Spent s c := by
  rintro (h | ⟨h, -, -⟩)
  · rw [hv, hleft] at h
    cases h
  · rw [hv] at h
    exact hcheck h

/-- A scheduler, flag or instruction step of a CPU. -/
theorem spentEmpty_cpuStep {s : BootState n M} {c : Fin n} {e : OsEvent n} {u : OsState n M}
    (h : SpentEmpty s) (hord : Orderly cfg s.os) (hi : s.os.sched.mlqInited = true)
    (hst : CpuStep cfg mach s.os c e u) (hslot : ∀ f, e ≠ .slot f) : SpentEmpty ⟨u, s.timer⟩ := by
  have hother : ∀ d, d ≠ c → Spent ⟨u, s.timer⟩ d → Spent s d := by
    intro d hd hsp
    refine hsp.back (hst.cpu_of_ne hd) fun _ hstale => ?_
    refine ⟨?_, hstale.2⟩
    rw [show (BootState.mk u s.timer).os.ld = s.os.ld from hst.loader.2.1]
    exact hstale.1
  -- the CPU itself: it is spent after the step only if the queues are empty, or if it was spent before
  have hself : Spent ⟨u, s.timer⟩ c →
      (∀ p, u.sched.ready p = []) ∨ (u.sched = s.os.sched ∧ Spent s c) := by
    intro hsp
    cases hst with
    | getAfterFree hpc | getAfterPut hpc =>
      left
      rcases getMlqProc_cases cfg.prio hi with ⟨hempty, heq⟩ | ⟨p, x, t, heq, -⟩
      · show ∀ p, SchedState.ready (s.os.sched.getMlqProc cfg.prio).2 p = []
        rw [heq]
        exact hempty
      · exfalso
        rcases hsp with hleft | ⟨-, hproc, -⟩
        · rw [cpu_setCpu_self] at hleft
          exact absurd hleft (by simp [CpuPc.left])
        · rw [cpu_setCpu_self, heq] at hproc
          exact absurd hproc (by simp)
    | stop hpc hproc hdone =>
      right
      refine ⟨rfl, .inr ⟨hpc, hproc, not_stale ?_⟩⟩
      have hld := hord.done_iff
      rw [hdone] at hld
      revert hld
      cases s.os.ld <;> simp [LdPc.left, LdPc.adding]
    | keep hpc hproc _ _ =>
      exfalso
      rcases hsp with hleft | ⟨-, hnone, -⟩
      · rw [cpu_setCpu_self] at hleft
        exact absurd hleft (by simp [CpuPc.left])
      · rw [cpu_setCpu_self] at hnone
        exact absurd (hproc.symm.trans hnone) (by simp)
    | getIdle hpc hproc =>
      exfalso
      rcases hsp with hleft | ⟨hck, hnone, -⟩
      · rw [cpu_setCpu_self] at hleft
        revert hleft
        dsimp only
        split <;> simp [CpuPc.left]
      · rw [cpu_setCpu_self] at hck hnone
        dsimp only at hck hnone
        rw [hnone] at hck
        exact absurd hck (by simp)
    | call _ | ret _ | detach _ => exact absurd rfl (hslot _)
    | reap _ _ _ | put _ _ _ _ _ | idle _ _ _ | dispatch _ _ | run _ _ _ =>
      exact absurd hsp (not_spent (cpu_setCpu_self ..) rfl nofun)
  intro hall
  rcases hself (hall c) with hempty | ⟨hsched, hsp⟩
  · exact hempty
  · show ∀ p, u.sched.ready p = []
    rw [hsched]
    refine h fun d => ?_
    by_cases hd : d = c
    · subst hd
      exact hsp
    · exact hother d hd (hall d)

/-- The loader's `add` makes every CPU outside the timer stale. -/
theorem stale_of_add {s : BootState n M} {c : Fin n} {u : OsState n M} (hsync : Synced s)
    (hlock : Lockstep s.timer) (hld : s.os.ld = .add) (huld : u.ld = .slot)
    (hout : (s.os.cpu c).pc.phase = .out) : Stale ⟨u, s.timer⟩ c := by
  refine ⟨by rw [show (BootState.mk u s.timer).os.ld = u.ld from rfl, huld]; rfl, ?_⟩
  have hc : (s.timer.dev (cpuDev c)).pc.phase = .out := by rw [← hsync, phase_cpuDev, hout]
  have hl : (s.timer.dev ldDev).pc = .out := by
    have hphase : (s.timer.dev ldDev).pc.phase = .out := by rw [← hsync, phase_ldDev, hld]; rfl
    revert hphase
    cases (s.timer.dev ldDev).pc <;> simp [DevPc.phase]
  -- outside a slot the CPU has entered as often as it has returned, so at most `_time` times
  have hin : (s.timer.dev (cpuDev c)).pc.inSlot = false := by
    revert hc
    cases (s.timer.dev (cpuDev c)).pc <;> simp [DevPc.phase, DevPc.inSlot]
  have hslots := hlock.slots (cpuDev c)
  rw [hin] at hslots
  have hret := hlock.returned (cpuDev c)
  have hent := hlock.entered ldDev (hlock.not_fsh ldDev (by rw [hl]; rfl))
  have hround : (s.timer.dev ldDev).round = (s.timer.dev ldDev).entered + 1 := by simp only [Dev.round, hl]
  show (s.timer.dev (cpuDev c)).entered < (s.timer.dev ldDev).round
  rw [hround, hslots]
  simp only [Bool.false_eq_true, if_false, Nat.add_zero]
  omega

/-- When the loader comes back from a slot, every CPU that is still attached has entered that slot. -/
theorem not_stale_of_ret {s : BootState n M} {c : Fin n} (hsync : Synced s) (hlock : Lockstep s.timer)
    (hl : (s.timer.dev ldDev).pc = .unlockTimer) (hout : (s.os.cpu c).pc.phase = .out) : ¬ Stale s c := by
  rintro ⟨-, hlt⟩
  have hc : (s.timer.dev (cpuDev c)).pc.phase = .out := by rw [← hsync, phase_cpuDev, hout]
  have hdet : (s.timer.dev (cpuDev c)).pc.detached = false := by
    revert hc
    cases (s.timer.dev (cpuDev c)).pc <;> simp [DevPc.phase, DevPc.detached]
  have hent := hlock.entered (cpuDev c) (hlock.not_fsh _ hdet)
  have hret := hlock.returned ldDev
  have hslots := hlock.slots ldDev
  rw [hl] at hslots
  have hround : (s.timer.dev ldDev).round = (s.timer.dev ldDev).entered := by simp only [Dev.round, hl]; rfl
  rw [hround, hslots] at hlt
  simp only [DevPc.inSlot, Bool.false_eq_true, if_false, Nat.add_zero] at hlt
  omega

/-- A step of the loader outside the timer. -/
theorem spentEmpty_ldStep {s : BootState n M} {now : ℕ} {e : OsEvent n} {u : OsState n M} (hn : 0 < n)
    (h : SpentEmpty s) (hord : Orderly cfg s.os) (hsync : Synced s) (hlock : Lockstep s.timer)
    (hst : LdStep cfg mach now s.os e u) (hslot : ∀ f, e ≠ .slot f) : SpentEmpty ⟨u, s.timer⟩ := by
  cases hst with
  | add hpc _ =>
    -- nobody is spent right after an `add`
    intro hall
    exfalso
    rcases hall ⟨0, hn⟩ with hleft | ⟨hck, -, hfresh⟩
    · have hdone := (hord.stopped _ hleft).1
      rw [hord.done_iff, hpc] at hdone
      exact absurd hdone (by simp [LdPc.left])
    · exact hfresh (stale_of_add hsync hlock hpc rfl (by rw [hck]; rfl))
  | callWait _ | retWait _ | call _ | ret _ | detach _ => exact absurd rfl (hslot _)
  | load hpc _ | allLoaded hpc _ | early hpc _ | onTime hpc _ | initMm hpc _ | setDone hpc =>
    refine h.of_back rfl fun c hsp => hsp.back rfl fun _ hstale => ?_
    exact absurd hstale (not_stale (by rw [hpc]; rfl))

/-- A CPU enters or leaves a timer call. -/
theorem spentEmpty_cpuSlot {s : BootState n M} {u : OsState n M} {w : TimerState (Fin (n + 1))} {c : Fin n}
    {e : SlotEvent (Fin (n + 1))} (h : SpentEmpty s) (hs : Synced s) (ht : Synced ⟨u, w⟩)
    (hst : CpuStep cfg mach s.os c (.slot e) u)
    (hmove : ∀ d, DevMoves (some e) d (s.timer.dev d) (w.dev d)) : SpentEmpty ⟨u, w⟩ := by
  have hsched : u.sched = s.os.sched := by cases hst <;> rfl
  refine h.of_back hsched fun d hsp => ?_
  by_cases hd : d = c
  · subst hd
    cases hst with
    | call _ | ret _ =>
      exact absurd hsp (not_spent (cpu_setCpu_self ..) rfl nofun)
    | detach hpc => exact .inl (by rw [hpc]; rfl)
  · refine hsp.back (hst.cpu_of_ne hd) fun hck hstale => ?_
    refine hstale.step hmove hs ht (by rw [hck]; rfl) ?_ ?_
    · rw [show (BootState.mk u w).os.ld = s.os.ld from hst.loader.2.1]
      exact hstale.1
    · rintro he
      cases hst with
      | ret _ => exact cpuDev_ne_ldDev c (by simpa using he)
      | _ => exact absurd he (by simp)

/-- The loader enters or leaves a timer call. -/
theorem spentEmpty_ldSlot {s : BootState n M} {now : ℕ} {u : OsState n M} {w : TimerState (Fin (n + 1))}
    {e : SlotEvent (Fin (n + 1))} (h : SpentEmpty s) (hs : Synced s) (ht : Synced ⟨u, w⟩)
    (hlock : Lockstep s.timer) (hst : LdStep cfg mach now s.os (.slot e) u)
    (htimer : TimerStep (devListOf (n + 1)) s.timer (some e) w) : SpentEmpty ⟨u, w⟩ := by
  have hmove := devMoves_of_timerStep htimer
  cases hst with
  | callWait hpc | retWait hpc | detach hpc =>
    refine h.of_back rfl fun c hsp => hsp.back rfl fun _ hstale => ?_
    exact absurd hstale (not_stale (by rw [hpc]; rfl))
  | call hpc =>
    refine h.of_back rfl fun c hsp => hsp.back rfl fun hck hstale => ?_
    exact hstale.step hmove hs ht (by rw [hck]; rfl) rfl (by simp)
  | ret hpc =>
    have hl : (s.timer.dev ldDev).pc = .unlockTimer := by
      generalize hev : some (SlotEvent.ret ldDev) = ev at htimer
      cases htimer with
      | @device d e v _ hdst =>
        cases hdst with
        | ret hret =>
          obtain rfl : ldDev = d := by simpa [DevEvent.at] using hev
          exact hret
        | _ => exact absurd hev (by simp [DevEvent.at])
      | _ => exact absurd hev (by simp)
    refine h.of_back rfl fun c hsp => hsp.back rfl fun hck hstale => ?_
    exact absurd hstale (not_stale_of_ret hs hlock hl (by rw [hck]; rfl))

/-- No step enqueues on a full level. -/
def BootRoom (cfg : Config) (s : BootState n M) (l : Option (OsEvent n)) : Prop :=
  ∀ e, l = some e → RoomToEnqueue cfg s.os e

theorem spentEmpty_of_reachable (hn : 0 < cfg.numCpus) {s : BootState cfg.numCpus M}
    (h : (bootSystem cfg mach).Reachable s) : SpentEmpty s := by
  induction h with
  | init hs =>
    obtain ⟨⟨m, -, hos⟩, -⟩ := hs
    intro _ p
    rw [hos]
    rfl
  | @step s l t hr hst ih =>
    have hos := osReachable_of_boot hr
    have hsync := synced_of_reachable hr
    have hlock := lockstep_of_reachable (timerReachable_of_boot hr)
    have htsync : Synced t := synced_of_reachable (hr.step hst)
    cases hst with
    | thread hl hstep =>
      cases hstep with
      | cpu hc => exact spentEmpty_cpuStep ih (orderly_of_reachable hos) (inited_of_reachable hos) hc hl
      | ld hld => exact spentEmpty_ldStep hn ih (orderly_of_reachable hos) hsync hlock hld hl
    | timer ht =>
      refine ih.of_back rfl fun c hsp => hsp.back rfl fun hck hstale => ?_
      exact hstale.step (devMoves_of_timerStep ht) hsync htsync (by rw [hck]; rfl) hstale.1 (by simp)
    | slot hstep ht =>
      cases hstep with
      | cpu hc => exact spentEmpty_cpuSlot ih hsync htsync hc (devMoves_of_timerStep ht)
      | ld hld => exact spentEmpty_ldSlot ih hsync htsync hlock hld ht

/-- A run of the simulator that has room for every `enqueue` is such a run of its threads. -/
theorem osGuarded_of_boot {s : BootState cfg.numCpus M}
    (h : ((bootSystem cfg mach).guard (BootRoom cfg)).Reachable s) :
    ((osSystem cfg mach).guard (RoomToEnqueue cfg)).Reachable s.os := by
  induction h with
  | init hs => exact .init hs.1
  | step _ hst ih =>
    obtain ⟨hst, hroom⟩ := hst
    cases hst with
    | thread _ hos => exact .step ih ⟨⟨_, hos⟩, hroom _ rfl⟩
    | timer _ => exact ih
    | slot hos _ => exact .step ih ⟨⟨_, hos⟩, hroom _ rfl⟩

/-- **Completion at shutdown.** When the loader and all CPUs have left their loops, all ready queues are
    empty, and every process is at the end of its code and has executed exactly that code, in order. -/
theorem completion_at_shutdown (hn : 0 < cfg.numCpus) {s : BootState cfg.numCpus M}
    (h : ((bootSystem cfg mach).guard (BootRoom cfg)).Reachable s) (hld : s.os.ld.left = true)
    (hcpu : ∀ c, (s.os.cpu c).pc.left = true) :
    (∀ p, s.os.sched.ready p = []) ∧
      ∀ x < cfg.numProcesses, s.os.procPc x = (cfg.code x).length ∧ s.os.executed x = cfg.code x := by
  have hos := osReachable_of_boot h.of_guard
  have hord := orderly_of_reachable hos
  have hempty : ∀ p, s.os.sched.ready p = [] :=
    spentEmpty_of_reachable hn h.of_guard fun c => .inl (hcpu c)
  refine ⟨hempty, ?_⟩
  intro x hx
  have hloaded : cfg.numProcesses ≤ s.os.i := by
    refine hord.loaded ?_
    revert hld
    cases s.os.ld <;> simp [LdPc.left, LdPc.loaded]
  -- the process is not queued and not held, so it has been reaped
  have hplace := places_eq (osGuarded_of_boot h) x
  rw [if_pos (hx.trans_le hloaded)] at hplace
  have hready : s.os.sched.readyCount x = 0 := by
    refine Finset.sum_eq_zero fun p _ => ?_
    rw [hempty p]
    rfl
  have hheld : s.os.heldCount x = 0 := by
    refine Finset.sum_eq_zero fun c _ => ?_
    have hnone : (s.os.cpu c).held = none := by
      unfold Cpu.held
      rw [(hord.stopped c (hcpu c)).2]
      split <;> rfl
    rw [hnone]
    rfl
  have hreaped : x ∈ s.os.reaped := by
    rw [OsState.places, hready, hheld] at hplace
    exact List.count_pos_iff.mp (by omega)
  have hend := reaped_atEnd hos x hreaped
  refine ⟨hend, ?_⟩
  rw [hord.executed x, hend, List.take_length]

/-! ### A run that ends -/

/-- The simulator of `oneProcess`, along runs with room for every `enqueue`. -/
abbrev oneBoot : Lts.System (BootState oneProcess.numCpus Unit) (Option (OsEvent oneProcess.numCpus)) :=
  (bootSystem oneProcess noMemory).guard (BootRoom oneProcess)

section

variable {s : BootState oneProcess.numCpus Unit}

/-- The CPU of `oneProcess`. -/
def onlyCpu : Fin oneProcess.numCpus := ⟨0, Nat.one_pos⟩

theorem oneBoot_thread (h : oneBoot.Reachable s) {l : OsEvent oneProcess.numCpus} {t}
    (hl : ∀ e, l ≠ .slot e) (hst : OsStep oneProcess noMemory s.timer.time s.os l t)
    (hroom : RoomToEnqueue oneProcess s.os l) : oneBoot.Reachable ⟨t, s.timer⟩ :=
  h.step ⟨.thread hl hst, fun _ he => Option.some.inj he ▸ hroom⟩

theorem oneBoot_silent (h : oneBoot.Reachable s) {t}
    (hst : OsStep oneProcess noMemory s.timer.time s.os .silent t) : oneBoot.Reachable ⟨t, s.timer⟩ :=
  oneBoot_thread h (fun _ => by simp) hst fun _ hx => absurd hx (by simp [OsEvent.enqueued])

theorem oneBoot_slot (h : oneBoot.Reachable s) {e t u}
    (hst : OsStep oneProcess noMemory s.timer.time s.os (.slot e) t)
    (ht : TimerStep (devListOf (oneProcess.numCpus + 1)) s.timer (some e) u) : oneBoot.Reachable ⟨t, u⟩ :=
  h.step ⟨.slot hst ht, fun _ he => Option.some.inj he ▸ fun _ hx => absurd hx (by simp [OsEvent.enqueued])⟩

theorem oneBoot_timer (h : oneBoot.Reachable s) {u}
    (ht : TimerStep (devListOf (oneProcess.numCpus + 1)) s.timer none u) : oneBoot.Reachable ⟨s.os, u⟩ :=
  h.step ⟨.timer ht, fun _ he => absurd he (by simp)⟩

end

/-- A step of the thread of device `d` inside a timer call. -/
theorem oneBoot_device {s : BootState oneProcess.numCpus Unit} (h : oneBoot.Reachable s)
    (d : Fin (oneProcess.numCpus + 1)) {v : Dev} (hst : DevStep (s.timer.dev d) none v) :
    oneBoot.Reachable ⟨s.os, { s.timer.setDev d v with
      pc := if (s.timer.dev d).pc.signals then s.timer.pc.wakeBy (devListOf (oneProcess.numCpus + 1)) d
        else s.timer.pc }⟩ :=
  oneBoot_timer h (.device (mem_devListOf d) hst)

/-- A run of `oneProcess` to its end: one slot of the barrier, lock by lock. -/
theorem oneBoot_ends : ∃ s, oneBoot.Reachable s ∧ s.os.ld.left = true ∧ ∀ c, (s.os.cpu c).pc.left = true := by
  have h : oneBoot.Reachable ⟨.start _ (), .start _⟩ := .init ⟨⟨(), trivial, rfl⟩, rfl⟩
  -- the loader adds the process
  have h := oneBoot_silent h (.ld (.load rfl Nat.one_pos))
  have h := oneBoot_silent h (.ld (.onTime rfl (Nat.lt_irrefl 0)))
  have h := oneBoot_silent h (.ld (.initMm (m := ()) rfl trivial))
  have hroom : RoomToEnqueue oneProcess (OsState.start oneProcess.numCpus ()) (.add 0) := by
    rintro x - ⟨p, -, hfull⟩
    exact absurd hfull (Nat.not_succ_le_zero 49)
  obtain ⟨q, hq⟩ : ∃ q, SchedState.addMlqProc oneProcess.prio
      (OsState.start oneProcess.numCpus ()).sched 0 = some q := requeue_isSome _ (show 0 < maxPrio by decide)
  have h := oneBoot_thread h (fun _ => by simp) (.ld (.add rfl hq)) hroom
  obtain ⟨hp, hself, hother, -, hinit, -⟩ := requeue_spec hq
  obtain ⟨r, hget, hrinit, hrest⟩ := getMlqProc_only (hinit.trans rfl) hself hother oneProcess.prio
  -- the CPU executes it
  have h := oneBoot_thread h (fun _ => by simp) (.cpu (.getIdle (c := onlyCpu) rfl rfl))
    (fun _ hx => absurd hx (by simp [OsEvent.enqueued]))
  have h := oneBoot_silent h (.cpu (.dispatch (c := onlyCpu) (x := 0)
    (by rw [cpu_setCpu_self]; simp only [hget]; rfl) (by rw [cpu_setCpu_self]; simp only [hget])))
  have h := oneBoot_silent h (.cpu (.run (c := onlyCpu) (x := 0) rfl rfl (.exec (m := ()) rfl trivial)))
  -- both enter the slot
  have h := oneBoot_slot h (.cpu (.call (c := onlyCpu) rfl))
    (.device (e := some .call) (mem_devListOf _) (.call rfl))
  have h := oneBoot_device h (cpuDev onlyCpu) (.lockEvent rfl rfl)
  have h := oneBoot_device h (cpuDev onlyCpu) (.setDone rfl)
  have h := oneBoot_device h (cpuDev onlyCpu) (.signalEvent rfl)
  have h := oneBoot_device h (cpuDev onlyCpu) (.unlockEvent rfl)
  have h := oneBoot_slot h (.ld (.call rfl)) (.device (e := some .call) (mem_devListOf _) (.call rfl))
  have h := oneBoot_device h ldDev (.lockEvent rfl rfl)
  have h := oneBoot_device h ldDev (.setDone rfl)
  have h := oneBoot_device h ldDev (.signalEvent rfl)
  have h := oneBoot_device h ldDev (.unlockEvent rfl)
  -- the timer counts the slot
  have h := oneBoot_timer h (.round rfl rfl)
  have h := oneBoot_timer h (.lockEvent (d := ldDev) rfl rfl rfl)
  have h := oneBoot_timer h (.testPass (d := ldDev) rfl rfl (.inl rfl))
  have h := oneBoot_timer h (.count (d := ldDev) rfl rfl)
  have h := oneBoot_timer h (.unlockEvent (d := ldDev) rfl rfl)
  have h := oneBoot_timer h (.lockEvent (d := cpuDev onlyCpu) rfl rfl rfl)
  have h := oneBoot_timer h (.testPass (d := cpuDev onlyCpu) rfl rfl (.inl rfl))
  have h := oneBoot_timer h (.count (d := cpuDev onlyCpu) rfl rfl)
  have h := oneBoot_timer h (.unlockEvent (d := cpuDev onlyCpu) rfl rfl)
  have h := oneBoot_timer h (.lockEventEnd rfl rfl)
  have h := oneBoot_timer h (.tick rfl)
  have h := oneBoot_timer h (.lockTimer (d := ldDev) rfl rfl rfl)
  have h := oneBoot_timer h (.clear (d := ldDev) rfl rfl)
  have h := oneBoot_timer h (.signal (d := ldDev) rfl rfl)
  have h := oneBoot_timer h (.unlockTimer (d := ldDev) rfl rfl)
  have h := oneBoot_timer h (.lockTimer (d := cpuDev onlyCpu) rfl rfl rfl)
  have h := oneBoot_timer h (.clear (d := cpuDev onlyCpu) rfl rfl)
  have h := oneBoot_timer h (.signal (d := cpuDev onlyCpu) rfl rfl)
  have h := oneBoot_timer h (.unlockTimer (d := cpuDev onlyCpu) rfl rfl)
  -- both return
  have h := oneBoot_device h ldDev (.lockTimer rfl rfl)
  have h := oneBoot_device h ldDev (.released rfl rfl)
  have h := oneBoot_slot h (.ld (.ret rfl)) (.device (e := some .ret) (mem_devListOf _) (.ret rfl))
  have h := oneBoot_device h (cpuDev onlyCpu) (.lockTimer rfl rfl)
  have h := oneBoot_device h (cpuDev onlyCpu) (.released rfl rfl)
  have h := oneBoot_slot h (.cpu (.ret (c := onlyCpu) rfl))
    (.device (e := some .ret) (mem_devListOf _) (.ret rfl))
  -- the loader is done, the CPU reaps the process and stops
  have h := oneBoot_silent h (.ld (.allLoaded rfl (Nat.lt_irrefl 1)))
  have h := oneBoot_silent h (.ld (.setDone rfl))
  have h := oneBoot_silent h (.cpu (.reap (c := onlyCpu) (x := 0) rfl rfl rfl))
  have hnone : ((q.getMlqProc oneProcess.prio).2.getMlqProc oneProcess.prio).1 = none := by
    rw [hget, getMlqProc_empty hrinit hrest]
  have h := oneBoot_thread h (fun _ => by simp) (.cpu (.getAfterFree (c := onlyCpu) rfl))
    (fun _ hx => absurd hx (by simp [OsEvent.enqueued]))
  have h := oneBoot_silent h (.cpu (.stop (c := onlyCpu) rfl hnone rfl))
  refine ⟨_, h, rfl, fun c => ?_⟩
  rw [show c = onlyCpu from Fin.ext (Nat.lt_one_iff.mp c.isLt), cpu_setCpu_self]
  rfl

theorem completion_at_shutdown_one :
    ∃ s : BootState oneProcess.numCpus Unit, s.os.ld.left = true ∧ (∀ c, (s.os.cpu c).pc.left = true) ∧
      (∀ p, s.os.sched.ready p = []) ∧
      ∀ x < 1, s.os.procPc x = (oneProcess.code x).length ∧ s.os.executed x = oneProcess.code x := by
  obtain ⟨s, h, hld, hcpu⟩ := oneBoot_ends
  exact ⟨s, hld, hcpu, completion_at_shutdown Nat.one_pos h hld hcpu⟩

end LamiaAtrium
