import LamiaAtrium.Lib.Lts
import LamiaAtrium.Sched.Queue

/-!
# `Sched.Plain` — `sched.c` without `MLQ_SCHED`

The `#else` part: one queue for the processes that the loader adds, and one for those that a CPU puts back. `dequeue`
reads `proc->priority` here, the priority in the header of the process file.

`plainSystem` lets `n` CPUs and the loader call these functions in any order, each as `cpu_routine` and `ld_routine`
do: a CPU gets when it holds nothing, and puts back or frees what it holds; a process is added once.
-/

namespace LamiaAtrium

/-- The statics of `sched.c` that this build uses. -/
structure PlainState (α : Type) where
  readyQueue : QueueT α
  runQueue : QueueT α
  runningList : QueueT α

variable {α : Type}

namespace PlainState

/-- The statics before `init_scheduler`. -/
def static : PlainState α := ⟨.zero, .zero, .zero⟩

theorem live_zero (q : QueueT α) : ∀ i < 0, (q.proc[i]?.join).isSome = true := fun _ h => absurd h (Nat.not_lt_zero _)

/-- `init_scheduler`: every queue gets `size = 0` (the array keeps its stale pointers). -/
def initScheduler (s : PlainState α) : PlainState α where
  readyQueue := ⟨s.readyQueue.proc, 0, Nat.zero_le _, live_zero s.readyQueue⟩
  runQueue := ⟨s.runQueue.proc, 0, Nat.zero_le _, live_zero s.runQueue⟩
  runningList := ⟨s.runningList.proc, 0, Nat.zero_le _, live_zero s.runningList⟩

/-- `queue_empty`. -/
def queueEmpty (s : PlainState α) : Bool := s.readyQueue.empty && s.runQueue.empty

/-- The choice in `get_proc`: from the run queue, and when that is empty from the ready queue. -/
def choose (priority : α → ℕ) (s : PlainState α) : Option α × PlainState α :=
  if !s.runQueue.empty then
    ((s.runQueue.dequeue priority).1, { s with runQueue := (s.runQueue.dequeue priority).2 })
  else ((s.readyQueue.dequeue priority).1, { s with readyQueue := (s.readyQueue.dequeue priority).2 })

/-- `get_proc`. -/
def getProc (priority : α → ℕ) (s : PlainState α) : Option α × PlainState α :=
  match s.choose priority with
  | (none, s) => (none, s)
  | (some proc, s) => (some proc, { s with runningList := s.runningList.enqueue proc })

variable [DecidableEq α]

/-- `put_proc`. -/
def putProc (s : PlainState α) (proc : α) : PlainState α :=
  { s with runningList := (s.runningList.purgequeue proc).2, runQueue := s.runQueue.enqueue proc }

/-- `add_proc`. -/
def addProc (s : PlainState α) (proc : α) : PlainState α :=
  { s with runningList := (s.runningList.purgequeue proc).2, readyQueue := s.readyQueue.enqueue proc }

omit [DecidableEq α]

/-! ## What a `get` takes -/

/-- What a `get` does to the two queues. -/
inductive Chosen (priority : α → ℕ) (s : PlainState α) : Option α → PlainState α → Prop where
  | nothing {t : PlainState α} : s.readyQueue.toList = [] → s.runQueue.toList = [] → t.readyQueue.toList = [] →
      t.runQueue.toList = [] → Chosen priority s none t
  | again {x : α} {t : PlainState α} : t.readyQueue.toList = s.readyQueue.toList →
      s.runQueue.toList.Perm (x :: t.runQueue.toList) → (∀ y ∈ s.runQueue.toList, priority x ≤ priority y) →
      Chosen priority s (some x) t
  | first {x : α} {t : PlainState α} : s.runQueue.toList = [] → t.runQueue.toList = [] →
      s.readyQueue.toList.Perm (x :: t.readyQueue.toList) → (∀ y ∈ s.readyQueue.toList, priority x ≤ priority y) →
      Chosen priority s (some x) t

/-- `dequeue` as a permutation. -/
theorem dequeue_perm (priority : α → ℕ) {q : QueueT α} (h : q.toList ≠ []) :
    ∃ x, (q.dequeue priority).1 = some x ∧ q.toList.Perm (x :: (q.dequeue priority).2.toList) ∧
      ∀ y ∈ q.toList, priority x ≤ priority y := by
  obtain ⟨k, hk, hret, hrest, hbest, -⟩ := q.dequeue_spec priority h
  refine ⟨_, hret, ?_, fun y hy => ?_⟩
  · rw [hrest]
    exact (List.getElem_cons_eraseIdx_perm hk).symm
  · obtain ⟨j, hj, rfl⟩ := List.mem_iff_getElem.mp hy
    exact hbest j hj

theorem getProc_cases (priority : α → ℕ) (s : PlainState α) :
    Chosen priority s (s.getProc priority).1 (s.getProc priority).2 := by
  unfold getProc choose
  cases hempty : s.runQueue.empty with
  | false =>
    obtain ⟨x, hx, hperm, hbest⟩ := dequeue_perm priority (s.runQueue.empty_eq_false_iff.mp hempty)
    simp only [Bool.not_false, if_true, hx]
    exact .again rfl hperm hbest
  | true =>
    have hrun := s.runQueue.empty_iff.mp hempty
    by_cases hready : s.readyQueue.toList = []
    · simp only [Bool.not_true, Bool.false_eq_true, if_false, QueueT.dequeue_nil priority _ hready]
      exact .nothing hready hrun hready hrun
    · obtain ⟨x, hx, hperm, hbest⟩ := dequeue_perm priority hready
      simp only [Bool.not_true, Bool.false_eq_true, if_false, hx]
      exact .first hrun hrun hperm hbest

/-- A `get` comes back empty-handed exactly when `queue_empty` says so. -/
theorem getProc_eq_none_iff (priority : α → ℕ) (s : PlainState α) :
    (s.getProc priority).1 = none ↔ s.queueEmpty = true := by
  rw [queueEmpty, Bool.and_eq_true, QueueT.empty_iff, QueueT.empty_iff]
  have hcases := getProc_cases priority s
  generalize (s.getProc priority).1 = ret at hcases ⊢
  cases hcases with
  | nothing hready hrun _ _ => exact iff_of_true rfl ⟨hready, hrun⟩
  | again _ hperm _ => exact iff_of_false (by simp) fun h => by simp [h.2] at hperm
  | first _ _ hperm _ => exact iff_of_false (by simp) fun h => by simp [h.1] at hperm

end PlainState

/-! ## Any order of calls -/

/-- The scheduler, what each CPU holds, and the processes that have been added and freed so far. -/
structure PlainRun (α : Type) (n : ℕ) where
  sched : PlainState α
  held : Fin n → Option α
  added : List α
  freed : List α

/-- A call of a CPU, or of the loader. -/
inductive PlainEvent (α : Type) (n : ℕ) where
  | get (c : Fin n)
  | put (c : Fin n)
  | free (c : Fin n)
  | add (x : α)

variable {n : ℕ} [DecidableEq α]

/-- One call. -/
inductive PlainStep (priority : α → ℕ) : PlainRun α n → PlainEvent α n → PlainRun α n → Prop where
  | get {s : PlainRun α n} {c} : s.held c = none →
      PlainStep priority s (.get c) { s with
        sched := (s.sched.getProc priority).2
        held := Function.update s.held c (s.sched.getProc priority).1 }
  | put {s : PlainRun α n} {c x} : s.held c = some x →
      PlainStep priority s (.put c) { s with sched := s.sched.putProc x, held := Function.update s.held c none }
  | free {s : PlainRun α n} {c x} : s.held c = some x →
      PlainStep priority s (.free c) { s with held := Function.update s.held c none, freed := x :: s.freed }
  | add {s : PlainRun α n} {x} : x ∉ s.added →
      PlainStep priority s (.add x) { s with sched := s.sched.addProc x, added := x :: s.added }

/-- The scheduler with `n` CPUs and the loader, from `init_scheduler` on. -/
def plainSystem (priority : α → ℕ) (n : ℕ) : Lts.System (PlainRun α n) (PlainEvent α n) where
  init s := ∃ s₀ : PlainState α, s = ⟨s₀.initScheduler, fun _ => none, [], []⟩
  step := PlainStep priority

end LamiaAtrium
