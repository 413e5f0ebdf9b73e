import LamiaAtrium.Sched.Queue

/-!
# `Sched.Sched` — `sched.c`: the multilevel-queue scheduler

`SchedState` holds the statics of `sched.c` that the `MLQ_SCHED` build uses. Processes are pointers `α`;
the field `proc->prio` is read through a function `prio`, because it lives in the PCB and not here.

Each entry point takes `queue_lock` for its whole body, so it is one atomic function of the state.
`getMlqProc_cases` says once what a `get` can do; everything proved about the scheduler goes
through it.
-/

namespace LamiaAtrium

/-- `MAX_PRIO` (`sched.h`). -/
def maxPrio : ℕ := 140

/-- The statics of `sched.c`. -/
structure SchedState (α : Type) where
  mlqReadyQueue : Fin maxPrio → QueueT α
  slot : Fin maxPrio → ℤ
  mlqInited : Bool
  runningList : QueueT α
  readyQueue : QueueT α

variable {α : Type}

/-- `slot[p] = MAX_PRIO - p` for every level. -/
def fullSlot (p : Fin maxPrio) : ℤ := (maxPrio : ℤ) - (p : ℤ)

namespace SchedState

/-- The statics before `init_scheduler`. -/
def static : SchedState α := ⟨fun _ => .zero, fun _ => 0, false, .zero, .zero⟩

/-- `init_scheduler`: every queue gets `size = 0` (the array keeps its stale pointers). -/
def initScheduler (s : SchedState α) : SchedState α :=
  let clear (q : QueueT α) : QueueT α := ⟨q.proc, 0, Nat.zero_le _, fun _ h => absurd h (Nat.not_lt_zero _)⟩
  { mlqReadyQueue := fun p => clear (s.mlqReadyQueue p)
    slot := fullSlot
    mlqInited := true
    runningList := clear s.runningList
    readyQueue := clear s.readyQueue }

/-- `queue_empty`: every level is empty. -/
def queueEmpty (s : SchedState α) : Bool := (List.finRange maxPrio).all fun p => (s.mlqReadyQueue p).empty

/-- The search for a level with work and budget:
    `for (p = 0; p < MAX_PRIO; p++) if (!empty(..) && slot[p] > 0) { chosen_prio = p; break; }`. -/
def chosenPrio (s : SchedState α) : Option (Fin maxPrio) :=
  (List.finRange maxPrio).find? fun p => !(s.mlqReadyQueue p).empty && decide (0 < s.slot p)

/-- The late initialisation at the head of `get_mlq_proc`. -/
def ensureInited (s : SchedState α) : SchedState α :=
  if s.mlqInited then s else { s with slot := fullSlot, mlqInited := true }

/-- `slot[p] = MAX_PRIO - p` when no level with work has budget left, and the second search. -/
def chooseOrRefill (s : SchedState α) : Option (Fin maxPrio) × SchedState α :=
  match s.chosenPrio with
  | some p => (some p, s)
  | none => ({ s with slot := fullSlot }.chosenPrio, { s with slot := fullSlot })

/-- Take the head of level `p`, pay one slot, note the process as running. -/
def dispatchFrom (prio : α → ℕ) (s : SchedState α) (p : Fin maxPrio) : Option α × SchedState α :=
  match (s.mlqReadyQueue p).dequeue prio with
  | (none, _) => (none, s)
  | (some proc, q) =>
    (some proc,
      { s with
        mlqReadyQueue := Function.update s.mlqReadyQueue p q
        slot := Function.update s.slot p (s.slot p - 1)
        runningList := s.runningList.enqueue proc })

/-- `get_mlq_proc`. -/
def getMlqProc (prio : α → ℕ) (s : SchedState α) : Option α × SchedState α :=
  let s := s.ensureInited
  if s.queueEmpty then (none, s)
  else
    match s.chooseOrRefill with
    | (none, s) => (none, s)
    | (some p, s) => s.dispatchFrom prio p

variable [DecidableEq α]

/-- The common body of `put_mlq_proc` and `add_mlq_proc`: off the running list, onto the back of its
    level. `none` when `proc->prio` indexes outside `mlq_ready_queue`. -/
def requeue (prio : α → ℕ) (s : SchedState α) (proc : α) : Option (SchedState α) :=
  if h : prio proc < maxPrio then
    some
      { s with
        runningList := (s.runningList.purgequeue proc).2
        mlqReadyQueue := Function.update s.mlqReadyQueue ⟨prio proc, h⟩
          ((s.mlqReadyQueue ⟨prio proc, h⟩).enqueue proc) }
  else none

/-- `put_mlq_proc`. -/
def putMlqProc (prio : α → ℕ) (s : SchedState α) (proc : α) : Option (SchedState α) := s.requeue prio proc

/-- `add_mlq_proc`. -/
def addMlqProc (prio : α → ℕ) (s : SchedState α) (proc : α) : Option (SchedState α) := s.requeue prio proc

omit [DecidableEq α]

/-! ## What the searches find -/

/-- The content of level `p`. -/
def ready (s : SchedState α) (p : Fin maxPrio) : List α := (s.mlqReadyQueue p).toList

theorem queueEmpty_iff (s : SchedState α) : s.queueEmpty = true ↔ ∀ p, s.ready p = [] := by
  simp only [queueEmpty, List.all_eq_true, List.mem_finRange, forall_const, QueueT.empty_iff, ready]

@[simp] theorem ready_initScheduler (s : SchedState α) (p : Fin maxPrio) :
    s.initScheduler.ready p = [] := rfl

@[simp] theorem slot_initScheduler (s : SchedState α) : s.initScheduler.slot = fullSlot := rfl

@[simp] theorem runningList_initScheduler (s : SchedState α) :
    s.initScheduler.runningList.toList = [] := rfl

@[simp] theorem ready_ensureInited (s : SchedState α) (p : Fin maxPrio) :
    s.ensureInited.ready p = s.ready p := by
  unfold ensureInited; split <;> rfl

@[simp] theorem runningList_ensureInited (s : SchedState α) :
    s.ensureInited.runningList = s.runningList := by
  unfold ensureInited; split <;> rfl

theorem ensureInited_of_inited {s : SchedState α} (h : s.mlqInited = true) : s.ensureInited = s := by
  rw [ensureInited, if_pos h]

/-- The first index of `finRange` that satisfies a test is the least one. -/
theorem find?_finRange_eq_some {n : ℕ} {f : Fin n → Bool} {p : Fin n}
    (h : (List.finRange n).find? f = some p) : f p = true ∧ ∀ q < p, f q = false := by
  obtain ⟨hp, as, bs, hsplit, hnot⟩ := List.find?_eq_some_iff_append.mp h
  refine ⟨hp, fun q hq => ?_⟩
  have hsorted : (as ++ p :: bs).Pairwise (· < ·) := hsplit ▸ List.pairwise_lt_finRange n
  have hmem : q ∈ as ++ p :: bs := hsplit ▸ List.mem_finRange q
  rcases List.mem_append.mp hmem with hq' | hq'
  · simpa using hnot q hq'
  · rcases List.mem_cons.mp hq' with rfl | hq''
    · exact absurd hq (lt_irrefl _)
    · exact absurd hq (lt_asymm ((List.pairwise_cons.mp (List.pairwise_append.mp hsorted).2.1).1 q hq''))

theorem chosenPrio_eq_some {s : SchedState α} {p : Fin maxPrio} (h : s.chosenPrio = some p) :
    s.ready p ≠ [] ∧ 0 < s.slot p ∧ ∀ q < p, s.ready q ≠ [] → s.slot q ≤ 0 := by
  obtain ⟨hp, hlt⟩ := find?_finRange_eq_some h
  simp only [Bool.and_eq_true, Bool.not_eq_true', decide_eq_true_eq, QueueT.empty_eq_false_iff] at hp
  refine ⟨hp.1, hp.2, fun q hq hne => ?_⟩
  have hf := hlt q hq
  rw [Bool.and_eq_false_iff] at hf
  rcases hf with hf | hf
  · rw [Bool.not_eq_false', QueueT.empty_iff] at hf; exact absurd hf hne
  · exact Int.not_lt.mp (of_decide_eq_false hf)

theorem chosenPrio_eq_none {s : SchedState α} (h : s.chosenPrio = none) {p : Fin maxPrio}
    (hne : s.ready p ≠ []) : s.slot p ≤ 0 := by
  have hp := List.find?_eq_none.mp h p (List.mem_finRange p)
  simp only [Bool.and_eq_true, Bool.not_eq_true', decide_eq_true_eq, not_and,
    QueueT.empty_eq_false_iff] at hp
  exact Int.not_lt.mp (hp hne)

theorem fullSlot_pos (p : Fin maxPrio) : 0 < fullSlot p := by
  have := p.isLt; unfold fullSlot; omega

/-- With every budget refilled, the search fails only on an empty system. -/
theorem chosenPrio_full {s : SchedState α} (hs : s.slot = fullSlot) (h : s.chosenPrio = none)
    (p : Fin maxPrio) : s.ready p = [] := by
  by_contra hne
  have := chosenPrio_eq_none h hne
  rw [hs] at this
  exact absurd (fullSlot_pos p) (Int.not_lt.mpr this)

/-! ## What one `get` does -/

/-- The level `p` served by a successful `get`, the process `x` taken from it, and the state after. -/
structure Served (prio : α → ℕ) (s : SchedState α) (p : Fin maxPrio) (x : α) (t : SchedState α) :
    Prop where
  taken : ((s.mlqReadyQueue p).dequeue prio).1 = some x
  queues : t.mlqReadyQueue
    = Function.update s.mlqReadyQueue p ((s.mlqReadyQueue p).dequeue prio).2
  running : t.runningList = s.runningList.enqueue x
  inited : t.mlqInited = true
  nonempty : s.ready p ≠ []
  /-- Budget was left at `p` and at no smaller level with work; or it was left nowhere, and the refill
      gave `p`, the least level with work, its full budget. -/
  budget :
    (0 < s.slot p ∧ (∀ q < p, s.ready q ≠ [] → s.slot q ≤ 0) ∧
        t.slot = Function.update s.slot p (s.slot p - 1)) ∨
      ((∀ q, s.ready q ≠ [] → s.slot q ≤ 0) ∧ (∀ q < p, s.ready q = []) ∧
        t.slot = Function.update fullSlot p (fullSlot p - 1))

theorem dispatchFrom_served (prio : α → ℕ) {s : SchedState α} {p : Fin maxPrio} (h : s.ready p ≠ []) :
    ∃ x, ((s.mlqReadyQueue p).dequeue prio).1 = some x ∧
      s.dispatchFrom prio p = (some x,
        { s with
          mlqReadyQueue := Function.update s.mlqReadyQueue p ((s.mlqReadyQueue p).dequeue prio).2
          slot := Function.update s.slot p (s.slot p - 1)
          runningList := s.runningList.enqueue x }) := by
  obtain ⟨k, hk, hret, -⟩ := (s.mlqReadyQueue p).dequeue_spec prio h
  refine ⟨_, hret, ?_⟩
  unfold dispatchFrom
  split
  · rename_i heq; rw [heq] at hret; simp at hret
  · rename_i x q heq
    rw [heq] at hret ⊢
    simp only [Option.some.injEq] at hret
    rw [hret]

/-- **Everything a `get` can do** once the scheduler is initialised: the system is empty and nothing
    changes, or exactly one process is taken from one level. -/
theorem getMlqProc_cases (prio : α → ℕ) {s : SchedState α} (hi : s.mlqInited = true) :
    ((∀ p, s.ready p = []) ∧ s.getMlqProc prio = (none, s)) ∨
      ∃ p x t, s.getMlqProc prio = (some x, t) ∧ Served prio s p x t := by
  unfold getMlqProc
  simp only [ensureInited_of_inited hi]
  by_cases hemp : s.queueEmpty = true
  · exact .inl ⟨s.queueEmpty_iff.mp hemp, by rw [if_pos hemp]⟩
  right
  rw [if_neg hemp]
  unfold chooseOrRefill
  cases hc : s.chosenPrio with
  | some p =>
    obtain ⟨hne, hpos, hlt⟩ := chosenPrio_eq_some hc
    obtain ⟨x, hx, hd⟩ := dispatchFrom_served prio hne
    exact ⟨p, x, _, hd, hx, rfl, rfl, hi, hne, .inl ⟨hpos, hlt, rfl⟩⟩
  | none =>
    have hzero : ∀ q, s.ready q ≠ [] → s.slot q ≤ 0 := fun q => chosenPrio_eq_none hc
    cases hc' : ({ s with slot := fullSlot } : SchedState α).chosenPrio with
    | none =>
      exact absurd (s.queueEmpty_iff.mpr fun p => chosenPrio_full (s := { s with slot := fullSlot }) rfl hc' p)
        hemp
    | some p =>
      obtain ⟨hne, -, hlt⟩ := chosenPrio_eq_some hc'
      obtain ⟨x, hx, hd⟩ := dispatchFrom_served prio hne
      refine ⟨p, x, _, hd, hx, rfl, rfl, hi, hne, .inr ⟨hzero, fun q hq => ?_, rfl⟩⟩
      by_contra hq'
      exact absurd (hlt q hq hq') (Int.not_le.mpr (fullSlot_pos q))

theorem Served.ready_self {prio : α → ℕ} {s t : SchedState α} {p : Fin maxPrio} {x : α}
    (h : Served prio s p x t) : t.ready p = ((s.mlqReadyQueue p).dequeue prio).2.toList := by
  rw [ready, h.queues, Function.update_self]

theorem Served.ready_ne {prio : α → ℕ} {s t : SchedState α} {p q : Fin maxPrio} {x : α}
    (h : Served prio s p x t) (hq : q ≠ p) : t.ready q = s.ready q := by
  rw [ready, h.queues, Function.update_of_ne hq, ready]

/-- A successful `get` removes exactly one occurrence of the process it returns, at the level served. -/
theorem Served.perm {prio : α → ℕ} {s t : SchedState α} {p : Fin maxPrio} {x : α}
    (h : Served prio s p x t) : (s.ready p).Perm (x :: t.ready p) := by
  obtain ⟨k, hk, hret, hrest, -⟩ := (s.mlqReadyQueue p).dequeue_spec prio h.nonempty
  have hx : (s.mlqReadyQueue p).toList[k] = x := Option.some.inj (hret.symm.trans h.taken)
  rw [h.ready_self, hrest, ← hx]
  exact (List.getElem_cons_eraseIdx_perm hk).symm

/-! ## What one `put` or `add` does -/

variable [DecidableEq α]

/-- **Everything a `put` or an `add` can do**: the level of `proc` is appended to, unless it is full. -/
theorem requeue_spec {prio : α → ℕ} {s t : SchedState α} {proc : α}
    (h : s.requeue prio proc = some t) :
    ∃ hp : prio proc < maxPrio,
      t.ready ⟨prio proc, hp⟩
        = (if (s.ready ⟨prio proc, hp⟩).length < maxQueueSize then s.ready ⟨prio proc, hp⟩ ++ [proc]
          else s.ready ⟨prio proc, hp⟩) ∧
      (∀ q, q ≠ ⟨prio proc, hp⟩ → t.ready q = s.ready q) ∧
      t.slot = s.slot ∧ t.mlqInited = s.mlqInited ∧
      t.runningList = (s.runningList.purgequeue proc).2 := by
  unfold requeue at h
  split at h
  · rename_i hp
    obtain rfl := Option.some.inj h
    refine ⟨hp, ?_, fun q hq => ?_, rfl, rfl, rfl⟩
    · simp only [ready, Function.update_self]
      exact QueueT.toList_enqueue _ _
    · simp only [ready, Function.update_of_ne hq]
  · simp at h

theorem requeue_isSome {prio : α → ℕ} (s : SchedState α) {proc : α} (h : prio proc < maxPrio) :
    ∃ t, s.requeue prio proc = some t := by
  unfold requeue; rw [dif_pos h]; exact ⟨_, rfl⟩

end SchedState

end LamiaAtrium
