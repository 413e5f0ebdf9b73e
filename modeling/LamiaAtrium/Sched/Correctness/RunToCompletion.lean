import LamiaAtrium.Os.Correctness.Places
import LamiaAtrium.Sched.Plain

/-!
# `Sched.Correctness.RunToCompletion` — without `MLQ_SCHED` a process that has been started keeps its turn

The run queue holds processes that have been started and put back, and `get_proc` prefers it. So time slices change
nothing: `inProgress_le` bounds the processes that have been started and not freed by the number of CPUs, and
`no_preemption` says that as long as no one finishes nobody else gets a CPU. `plain_conserved` is the account of all
processes.
-/

namespace LamiaAtrium

open PlainState

variable {α : Type} {n : ℕ} {priority : α → ℕ}

/-! ## Counting -/

/-- What the CPUs hold, weighed with `f`. -/
def weigh (f : Option α → ℕ) (held : Fin n → Option α) : ℕ := ∑ c, f (held c)

/-- One CPU changes hands. -/
theorem weigh_update (f : Option α → ℕ) (held : Fin n → Option α) (c : Fin n) (v : Option α) :
    weigh f (Function.update held c v) + f (held c) = weigh f held + f v := by
  have hsum := sum_update_add (f ∘ held) c (f v)
  rw [← Function.comp_update] at hsum
  exact hsum

/-- One for a process, nothing for no process. -/
def one (v : Option α) : ℕ := if v.isSome then 1 else 0

/-- How many CPUs hold a process. -/
def PlainRun.busy (s : PlainRun α n) : ℕ := weigh one s.held

/-- How many processes have been started and not freed. -/
def PlainRun.inProgress (s : PlainRun α n) : ℕ := s.sched.runQueue.toList.length + s.busy

theorem weigh_one_le (held : Fin n → Option α) : weigh one held ≤ n := by
  have hle := Finset.sum_le_card_nsmul Finset.univ (fun c => one (held c)) 1 fun c _ => by unfold one; split <;> omega
  simpa [weigh] using hle

/-- Every CPU has something to run. -/
theorem busy_eq {s : PlainRun α n} (hall : ∀ c, (s.held c).isSome) : s.busy = n := by
  have hone : ∀ c, one (s.held c) = 1 := fun c => if_pos (hall c)
  simp [PlainRun.busy, weigh, hone]

variable [DecidableEq α]

/-- One for the process `x`. -/
def itself (x : α) (v : Option α) : ℕ := if v = some x then 1 else 0

theorem itself_none (x : α) : itself x none = 0 := if_neg (by simp)

theorem itself_some (x y : α) : itself x (some y) = if y = x then 1 else 0 := by
  simp only [itself, Option.some.injEq]

/-- How many CPUs hold `x`. -/
def PlainRun.inHand (s : PlainRun α n) (x : α) : ℕ := weigh (itself x) s.held

/-- In how many places `x` is among the processes that have been started and not freed. -/
def PlainRun.started (s : PlainRun α n) (x : α) : ℕ := s.sched.runQueue.toList.count x + s.inHand x

theorem count_of_perm {l l' : List α} {y : α} (h : l.Perm (y :: l')) (x : α) :
    l.count x = l'.count x + itself x (some y) := by
  rw [h.count_eq x, List.count_cons, itself_some]
  simp

/-! ## What one call does -/

section

variable {s t : PlainRun α n} {e : PlainEvent α n}

/-- The processes in progress, and the ready queue, after one call: `first` is a `get` that starts a process, on a CPU
    that was idle, with no process waiting that has been started. -/
inductive PlainMove (s : PlainRun α n) (e : PlainEvent α n) (t : PlainRun α n) : Prop where
  | same : t.inProgress = s.inProgress → (∀ x, t.started x = s.started x) →
      (∀ x, t.sched.readyQueue.toList.count x = s.sched.readyQueue.toList.count x) → t.added = s.added →
      t.freed = s.freed → PlainMove s e t
  | first {y} : s.sched.runQueue.toList = [] → t.inProgress = s.busy + 1 → t.inProgress ≤ n →
      (∀ x, t.started x = s.started x + itself x (some y)) →
      (∀ x, s.sched.readyQueue.toList.count x = t.sched.readyQueue.toList.count x + itself x (some y)) →
      t.added = s.added → t.freed = s.freed → PlainMove s e t
  | dropped : t.inProgress < s.inProgress → maxQueueSize ≤ s.sched.runQueue.toList.length →
      s.sched.runQueue.toList.length < s.inProgress → PlainMove s e t
  | free {c y} : e = .free c → s.inProgress = t.inProgress + 1 → (∀ x, s.started x = t.started x + itself x (some y)) →
      t.sched = s.sched → t.added = s.added → t.freed = y :: s.freed → PlainMove s e t
  | add {y} : e = .add y → y ∉ s.added → t.inProgress = s.inProgress → (∀ x, t.started x = s.started x) →
      t.sched.readyQueue = s.sched.readyQueue.enqueue y → t.added = y :: s.added → t.freed = s.freed → PlainMove s e t

theorem move_get {c : Fin n} (hidle : s.held c = none) :
    PlainMove s (.get c) { s with
      sched := (s.sched.getProc priority).2
      held := Function.update s.held c (s.sched.getProc priority).1 } := by
  have hcases := getProc_cases priority s.sched
  have hbusy := weigh_update one s.held c (s.sched.getProc priority).1
  have hhand := fun x => weigh_update (itself x) s.held c (s.sched.getProc priority).1
  rw [hidle] at hbusy
  simp only [hidle, itself_none] at hhand
  generalize (s.sched.getProc priority).1 = ret at hcases hbusy hhand
  generalize (s.sched.getProc priority).2 = u at hcases
  cases hcases with
  | nothing hready hrun hready' hrun' =>
    refine .same ?_ (fun x => ?_) (fun x => by rw [hready, hready']) rfl rfl
    · simp only [PlainRun.inProgress, PlainRun.busy, hrun, hrun']
      omega
    · have hx := hhand x
      rw [itself_none] at hx
      simp only [PlainRun.started, PlainRun.inHand, hrun, hrun']
      omega
  | @again y u hready hperm _ =>
    have hlength := hperm.length_eq
    rw [List.length_cons] at hlength
    refine .same ?_ (fun x => ?_) (fun x => by rw [hready]) rfl rfl
    · simp only [PlainRun.inProgress, PlainRun.busy]
      simp only [one, Option.isSome_some, Option.isSome_none, Bool.false_eq_true, if_false, if_true] at hbusy
      omega
    · have hx := hhand x
      have hcount := count_of_perm hperm x
      simp only [PlainRun.started, PlainRun.inHand]
      omega
  | @first y u hrun hrun' hperm _ =>
    have hle := weigh_one_le (Function.update s.held c (some y))
    have hstarted : weigh one (Function.update s.held c (some y)) = weigh one s.held + 1 := hbusy
    refine .first (y := y) hrun ?_ ?_ (fun x => ?_) (count_of_perm hperm) rfl rfl
    · simp only [PlainRun.inProgress, PlainRun.busy, hrun', List.length_nil]
      omega
    · simp only [PlainRun.inProgress, PlainRun.busy, hrun', List.length_nil]
      omega
    · have hx := hhand x
      simp only [PlainRun.started, PlainRun.inHand, hrun, hrun', List.count_nil]
      omega

theorem move_put {c : Fin n} {y : α} (hheld : s.held c = some y) :
    PlainMove s (.put c) { s with sched := s.sched.putProc y, held := Function.update s.held c none } := by
  have hbusy : weigh one (Function.update s.held c none) + 1 = weigh one s.held := by
    have hone := weigh_update one s.held c none
    rwa [hheld] at hone
  have hhand := fun x => weigh_update (itself x) s.held c none
  simp only [hheld, itself_none] at hhand
  have hqueue := s.sched.runQueue.toList_enqueue y
  split at hqueue
  · refine .same ?_ (fun x => ?_) (fun _ => rfl) rfl rfl
    · simp only [PlainRun.inProgress, PlainRun.busy, putProc, hqueue, List.length_append, List.length_singleton]
      omega
    · have hx := hhand x
      rw [itself_some] at hx
      simp only [PlainRun.started, PlainRun.inHand, putProc, hqueue, List.count_append, List.count_singleton,
        beq_iff_eq]
      omega
  · refine .dropped ?_ (by omega) ?_
    · simp only [PlainRun.inProgress, PlainRun.busy, putProc, hqueue]
      omega
    · simp only [PlainRun.inProgress, PlainRun.busy]
      omega

/-- **What one call does.** -/
theorem plainMove_of_step (h : PlainStep priority s e t) : PlainMove s e t := by
  cases h with
  | get hidle => exact move_get hidle
  | put hheld => exact move_put hheld
  | @free c y hheld =>
    have hbusy : weigh one (Function.update s.held c none) + 1 = weigh one s.held := by
      have hone := weigh_update one s.held c none
      rwa [hheld] at hone
    refine .free rfl ?_ (fun x => ?_) rfl rfl rfl
    · simp only [PlainRun.inProgress, PlainRun.busy]
      omega
    · have hx := weigh_update (itself x) s.held c none
      rw [hheld, itself_none] at hx
      simp only [PlainRun.started, PlainRun.inHand]
      omega
  | add hnew => exact .add rfl hnew rfl (fun _ => rfl) rfl rfl rfl

end

/-! ## Processes in progress -/

/-- **No more processes are in progress than there are CPUs.** -/
theorem inProgress_le {s : PlainRun α n} (hs : (plainSystem priority n).Reachable s) : s.inProgress ≤ n := by
  refine Lts.System.Reachable.invariant (I := fun s => s.inProgress ≤ n) ?_ ?_ hs
  · rintro s ⟨s₀, rfl⟩
    exact (Nat.zero_add _).trans_le (weigh_one_le _)
  · intro s e t hle hst
    cases plainMove_of_step hst with
    | same hprogress _ _ _ _ => omega
    | first _ _ hbound _ _ _ _ => exact hbound
    | dropped hless _ _ => omega
    | free _ hprogress _ _ _ _ => omega
    | add _ _ hprogress _ _ _ _ => omega

/-- As long as nobody finishes, the processes in progress stay when there are as many of them as CPUs. -/
theorem started_of_full {s t : PlainRun α n} {e : PlainEvent α n} (hn : n ≤ maxQueueSize) (hfull : s.inProgress = n)
    (hst : PlainStep priority s e t) (he : ∀ c, e ≠ .free c) :
    t.inProgress = n ∧ ∀ x, t.started x = s.started x := by
  cases plainMove_of_step hst with
  | same hprogress hstarted _ _ _ => exact ⟨hprogress.trans hfull, hstarted⟩
  | first hrun hprogress hbound _ _ _ _ =>
    -- the run queue is empty, so that a CPU that gets would be one too many
    simp only [PlainRun.inProgress, hrun, List.length_nil] at hfull
    omega
  | dropped _ hlong hshort => omega
  | free hfree _ _ _ _ _ => exact absurd hfree (he _)
  | add _ _ hprogress hstarted _ _ _ => exact ⟨hprogress.trans hfull, hstarted⟩

/-- **Nobody is preempted.** When every CPU holds a process, and for as long as none of these processes finishes, they
    are the only ones that wait in the run queue or that a CPU holds, whatever is added, whatever its priority, and
    whoever is put back and how often. -/
theorem no_preemption (priority : α → ℕ) (n : ℕ) (hn : n ≤ maxQueueSize) (s t : PlainRun α n)
    (hs : (plainSystem priority n).Reachable s) (hall : ∀ c, (s.held c).isSome)
    (hrun : ((plainSystem priority n).guard fun _ e => ∀ c, e ≠ .free c).Steps s t) (x : α) :
    t.sched.runQueue.toList.count x + t.inHand x = s.inHand x := by
  have hbusy := busy_eq hall
  have hle := inProgress_le hs
  have hempty : s.sched.runQueue.toList = [] := by
    unfold PlainRun.inProgress at hle
    exact List.eq_nil_of_length_eq_zero (by omega)
  have hfull : s.inProgress = n := by
    rw [PlainRun.inProgress, hempty, List.length_nil, Nat.zero_add, hbusy]
  have hkeep : t.inProgress = n ∧ ∀ x, t.started x = s.started x := by
    induction hrun with
    | refl => exact ⟨hfull, fun _ => rfl⟩
    | tail _ hst ih =>
      obtain ⟨e, hst, he⟩ := hst
      obtain ⟨hfull', hstarted⟩ := started_of_full hn ih.1 hst he
      exact ⟨hfull', fun x => (hstarted x).trans (ih.2 x)⟩
  have hstarted := hkeep.2 x
  unfold PlainRun.started at hstarted
  rw [hempty, List.count_nil, Nat.zero_add] at hstarted
  exact hstarted

/-- The scheduler of one CPU after `init_scheduler`. -/
def oneCpu : PlainRun ℕ 1 := ⟨PlainState.static.initScheduler, fun _ => none, [], []⟩

/-- It has got process 3, process 1 is added, and process 3 is put back. -/
theorem oneCpu_runs : ∃ s t : PlainRun ℕ 1, (plainSystem id 1).Reachable s ∧ s.held 0 = some 3 ∧
    ((plainSystem id 1).guard fun _ e => ∀ c, e ≠ .free c).Steps s t ∧ t.added = [1, 3] := by
  have h : (plainSystem id 1).Reachable oneCpu := .init ⟨.static, rfl⟩
  have h := h.step (PlainStep.add (x := 3) List.not_mem_nil)
  have h := h.step (PlainStep.get (c := 0) rfl)
  obtain ⟨s, hs, hheld, hadded⟩ : ∃ s : PlainRun ℕ 1, (plainSystem id 1).Reachable s ∧
      s.held 0 = some 3 ∧ s.added = [3] := ⟨_, h, rfl, rfl⟩
  have hnew : (1 : ℕ) ∉ s.added := by simp [hadded]
  refine ⟨s, _, hs, hheld, .tail (.tail .refl ⟨_, .add hnew, fun c => by simp⟩)
    ⟨_, .put (c := 0) hheld, fun c => by simp⟩, congrArg _ hadded⟩

theorem no_preemption_one : ∃ s t : PlainRun ℕ 1, t.added = [1, 3] ∧
    t.sched.runQueue.toList.count 1 + t.inHand 1 = s.inHand 1 ∧ s.inHand 1 = 0 := by
  obtain ⟨s, t, hs, hheld, hrun, hadded⟩ := oneCpu_runs
  refine ⟨s, t, hadded, no_preemption id 1 (by simp [maxQueueSize]) s t hs (fun c => ?_) hrun 1, ?_⟩
  · rw [Subsingleton.elim c 0, hheld]
    rfl
  · simp [PlainRun.inHand, weigh, itself, hheld]

/-! ## All processes -/

/-- In how many places `x` is. -/
def PlainRun.places (s : PlainRun α n) (x : α) : ℕ :=
  s.sched.readyQueue.toList.count x + s.started x + s.freed.count x

/-- `add_proc` finds room. -/
def AddRoom (s : PlainRun α n) (e : PlainEvent α n) : Prop :=
  ∀ x, e = .add x → s.sched.readyQueue.toList.length < maxQueueSize

theorem places_of_move {s t : PlainRun α n} {e : PlainEvent α n} (hn : n ≤ maxQueueSize) (hle : s.inProgress ≤ n)
    (hmove : PlainMove s e t) (hroom : AddRoom s e) :
    (t.added = s.added ∧ ∀ x, t.places x = s.places x) ∨
      ∃ y, y ∉ s.added ∧ t.added = y :: s.added ∧ ∀ x, t.places x = s.places x + itself x (some y) := by
  cases hmove with
  | same _ hstarted hready hadded hfreed =>
    exact .inl ⟨hadded, fun x => by rw [PlainRun.places, hready, hstarted, hfreed, PlainRun.places]⟩
  | first _ _ _ hstarted hready hadded hfreed =>
    refine .inl ⟨hadded, fun x => ?_⟩
    have hx := hready x
    rw [PlainRun.places, PlainRun.places, hstarted, hfreed]
    omega
  | dropped _ hlong hshort => omega
  | @free c y _ _ hstarted hsched hadded hfreed =>
    refine .inl ⟨hadded, fun x => ?_⟩
    have hx := hstarted x
    rw [itself_some] at hx
    rw [PlainRun.places, PlainRun.places, hsched, hfreed, List.count_cons]
    simp only [beq_iff_eq]
    omega
  | @add y he hnew _ hstarted hready hadded hfreed =>
    refine .inr ⟨y, hnew, hadded, fun x => ?_⟩
    rw [PlainRun.places, PlainRun.places, hstarted, hfreed, hready, QueueT.toList_enqueue, if_pos (hroom y he),
      List.count_append, List.count_singleton, itself_some]
    simp only [beq_iff_eq]
    omega

/-- **Every process is in one place.** As long as `add_proc` finds room in the ready queue, in every order of calls by
    at most `MAX_QUEUE_SIZE` CPUs and the loader: a process that has been added is in the ready queue, or in the run
    queue, or held by a CPU, or freed, and that once; the run queue never overflows. -/
theorem plain_conserved (priority : α → ℕ) (n : ℕ) (hn : n ≤ maxQueueSize) (s : PlainRun α n)
    (hs : ((plainSystem priority n).guard AddRoom).Reachable s) (x : α) :
    s.sched.readyQueue.toList.count x + s.sched.runQueue.toList.count x + s.inHand x + s.freed.count x
      = if x ∈ s.added then 1 else 0 := by
  suffices h : ∀ x, s.places x = if x ∈ s.added then 1 else 0 by
    have hx := h x
    unfold PlainRun.places PlainRun.started at hx
    omega
  refine Lts.System.Reachable.invariant_of (I := fun s => ∀ x, s.places x = if x ∈ s.added then 1 else 0)
    (fun s hs => inProgress_le hs.of_guard) ?_ ?_ hs
  · rintro s ⟨s₀, rfl⟩ x
    have hhand : weigh (itself x) (fun _ : Fin n => none) = 0 := Finset.sum_eq_zero fun c _ => itself_none x
    simp [PlainRun.places, PlainRun.started, PlainRun.inHand, hhand, initScheduler, QueueT.toList]
  · rintro s e t hle ih ⟨hst, hroom⟩ x
    rcases places_of_move hn hle (plainMove_of_step hst) hroom with ⟨hadded, hplaces⟩ | ⟨y, hnew, hadded, hplaces⟩
    · rw [hplaces, hadded]
      exact ih x
    · rw [hplaces, hadded, ih x, itself_some]
      by_cases hxy : y = x
      · subst hxy
        simp [hnew]
      · simp [hxy, Ne.symm hxy]

theorem plain_conserved_one : ∃ s : PlainRun ℕ 1, s.sched.readyQueue.toList.count 3 +
    s.sched.runQueue.toList.count 3 + s.inHand 3 + s.freed.count 3 = 1 := by
  have h : ((plainSystem id 1).guard AddRoom).Reachable oneCpu := .init ⟨.static, rfl⟩
  have h := h.step ⟨PlainStep.add (x := 3) List.not_mem_nil, fun _ _ => Nat.succ_pos 49⟩
  have h := h.step ⟨PlainStep.get (c := 0) rfl, fun x hx => by simp at hx⟩
  exact ⟨_, (plain_conserved id 1 (by simp [maxQueueSize]) _ h 3).trans (if_pos List.mem_cons_self)⟩

end LamiaAtrium
