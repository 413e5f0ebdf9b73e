import Mathlib.Algebra.BigOperators.Fin
import LamiaAtrium.Sched.Calls
import LamiaAtrium.Os.Os

/-!
# `Os.Correctness.Places` — where a process is

A process that the loader has added is queued, held by a CPU, or reaped. `OsState.places` counts how often,
and `places_step` says once what a step does to the count: nothing, except that an `add` brings a process
in and an `enqueue` on a full level drops one.

* `dispatch_exclusivity`: nobody is in two places, and everybody queued is at their own level.
* `no_process_lost`: as long as no `enqueue` meets a full level, everybody is in some place. Without that
  condition a process can vanish (`no_process_lost_fails`).
-/

namespace LamiaAtrium

open SchedState

variable {n : ℕ} {M : Type} {cfg : Config} {mach : Machine M}

/-! ## Counting -/

/-- Between `free` or `put_proc` and the following `get_proc` the local `proc` of a CPU still points to
    the process it has just given away. -/
def CpuPc.owns : CpuPc → Bool
  | .getAfterFree => false
  | .getAfterPut => false
  | _ => true

/-- The process a CPU holds. -/
def Cpu.held (v : Cpu) : Option ℕ := if v.pc.owns then v.proc else none

theorem Cpu.held_of_owns {v : Cpu} (h : v.pc.owns = true) : v.held = v.proc := if_pos h

theorem Cpu.held_of_not_owns {v : Cpu} (h : v.pc.owns = false) : v.held = none := by
  rw [held, h]
  rfl

/-- How often `x` occurs in the ready queues. -/
def SchedState.readyCount (s : SchedState ℕ) (x : ℕ) : ℕ := ∑ p, (s.ready p).count x

/-- How many CPUs hold `x`. -/
def OsState.heldCount (s : OsState n M) (x : ℕ) : ℕ := ∑ c, if (s.cpu c).held = some x then 1 else 0

/-- In how many places `x` is. -/
def OsState.places (s : OsState n M) (x : ℕ) : ℕ :=
  s.sched.readyCount x + s.heldCount x + s.reaped.count x

/-- `mlq_ready_queue[proc->prio]` is full. -/
def QueueFull (cfg : Config) (s : SchedState ℕ) (x : ℕ) : Prop :=
  ∃ p : Fin maxPrio, (p : ℕ) = cfg.prio x ∧ maxQueueSize ≤ (s.ready p).length

/-- The process that a step enqueues. -/
def OsEvent.enqueued : OsEvent n → Option ℕ
  | .put _ x => some x
  | .add x => some x
  | _ => none

/-- The process that a step brings in. -/
def OsEvent.added : OsEvent n → Option ℕ
  | .add x => some x
  | _ => none

instance (cfg : Config) (s : SchedState ℕ) (x : ℕ) : Decidable (QueueFull cfg s x) :=
  inferInstanceAs (Decidable (∃ p : Fin maxPrio, (p : ℕ) = cfg.prio x ∧ maxQueueSize ≤ (s.ready p).length))

/-- Changing one summand. -/
theorem sum_update_add {k : ℕ} (f : Fin k → ℕ) (i : Fin k) (b : ℕ) :
    (∑ j, Function.update f i b j) + f i = (∑ j, f j) + b := by
  have hrest : ∑ j ∈ {i}ᶜ, Function.update f i b j = ∑ j ∈ {i}ᶜ, f j := by
    refine Finset.sum_congr rfl fun j hj => ?_
    rw [Function.update_of_ne (by simpa using hj)]
  rw [Fintype.sum_eq_add_sum_compl i, Fintype.sum_eq_add_sum_compl i f, hrest, Function.update_self]
  omega

/-- Only CPU `c` changes, so the count over all CPUs changes as it does there. -/
theorem heldCount_of_cpu {s t : OsState n M} (c : Fin n) (h : ∀ d, d ≠ c → t.cpu d = s.cpu d) (x : ℕ) :
    t.heldCount x + (if (s.cpu c).held = some x then 1 else 0)
      = s.heldCount x + if (t.cpu c).held = some x then 1 else 0 := by
  have hfun : (fun d => if (t.cpu d).held = some x then 1 else 0)
      = Function.update (fun d => if (s.cpu d).held = some x then 1 else 0) c
          (if (t.cpu c).held = some x then 1 else 0) := by
    funext d
    by_cases hd : d = c
    · subst hd
      rw [Function.update_self]
    · rw [Function.update_of_ne hd, h d hd]
  unfold OsState.heldCount
  rw [hfun]
  exact sum_update_add _ _ _

/-- Only level `p` changes, so the count over all levels changes as it does there. -/
theorem readyCount_of_level {s t : SchedState ℕ} {p : Fin maxPrio} (h : ∀ q, q ≠ p → t.ready q = s.ready q)
    (x : ℕ) : t.readyCount x + (s.ready p).count x = s.readyCount x + (t.ready p).count x := by
  have hfun : (fun q => (t.ready q).count x)
      = Function.update (fun q => (s.ready q).count x) p ((t.ready p).count x) := by
    funext q
    by_cases hq : q = p
    · subst hq
      rw [Function.update_self]
    · rw [Function.update_of_ne hq, h q hq]
  unfold SchedState.readyCount
  rw [hfun]
  exact sum_update_add _ _ _

/-- A `get` takes what it returns out of the queues. -/
theorem readyCount_get {s : SchedState ℕ} (hi : s.mlqInited = true) (prio : ℕ → ℕ) (x : ℕ) :
    (s.getMlqProc prio).2.readyCount x + (if (s.getMlqProc prio).1 = some x then 1 else 0)
      = s.readyCount x := by
  rcases getMlqProc_cases prio hi with ⟨-, heq⟩ | ⟨p, y, t, heq, hserved⟩
  · rw [heq]
    simp
  · rw [heq]
    have hlevel := readyCount_of_level (fun q hq => hserved.ready_ne hq) x
    have hperm := hserved.perm.count_eq x
    rw [List.count_cons] at hperm
    simp only [beq_iff_eq, Option.some.injEq] at hperm ⊢
    omega

/-- A `get` takes the only process that is queued. -/
theorem getMlqProc_only {s : SchedState ℕ} (hi : s.mlqInited = true) {p : Fin maxPrio} {x : ℕ}
    (hp : s.ready p = [x]) (hother : ∀ q, q ≠ p → s.ready q = []) (prio : ℕ → ℕ) :
    ∃ t, s.getMlqProc prio = (some x, t) ∧ t.mlqInited = true ∧ ∀ q, t.ready q = [] := by
  rcases getMlqProc_cases prio hi with ⟨hempty, -⟩ | ⟨p', y, t, heq, hserved⟩
  · rw [hempty] at hp
    exact absurd hp (by simp)
  · obtain rfl : p' = p := by
      by_contra hne
      exact hserved.nonempty (hother p' hne)
    have hperm := hserved.perm
    rw [hp] at hperm
    obtain ⟨rfl, hrest⟩ := List.cons.inj (List.perm_singleton.mp hperm.symm)
    refine ⟨t, heq, hserved.inited, fun q => ?_⟩
    by_cases hq : q = p'
    · subst hq
      exact hrest
    · rw [hserved.ready_ne hq, hother q hq]

/-- A `put` or an `add` brings its process in, unless the level is full. -/
theorem readyCount_requeue {s t : SchedState ℕ} {y : ℕ} (h : s.requeue cfg.prio y = some t) (x : ℕ) :
    t.readyCount x + (if some y = some x ∧ QueueFull cfg s x then 1 else 0)
      = s.readyCount x + if some y = some x then 1 else 0 := by
  obtain ⟨hp, hself, hother, -⟩ := requeue_spec h
  have hlevel := readyCount_of_level hother x
  have hfull : QueueFull cfg s y ↔ maxQueueSize ≤ (s.ready ⟨cfg.prio y, hp⟩).length := by
    constructor
    · rintro ⟨p, hpy, hlen⟩
      rwa [show p = ⟨cfg.prio y, hp⟩ from Fin.ext hpy] at hlen
    · intro hlen
      exact ⟨_, rfl, hlen⟩
  by_cases hroom : (s.ready ⟨cfg.prio y, hp⟩).length < maxQueueSize
  · -- there is room: one more occurrence of `y`
    rw [if_pos hroom] at hself
    rw [hself, List.count_append, List.count_singleton] at hlevel
    have hnot : ¬ (some y = some x ∧ QueueFull cfg s x) := by
      rintro ⟨heq, hf⟩
      rw [← Option.some.inj heq, hfull] at hf
      exact absurd hroom (Nat.not_lt.mpr hf)
    rw [if_neg hnot]
    simp only [beq_iff_eq, Option.some.injEq] at hlevel ⊢
    omega
  · -- the level is full: `y` is dropped
    rw [if_neg hroom] at hself
    rw [hself] at hlevel
    have hiff : (some y = some x ∧ QueueFull cfg s x) ↔ some y = some x := by
      constructor
      · exact And.left
      · intro heq
        exact ⟨heq, Option.some.inj heq ▸ hfull.mpr (Nat.not_lt.mp hroom)⟩
    simp only [hiff]
    omega

/-- A `get` appends what it returns to the running list, if there is room. -/
theorem runningList_get {s : SchedState ℕ} (hi : s.mlqInited = true) (prio : ℕ → ℕ) :
    (s.getMlqProc prio).2.runningList.toList
      = match (s.getMlqProc prio).1 with
        | none   => s.runningList.toList
        | some x =>
          if s.runningList.toList.length < maxQueueSize then s.runningList.toList ++ [x]
          else s.runningList.toList := by
  rcases getMlqProc_cases prio hi with ⟨-, heq⟩ | ⟨p, x, t, heq, hserved⟩
  · rw [heq]
  · rw [heq]
    show t.runningList.toList = _
    rw [hserved.running, QueueT.toList_enqueue]

/-- A `put` or an `add` takes the first occurrence of its process off the running list. -/
theorem runningList_requeue {prio : ℕ → ℕ} {s t : SchedState ℕ} {x : ℕ} (h : s.requeue prio x = some t) :
    t.runningList.toList = s.runningList.toList.erase x := by
  obtain ⟨-, -, -, -, -, hlist⟩ := requeue_spec h
  rw [hlist, (QueueT.toList_purgequeue _ _).1]

/-! ## What a step does to the places of a process -/

/-- The scheduler calls of a run of the threads are a run of the scheduler. -/
theorem schedReachable_of_os {s : OsState cfg.numCpus M} (h : (osSystem cfg mach).Reachable s) :
    (schedSystem ℕ).Reachable ⟨s.sched, cfg.prio⟩ := by
  induction h with
  | init hs =>
    obtain ⟨m, -, rfl⟩ := hs
    exact .init ⟨_, rfl⟩
  | @step u e v _ hst ih =>
    obtain ⟨now, hos⟩ := hst
    cases hos with
    | cpu hc =>
      cases hc with
      | getIdle _ _ => exact .step (l := Call.get) ih ⟨_, rfl⟩
      | getAfterFree _ => exact .step (l := Call.get) ih ⟨_, rfl⟩
      | getAfterPut _ => exact .step (l := Call.get) ih ⟨_, rfl⟩
      | @put x t _ _ _ _ hput =>
        refine .step (l := Call.put x) ih ⟨[], ?_⟩
        rw [runCall, hput]
        rfl
      | run _ _ hrun =>
        cases hrun with
        | atEnd _ => exact ih
        | exec _ _ => exact ih
      | _ => exact ih
    | ld hl =>
      cases hl with
      | @add t _ hadd =>
        refine .step (l := Call.add u.i) ih ⟨[], ?_⟩
        rw [runCall, hadd]
        rfl
      | _ => exact ih

theorem inited_of_reachable {s : OsState cfg.numCpus M} (h : (osSystem cfg mach).Reachable s) :
    s.sched.mlqInited = true :=
  (levelled_of_reachable (schedReachable_of_os h)).inited

/-- A CPU step leaves the other CPUs alone. -/
theorem CpuStep.cpu_of_ne {s t : OsState n M} {c d : Fin n} {e : OsEvent n} (h : CpuStep cfg mach s c e t)
    (hd : d ≠ c) : t.cpu d = s.cpu d := by
  cases h with
  | run _ _ hrun =>
    rw [cpu_setCpu_of_ne _ _ hd]
    cases hrun <;> rfl
  | _ => rw [cpu_setCpu_of_ne _ _ hd]

/-- What a CPU step does with the process the CPU holds. -/
inductive Hands (cfg : Config) (s : OsState n M) (c : Fin n) (e : OsEvent n) (t : OsState n M) : Prop where
  /-- It goes on with what it holds. -/
  | keep : e.enqueued = none → t.sched = s.sched → t.reaped = s.reaped →
      (t.cpu c).held = (s.cpu c).held → Hands cfg s c e t
  /-- Holding nothing, it calls `get_proc`. -/
  | get : e.enqueued = none → t.sched = (s.sched.getMlqProc cfg.prio).2 → t.reaped = s.reaped →
      (s.cpu c).held = none → (t.cpu c).held = (s.sched.getMlqProc cfg.prio).1 → Hands cfg s c e t
  /-- It frees what it holds, at the end of its code. -/
  | reap {y} : e.enqueued = none → t.sched = s.sched → t.reaped = y :: s.reaped →
      s.procPc y = (cfg.code y).length → t.procPc = s.procPc →
      (s.cpu c).held = some y → (t.cpu c).held = none → Hands cfg s c e t
  /-- It puts what it holds back. -/
  | put {y} : e = .put c y → s.sched.requeue cfg.prio y = some t.sched → t.reaped = s.reaped →
      (s.cpu c).held = some y → (t.cpu c).held = none → Hands cfg s c e t

theorem CpuStep.hands {s t : OsState n M} {c : Fin n} {e : OsEvent n} (h : CpuStep cfg mach s c e t) :
    Hands cfg s c e t := by
  cases h with
  | getIdle hpc hproc =>
    refine .get rfl rfl rfl ?_ ?_
    · rw [Cpu.held_of_owns (by rw [hpc]; rfl), hproc]
    · rw [cpu_setCpu_self]
      exact Cpu.held_of_owns (by split <;> rfl)
  | reap hpc hproc hend =>
    refine .reap rfl rfl rfl hend rfl ?_ ?_
    · rw [Cpu.held_of_owns (by rw [hpc]; rfl), hproc]
    · rw [cpu_setCpu_self]
      exact Cpu.held_of_not_owns rfl
  | getAfterFree hpc | getAfterPut hpc =>
    refine .get rfl rfl rfl (Cpu.held_of_not_owns (by rw [hpc]; rfl)) ?_
    rw [cpu_setCpu_self]
    exact Cpu.held_of_owns rfl
  | put hpc hproc _ _ hput =>
    refine .put rfl hput rfl ?_ ?_
    · rw [Cpu.held_of_owns (by rw [hpc]; rfl), hproc]
    · rw [cpu_setCpu_self]
      exact Cpu.held_of_not_owns rfl
  | dispatch hpc hproc =>
    refine .keep rfl rfl rfl ?_
    rw [cpu_setCpu_self, Cpu.held_of_owns rfl, Cpu.held_of_owns (by rw [hpc]; rfl), hproc]
  | run hpc hproc hrun =>
    cases hrun with
    | atEnd _ | exec _ _ =>
      refine .keep rfl rfl rfl ?_
      rw [cpu_setCpu_self, Cpu.held_of_owns rfl, Cpu.held_of_owns (by rw [hpc]; rfl), hproc]
  | keep hpc _ _ _ | stop hpc _ _ | idle hpc _ _ | call hpc | ret hpc | detach hpc =>
    refine .keep rfl rfl rfl ?_
    rw [cpu_setCpu_self, Cpu.held_of_owns rfl, Cpu.held_of_owns (by rw [hpc]; rfl)]

theorem CpuStep.added {s t : OsState n M} {c : Fin n} {e : OsEvent n} (h : CpuStep cfg mach s c e t) :
    e.added = none ∧ t.i = s.i := by
  cases h with
  | run _ _ hrun => cases hrun <;> exact ⟨rfl, rfl⟩
  | _ => exact ⟨rfl, rfl⟩

theorem places_cpuStep {s t : OsState n M} {c : Fin n} {e : OsEvent n} (hi : s.sched.mlqInited = true)
    (h : CpuStep cfg mach s c e t) (x : ℕ) :
    t.places x + (if e.enqueued = some x ∧ QueueFull cfg s.sched x then 1 else 0) = s.places x := by
  have hcount := heldCount_of_cpu c (fun d => h.cpu_of_ne) x
  unfold OsState.places
  cases h.hands with
  | keep he hsched hreaped hheld =>
    rw [hheld] at hcount
    rw [he, hsched, hreaped]
    simp
    omega
  | get he hsched hreaped hold hnew =>
    have hget := readyCount_get hi cfg.prio x
    rw [hold, hnew] at hcount
    rw [he, hsched, hreaped]
    simp at hcount ⊢
    omega
  | reap he hsched hreaped _ _ hold hnew =>
    rw [hold, hnew] at hcount
    rw [he, hsched, hreaped, List.count_cons]
    simp at hcount ⊢
    omega
  | @put y he hput hreaped hold hnew =>
    have hready := readyCount_requeue hput x
    have hen : e.enqueued = some y := by rw [he]; rfl
    rw [hold, hnew, if_neg (show ¬ (none : Option ℕ) = some x by simp)] at hcount
    rw [hen, hreaped]
    omega

/-- **What a step does to the places of `x`.** -/
theorem places_step {now : ℕ} {s t : OsState n M} {e : OsEvent n} (hi : s.sched.mlqInited = true)
    (h : OsStep cfg mach now s e t) (x : ℕ) :
    t.places x + (if e.enqueued = some x ∧ QueueFull cfg s.sched x then 1 else 0)
      = s.places x + if e.added = some x then 1 else 0 := by
  cases h with
  | cpu hc => rw [hc.added.1, places_cpuStep hi hc x, if_neg (by simp), Nat.add_zero]
  | ld hl =>
    cases hl with
    | @add q hpc hadd =>
      have hready := readyCount_requeue hadd x
      show q.readyCount x + s.heldCount x + s.reaped.count x + _
        = s.sched.readyCount x + s.heldCount x + s.reaped.count x + _
      rw [show (OsEvent.add s.i : OsEvent n).enqueued = some s.i from rfl,
        show (OsEvent.add s.i : OsEvent n).added = some s.i from rfl]
      omega
    | _ => rfl

/-- Only an `add` moves the loader's index, and it adds the process at that index. -/
theorem OsStep.added {now : ℕ} {s t : OsState n M} {e : OsEvent n} (h : OsStep cfg mach now s e t) :
    (e.added = none ∧ t.i = s.i) ∨ (e = .add s.i ∧ t.i = s.i + 1) := by
  cases h with
  | cpu hc => exact .inl hc.added
  | ld hl =>
    cases hl with
    | add _ _ => exact .inr ⟨rfl, rfl⟩
    | _ => exact .inl ⟨rfl, rfl⟩

theorem places_start (m : M) (x : ℕ) : (OsState.start n m).places x = 0 := by
  have hready : (OsState.start n m).sched.readyCount x = 0 := Finset.sum_eq_zero fun p _ => rfl
  have hheld : (OsState.start n m).heldCount x = 0 := Finset.sum_eq_zero fun c _ => rfl
  rw [OsState.places, hready, hheld]
  rfl

/-- **Nobody is in two places**, and nobody is anywhere before being added. -/
theorem places_le {s : OsState cfg.numCpus M} (h : (osSystem cfg mach).Reachable s) (x : ℕ) :
    s.places x ≤ if x < s.i then 1 else 0 := by
  refine Lts.System.Reachable.invariant_of (I := fun s => ∀ x, s.places x ≤ if x < s.i then 1 else 0)
    (fun s hs => inited_of_reachable hs) ?_ ?_ h x
  · rintro s ⟨m, -, rfl⟩ x
    rw [places_start]
    exact Nat.zero_le _
  · rintro s e t hi ih ⟨now, hst⟩ x
    have hstep := places_step hi hst x
    have hle := ih x
    rcases hst.added with ⟨hadd, hti⟩ | ⟨rfl, hti⟩
    · rw [hadd, if_neg (show ¬ (none : Option ℕ) = some x by simp)] at hstep
      rw [hti]
      omega
    · rw [hti]
      by_cases hx : x = s.i
      · subst hx
        rw [if_neg (Nat.lt_irrefl _)] at hle
        rw [if_pos (Nat.lt_succ_self _)]
        simp only [OsEvent.added, if_true] at hstep
        omega
      · have hne : ¬ (OsEvent.add s.i : OsEvent cfg.numCpus).added = some x := by
          rintro heq
          exact hx (Option.some.inj heq).symm
        have hlt : x < s.i + 1 ↔ x < s.i := by omega
        rw [if_neg hne] at hstep
        simp only [hlt]
        omega

theorem count_le_readyCount (s : SchedState ℕ) (p : Fin maxPrio) (x : ℕ) :
    (s.ready p).count x ≤ s.readyCount x :=
  Finset.single_le_sum (f := fun p => (s.ready p).count x) (fun _ _ => Nat.zero_le _) (Finset.mem_univ p)

theorem one_le_heldCount {s : OsState n M} {c : Fin n} {x : ℕ} (h : (s.cpu c).held = some x) :
    1 ≤ s.heldCount x := by
  have := Finset.single_le_sum (f := fun c => if (s.cpu c).held = some x then 1 else 0)
    (fun _ _ => Nat.zero_le _) (Finset.mem_univ c)
  rwa [if_pos h] at this

theorem two_le_heldCount {s : OsState n M} {c d : Fin n} {x : ℕ} (hcd : c ≠ d)
    (hc : (s.cpu c).held = some x) (hd : (s.cpu d).held = some x) : 2 ≤ s.heldCount x := by
  have := Finset.sum_le_sum_of_subset (f := fun c => if (s.cpu c).held = some x then 1 else 0)
    (Finset.subset_univ {c, d})
  rwa [Finset.sum_pair hcd, if_pos hc, if_pos hd] at this

/-- Queued and held together: at most once. -/
theorem queued_or_held {s : OsState cfg.numCpus M} (h : (osSystem cfg mach).Reachable s) (x : ℕ) :
    s.sched.readyCount x + s.heldCount x ≤ 1 := by
  have hle := places_le h x
  unfold OsState.places at hle
  split at hle <;> omega

/-- No process is held by two CPUs. -/
theorem holder_unique {s : OsState cfg.numCpus M} (h : (osSystem cfg mach).Reachable s) {c d : Fin cfg.numCpus}
    {x : ℕ} (hc : (s.cpu c).held = some x) (hd : (s.cpu d).held = some x) : c = d := by
  by_contra hcd
  have htwo := two_le_heldCount hcd hc hd
  have hone := queued_or_held h x
  omega

/-- **Dispatch exclusivity.** In every reachable state no process is held by two CPUs, no process held by a
    CPU is queued, no process is queued twice, and every process queued at level `p` has `prio` `p`. -/
theorem dispatch_exclusivity {s : OsState cfg.numCpus M} (h : (osSystem cfg mach).Reachable s) :
    (∀ c d x, (s.cpu c).held = some x → (s.cpu d).held = some x → c = d) ∧
      (∀ c p x, (s.cpu c).held = some x → x ∉ s.sched.ready p) ∧
      (∀ p, (s.sched.ready p).Nodup) ∧
      (∀ p q x, x ∈ s.sched.ready p → x ∈ s.sched.ready q → p = q) ∧
      ∀ p x, x ∈ s.sched.ready p → cfg.prio x = p := by
  have hone := queued_or_held h
  have hlevel : ∀ p, ∀ x ∈ s.sched.ready p, cfg.prio x = p :=
    (levelled_of_reachable (schedReachable_of_os h)).level
  refine ⟨?_, ?_, ?_, ?_, ?_⟩
  · intro c d x hc hd
    exact holder_unique h hc hd
  · intro c p x hc hx
    have := one_le_heldCount hc
    have := count_le_readyCount s.sched p x
    have := List.count_pos_iff.mpr hx
    have := hone x
    omega
  · intro p
    rw [List.nodup_iff_count_le_one]
    intro x
    have := count_le_readyCount s.sched p x
    have := hone x
    omega
  · intro p q x hp hq
    exact Fin.ext ((hlevel p x hp).symm.trans (hlevel q x hq))
  · intro p x hx
    exact hlevel p x hx

/-- A machine without memory. -/
def noMemory : Machine Unit := ⟨fun _ => True, fun _ _ _ => True, fun _ _ _ _ _ => True⟩

/-- A CPU executes one instruction of the process it is about to dispatch, and passes a slot. The system may forbid
    some `get`s. -/
theorem reachable_turn {T : Lts.System (OsState cfg.numCpus Unit) (OsEvent cfg.numCpus)}
    (hT : ∀ s e t, (osSystem cfg noMemory).step s e t → (∀ c, e ≠ .get c) → T.step s e t)
    {s : OsState cfg.numCpus Unit} (h : T.Reachable s) {c : Fin cfg.numCpus} {x : ℕ} {l : ℤ}
    (hcpu : s.cpu c = ⟨.check, some x, l⟩) {ins : InstT} (hins : (cfg.code x)[s.procPc x]? = some ins) :
    ∃ t : OsState cfg.numCpus Unit, T.Reachable t ∧ t.ld = s.ld ∧ t.i = s.i ∧ t.sched = s.sched ∧
      t.cpu c = ⟨.top, some x, (if l = 0 then cfg.timeSlot else l) - 1⟩ ∧
      t.procPc = Function.update s.procPc x (s.procPc x + 1) ∧ t.reaped = s.reaped := by
  have h1 := h.step (hT _ _ _ ⟨0, .cpu (.dispatch (c := c) (x := x) (by rw [hcpu]) (by rw [hcpu]))⟩ nofun)
  have h2 := h1.step (hT _ _ _ ⟨0, .cpu (.run (c := c) (x := x) (by rw [cpu_setCpu_self])
    (by rw [cpu_setCpu_self]) (.exec (m := ()) hins trivial))⟩ nofun)
  have h3 := h2.step (hT _ _ _ ⟨0, .cpu (.call (c := c) (by rw [cpu_setCpu_self]))⟩ nofun)
  have h4 := h3.step (hT _ _ _ ⟨0, .cpu (.ret (c := c) (by rw [cpu_setCpu_self]))⟩ nofun)
  refine ⟨_, h4, rfl, rfl, rfl, ?_, rfl, rfl⟩
  simp only [cpu_setCpu_self, hcpu]

/-- One CPU and one process of one instruction. -/
def oneProcess : Config := ⟨1, 1, 1, fun _ => 0, fun _ => 0, fun _ => [⟨.calc, 0, 0, 0, 0⟩]⟩

/-- No step enqueues on a full level. -/
def RoomToEnqueue (cfg : Config) (s : OsState n M) (e : OsEvent n) : Prop :=
  ∀ x, e.enqueued = some x → ¬ QueueFull cfg s.sched x

/-- The loader adds the process. -/
theorem oneProcess_added : ∃ s : OsState oneProcess.numCpus Unit,
    ((osSystem oneProcess noMemory).guard (RoomToEnqueue oneProcess)).Reachable s ∧ s.i = 1 := by
  let T := (osSystem oneProcess noMemory).guard (RoomToEnqueue oneProcess)
  obtain ⟨q, hq⟩ : ∃ q, SchedState.addMlqProc oneProcess.prio
      (OsState.start oneProcess.numCpus ()).sched 0 = some q := requeue_isSome _ (show 0 < maxPrio by decide)
  have hsilent : ∀ s : OsState oneProcess.numCpus Unit, RoomToEnqueue oneProcess s .silent := by
    intro s x hx
    cases hx
  have h : T.Reachable (.start _ ()) := .init ⟨(), trivial, rfl⟩
  have h := h.step ⟨⟨0, .ld (.load rfl Nat.one_pos)⟩, hsilent _⟩
  have h := h.step ⟨⟨0, .ld (.onTime rfl (Nat.lt_irrefl 0))⟩, hsilent _⟩
  have h := h.step ⟨⟨0, .ld (.initMm (m := ()) rfl trivial)⟩, hsilent _⟩
  have h := h.step ⟨⟨0, .ld (.add rfl hq)⟩, ?_⟩
  · exact ⟨_, h, rfl⟩
  · rintro x - ⟨p, -, hfull⟩
    exact absurd hfull (Nat.not_succ_le_zero 49)

/-- One CPU with slots of one instruction, and two processes of one level. -/
def twoProcesses (code : List InstT) : Config := ⟨1, 1, 2, fun _ => 0, fun _ => 0, fun _ => code⟩

/-- Their CPU. -/
def twoCpu (code : List InstT) : Fin (twoProcesses code).numCpus := ⟨0, Nat.one_pos⟩

/-- Level `0`. -/
def level0 : Fin maxPrio := ⟨0, Nat.succ_pos 139⟩

/-- The CPU has got the first process, and the second one waits. -/
structure OneWaits (code : List InstT) (s : OsState (twoProcesses code).numCpus Unit) : Prop where
  cpu : s.cpu (twoCpu code) = ⟨.check, some 0, 0⟩
  procPc : ∀ x, s.procPc x = 0
  reaped : s.reaped = []
  inited : s.sched.mlqInited = true
  ready : s.sched.ready level0 = [1]
  others : ∀ q, q ≠ level0 → s.sched.ready q = []
  running : s.sched.runningList.toList = [0]

/-- It comes to that while there is room on the running list. -/
theorem oneWaits {code : List InstT}
    {G : OsState (twoProcesses code).numCpus Unit → OsEvent (twoProcesses code).numCpus → Prop}
    (hG : ∀ s e, s.sched.runningList.toList.length < maxQueueSize → G s e) :
    ∃ s, ((osSystem (twoProcesses code) noMemory).guard G).Reachable s ∧ OneWaits code s := by
  let T := (osSystem (twoProcesses code) noMemory).guard G
  obtain ⟨q, hq⟩ : ∃ q, SchedState.requeue (twoProcesses code).prio
      (OsState.start (twoProcesses code).numCpus ()).sched 0 = some q := requeue_isSome _ (Nat.succ_pos 139)
  obtain ⟨hp, hself, hothers, -, hinit, -⟩ := requeue_spec hq
  have hlist : q.runningList.toList = [] := runningList_requeue hq
  have hinited : q.mlqInited = true := hinit.trans rfl
  obtain ⟨t, hget, htinit, hempty⟩ := getMlqProc_only hinited hself hothers (twoProcesses code).prio
  have htlist : t.runningList.toList = [0] := by
    have hrun := runningList_get hinited (twoProcesses code).prio
    rw [hget, hlist] at hrun
    exact hrun
  obtain ⟨r, hr⟩ : ∃ r, SchedState.requeue (twoProcesses code).prio (q.getMlqProc (twoProcesses code).prio).2 1
      = some r := requeue_isSome _ (Nat.succ_pos 139)
  -- the loader adds the first process
  have h : T.Reachable (.start _ ()) := .init ⟨(), trivial, rfl⟩
  have h := h.step ⟨⟨0, .ld (.load rfl Nat.two_pos)⟩, hG _ _ (Nat.succ_pos 49)⟩
  have h := h.step ⟨⟨0, .ld (.onTime rfl (Nat.lt_irrefl 0))⟩, hG _ _ (Nat.succ_pos 49)⟩
  have h := h.step ⟨⟨0, .ld (.initMm (m := ()) rfl trivial)⟩, hG _ _ (Nat.succ_pos 49)⟩
  have h := h.step ⟨⟨0, .ld (.add rfl hq)⟩, hG _ _ (Nat.succ_pos 49)⟩
  -- the CPU gets it
  have hroom : q.runningList.toList.length < maxQueueSize := by
    rw [hlist]
    exact Nat.succ_pos 49
  have h := h.step ⟨⟨0, .cpu (.getIdle (c := twoCpu code) rfl rfl)⟩, hG _ _ hroom⟩
  -- the loader adds the second one
  have hroom : (q.getMlqProc (twoProcesses code).prio).2.runningList.toList.length < maxQueueSize := by
    rw [hget, htlist]
    exact Nat.succ_lt_succ (Nat.succ_pos 48)
  have h := h.step ⟨⟨0, .ld (.call rfl)⟩, hG _ _ hroom⟩
  have h := h.step ⟨⟨0, .ld (.ret rfl)⟩, hG _ _ hroom⟩
  have h := h.step ⟨⟨0, .ld (.load rfl Nat.one_lt_two)⟩, hG _ _ hroom⟩
  have h := h.step ⟨⟨0, .ld (.onTime rfl (Nat.lt_irrefl 0))⟩, hG _ _ hroom⟩
  have h := h.step ⟨⟨0, .ld (.initMm (m := ()) rfl trivial)⟩, hG _ _ hroom⟩
  have h := h.step ⟨⟨0, .ld (.add rfl hr)⟩, hG _ _ hroom⟩
  rw [hget] at hr
  obtain ⟨hp', hself', hothers', -, hinit', -⟩ := requeue_spec hr
  refine ⟨_, h, ?_, fun _ => rfl, rfl, hinit'.trans htinit, ?_, fun p hne => ?_, ?_⟩
  · rw [cpu_setCpu_self, hget]
    rfl
  · refine hself'.trans ?_
    rw [hempty]
    rfl
  · exact (hothers' p hne).trans (hempty p)
  · rw [runningList_requeue hr, htlist]
    rfl

/-- One process is held, and another one queued. -/
theorem dispatch_exclusivity_two : ∃ s : OsState (twoProcesses []).numCpus Unit,
    (s.cpu (twoCpu [])).held = some 0 ∧ s.sched.ready level0 = [1] ∧
      (∀ c d x, (s.cpu c).held = some x → (s.cpu d).held = some x → c = d) ∧
      (∀ c p x, (s.cpu c).held = some x → x ∉ s.sched.ready p) ∧
      (∀ p, (s.sched.ready p).Nodup) ∧
      (∀ p q x, x ∈ s.sched.ready p → x ∈ s.sched.ready q → p = q) ∧
      ∀ p x, x ∈ s.sched.ready p → (twoProcesses []).prio x = p := by
  obtain ⟨s, h, hs⟩ := @oneWaits [] (fun _ _ => True) fun _ _ _ => trivial
  refine ⟨s, ?_, hs.ready, dispatch_exclusivity h.of_guard⟩
  rw [hs.cpu]
  exact Cpu.held_of_owns rfl

/-! ## Conservation -/

/-- As long as no `enqueue` meets a full level, everybody added is in exactly one place. -/
theorem places_eq {s : OsState cfg.numCpus M}
    (h : ((osSystem cfg mach).guard (RoomToEnqueue cfg)).Reachable s) (x : ℕ) :
    s.places x = if x < s.i then 1 else 0 := by
  refine Lts.System.Reachable.invariant_of (I := fun s => ∀ x, s.places x = if x < s.i then 1 else 0)
    (fun s hs => inited_of_reachable hs.of_guard) ?_ ?_ h x
  · rintro s ⟨m, -, rfl⟩ x
    exact places_start m x
  · rintro s e t hi ih ⟨⟨now, hst⟩, hroom⟩ x
    have hstep := places_step hi hst x
    have heq := ih x
    rw [if_neg (fun hc => hroom x hc.1 hc.2), Nat.add_zero] at hstep
    rw [hstep, heq]
    rcases hst.added with ⟨hadd, hti⟩ | ⟨rfl, hti⟩
    · rw [hadd, hti, if_neg (show ¬ (none : Option ℕ) = some x by simp), Nat.add_zero]
    · rw [hti]
      simp only [OsEvent.added, Option.some.injEq]
      rcases Nat.lt_trichotomy x s.i with hx | hx | hx
      · rw [if_pos hx, if_neg (by omega), if_pos (by omega)]
      · rw [if_neg (by omega), if_pos hx.symm, if_pos (by omega)]
      · rw [if_neg (by omega), if_neg (by omega), if_neg (by omega)]

/-- Only processes at the end of their code are reaped, and they stay there. -/
theorem reaped_atEnd {s : OsState cfg.numCpus M} (h : (osSystem cfg mach).Reachable s) :
    ∀ x ∈ s.reaped, s.procPc x = (cfg.code x).length := by
  refine h.invariant (I := fun s => ∀ x ∈ s.reaped, s.procPc x = (cfg.code x).length) ?_ ?_
  · rintro s ⟨m, -, rfl⟩ x hx
    exact absurd hx List.not_mem_nil
  · rintro s e t ih ⟨now, hst⟩ x hx
    cases hst with
    | cpu hc =>
      cases hc with
      | @reap y _ _ hend =>
        rcases List.mem_cons.mp hx with rfl | hx
        · exact hend
        · exact ih x hx
      | @run y t _ _ hrun =>
        cases hrun with
        | atEnd _ => exact ih x hx
        | exec hins _ =>
          have hend := ih x hx
          by_cases hxy : x = y
          · -- a process at the end of its code has no next instruction
            subst hxy
            rw [hend, List.getElem?_eq_none (Nat.le_refl _)] at hins
            exact absurd hins (by simp)
          · exact (Function.update_of_ne hxy _ _).trans hend
      | _ => exact ih x hx
    | ld hl => cases hl <;> exact ih x hx

/-- Instructions remain, or the process has finished and no CPU has reaped it yet. -/
def Unfinished (cfg : Config) (s : OsState n M) (x : ℕ) : Prop :=
  s.procPc x < (cfg.code x).length ∨ (s.procPc x = (cfg.code x).length ∧ x ∉ s.reaped)

/-- Every process that was added and has not finished is in its ready queue or held by a CPU. -/
def NoneLost (cfg : Config) (s : OsState n M) : Prop :=
  ∀ x < s.i, Unfinished cfg s x →
    (∃ p : Fin maxPrio, (p : ℕ) = cfg.prio x ∧ x ∈ s.sched.ready p) ∨ ∃ c, (s.cpu c).held = some x

/-- **No process is lost** in a run in which no `put` and no `add` meets a full level. -/
theorem no_process_lost {s : OsState cfg.numCpus M}
    (h : ((osSystem cfg mach).guard (RoomToEnqueue cfg)).Reachable s) : NoneLost cfg s := by
  intro x hx hun
  have hplace : s.sched.readyCount x + s.heldCount x + s.reaped.count x = 1 := by
    have := places_eq h x
    rwa [if_pos hx] at this
  have hnot : s.reaped.count x = 0 := by
    rw [List.count_eq_zero]
    intro hmem
    rcases hun with hlt | ⟨-, hnot⟩
    · have := reaped_atEnd h.of_guard x hmem
      omega
    · exact hnot hmem
  rcases Nat.eq_zero_or_pos (s.heldCount x) with hheld | hheld
  · -- then it is queued, at the level that `prio` says
    left
    have hready : s.sched.readyCount x ≠ 0 := by omega
    obtain ⟨p, -, hp⟩ := Finset.exists_ne_zero_of_sum_ne_zero hready
    have hmem : x ∈ s.sched.ready p := List.count_pos_iff.mp (Nat.pos_of_ne_zero hp)
    exact ⟨p, ((levelled_of_reachable (schedReachable_of_os h.of_guard)).level p x hmem).symm, hmem⟩
  · right
    obtain ⟨c, -, hc⟩ := Finset.exists_ne_zero_of_sum_ne_zero hheld.ne'
    refine ⟨c, ?_⟩
    by_contra hne
    exact hc (if_neg hne)

theorem no_process_lost_added :
    ∃ s : OsState oneProcess.numCpus Unit, s.i = 1 ∧ NoneLost oneProcess s := by
  obtain ⟨s, h, hi⟩ := oneProcess_added
  exact ⟨s, hi, no_process_lost h⟩

/-! ### A process that vanishes

One CPU and 52 processes of one level. The CPU keeps the first one for its long time slice, the loader adds
one more in every slot, and the 51st process that waits does not fit into the queue. -/

/-- 52 processes of 100 instructions, all due at once and of one level. -/
def crowd : Config :=
  ⟨100, 1, 52, fun _ => 0, fun _ => 0, fun _ => List.replicate 100 ⟨.calc, 0, 0, 0, 0⟩⟩

/-- The only CPU. -/
def cpu0 : Fin crowd.numCpus := ⟨0, Nat.one_pos⟩

/-- The loader adds its next process. -/
theorem crowd_add {s : OsState crowd.numCpus Unit} (h : (osSystem crowd noMemory).Reachable s) (hld : s.ld = .top)
    (hi : s.i < 52) :
    ∃ t : OsState crowd.numCpus Unit, (osSystem crowd noMemory).Reachable t ∧ t.ld = .slot ∧ t.i = s.i + 1 ∧
      t.cpu = s.cpu ∧ t.procPc = s.procPc ∧ s.sched.requeue crowd.prio s.i = some t.sched := by
  obtain ⟨q, hq⟩ : ∃ q, s.sched.requeue crowd.prio s.i = some q :=
    requeue_isSome _ (show 0 < maxPrio by decide)
  have h1 := h.step ⟨0, .ld (.load hld hi)⟩
  have h2 := h1.step ⟨0, .ld (.onTime rfl (Nat.lt_irrefl 0))⟩
  have h3 := h2.step ⟨0, .ld (.initMm (m := ()) rfl trivial)⟩
  have h4 := h3.step ⟨0, .ld (.add rfl hq)⟩
  exact ⟨_, h4, rfl, rfl, rfl, rfl, hq⟩

/-- The loader passes a slot. -/
theorem crowd_slot {s : OsState crowd.numCpus Unit} (h : (osSystem crowd noMemory).Reachable s) (hld : s.ld = .slot) :
    (osSystem crowd noMemory).Reachable { s with ld := .top } := by
  have h1 := h.step ⟨0, .ld (.call hld)⟩
  exact h1.step ⟨0, .ld (.ret rfl)⟩

/-- The CPU executes one instruction of the process it is about to dispatch, and passes a slot. -/
theorem crowd_run {s : OsState crowd.numCpus Unit} (h : (osSystem crowd noMemory).Reachable s) {x : ℕ} {l : ℤ}
    (hcpu : s.cpu cpu0 = ⟨.check, some x, l⟩) (hpc : s.procPc x < 100) :
    ∃ t : OsState crowd.numCpus Unit, (osSystem crowd noMemory).Reachable t ∧ t.ld = s.ld ∧ t.i = s.i ∧
      t.sched = s.sched ∧ t.cpu cpu0 = ⟨.top, some x, (if l = 0 then 100 else l) - 1⟩ ∧
      t.procPc = Function.update s.procPc x (s.procPc x + 1) := by
  have hins : (crowd.code x)[s.procPc x]? = some ⟨.calc, 0, 0, 0, 0⟩ := by
    show (List.replicate 100 _)[_]? = _
    rw [List.getElem?_replicate, if_pos hpc]
  obtain ⟨t, ht, hld, hi, hsched, hcpu', hpc', -⟩ := reachable_turn (fun _ _ _ hst _ => hst) h hcpu hins
  exact ⟨t, ht, hld, hi, hsched, hcpu', hpc'⟩

/-- After `k` slots the CPU has executed `k` instructions of process `0`, and `1 .. k - 1` wait. -/
structure CrowdAt (k : ℕ) (s : OsState crowd.numCpus Unit) : Prop where
  reachable : (osSystem crowd noMemory).Reachable s
  ld : s.ld = .top
  i : s.i = k
  cpu : s.cpu cpu0 = ⟨.top, some 0, 100 - k⟩
  procPc_zero : s.procPc 0 = k
  procPc : ∀ x, x ≠ 0 → s.procPc x = 0
  ready : s.sched.ready level0 = List.range' 1 (k - 1)

theorem crowdAt_one : ∃ s, CrowdAt 1 s ∧ s.sched.runningList.toList = [0] := by
  obtain ⟨s1, h1, hld1, hi1, hcpu1, hpc1, hq1⟩ :=
    crowd_add (.init ⟨(), trivial, rfl⟩ : (osSystem crowd noMemory).Reachable (.start crowd.numCpus ())) rfl (by decide)
  -- the only process that waits is the one the CPU gets
  obtain ⟨hp, hself, hother, -⟩ := requeue_spec hq1
  have hwait : s1.sched.ready level0 = [0] := hself
  have hothers : ∀ q, q ≠ level0 → s1.sched.ready q = [] := fun q hq => hother q hq
  have hinit := inited_of_reachable h1
  obtain ⟨q, hq, -, hempty⟩ := getMlqProc_only hinit hwait hothers crowd.prio
  have hrest := hempty level0
  have h2 := h1.step ⟨0, .cpu (.getIdle (c := cpu0) (by rw [hcpu1]; rfl) (by rw [hcpu1]; rfl))⟩
  obtain ⟨s3, h3, hld3, hi3, hsched3, hcpu3, hpc3⟩ := crowd_run h2 (l := 0)
    (by rw [cpu_setCpu_self, hcpu1]; simp only [hq]; rfl) (by show s1.procPc 0 < 100; rw [hpc1]; decide)
  refine ⟨_, ⟨crowd_slot h3 (hld3.trans hld1), rfl, hi3.trans hi1, hcpu3, ?_, ?_, ?_⟩, ?_⟩
  · show s3.procPc 0 = 1
    rw [hpc3, Function.update_self]
    show s1.procPc 0 + 1 = 1
    rw [hpc1]
    rfl
  · intro x hx
    show s3.procPc x = 0
    rw [hpc3, Function.update_of_ne hx]
    show s1.procPc x = 0
    rw [hpc1]
    rfl
  · show s3.sched.ready level0 = []
    rw [hsched3]
    show SchedState.ready (s1.sched.getMlqProc crowd.prio).2 level0 = []
    rw [hq]
    exact hrest
  · show s3.sched.runningList.toList = [0]
    have hlist := runningList_get hinit crowd.prio
    rw [hq, runningList_requeue hq1] at hlist
    rw [hsched3]
    show (s1.sched.getMlqProc crowd.prio).2.runningList.toList = [0]
    rw [hq]
    exact hlist

theorem crowdAt_succ {k : ℕ} {s : OsState crowd.numCpus Unit} (h : CrowdAt k s) (hk : 0 < k) (hle : k ≤ 50) :
    ∃ t, CrowdAt (k + 1) t ∧ t.sched.runningList.toList = s.sched.runningList.toList.erase k := by
  obtain ⟨s1, h1, hld1, hi1, hcpu1, hpc1, hq1⟩ := crowd_add h.reachable h.ld (by rw [h.i]; omega)
  obtain ⟨hp, hself, -⟩ := requeue_spec hq1
  have hlen : (s.sched.ready level0).length < maxQueueSize := by
    rw [h.ready, List.length_range']
    show k - 1 < 50
    omega
  have hready : s1.sched.ready level0 = List.range' 1 k := by
    have hself' : s1.sched.ready level0 = if (s.sched.ready level0).length < maxQueueSize then
        s.sched.ready level0 ++ [s.i] else s.sched.ready level0 := hself
    rw [hself', if_pos hlen, h.ready, h.i]
    obtain ⟨k, rfl⟩ : ∃ j, k = j + 1 := ⟨k - 1, by omega⟩
    rw [List.range'_concat, Nat.add_sub_cancel, Nat.one_mul, Nat.add_comm 1 k]
  have hcpu : s1.cpu cpu0 = ⟨.top, some 0, 100 - k⟩ := by rw [hcpu1, h.cpu]
  have hpc : s1.procPc 0 = k := by rw [hpc1, h.procPc_zero]
  have h2 := h1.step ⟨0, .cpu (.keep (c := cpu0) (x := 0) (by rw [hcpu]) (by rw [hcpu])
    (by rw [hpc]; show k ≠ 100; omega) (by rw [hcpu]; show (100 : ℤ) - k ≠ 0; omega))⟩
  obtain ⟨s3, h3, hld3, hi3, hsched3, hcpu3, hpc3⟩ := crowd_run h2 (l := 100 - k)
    (by rw [cpu_setCpu_self, hcpu]) (by show s1.procPc 0 < 100; omega)
  refine ⟨_, ⟨crowd_slot h3 (hld3.trans hld1), rfl, (hi3.trans hi1).trans (by rw [h.i]), ?_, ?_, ?_, ?_⟩, ?_⟩
  · show s3.cpu cpu0 = _
    rw [hcpu3, if_neg (show ¬ (100 : ℤ) - k = 0 by omega)]
    push_cast
    congr 1
    ring
  · show s3.procPc 0 = k + 1
    rw [hpc3, Function.update_self]
    show s1.procPc 0 + 1 = k + 1
    rw [hpc]
  · intro x hx
    show s3.procPc x = 0
    rw [hpc3, Function.update_of_ne hx]
    show s1.procPc x = 0
    rw [hpc1, h.procPc x hx]
  · show s3.sched.ready level0 = _
    rw [hsched3]
    exact hready
  · show s3.sched.runningList.toList = _
    rw [hsched3]
    show s1.sched.runningList.toList = _
    rw [runningList_requeue hq1, h.i]

theorem crowdAt_51 : ∃ s, CrowdAt 51 s ∧ s.sched.runningList.toList = [0] := by
  have hall : ∀ k, k ≤ 50 → ∃ s, CrowdAt (k + 1) s ∧ s.sched.runningList.toList = [0] := by
    intro k
    induction k with
    | zero =>
      intro _
      exact crowdAt_one
    | succ k ih =>
      intro hk
      obtain ⟨s, hs, hlist⟩ := ih (by omega)
      obtain ⟨t, ht, hlist'⟩ := crowdAt_succ hs (Nat.succ_pos k) hk
      refine ⟨t, ht, ?_⟩
      rw [hlist', hlist, List.erase_of_not_mem (by simp)]
  exact hall 50 (Nat.le_refl _)

/-- Process `51` finds its queue full: `add_proc` returns and the process is nowhere. -/
theorem no_process_lost_fails :
    ¬ ∀ s, (osSystem crowd noMemory).Reachable s → NoneLost crowd s := by
  intro hall
  obtain ⟨s, hs, -⟩ := crowdAt_51
  obtain ⟨t, ht, -, hi, hcpu, hpc, hq⟩ := crowd_add hs.reachable hs.ld (by rw [hs.i]; decide)
  obtain ⟨hp, hself, -⟩ := requeue_spec hq
  have hfull : t.sched.ready level0 = List.range' 1 50 := by
    have hself' : t.sched.ready level0 = if (s.sched.ready level0).length < maxQueueSize then
        s.sched.ready level0 ++ [s.i] else s.sched.ready level0 := hself
    rw [hself', hs.ready, if_neg (by decide)]
  rcases hall t ht 51 (by rw [hi, hs.i]; decide) (.inl (by rw [hpc, hs.procPc 51 (by decide)]; decide)) with
    ⟨p, hp0, hmem⟩ | ⟨c, hheld⟩
  · obtain rfl : p = level0 := Fin.ext hp0
    rw [hfull] at hmem
    exact absurd hmem (by decide)
  · obtain rfl : c = cpu0 := Fin.ext (Nat.lt_one_iff.mp c.isLt)
    rw [hcpu, hs.cpu] at hheld
    exact absurd hheld (by decide)

end LamiaAtrium
