import LamiaAtrium.Mem.Syscall
import LamiaAtrium.Os.Correctness.Completion

/-!
# `Os.Correctness.Running` — the running list, and who finds a process there

`get_proc` puts the process it returns on `running_list`, `put_proc` and `add_proc` take theirs off it, and
the branch of `cpu_routine` that frees a finished process does neither.

* `Listed`: whatever is on the list is held by a CPU or freed, once. `listed_iff` is the other direction, for
  runs in which the list never overflows: everything held and everything freed is on it.
* `caller_found`: in those runs `find_pcb_by_pid` finds every process that a CPU holds, unless the memory of a
  freed PCB shows its `pid`. `caller_lost` is what happens when the freed PCBs fill the list.
* `no_dangling`: the queues hold no freed PCB, in runs that free none from the list; when the list does not
  overflow, these are the runs that free none at all.
-/

namespace LamiaAtrium

open SchedState

variable {n : ℕ} {M : Type} {cfg : Config} {mach : Machine M}

/-! ## The two lists that `find_pcb_by_pid` scans -/

/-- A `get` leaves `ready_queue` alone. -/
theorem readyQueue_get {α : Type} (prio : α → ℕ) (s : SchedState α) :
    (s.getMlqProc prio).2.readyQueue = s.readyQueue := by
  have hensure : s.ensureInited.readyQueue = s.readyQueue := by
    unfold ensureInited
    split <;> rfl
  have hdispatch : ∀ (u : SchedState α) p, (u.dispatchFrom prio p).2.readyQueue = u.readyQueue := by
    intro u p
    unfold dispatchFrom
    split <;> rfl
  unfold getMlqProc chooseOrRefill
  dsimp only
  split
  · exact hensure
  · cases s.ensureInited.chosenPrio with
    | some p => exact (hdispatch _ p).trans hensure
    | none =>
      dsimp only
      cases ({ s.ensureInited with slot := fullSlot } : SchedState α).chosenPrio with
      | some p => exact (hdispatch _ p).trans hensure
      | none => exact hensure

/-- A `put` or an `add` leaves `ready_queue` alone. -/
theorem readyQueue_requeue {α : Type} [DecidableEq α] {prio : α → ℕ} {s t : SchedState α} {proc : α}
    (h : s.requeue prio proc = some t) : t.readyQueue = s.readyQueue := by
  unfold requeue at h
  split at h
  · cases h
    rfl
  · cases h

/-! ## What is on the running list -/

/-- How often `x` is held by a CPU or freed. -/
def OsState.served (s : OsState n M) (x : ℕ) : ℕ := s.heldCount x + s.reaped.count x

theorem served_le_places (s : OsState n M) (x : ℕ) : s.served x ≤ s.places x := by
  unfold OsState.served OsState.places
  omega

/-- **Whatever is on the running list is held or freed**, and is on it once. -/
structure Listed (s : OsState n M) : Prop where
  ready : s.sched.readyQueue.toList = []
  nodup : s.sched.runningList.toList.Nodup
  served : ∀ x ∈ s.sched.runningList.toList, 1 ≤ s.served x

/-- **What a step does to the running list**: nothing, or a `get` returns a process that is nowhere else, or a
    process leaves the list. -/
inductive ListMove (cfg : Config) (s : OsState n M) (e : OsEvent n) (t : OsState n M) : Prop where
  | same : t.sched.runningList.toList = s.sched.runningList.toList → (∀ x, t.served x = s.served x) →
      ListMove cfg s e t
  | get {c y} : e = .get c → (s.sched.getMlqProc cfg.prio).1 = some y → s.served y = 0 →
      t.sched.runningList.toList
        = (if s.sched.runningList.toList.length < maxQueueSize then s.sched.runningList.toList ++ [y]
          else s.sched.runningList.toList) →
      (∀ x, t.served x = s.served x + if x = y then 1 else 0) → ListMove cfg s e t
  | requeue {y} : t.sched.runningList.toList = s.sched.runningList.toList.erase y → t.served y = 0 →
      (∀ x, x ≠ y → t.served x = s.served x) → ListMove cfg s e t

/-- A CPU comes to hold a process by a `get`. -/
theorem CpuStep.isGet {s t : OsState n M} {c : Fin n} {e : OsEvent n} {y : ℕ} (h : CpuStep cfg mach s c e t)
    (hold : (s.cpu c).held = none) (hnew : (t.cpu c).held = some y) : ∃ c', e = .get c' := by
  cases h with
  | getIdle _ _ | getAfterFree _ | getAfterPut _ => exact ⟨c, rfl⟩
  | reap _ _ _ | put _ _ _ _ _ =>
    rw [cpu_setCpu_self, Cpu.held_of_not_owns rfl] at hnew
    cases hnew
  | dispatch hpc hproc | keep hpc hproc _ _ | run hpc hproc _ =>
    rw [Cpu.held_of_owns (by rw [hpc]; rfl), hproc] at hold
    cases hold
  | stop hpc _ _ | idle hpc _ _ | call hpc | ret hpc | detach hpc =>
    have hsame : (s.cpu c).proc = some y := by rwa [cpu_setCpu_self, Cpu.held_of_owns rfl] at hnew
    rw [Cpu.held_of_owns (by rw [hpc]; rfl), hsame] at hold
    cases hold

theorem listMove_cpuStep {s t : OsState n M} {c : Fin n} {e : OsEvent n} (hi : s.sched.mlqInited = true)
    (hplaces : ∀ x, s.places x ≤ 1) (h : CpuStep cfg mach s c e t) : ListMove cfg s e t := by
  have hcount := fun x => heldCount_of_cpu c (fun d => h.cpu_of_ne) x
  cases h.hands with
  | keep he hsched hreaped hheld =>
    refine .same (by rw [hsched]) fun x => ?_
    have hx := hcount x
    rw [hheld] at hx
    unfold OsState.served
    rw [hreaped]
    omega
  | get he hsched hreaped hold hnew =>
    have hlist := runningList_get hi cfg.prio
    rw [← hsched] at hlist
    cases hget : (s.sched.getMlqProc cfg.prio).1 with
    | none =>
      rw [hget] at hnew hlist
      refine .same hlist fun x => ?_
      have hx := hcount x
      rw [hold, hnew] at hx
      unfold OsState.served
      rw [hreaped]
      omega
    | some y =>
      rw [hget] at hnew hlist
      obtain ⟨c', rfl⟩ : ∃ c', e = .get c' := h.isGet hold hnew
      refine .get rfl hget ?_ hlist ?_
      · -- it was queued, so it was nowhere else
        have hready := readyCount_get hi cfg.prio y
        have hone := hplaces y
        rw [hget, if_pos rfl] at hready
        unfold OsState.places at hone
        unfold OsState.served
        omega
      · intro x
        have hx := hcount x
        rw [hold, hnew] at hx
        unfold OsState.served
        rw [hreaped]
        simp only [Option.some.injEq, reduceCtorEq, if_false, eq_comm (a := y)] at hx
        omega
  | @reap y he hsched hreaped _ _ hold hnew =>
    refine .same (by rw [hsched]) fun x => ?_
    have hx := hcount x
    rw [hold, hnew] at hx
    unfold OsState.served
    rw [hreaped, List.count_cons]
    simp only [Option.some.injEq, reduceCtorEq, if_false, beq_iff_eq] at hx ⊢
    omega
  | @put y he hput hreaped hold hnew =>
    refine .requeue (runningList_requeue hput) ?_ fun x hxy => ?_
    · have hy := hcount y
      have hone := hplaces y
      rw [hold, hnew, if_pos rfl, if_neg (by simp)] at hy
      unfold OsState.places at hone
      unfold OsState.served
      rw [hreaped]
      omega
    · have hx := hcount x
      rw [hold, hnew, if_neg (by simpa using Ne.symm hxy), if_neg (by simp)] at hx
      unfold OsState.served
      rw [hreaped]
      omega

theorem listMove_of_step {now : ℕ} {s t : OsState n M} {e : OsEvent n} (hi : s.sched.mlqInited = true)
    (hplaces : ∀ x, s.places x ≤ if x < s.i then 1 else 0) (h : OsStep cfg mach now s e t) :
    ListMove cfg s e t := by
  cases h with
  | cpu hc =>
    refine listMove_cpuStep hi (fun x => (hplaces x).trans ?_) hc
    split <;> omega
  | ld hl =>
    cases hl with
    | add hpc hadd =>
      -- the process is new
      have hnew := hplaces s.i
      rw [if_neg (Nat.lt_irrefl _)] at hnew
      exact .requeue (runningList_requeue hadd) (Nat.le_zero.mp ((served_le_places s s.i).trans hnew))
        fun x _ => rfl
    | _ => exact .same rfl fun x => rfl

theorem readyQueue_of_step {now : ℕ} {s t : OsState n M} {e : OsEvent n} (h : OsStep cfg mach now s e t) :
    t.sched.readyQueue = s.sched.readyQueue := by
  cases h with
  | cpu hc =>
    cases hc.hands with
    | keep _ hsched _ _ | reap _ hsched _ _ _ _ _ => rw [hsched]
    | get _ hsched _ _ _ =>
      rw [hsched]
      exact readyQueue_get cfg.prio s.sched
    | put _ hput _ _ _ => exact readyQueue_requeue hput
  | ld hl =>
    cases hl with
    | add _ hadd => exact readyQueue_requeue hadd
    | _ => rfl

theorem Listed.step {s t : OsState n M} {e : OsEvent n} (h : Listed s)
    (hready : t.sched.readyQueue = s.sched.readyQueue) (hmove : ListMove cfg s e t) : Listed t := by
  refine ⟨by rw [hready]; exact h.ready, ?_, ?_⟩
  · cases hmove with
    | same hlist _ =>
      rw [hlist]
      exact h.nodup
    | @get c y _ _ hnew hlist _ =>
      -- what was served by nobody was not on the list
      have hnot : y ∉ s.sched.runningList.toList := by
        intro hy
        have := h.served y hy
        omega
      rw [hlist]
      split
      · exact List.nodup_append_comm.mp (List.nodup_cons.mpr ⟨hnot, h.nodup⟩)
      · exact h.nodup
    | requeue hlist _ _ =>
      rw [hlist]
      exact h.nodup.erase _
  · intro x hx
    cases hmove with
    | same hlist hserved =>
      rw [hserved]
      rw [hlist] at hx
      exact h.served x hx
    | @get c y _ _ _ hlist hserved =>
      rw [hserved]
      by_cases hxy : x = y
      · rw [if_pos hxy]
        exact Nat.le_add_left ..
      · have hold : x ∈ s.sched.runningList.toList := by
          rw [hlist] at hx
          split at hx
          · rcases List.mem_append.mp hx with hx | hx
            · exact hx
            · exact absurd (List.mem_singleton.mp hx) hxy
          · exact hx
        exact (h.served x hold).trans (Nat.le_add_right ..)
    | @requeue y hlist _ hserved =>
      rw [hlist] at hx
      obtain ⟨hxy, hold⟩ := (h.nodup.mem_erase_iff).mp hx
      rw [hserved x hxy]
      exact h.served x hold

theorem listed_of_reachable {s : OsState cfg.numCpus M} (h : (osSystem cfg mach).Reachable s) : Listed s := by
  refine Lts.System.Reachable.invariant_of (I := Listed)
    (J := fun s => s.sched.mlqInited = true ∧ ∀ x, s.places x ≤ if x < s.i then 1 else 0)
    (fun s hs => ⟨inited_of_reachable hs, places_le hs⟩) ?_ ?_ h
  · rintro s ⟨m, -, rfl⟩
    exact ⟨rfl, List.nodup_nil, fun x hx => absurd hx List.not_mem_nil⟩
  · rintro s e t ⟨hi, hplaces⟩ hs ⟨now, hst⟩
    exact hs.step (readyQueue_of_step hst) (listMove_of_step hi hplaces hst)

/-! ## As long as the list has room -/

/-- A `get` that returns a process finds room for it on the running list. -/
def DispatchRoom (cfg : Config) (s : OsState n M) (e : OsEvent n) : Prop :=
  ∀ c, e = .get c → (s.sched.getMlqProc cfg.prio).1.isSome = true →
    s.sched.runningList.toList.length < maxQueueSize

/-- **Whatever is held or freed is on the running list** when that never overflows. -/
theorem listed_iff {s : OsState cfg.numCpus M} (h : ((osSystem cfg mach).guard (DispatchRoom cfg)).Reachable s)
    (x : ℕ) : x ∈ s.sched.runningList.toList ↔ 1 ≤ s.served x := by
  constructor
  · exact (listed_of_reachable h.of_guard).served x
  · refine Lts.System.Reachable.invariant_of (I := fun s => ∀ x, 1 ≤ s.served x → x ∈ s.sched.runningList.toList)
      (fun s hs => hs.of_guard) ?_ ?_ h x
    · rintro s ⟨m, -, rfl⟩ x hx
      have hle := served_le_places (OsState.start cfg.numCpus m) x
      rw [places_start] at hle
      omega
    · rintro s e t hs ih ⟨⟨now, hst⟩, hroom⟩ x hx
      cases listMove_of_step (inited_of_reachable hs) (places_le hs) hst with
      | same hlist hserved =>
        rw [hlist]
        exact ih x (by rwa [hserved] at hx)
      | @get c y he hget _ hlist hserved =>
        rw [if_pos (hroom c he (by rw [hget]; rfl))] at hlist
        rw [hlist, List.mem_append, List.mem_singleton]
        by_cases hxy : x = y
        · exact .inr hxy
        · left
          apply ih
          rwa [hserved, if_neg hxy, Nat.add_zero] at hx
      | @requeue y hlist hgone hserved =>
        have hxy : x ≠ y := by
          rintro rfl
          omega
        rw [hlist, List.mem_erase_of_ne hxy]
        exact ih x (by rwa [hserved x hxy] at hx)

/-- A process that a CPU holds has been loaded, and is not freed. -/
theorem held_live {s : OsState cfg.numCpus M} (h : (osSystem cfg mach).Reachable s) {c : Fin cfg.numCpus} {x : ℕ}
    (hheld : (s.cpu c).held = some x) : x < s.i ∧ x ∉ s.reaped := by
  have hle := places_le h x
  have hone := one_le_heldCount hheld
  unfold OsState.places at hle
  constructor
  · by_contra hlt
    rw [if_neg hlt] at hle
    omega
  · intro hmem
    have := List.count_pos_iff.mpr hmem
    split at hle <;> omega

/-- Inside the loop of `ld_routine`, before `i++`. -/
def LdPc.loading : LdPc → Bool
  | .waitTest => true
  | .waitSlot => true
  | .inWaitSlot => true
  | .initMm => true
  | .add => true
  | _ => false

/-- The loader stops at the last process. -/
theorem i_le_numProcesses {s : OsState cfg.numCpus M} (h : (osSystem cfg mach).Reachable s) :
    s.i ≤ cfg.numProcesses := by
  have hinv : s.i ≤ cfg.numProcesses ∧ (s.ld.loading = true → s.i < cfg.numProcesses) := by
    refine h.invariant (I := fun s => s.i ≤ cfg.numProcesses ∧ (s.ld.loading = true → s.i < cfg.numProcesses)) ?_ ?_
    · rintro s ⟨m, -, rfl⟩
      exact ⟨Nat.zero_le _, fun hc => absurd hc (by simp [OsState.start, LdPc.loading])⟩
    · rintro s e t ⟨hle, hlt⟩ ⟨now, hst⟩
      cases hst with
      | cpu hc =>
        obtain ⟨-, hld, hi⟩ := hc.loader
        rw [hld, hi]
        exact ⟨hle, hlt⟩
      | ld hl =>
        cases hl with
        | load _ hi => exact ⟨hle, fun _ => hi⟩
        | early hpc _ | onTime hpc _ | callWait hpc | retWait hpc | initMm hpc _ =>
          exact ⟨hle, fun _ => hlt (by rw [hpc]; rfl)⟩
        | add hpc _ => exact ⟨hlt (by rw [hpc]; rfl), fun hc => absurd hc (by simp [LdPc.loading])⟩
        | allLoaded _ _ | call _ | ret _ | setDone _ | detach _ =>
          exact ⟨hle, fun hc => absurd hc (by simp [LdPc.loading])⟩
  exact hinv.1

/-! ## The lookup by `pid` -/

/-- `find_pcb_by_pid` on PCBs whose `pid` fields hold `pid`: the memory of a freed one may hold anything. -/
def findPcbIn (pid : ℕ → BitVec 32) (sched : SchedState ℕ) (p : BitVec 32) : Option ℕ :=
  match sched.runningList.toList.find? fun y => pid y == p with
  | some y => some y
  | none   => sched.readyQueue.toList.find? fun y => pid y == p

/-- When freed memory keeps its content, this is the lookup of `__sys_memmap`. -/
theorem findPcbIn_pidOf (sched : SchedState ℕ) (p : BitVec 32) :
    findPcbIn pidOf sched p = Kernel.findPcbByPid sched p := rfl

/-- The `pid`s of an `int` number of processes differ. -/
theorem pidOf_inj {x y : ℕ} (hx : x < 2 ^ 31) (hy : y < 2 ^ 31) (h : pidOf x = pidOf y) : x = y := by
  have hnat := congrArg BitVec.toNat h
  unfold pidOf at hnat
  rw [BitVec.toNat_ofNat, BitVec.toNat_ofNat] at hnat
  omega

/-- The only match of a list is the one found. -/
theorem find?_eq_of_unique {l : List ℕ} {f : ℕ → Bool} {x : ℕ} (hx : x ∈ l) (hfx : f x = true)
    (honly : ∀ y ∈ l, f y = true → y = x) : l.find? f = some x := by
  cases hfind : l.find? f with
  | none => exact absurd hfx (List.find?_eq_none.mp hfind x hx)
  | some y => rw [honly y (List.mem_of_find?_eq_some hfind) (List.find?_some hfind)]

/-- **The caller of a system call is found** when the list has never overflowed and no freed PCB shows its
    `pid`. -/
theorem caller_found (hn : cfg.numProcesses < 2 ^ 31) (s : OsState cfg.numCpus M)
    (h : ((osSystem cfg mach).guard (DispatchRoom cfg)).Reachable s) (pid : ℕ → BitVec 32)
    (hlive : ∀ y, y ∉ s.reaped → pid y = pidOf y) (c : Fin cfg.numCpus) (x : ℕ) (hheld : (s.cpu c).held = some x)
    (hfreed : ∀ y ∈ s.reaped, pid y ≠ pidOf x) : findPcbIn pid s.sched (pidOf x) = some x := by
  have hbound := i_le_numProcesses h.of_guard
  obtain ⟨hxi, hxlive⟩ := held_live h.of_guard hheld
  have hmem : x ∈ s.sched.runningList.toList := by
    rw [listed_iff h]
    exact (one_le_heldCount hheld).trans (Nat.le_add_right ..)
  have hfind : s.sched.runningList.toList.find? (fun y => pid y == pidOf x) = some x := by
    refine find?_eq_of_unique hmem ?_ ?_
    · rw [hlive x hxlive]
      exact beq_self_eq_true _
    · intro y hy hpid
      have hpid : pid y = pidOf x := by simpa using hpid
      by_cases hfree : y ∈ s.reaped
      · exact absurd hpid (hfreed y hfree)
      · -- a live process on the list has been loaded
        have hyi : y < s.i := by
          by_contra hlt
          have hserved := (listed_of_reachable h.of_guard).served y hy
          have hle := (served_le_places s y).trans (places_le h.of_guard y)
          rw [if_neg hlt] at hle
          omega
        rw [hlive y hfree] at hpid
        exact pidOf_inj (by omega) (by omega) hpid
  rw [findPcbIn, hfind]

/-! ## Freed PCBs -/

/-- **No queue points to a freed PCB.** -/
def NoDangling (s : OsState n M) : Prop :=
  ∀ x ∈ s.reaped, x ∉ s.sched.runningList.toList ∧ x ∉ s.sched.readyQueue.toList ∧ ∀ p, x ∉ s.sched.ready p

/-- A step that frees a process finds it off the running list. -/
def FreesUnlisted (s t : OsState n M) : Prop :=
  ∀ x, t.reaped = x :: s.reaped → x ∉ s.sched.runningList.toList

/-- A step frees nothing, or frees one process and leaves the scheduler alone. -/
theorem OsStep.reaped {now : ℕ} {s t : OsState n M} {e : OsEvent n} (h : OsStep cfg mach now s e t) :
    t.reaped = s.reaped ∨ ∃ x, t.reaped = x :: s.reaped ∧ t.sched = s.sched := by
  cases h with
  | cpu hc =>
    cases hc.hands with
    | keep _ _ hreaped _ | get _ _ hreaped _ _ | put _ _ hreaped _ _ => exact .inl hreaped
    | @reap y _ hsched hreaped _ _ _ _ => exact .inr ⟨y, hreaped, hsched⟩
  | ld hl => cases hl <;> exact .inl rfl

/-- Freed processes are not queued anywhere but, perhaps, on the running list. -/
theorem noDangling_iff {s : OsState cfg.numCpus M} (h : (osSystem cfg mach).Reachable s) :
    NoDangling s ↔ ∀ x ∈ s.reaped, x ∉ s.sched.runningList.toList := by
  constructor
  · intro hs x hx
    exact (hs x hx).1
  · intro hs x hx
    refine ⟨hs x hx, ?_, fun p hp => ?_⟩
    · rw [(listed_of_reachable h).ready]
      exact List.not_mem_nil
    · have hle := places_le h x
      have hready := (List.count_pos_iff.mpr hp).trans_le (count_le_readyCount s.sched p x)
      have hreaped := List.count_pos_iff.mpr hx
      unfold OsState.places at hle
      split at hle <;> omega

/-- A freed process does not come back. -/
theorem unlisted_step {now : ℕ} {s t : OsState cfg.numCpus M} {e : OsEvent cfg.numCpus}
    (hs : (osSystem cfg mach).Reachable s) (hst : OsStep cfg mach now s e t) (hfrees : FreesUnlisted s t)
    (ih : ∀ x ∈ s.reaped, x ∉ s.sched.runningList.toList) : ∀ x ∈ t.reaped, x ∉ t.sched.runningList.toList := by
  intro x hx
  rcases hst.reaped with hsame | ⟨y, hreaped, hsched⟩
  · rw [hsame] at hx
    cases listMove_of_step (inited_of_reachable hs) (places_le hs) hst with
    | same hlist _ =>
      rw [hlist]
      exact ih x hx
    | @get c y _ _ hnew hlist _ =>
      -- what a `get` returns was not freed
      have hxy : x ≠ y := by
        rintro rfl
        have := List.count_pos_iff.mpr hx
        unfold OsState.served at hnew
        omega
      rw [hlist]
      split
      · rw [List.mem_append, List.mem_singleton]
        rintro (hmem | hmem)
        · exact ih x hx hmem
        · exact hxy hmem
      · exact ih x hx
    | requeue hlist _ _ =>
      rw [hlist]
      exact fun hmem => ih x hx (List.mem_of_mem_erase hmem)
  · rw [hsched]
    rw [hreaped] at hx
    rcases List.mem_cons.mp hx with rfl | hx
    · exact hfrees x hreaped
    · exact ih x hx

/-- **Freed PCBs.** No queue points to one in a run that frees no process from the running list. In a run in
    which that list never overflows, this is the case exactly as long as no process has been freed. -/
theorem no_dangling (cfg : Config) (mach : Machine M) :
    (∀ s, ((osSystem cfg mach).restrict FreesUnlisted).Reachable s → NoDangling s) ∧
      ∀ s, ((osSystem cfg mach).guard (DispatchRoom cfg)).Reachable s → (NoDangling s ↔ s.reaped = []) := by
  constructor
  · intro s h
    rw [noDangling_iff h.of_restrict]
    refine Lts.System.Reachable.invariant_of (I := fun s => ∀ x ∈ s.reaped, x ∉ s.sched.runningList.toList)
      (fun s hs => hs.of_restrict) ?_ ?_ h
    · rintro s ⟨m, -, rfl⟩ x hx
      exact absurd hx List.not_mem_nil
    · rintro s e t hs ih ⟨⟨now, hst⟩, hfrees⟩
      exact unlisted_step hs hst hfrees ih
  · intro s h
    rw [noDangling_iff h.of_guard]
    constructor
    · intro hs
      rw [List.eq_nil_iff_forall_not_mem]
      intro x hx
      apply hs x hx
      rw [listed_iff h]
      exact (List.count_pos_iff.mpr hx).trans_le (Nat.le_add_left ..)
    · intro hs x hx
      rw [hs] at hx
      exact absurd hx List.not_mem_nil

/-! ## One process, from dispatch to `free` -/

/-- The loader adds the process, and the CPU gets it. -/
theorem oneProcess_held : ∃ s : OsState oneProcess.numCpus Unit,
    ((osSystem oneProcess noMemory).guard (DispatchRoom oneProcess)).Reachable s ∧
      s.cpu onlyCpu = ⟨.check, some 0, 0⟩ ∧ s.procPc 0 = 0 ∧ s.reaped = [] := by
  let T := (osSystem oneProcess noMemory).guard (DispatchRoom oneProcess)
  obtain ⟨q, hq⟩ : ∃ q, SchedState.requeue oneProcess.prio
      (OsState.start oneProcess.numCpus ()).sched 0 = some q := requeue_isSome _ (Nat.succ_pos 139)
  have hother : ∀ (s : OsState oneProcess.numCpus Unit) e, (∀ c, e ≠ .get c) → DispatchRoom oneProcess s e := by
    intro s e he c hc
    exact absurd hc (he c)
  have h : T.Reachable (.start _ ()) := .init ⟨(), trivial, rfl⟩
  have h := h.step ⟨⟨0, .ld (.load rfl Nat.one_pos)⟩, hother _ _ nofun⟩
  have h := h.step ⟨⟨0, .ld (.onTime rfl (Nat.lt_irrefl 0))⟩, hother _ _ nofun⟩
  have h := h.step ⟨⟨0, .ld (.initMm (m := ()) rfl trivial)⟩, hother _ _ nofun⟩
  have h := h.step ⟨⟨0, .ld (.add rfl hq)⟩, hother _ _ nofun⟩
  -- the only process that waits is the one the CPU gets
  obtain ⟨hp, hself, hothers, -⟩ := requeue_spec hq
  obtain ⟨t, hget, -⟩ := getMlqProc_only (inited_of_reachable h.of_guard) hself hothers oneProcess.prio
  have hlist : q.runningList.toList = [] := runningList_requeue hq
  have h := h.step ⟨⟨0, .cpu (.getIdle (c := onlyCpu) rfl rfl)⟩, ?_⟩
  · refine ⟨_, h, ?_, rfl, rfl⟩
    rw [cpu_setCpu_self]
    simp only [hget]
    rfl
  · intro c _ _
    show q.runningList.toList.length < maxQueueSize
    rw [hlist]
    exact Nat.succ_pos 49

/-- Its only instruction is the next one, and ends it. -/
theorem oneProcess_next {procPc : ℕ → ℕ} (h : procPc 0 = 0) :
    (oneProcess.code 0)[procPc 0]? = some ⟨.calc, 0, 0, 0, 0⟩ ∧
      Function.update procPc 0 (procPc 0 + 1) 0 = (oneProcess.code 0).length := by
  rw [Function.update_self, h]
  exact ⟨rfl, rfl⟩

/-- The one instruction of each of two processes. -/
def oneCalc : List InstT := [⟨.calc, 0, 0, 0, 0⟩]

/-- The CPU executes the first of two processes to its end, frees it, and gets the second one. -/
theorem second_held : ∃ s : OsState (twoProcesses oneCalc).numCpus Unit,
    ((osSystem (twoProcesses oneCalc) noMemory).guard (DispatchRoom (twoProcesses oneCalc))).Reachable s ∧
      (s.cpu (twoCpu oneCalc)).held = some 1 ∧ s.reaped = [0] := by
  let cfg := twoProcesses oneCalc
  let c := twoCpu oneCalc
  obtain ⟨s, h, hs⟩ := @oneWaits oneCalc (DispatchRoom cfg) fun s e hroom c _ _ => hroom
  have hother : ∀ (s : OsState cfg.numCpus Unit) e, (∀ d, e ≠ .get d) → DispatchRoom cfg s e := by
    intro s e he d hd
    exact absurd hd (he d)
  have hins : (cfg.code 0)[s.procPc 0]? = some ⟨.calc, 0, 0, 0, 0⟩ := by
    rw [hs.procPc]
    rfl
  have hend : Function.update s.procPc 0 (s.procPc 0 + 1) 0 = (cfg.code 0).length := by
    rw [Function.update_self, hs.procPc]
    rfl
  obtain ⟨t, ht, -, -, hsched, hcpu, hpc, hreaped⟩ :=
    reachable_turn (T := (osSystem cfg noMemory).guard (DispatchRoom cfg))
      (fun s e _ hst he => ⟨hst, hother s e he⟩) h hs.cpu hins
  have ht := ht.step ⟨⟨0, .cpu (.reap (c := c) (x := 0) (by rw [hcpu]) (by rw [hcpu]) (by rw [hpc]; exact hend))⟩,
    hother _ _ nofun⟩
  -- the second process is the only one that waits, and the first one is still on the list
  obtain ⟨q, hget, -⟩ := getMlqProc_only hs.inited hs.ready hs.others cfg.prio
  rw [← hsched] at hget
  have hroom : t.sched.runningList.toList.length < maxQueueSize := by
    rw [hsched, hs.running]
    exact Nat.succ_lt_succ (Nat.succ_pos 48)
  have ht := ht.step ⟨⟨0, .cpu (.getAfterFree (c := c) (by rw [cpu_setCpu_self]))⟩, fun _ _ _ => hroom⟩
  refine ⟨_, ht, ?_, ?_⟩
  · rw [cpu_setCpu_self]
    show Cpu.held ⟨.check, (t.sched.getMlqProc cfg.prio).1, 0⟩ = some 1
    rw [hget]
    rfl
  · show 0 :: t.reaped = [0]
    rw [hreaped, hs.reaped]

/-- The second process is found, although the list holds the freed PCB of the first one, whose `pid` now
    reads `99`. -/
theorem caller_found_second : ∃ s : OsState (twoProcesses oneCalc).numCpus Unit, s.reaped = [0] ∧
    (s.cpu (twoCpu oneCalc)).held = some 1 ∧
      findPcbIn (fun y => if y = 0 then 99 else pidOf y) s.sched (pidOf 1) = some 1 := by
  obtain ⟨s, h, hheld, hreaped⟩ := second_held
  refine ⟨s, hreaped, hheld, caller_found (show 2 < 2 ^ 31 by omega) s h _ ?_ (twoCpu oneCalc) 1 hheld ?_⟩
  · intro y hy
    rw [hreaped, List.mem_singleton] at hy
    exact if_neg hy
  · intro y hy
    rw [hreaped, List.mem_singleton] at hy
    rw [if_pos hy]
    decide

/-- The first process has been freed then, so some queue points to it. -/
theorem no_dangling_second : ∃ s : OsState (twoProcesses oneCalc).numCpus Unit,
    (s.cpu (twoCpu oneCalc)).held = some 1 ∧ s.reaped = [0] ∧ ¬ NoDangling s := by
  obtain ⟨s, h, hheld, hreaped⟩ := second_held
  refine ⟨s, hheld, hreaped, fun hs => ?_⟩
  have hnil := ((no_dangling (twoProcesses oneCalc) noMemory).2 s h).mp hs
  rw [hreaped] at hnil
  cases hnil

/-- **A finished process stays on the running list** after it has been freed. -/
theorem dangling_after_free : ¬ ∀ (cfg : Config) (mach : Machine Unit) (s : OsState cfg.numCpus Unit),
    (osSystem cfg mach).Reachable s → NoDangling s := by
  intro hall
  obtain ⟨s, h, hcpu, hpc, hreaped⟩ := oneProcess_held
  have hlisted : 0 ∈ s.sched.runningList.toList := by
    rw [listed_iff h]
    refine (one_le_heldCount (c := onlyCpu) ?_).trans (Nat.le_add_right ..)
    rw [hcpu]
    exact Cpu.held_of_owns rfl
  obtain ⟨hins, hend⟩ := oneProcess_next hpc
  -- it executes its instruction, and the CPU frees it in the next slot
  obtain ⟨t, h, -, -, hsched, hcpu, hpc, -⟩ := reachable_turn (fun _ _ _ hst _ => hst) h.of_guard hcpu hins
  have h := h.step ⟨0, .cpu (.reap (c := onlyCpu) (x := 0) (by rw [hcpu]) (by rw [hcpu]) (by rw [hpc]; exact hend))⟩
  rw [← hsched] at hlisted
  exact (hall oneProcess noMemory _ h 0 List.mem_cons_self).1 hlisted

/-! ## The list overflows

The crowd again. Its first process executes while the loader brings in the others. From then on the CPU
takes one process after the other, executes and frees it; the 51st does not fit on the running list. -/

/-- The CPU executes the rest of the process it holds, an instruction in every slot. -/
theorem crowd_finish (x : ℕ) : ∀ (m : ℕ) {s : OsState crowd.numCpus Unit}, (osSystem crowd noMemory).Reachable s →
    s.cpu cpu0 = ⟨.top, some x, m⟩ → s.procPc x + m = 100 →
    ∃ t : OsState crowd.numCpus Unit, (osSystem crowd noMemory).Reachable t ∧ t.ld = s.ld ∧ t.sched = s.sched ∧
      t.cpu cpu0 = ⟨.top, some x, 0⟩ ∧ t.procPc x = 100 ∧ ∀ y, y ≠ x → t.procPc y = s.procPc y := by
  intro m
  induction m with
  | zero =>
    intro s h hcpu hpc
    exact ⟨s, h, rfl, rfl, hcpu, hpc, fun y _ => rfl⟩
  | succ m ih =>
    intro s h hcpu hpc
    have hkeep := h.step ⟨0, .cpu (.keep (c := cpu0) (x := x) (by rw [hcpu]) (by rw [hcpu])
      (by show s.procPc x ≠ 100; omega) (by rw [hcpu]; show ((m + 1 : ℕ) : ℤ) ≠ 0; omega))⟩
    obtain ⟨u, hu, hld, -, hsched, hcpu', hpc'⟩ := crowd_run hkeep (x := x) (l := (m + 1 : ℕ))
      (by rw [cpu_setCpu_self, hcpu]) (by show s.procPc x < 100; omega)
    have hpcx : u.procPc x = s.procPc x + 1 := by
      rw [hpc', Function.update_self]
      rfl
    rw [if_neg (by omega), show ((m + 1 : ℕ) : ℤ) - 1 = m by omega] at hcpu'
    obtain ⟨t, ht, hld', hsched', hcpu'', hpct, hrest⟩ := ih hu hcpu' (by omega)
    refine ⟨t, ht, hld'.trans hld, hsched'.trans hsched, hcpu'', hpct, fun y hy => ?_⟩
    rw [hrest y hy, hpc', Function.update_of_ne hy]
    rfl

/-- When all processes are of level `0`, a `get` takes the first one. -/
theorem getMlqProc_front (hprio : ∀ x, cfg.prio x = 0) {s : OsState cfg.numCpus M}
    (h : (osSystem cfg mach).Reachable s) {x : ℕ} {l : List ℕ} (hready : s.sched.ready level0 = x :: l) :
    ∃ q, s.sched.getMlqProc cfg.prio = (some x, q) ∧ q.ready level0 = l := by
  have hlevelled := levelled_of_reachable (schedReachable_of_os h)
  rcases getMlqProc_cases cfg.prio hlevelled.inited with ⟨hempty, -⟩ | ⟨p, y, q, hget, hserved⟩
  · rw [hempty] at hready
    cases hready
  · obtain ⟨z, hz⟩ := List.exists_mem_of_ne_nil _ hserved.nonempty
    obtain rfl : level0 = p := Fin.ext ((hprio z).symm.trans (hlevelled.level p z hz))
    obtain ⟨hfst, hrest⟩ := QueueT.dequeue_fifo cfg.prio _ hready (p := 0) fun y _ => hprio y
    obtain rfl : x = y := Option.some.inj (hfst.symm.trans hserved.taken)
    exact ⟨q, hget, hserved.ready_self.trans hrest⟩

/-- The loader finds no room for the last process, and leaves. -/
theorem crowd_loader {s : OsState crowd.numCpus Unit} (h : (osSystem crowd noMemory).Reachable s) (hld : s.ld = .top)
    (hi : s.i = 51) (hfull : s.sched.ready level0 = List.range' 1 50) :
    ∃ t : OsState crowd.numCpus Unit, (osSystem crowd noMemory).Reachable t ∧ t.ld = .exited ∧ t.cpu = s.cpu ∧
      t.procPc = s.procPc ∧ t.sched.ready level0 = List.range' 1 50 ∧
      t.sched.runningList.toList = s.sched.runningList.toList.erase 51 := by
  obtain ⟨t, ht, hld', hi', hcpu, hpc, hq⟩ := crowd_add h hld (by rw [hi]; exact Nat.lt_succ_self 51)
  obtain ⟨hp, hself, -⟩ := requeue_spec hq
  have hready : t.sched.ready level0 = List.range' 1 50 := by
    have hself' : t.sched.ready level0 = if (s.sched.ready level0).length < maxQueueSize then
        s.sched.ready level0 ++ [s.i] else s.sched.ready level0 := hself
    rw [hself', hfull, List.length_range', if_neg (show ¬ 50 < maxQueueSize from Nat.lt_irrefl 50)]
  have h1 := crowd_slot ht hld'
  have h2 := h1.step ⟨0, .ld (.allLoaded rfl (by show ¬ t.i < 52; omega))⟩
  have h3 := h2.step ⟨0, .ld (.setDone rfl)⟩
  have h4 := h3.step ⟨0, .ld (.detach rfl)⟩
  exact ⟨_, h4, rfl, hcpu, hpc, hready, (runningList_requeue hq).trans (by rw [hi])⟩

/-- The CPU has executed process `k` to its end; the later ones wait, and this one and the earlier ones are on
    the running list. -/
structure DrainAt (k : ℕ) (s : OsState crowd.numCpus Unit) : Prop where
  reachable : (osSystem crowd noMemory).Reachable s
  ld : s.ld = .exited
  cpu : s.cpu cpu0 = ⟨.top, some k, 0⟩
  procPc : s.procPc k = 100
  later : ∀ x, k < x → s.procPc x = 0
  ready : s.sched.ready level0 = List.range' (k + 1) (50 - k)
  running : s.sched.runningList.toList = List.range (k + 1)

theorem drainAt_zero : ∃ s, DrainAt 0 s := by
  obtain ⟨s, hs, hlist⟩ := crowdAt_51
  obtain ⟨t, ht, hld, hcpu, hpc, hready, hlist'⟩ := crowd_loader hs.reachable hs.ld hs.i hs.ready
  have hpc0 : t.procPc 0 = 51 := by rw [hpc, hs.procPc_zero]
  obtain ⟨u, hu, hldu, hsched, hcpuu, hpcu, hrest⟩ :=
    crowd_finish 0 49 ht (by rw [hcpu, hs.cpu]; norm_num) (by rw [hpc0])
  refine ⟨u, hu, hldu.trans hld, hcpuu, hpcu, fun x hx => ?_, ?_, ?_⟩
  · rw [hrest x (Nat.ne_of_gt hx), hpc, hs.procPc x (Nat.ne_of_gt hx)]
  · rw [hsched, hready]
  · rw [hsched, hlist', hlist, List.erase_of_not_mem (by simp)]
    rfl

/-- The CPU frees the process and gets the next one. -/
theorem crowd_next {k : ℕ} {s : OsState crowd.numCpus Unit} (h : DrainAt k s) (hk : k < 50) :
    ∃ (t : OsState crowd.numCpus Unit) (q : SchedState ℕ), (osSystem crowd noMemory).Reachable t ∧
      t.ld = .exited ∧ t.cpu cpu0 = ⟨.check, some (k + 1), 0⟩ ∧ t.procPc = s.procPc ∧ t.sched = q ∧
      s.sched.getMlqProc crowd.prio = (some (k + 1), q) ∧ q.ready level0 = List.range' (k + 2) (50 - (k + 1)) := by
  obtain ⟨m, hm⟩ : ∃ m, 50 - k = m + 1 := ⟨50 - (k + 1), by omega⟩
  have hready := h.ready
  rw [hm, List.range'_succ] at hready
  obtain ⟨q, hget, hrest⟩ := getMlqProc_front (fun _ => rfl) h.reachable hready
  have h1 := h.reachable.step ⟨0, .cpu (.reap (c := cpu0) (x := k) (by rw [h.cpu]) (by rw [h.cpu]) h.procPc)⟩
  have h2 := h1.step ⟨0, .cpu (.getAfterFree (c := cpu0) (by rw [cpu_setCpu_self]))⟩
  refine ⟨_, q, h2, h.ld, ?_, rfl, ?_, hget, ?_⟩
  · rw [cpu_setCpu_self]
    show Cpu.mk .check (s.sched.getMlqProc crowd.prio).1 0 = _
    rw [hget]
  · show (s.sched.getMlqProc crowd.prio).2 = q
    rw [hget]
  · rw [hrest, show m = 50 - (k + 1) by omega]

theorem drainAt_succ {k : ℕ} {s : OsState crowd.numCpus Unit} (h : DrainAt k s) (hk : k < 49) :
    ∃ t, DrainAt (k + 1) t := by
  obtain ⟨t, q, ht, hld, hcpu, hpc, hsched, hget, hready⟩ := crowd_next h (by omega)
  have hpck : t.procPc (k + 1) = 0 := by rw [hpc, h.later (k + 1) (Nat.lt_succ_self k)]
  -- there is room on the running list
  have hlist := runningList_get (inited_of_reachable h.reachable) crowd.prio
  rw [hget, h.running, List.length_range] at hlist
  dsimp only at hlist
  rw [if_pos (show k + 1 < maxQueueSize from Nat.succ_lt_succ hk), ← List.range_succ] at hlist
  obtain ⟨u, hu, hldu, -, hschedu, hcpuu, hpcu⟩ := crowd_run ht hcpu (by omega)
  have hpcuk : u.procPc (k + 1) = 1 := by rw [hpcu, Function.update_self, hpck]
  obtain ⟨v, hv, hldv, hschedv, hcpuv, hpcv, hrest⟩ :=
    crowd_finish (k + 1) 99 hu (by rw [hcpuu]; rfl) (by rw [hpcuk])
  refine ⟨v, hv, hldv.trans (hldu.trans hld), hcpuv, hpcv, fun x hx => ?_, ?_, ?_⟩
  · rw [hrest x (Nat.ne_of_gt hx), hpcu, Function.update_of_ne (Nat.ne_of_gt hx), hpc, h.later x (by omega)]
  · rw [hschedv, hschedu, hsched, hready]
  · rw [hschedv, hschedu, hsched, hlist]

theorem drainAt_49 : ∃ s, DrainAt 49 s := by
  have hall : ∀ k, k ≤ 49 → ∃ s, DrainAt k s := by
    intro k
    induction k with
    | zero =>
      intro _
      exact drainAt_zero
    | succ k ih =>
      intro hk
      obtain ⟨s, hs⟩ := ih (by omega)
      exact drainAt_succ hs (by omega)
  exact hall 49 (Nat.le_refl _)

/-- **The 51st process of the crowd is not found**: the list is full of freed PCBs when it is dispatched. -/
theorem caller_lost : ¬ ∀ (cfg : Config) (mach : Machine Unit) (s : OsState cfg.numCpus Unit),
    cfg.numCpus ≤ maxQueueSize → (osSystem cfg mach).Reachable s → ∀ c x, (s.cpu c).held = some x →
      findPcbIn pidOf s.sched (pidOf x) = some x := by
  intro hall
  obtain ⟨s, hs⟩ := drainAt_49
  obtain ⟨t, q, ht, -, hcpu, -, hsched, hget, -⟩ := crowd_next hs (Nat.lt_succ_self 49)
  have hlist := runningList_get (inited_of_reachable hs.reachable) crowd.prio
  rw [hget, hs.running, List.length_range] at hlist
  dsimp only at hlist
  rw [if_neg (show ¬ 49 + 1 < maxQueueSize from Nat.lt_irrefl 50), ← hsched] at hlist
  have hheld : (t.cpu cpu0).held = some 50 := by
    rw [hcpu]
    exact Cpu.held_of_owns rfl
  have hfound := hall crowd noMemory t (Nat.succ_le_succ (Nat.zero_le 49)) ht cpu0 50 hheld
  -- no entry of the list has its `pid`
  have hmiss : (List.range 50).find? (fun y => pidOf y == pidOf 50) = none := by
    rw [List.find?_eq_none]
    intro y hy hpid
    have hlt := List.mem_range.mp hy
    have heq : y = 50 := pidOf_inj (by omega) (by omega) (by simpa using hpid)
    omega
  rw [findPcbIn, hlist, hmiss, (listed_of_reachable ht).ready] at hfound
  cases hfound

end LamiaAtrium
