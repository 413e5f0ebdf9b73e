import LamiaAtrium.Sched.Calls

/-!
# `Sched.Correctness.Quota` — how many processes of a level one refill buys

Between two refills of `slot[]`, `get_mlq_proc` returns at most `MAX_PRIO - p` processes of level `p`
(`mlq_quota`). A run is seen through the records of its `get`s: did the call refill, and which level did
it serve.

The invariant that carries the count is `slot` itself: a `get` that does not refill pays one slot at the
level it serves, so the services still to come before the next refill never exceed `slot[p]`
(`served_le_slot`), however often the level empties and fills up again in between.
-/

namespace LamiaAtrium

open SchedState

variable {α : Type}

/-! ## The records of a run -/

/-- Does `get_mlq_proc` reset `slot[]` in this state? There is work, and no level with work has budget. -/
def SchedState.refills (s : SchedState α) : Bool :=
  !s.ensureInited.queueEmpty && s.ensureInited.chosenPrio.isNone

/-- What one `get` shows: whether it reset `slot[]`, and the level of the process it returned. -/
structure GetRecord where
  refilled : Bool
  level : Option ℕ

/-- The record of a `get` in state `s`. -/
def getRecord (s : SchedRun α) : GetRecord where
  refilled := s.sched.refills
  level := (s.sched.getMlqProc s.prio).1.map s.prio

/-- The state after a `get`. -/
def SchedRun.afterGet (s : SchedRun α) : SchedRun α := { s with sched := (s.sched.getMlqProc s.prio).2 }

/-- The records one call adds. -/
def callRecords (s : SchedRun α) : Call α → List GetRecord
  | .get => [getRecord s]
  | _ => []

/-- The records of the `get`s of a run, in order. -/
def getRecords [DecidableEq α] (s : SchedRun α) : List (Call α) → List GetRecord
  | [] => []
  | c :: cs =>
    match runCall s c with
    | none => []
    | some (t, _) => callRecords s c ++ getRecords t cs

/-- How many of the calls returned a process of level `p`. -/
def served (p : Fin maxPrio) (rs : List GetRecord) : ℕ := rs.countP fun r => r.level == some (p : ℕ)

theorem served_cons (p : Fin maxPrio) (r : GetRecord) (rs : List GetRecord) :
    served p (r :: rs) = served p rs + if r.level = some (p : ℕ) then 1 else 0 := by
  simp [served, List.countP_cons]

/-! ## One `get` -/

theorem SchedState.refills_iff {s : SchedState α} (hi : s.mlqInited = true) :
    s.refills = true ↔ (∃ p, s.ready p ≠ []) ∧ ∀ p, s.ready p ≠ [] → s.slot p ≤ 0 := by
  rw [refills, ensureInited_of_inited hi, Bool.and_eq_true, Bool.not_eq_true', ← Bool.not_eq_true,
    s.queueEmpty_iff, not_forall, Option.isNone_iff_eq_none]
  refine and_congr_right fun _ => ⟨fun h p => chosenPrio_eq_none h, fun h => ?_⟩
  cases hc : s.chosenPrio with
  | none => rfl
  | some p =>
    obtain ⟨hne, hpos, -⟩ := chosenPrio_eq_some hc
    exact absurd (h p hne) (Int.not_le.mpr hpos)

/-- A `get` returns `NULL` only when every level is empty. -/
theorem ready_eq_nil_of_get_none {s : SchedRun α} (h : s.sched.mlqInited = true)
    (hnull : (s.sched.getMlqProc s.prio).1 = none) (p : Fin maxPrio) : s.sched.ready p = [] := by
  rcases getMlqProc_cases s.prio h with ⟨hemp, -⟩ | ⟨q, x, t, heq, -⟩
  · exact hemp p
  · rw [heq] at hnull
    exact absurd hnull (Option.some_ne_none x)

/-- One slot paid at `q`, seen from `p`. -/
theorem update_pay (f : Fin maxPrio → ℤ) (p q : Fin maxPrio) :
    Function.update f q (f q - 1) p + (if p = q then 1 else 0) = f p := by
  by_cases hpq : p = q
  · subst hpq
    rw [Function.update_self, if_pos rfl, Int.sub_add_cancel]
  · rw [Function.update_of_ne hpq, if_neg hpq, Int.add_zero]

/-- Add the count of one record to the count of the later ones. -/
theorem served_cons_eq {s : SchedRun α} {p : Fin maxPrio} {n : ℤ} (rs : List GetRecord)
    (h : s.afterGet.sched.slot p + (if (getRecord s).level = some (p : ℕ) then 1 else 0) = n) :
    (served p (getRecord s :: rs) : ℤ) = served p rs + (n - s.afterGet.sched.slot p) := by
  rw [served_cons, ← h]
  push_cast
  ring

/-- **What one `get` does to the budgets**: it pays one slot at the level it serves, out of the old
    budget, or out of a full one when it refills. -/
theorem get_pays {s : SchedRun α} (h : Levelled s) (p : Fin maxPrio) :
    s.afterGet.sched.slot p + (if (getRecord s).level = some (p : ℕ) then 1 else 0)
      = if s.sched.refills = true then fullSlot p else s.sched.slot p := by
  unfold getRecord SchedRun.afterGet
  rcases getMlqProc_cases s.prio h.inited with ⟨hemp, heq⟩ | ⟨q, x, t, heq, hserved⟩
  · have hno : ¬ s.sched.refills = true := fun hr =>
      ((refills_iff h.inited).mp hr).1.elim fun q hq => hq (hemp q)
    rw [heq, if_neg hno]
    simp
  -- the process returned is of the level that was served
  have hx : s.prio x = q := h.level q x (hserved.perm.mem_iff.mpr List.mem_cons_self)
  have hlevel : ((some x).map s.prio = some (p : ℕ)) ↔ p = q := by
    rw [Option.map_some, hx, Option.some.injEq, eq_comm, Fin.val_inj]
  rw [heq]
  simp only [hlevel]
  rcases hserved.budget with ⟨hpos, -, hslot⟩ | ⟨hzero, -, hslot⟩
  · have hno : ¬ s.sched.refills = true := fun hr =>
      absurd (((refills_iff h.inited).mp hr).2 q hserved.nonempty) (Int.not_le.mpr hpos)
    rw [if_neg hno, hslot]
    exact update_pay _ p q
  · rw [if_pos ((refills_iff h.inited).mpr ⟨⟨q, hserved.nonempty⟩, hzero⟩), hslot]
    exact update_pay _ p q

variable [DecidableEq α]

/-! ## Runs -/

/-- A call that is not a `get` leaves the budgets alone. -/
theorem slot_of_not_get {s t : SchedRun α} {c : Call α} {r : List (Option α)} (hc : c ≠ .get)
    (hrun : runCall s c = some (t, r)) : t.sched.slot = s.sched.slot := by
  cases c with
  | get => exact absurd rfl hc
  | put x =>
    obtain ⟨u, hu, heq⟩ := Option.map_eq_some_iff.mp hrun
    obtain ⟨rfl, -⟩ := Prod.mk.inj heq
    obtain ⟨-, -, -, hslot, -⟩ := requeue_spec hu
    exact hslot
  | add x =>
    obtain ⟨u, hu, heq⟩ := Option.map_eq_some_iff.mp hrun
    obtain ⟨rfl, -⟩ := Prod.mk.inj heq
    obtain ⟨-, -, -, hslot, -⟩ := requeue_spec hu
    exact hslot
  | setPrio x v =>
    simp only [runCall] at hrun
    split at hrun
    · simp at hrun
    · rw [← (Prod.mk.inj (Option.some.inj hrun)).1]

/-- The first record of a run is made by a `get` in a state of the invariant with the budgets of the start,
    and the rest are the records of the run from there. -/
theorem getRecords_eq_cons {calls : List (Call α)} : ∀ {s : SchedRun α} {r : GetRecord} {rs : List GetRecord},
    Levelled s → getRecords s calls = r :: rs →
      ∃ (u : SchedRun α) (calls' : List (Call α)), Levelled u ∧ u.sched.slot = s.sched.slot ∧ r = getRecord u ∧
        getRecords u.afterGet calls' = rs := by
  induction calls with
  | nil => intro s r rs _ hrec; simp [getRecords] at hrec
  | cons c cs ih =>
    intro s r rs hlev hrec
    simp only [getRecords] at hrec
    split at hrec
    · simp at hrec
    rename_i t results hcall
    by_cases hget : c = .get
    · subst hget
      simp only [runCall, Option.some.injEq, Prod.mk.injEq] at hcall
      obtain ⟨rfl, -⟩ := hcall
      obtain ⟨hr, hrs⟩ := List.cons.inj hrec
      exact ⟨s, cs, hlev, rfl, hr.symm, hrs⟩
    · have hnone : callRecords s c = [] := by
        cases c with
        | get => exact absurd rfl hget
        | put | add | setPrio => rfl
      rw [hnone, List.nil_append] at hrec
      obtain ⟨u, calls', hu, hslot, hr, hrest⟩ := ih (levelled_step hlev hcall) hrec
      exact ⟨u, calls', hu, hslot.trans (slot_of_not_get hget hcall), hr, hrest⟩

/-- Any part of the records is a first part of the records of some run. -/
theorem getRecords_drop {skipped : List GetRecord} :
    ∀ {s : SchedRun α} {calls : List (Call α)} {rs : List GetRecord},
      Levelled s → getRecords s calls = skipped ++ rs →
        ∃ (u : SchedRun α) (calls' : List (Call α)), Levelled u ∧ getRecords u calls' = rs := by
  induction skipped with
  | nil => exact fun {s calls rs} hlev hrec => ⟨s, calls, hlev, hrec⟩
  | cons r skipped ih =>
    intro s calls rs hlev hrec
    obtain ⟨u, calls', hu, -, -, hrest⟩ := getRecords_eq_cons hlev hrec
    exact ih (levelled_get hu) hrest

/-- **Until the next refill, a level is served at most `slot[p]` times.** -/
theorem served_le_slot (p : Fin maxPrio) {mid after : List GetRecord} :
    ∀ {s : SchedRun α} {calls : List (Call α)}, Levelled s → getRecords s calls = mid ++ after →
      (∀ r ∈ mid, r.refilled = false) → (served p mid : ℤ) ≤ s.sched.slot p := by
  induction mid with
  | nil => exact fun hlev _ _ => hlev.slot_nonneg p
  | cons r mid ih =>
    intro s calls hlev hrec hno
    obtain ⟨u, calls', hu, hslot, rfl, hrest⟩ := getRecords_eq_cons hlev hrec
    have hmid := ih (levelled_get hu) hrest fun r hr => hno r (List.mem_cons_of_mem _ hr)
    have hfalse : u.sched.refills = false := hno _ List.mem_cons_self
    have hpay : _ = u.sched.slot p := (get_pays hu p).trans (if_neg (by simp [hfalse]))
    rw [served_cons_eq mid hpay, ← hslot]
    unfold SchedRun.afterGet
    omega

/-- A window that only its first `get` may open with a refill. -/
theorem served_window_le (p : Fin maxPrio) {s : SchedRun α} {calls : List (Call α)} {r : GetRecord}
    {mid after : List GetRecord} (hlev : Levelled s) (hrec : getRecords s calls = r :: (mid ++ after))
    (hno : ∀ r ∈ mid, r.refilled = false) : (served p (r :: mid) : ℤ) ≤ fullSlot p := by
  obtain ⟨u, calls', hu, -, rfl, hrest⟩ := getRecords_eq_cons hlev hrec
  have hmid := served_le_slot p (levelled_get hu) hrest hno
  have hfull : (if u.sched.refills = true then fullSlot p else u.sched.slot p) ≤ fullSlot p := by
    split
    · exact le_refl _
    · exact hu.slot_le p
  rw [served_cons_eq mid (get_pays hu p)]
  unfold SchedRun.afterGet
  omega

/-! ## The quota -/

/-- The quota of the multilevel queue, in a state `s` and in every run from it. -/
structure QuotaKept (s : SchedRun α) : Prop where
  slot_nonneg : ∀ p, 0 ≤ s.sched.slot p
  slot_le : ∀ p, s.sched.slot p ≤ (maxPrio : ℤ) - (p : ℕ)
  /-- `slot[]` is reset only when every level with work has used up its budget. -/
  refill : s.sched.refills = true → ∀ p, s.sched.ready p ≠ [] → s.sched.slot p = 0
  /-- `NULL` means that there is no work. -/
  null : (s.sched.getMlqProc s.prio).1 = none → ∀ p, s.sched.ready p = []
  /-- Consecutive `get`s `r :: mid`, none of which refills after the first, serve level `p` at most
      `MAX_PRIO - p` times. -/
  quota : ∀ (calls : List (Call α)) (skipped : List GetRecord) (r : GetRecord) (mid after : List GetRecord),
    getRecords s calls = skipped ++ r :: (mid ++ after) → (∀ m ∈ mid, m.refilled = false) →
      ∀ p : Fin maxPrio, served p (r :: mid) ≤ maxPrio - p

/-- **The quota of the multilevel queue** holds in every state that `get`, `put` and `add` calls reach from
    `init_scheduler`, and along every run from there. -/
theorem mlq_quota {s : SchedRun α} (hs : (schedSystem α).Reachable s) : QuotaKept s := by
  have hlev := levelled_of_reachable hs
  refine ⟨hlev.slot_nonneg, hlev.slot_le, fun hr p hne => ?_, ready_eq_nil_of_get_none hlev.inited, ?_⟩
  · exact le_antisymm (((refills_iff hlev.inited).mp hr).2 p hne) (hlev.slot_nonneg p)
  · intro calls skipped r mid after hrec hno p
    obtain ⟨u, calls', hu, hrest⟩ := getRecords_drop hlev hrec
    have := served_window_le p hu hrest hno
    unfold fullSlot at this
    omega

/-- Process 9 is of level 0, the others are of level 3. -/
def threeProcesses : SchedRun ℕ := ⟨SchedState.static.initScheduler, fun y => if y = 9 then 0 else 3⟩

/-- Three processes on two levels; the one of level 0 has had its turn and is back. -/
theorem mlq_quota_three : ∃ s, runCalls threeProcesses [.add 7, .add 9, .add 8, .get, .put 9] = some (s, [some 9]) ∧
    s.sched.ready ⟨0, by decide⟩ = [9] ∧ s.sched.ready ⟨3, by decide⟩ = [7, 8] ∧
    s.sched.slot ⟨0, by decide⟩ = 139 ∧ QuotaKept s := by
  have h : (schedSystem ℕ).Reachable threeProcesses := .init ⟨_, rfl⟩
  have h := h.step (l := .add 7) ⟨[], rfl⟩
  have h := h.step (l := .add 9) ⟨[], rfl⟩
  have h := h.step (l := .add 8) ⟨[], rfl⟩
  have h := h.step (l := .get) ⟨_, rfl⟩
  have h := h.step (l := .put 9) ⟨[], rfl⟩
  exact ⟨_, rfl, rfl, rfl, rfl, mlq_quota h⟩

end LamiaAtrium
