import LamiaAtrium.Sched.Correctness.Quota
import LamiaAtrium.Sched.Correctness.Waiting

/-!
# `Sched.Correctness.Fairness` — the shares of the levels, and the order within one

* `Quota` says what a level gets at most between two refills. `exact_share`: a level that has work when the next refill
  comes has got exactly that, however often it has run empty in between. `served_add_slot` is the account.
* `no_overtaking`: within a level, whoever is ahead is returned first.
-/

namespace LamiaAtrium

open SchedState

variable {α : Type} [DecidableEq α]

/-! ## Runs -/

theorem runCalls_cons {s t : SchedRun α} {c : Call α} {cs : List (Call α)} {results : List (Option α)}
    (h : runCalls s (c :: cs) = some (t, results)) : ∃ u r rs, runCall s c = some (u, r) ∧
      runCalls u cs = some (t, rs) ∧ results = r ++ rs := by
  simp only [runCalls] at h
  split at h
  · simp at h
  · rename_i u r hcall
    obtain ⟨⟨v, rs⟩, hrest, heq⟩ := Option.map_eq_some_iff.mp h
    obtain ⟨rfl, rfl⟩ := Prod.mk.inj heq
    exact ⟨u, r, rs, hcall, hrest, rfl⟩

theorem levelled_of_runCalls {calls : List (Call α)} : ∀ {s t : SchedRun α} {results : List (Option α)},
    Levelled s → runCalls s calls = some (t, results) → Levelled t := by
  induction calls with
  | nil =>
    intro s t results hlev hrun
    simp only [runCalls, Option.some.injEq, Prod.mk.injEq] at hrun
    rwa [← hrun.1]
  | cons c cs ih =>
    intro s t results hlev hrun
    obtain ⟨u, r, rs, hcall, hrest, -⟩ := runCalls_cons hrun
    exact ih (levelled_step hlev hcall) hrest

theorem runCall_get {s u : SchedRun α} {r : List (Option α)} (h : runCall s .get = some (u, r)) :
    u = s.afterGet ∧ r = [(s.sched.getMlqProc s.prio).1] := by
  simp only [runCall, Option.some.injEq, Prod.mk.injEq] at h
  exact ⟨h.1.symm, h.2.symm⟩

/-! ## The shares of the levels -/

/-- **The account of a level**: what it has been served and what is left in `slot[p]` add up, as long as nothing is
    refilled. -/
theorem served_add_slot (p : Fin maxPrio) {calls : List (Call α)} : ∀ {s t : SchedRun α} {results : List (Option α)},
    Levelled s → runCalls s calls = some (t, results) → (∀ r ∈ getRecords s calls, r.refilled = false) →
      (served p (getRecords s calls) : ℤ) + t.sched.slot p = s.sched.slot p := by
  induction calls with
  | nil =>
    intro s t results _ hrun _
    simp only [runCalls, Option.some.injEq, Prod.mk.injEq] at hrun
    rw [← hrun.1]
    simp [getRecords, served]
  | cons c cs ih =>
    intro s t results hlev hrun hno
    obtain ⟨u, r, rs, hcall, hrest, -⟩ := runCalls_cons hrun
    have hrecords : getRecords s (c :: cs) = callRecords s c ++ getRecords u cs := by
      simp only [getRecords, hcall]
    rw [hrecords] at hno ⊢
    have hmid := ih (levelled_step hlev hcall) hrest fun r hr => hno r (List.mem_append_right _ hr)
    by_cases hget : c = .get
    · subst hget
      obtain ⟨rfl, -⟩ := runCall_get hcall
      have hfalse : s.sched.refills = false := hno _ (List.mem_append_left _ List.mem_cons_self)
      have hpay := (get_pays hlev p).trans (if_neg (by simp [hfalse]))
      show (served p (getRecord s :: getRecords s.afterGet cs) : ℤ) + _ = _
      rw [served_cons_eq _ hpay]
      omega
    · have hnone : callRecords s c = [] := by
        cases c with
        | get => exact absurd rfl hget
        | put | add | setPrio => rfl
      rw [hnone, List.nil_append, hmid, slot_of_not_get hget hcall]

/-- **The exact share of a level.** Between two consecutive refills of `slot[]`, every level that has work at the
    second one is served exactly `MAX_PRIO - p` times, in every run of `get`, `put` and `add` calls. -/
theorem exact_share (s t : SchedRun α) (hs : (schedSystem α).Reachable s) (hfirst : s.sched.refills = true)
    (calls : List (Call α)) (results : List (Option α)) (hrun : runCalls s (.get :: calls) = some (t, results))
    (hno : ∀ r ∈ getRecords s.afterGet calls, r.refilled = false) (hnext : t.sched.refills = true) (p : Fin maxPrio)
    (hp : t.sched.ready p ≠ []) : served p (getRecords s (.get :: calls)) = maxPrio - p := by
  have hlev := levelled_of_reachable hs
  obtain ⟨u, r, rs, hcall, hrest, -⟩ := runCalls_cons hrun
  obtain ⟨rfl, -⟩ := runCall_get hcall
  have hlev' : Levelled s.afterGet := levelled_get hlev
  have hlevt : Levelled t := levelled_of_runCalls hlev' hrest
  -- the second refill finds nothing left of the level
  have hslot : t.sched.slot p = 0 :=
    le_antisymm (((refills_iff hlevt.inited).mp hnext).2 p hp) (hlevt.slot_nonneg p)
  have hmid := served_add_slot p hlev' hrest hno
  have hpay := (get_pays hlev p).trans (if_pos hfirst)
  have hrecords : getRecords s (.get :: calls) = getRecord s :: getRecords s.afterGet calls := rfl
  have htotal := served_cons_eq (getRecords s.afterGet calls) hpay
  rw [← hrecords] at htotal
  have hle := p.isLt
  unfold fullSlot at htotal
  omega

/-- An initialised scheduler; everybody is of the last level, whose quota is one. -/
def lowStart : SchedRun ℕ := ⟨SchedState.static.initScheduler, fun _ => 139⟩

/-- One process that has been served once and put back. -/
def lowAgain : SchedRun ℕ := ((runCalls lowStart [.add 7, .get, .put 7]).map Prod.fst).getD lowStart

/-- It has been served and put back once more. -/
def lowTwice : SchedRun ℕ := ((runCalls lowAgain [.get, .put 7]).map Prod.fst).getD lowAgain

/-- Level `139`. -/
def lastLevel : Fin maxPrio := ⟨139, by decide⟩

theorem exact_share_low : served lastLevel (getRecords lowAgain [.get, .put 7]) = 140 - 139 := by
  have hadd : (schedSystem ℕ).Reachable ((runCall lowStart (.add 7)).map Prod.fst |>.getD lowStart) :=
    .step (l := .add 7) (.init (s := lowStart) ⟨_, rfl⟩) ⟨[], by rfl⟩
  have hreach : (schedSystem ℕ).Reachable lowAgain :=
    .step (l := .put 7) (.step (l := .get) hadd ⟨_, rfl⟩) ⟨[], by rfl⟩
  have hrun : runCalls lowAgain [.get, .put 7] = some (lowTwice, [some 7]) := by rfl
  have hno : ∀ r ∈ getRecords lowAgain.afterGet [.put 7], r.refilled = false := by
    have hnil : getRecords lowAgain.afterGet [.put 7] = [] := by rfl
    rw [hnil]
    exact List.forall_mem_nil _
  exact exact_share lowAgain lowTwice hreach (by decide +kernel) [.put 7] [some 7] hrun hno (by decide +kernel)
    lastLevel (by decide +kernel)

/-! ## The order within a level -/

/-- `Q` stands behind `P` in level `p`, and nowhere in front of it. -/
def Behind (s : SchedState α) (p : Fin maxPrio) (P Q : α) : Prop :=
  ∃ ahead mid behind, s.ready p = (ahead ++ P :: mid) ++ Q :: behind ∧ Q ∉ ahead

omit [DecidableEq α] in
theorem Behind.mem {s : SchedState α} {p : Fin maxPrio} {P Q : α} (h : Behind s p P Q) : Q ∈ s.ready p := by
  obtain ⟨ahead, mid, behind, hq, -⟩ := h
  rw [hq]
  exact List.mem_append_right _ List.mem_cons_self

omit [DecidableEq α] in
/-- **One `get`** returns `P`, or somebody else than `Q` and leaves `Q` behind `P`. -/
theorem get_keeps_order {s : SchedRun α} (h : Levelled s) {p : Fin maxPrio} {P Q : α} (hb : Behind s.sched p P Q) :
    (s.sched.getMlqProc s.prio).1 = some P ∨
      ((s.sched.getMlqProc s.prio).1 ≠ some Q ∧ Behind s.afterGet.sched p P Q) := by
  have hmem := hb.mem
  obtain ⟨ahead, mid, behind, hq, hQ⟩ := hb
  unfold SchedRun.afterGet
  rcases getMlqProc_cases s.prio h.inited with ⟨hemp, -⟩ | ⟨r, x, t, heq, hserved⟩
  · rw [hemp p] at hmem
    exact absurd hmem List.not_mem_nil
  rw [heq]
  by_cases hrp : r = p
  · subst hrp
    cases ahead with
    | nil =>
      obtain ⟨hret, -⟩ := QueueT.dequeue_fifo s.prio (s.sched.mlqReadyQueue r) hq (h.level r)
      exact .inl (hserved.taken.symm.trans hret)
    | cons a ahead =>
      obtain ⟨hret, hrest⟩ := QueueT.dequeue_fifo s.prio (s.sched.mlqReadyQueue r) hq (h.level r)
      have hx : some x = some a := hserved.taken.symm.trans hret
      refine .inr ⟨fun hQa => hQ ?_, ahead, mid, behind, hserved.ready_self.trans hrest, fun hmem => hQ ?_⟩
      · rw [← Option.some.inj (hQa.symm.trans hx)]
        exact List.mem_cons_self
      · exact List.mem_cons_of_mem a hmem
  · -- another level is served, and nobody there has the priority of `Q`
    refine .inr ⟨fun hQx => ?_, ahead, mid, behind, (hserved.ready_ne (Ne.symm hrp)).trans hq, hQ⟩
    have hlevel := h.level r x (hserved.perm.mem_iff.mpr List.mem_cons_self)
    rw [Option.some.inj hQx, h.level p Q hmem] at hlevel
    exact hrp (Fin.ext hlevel.symm)

/-- **First in, first out.** From any reachable scheduler state with `Q` behind `P` in level `p`, in any continuation by
    `get`, `put` and `add` calls (and changes of `prio` of processes that are not queued), no `get` returns `Q` before
    one has returned `P`. -/
theorem no_overtaking (s : SchedRun α) (hs : (schedSystem α).Reachable s) (p : Fin maxPrio) (P Q : α)
    (hb : Behind s.sched p P Q) (hne : P ≠ Q) (calls : List (Call α)) (t : SchedRun α) (results : List (Option α))
    (hrun : runCalls s calls = some (t, results)) (i : ℕ) (hi : results[i]? = some (some Q)) :
    ∃ j < i, results[j]? = some (some P) := by
  have hlev := levelled_of_reachable hs
  clear hs
  induction calls generalizing s results i with
  | nil =>
    simp only [runCalls, Option.some.injEq, Prod.mk.injEq] at hrun
    rw [← hrun.2] at hi
    cases hi
  | cons c cs ih =>
    obtain ⟨u, r, rs, hcall, hrest, rfl⟩ := runCalls_cons hrun
    have hlev' := levelled_step hlev hcall
    by_cases hget : c = .get
    · subst hget
      obtain ⟨rfl, rfl⟩ := runCall_get hcall
      rw [List.singleton_append] at hi ⊢
      rcases get_keeps_order hlev hb with hret | ⟨hret, hb'⟩
      · -- `P` is first
        rw [hret] at hi ⊢
        refine ⟨0, ?_, rfl⟩
        cases i with
        | zero => exact absurd (Option.some.inj (Option.some.inj hi)) hne
        | succ i => exact Nat.succ_pos i
      · cases i with
        | zero => exact absurd (Option.some.inj hi) hret
        | succ i =>
          obtain ⟨j, hj, hPj⟩ := ih s.afterGet hb' rs hrest i hi hlev'
          exact ⟨j + 1, Nat.succ_lt_succ hj, hPj⟩
    · obtain ⟨ahead, mid, behind, hq, hQ⟩ := hb
      obtain ⟨rfl, -, behind', hq'⟩ := other_call_keeps hget hcall hq
      exact ih u ⟨ahead, mid, behind', hq', hQ⟩ rs hrest i hi hlev'

/-- Two processes of the last level. -/
def lowTwo : SchedRun ℕ := ((runCalls lowStart [.add 1, .add 2]).map Prod.fst).getD lowStart

theorem no_overtaking_low : ∃ t results, runCalls lowTwo [.get, .get] = some (t, results) ∧
    results[1]? = some (some 2) ∧ ∃ j < 1, results[j]? = some (some 1) := by
  have hadd : (schedSystem ℕ).Reachable ((runCall lowStart (.add 1)).map Prod.fst |>.getD lowStart) :=
    .step (l := .add 1) (.init (s := lowStart) ⟨_, rfl⟩) ⟨[], by rfl⟩
  have hreach : (schedSystem ℕ).Reachable lowTwo := .step (l := .add 2) hadd ⟨[], by rfl⟩
  have hq : lowTwo.sched.ready lastLevel = ([] ++ 1 :: []) ++ 2 :: [] := by decide +kernel
  obtain ⟨t, hrun⟩ : ∃ t, runCalls lowTwo [.get, .get] = some (t, [some 1, some 2]) := ⟨_, by rfl⟩
  exact ⟨t, _, hrun, rfl, no_overtaking lowTwo hreach lastLevel 1 2 ⟨[], [], [], hq, List.not_mem_nil⟩ (by decide)
    [.get, .get] t _ hrun 1 rfl⟩

end LamiaAtrium
