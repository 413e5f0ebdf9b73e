import LamiaAtrium.Sched.Calls

/-!
# `Sched.Correctness.Waiting` — bounded waiting under the multilevel queue

A process `P` in a ready queue is dispatched after a number of `get_mlq_proc` calls that depends only on
its level and on the number of processes ahead of it (`bounded_waiting`).

The measure has two parts. `wait s p` counts the `get`s that can still go to other levels before level `p`
is served: the remaining budget of the smaller levels while `p` itself has budget, and otherwise the
remaining budget of all other levels plus one refill of the smaller ones. It never exceeds `waitBound p`,
so each service of level `p` costs at most `waitBound p + 1` calls, and every service of the level brings
`P` one place closer to its head.
-/

namespace LamiaAtrium

open SchedState Finset

/-! ## The measure -/

/-- `B_p`: one refill of every other level and one more of the smaller ones. -/
def waitBound (p : Fin maxPrio) : ℕ :=
  (∑ q ∈ univ.erase p, (maxPrio - (q : ℕ))) + ∑ q ∈ Iio p, (maxPrio - (q : ℕ))

variable {α : Type}

/-- The calls that can go to other levels before level `p` is served. -/
def SchedState.wait (s : SchedState α) (p : Fin maxPrio) : ℕ :=
  if 0 < s.slot p then ∑ q ∈ Iio p, (s.slot q).toNat
  else (∑ q ∈ univ.erase p, (s.slot q).toNat) + ∑ q ∈ Iio p, (maxPrio - (q : ℕ))

theorem toNat_fullSlot (q : Fin maxPrio) : (fullSlot q).toNat = maxPrio - (q : ℕ) := by
  unfold fullSlot; omega

/-- Paying one slot out of a positive budget lowers every sum of budgets that counts it. -/
theorem sum_pay_lt {S : Finset (Fin maxPrio)} {f : Fin maxPrio → ℤ} {r : Fin maxPrio} (hr : r ∈ S)
    (hpos : 0 < f r) :
    ∑ q ∈ S, (Function.update f r (f r - 1) q).toNat < ∑ q ∈ S, (f q).toNat := by
  refine sum_lt_sum (fun q _ => ?_) ⟨r, hr, ?_⟩
  · by_cases hq : q = r
    · subst hq; rw [Function.update_self]; omega
    · rw [Function.update_of_ne hq]
  · rw [Function.update_self]; omega

theorem wait_le_waitBound [DecidableEq α] {s : SchedRun α} (h : Levelled s) (p : Fin maxPrio) :
    s.sched.wait p ≤ waitBound p := by
  have hle : ∀ q, (s.sched.slot q).toNat ≤ maxPrio - (q : ℕ) := fun q => by
    rw [← toNat_fullSlot]; exact Int.toNat_le_toNat (h.slot_le q)
  unfold SchedState.wait waitBound
  split
  · exact (sum_le_sum fun q _ => hle q).trans (Nat.le_add_left _ _)
  · exact Nat.add_le_add_right (sum_le_sum fun q _ => hle q) _

/-! ## One call -/

/-- **A `get` that serves another level lowers the wait** of a level that has work. -/
theorem SchedState.Served.wait_lt {prio : α → ℕ} {s t : SchedState α} {p r : Fin maxPrio} {x : α}
    (h : Served prio s r x t) (hne : s.ready p ≠ []) (hrp : r ≠ p) : t.wait p < s.wait p := by
  rcases h.budget with ⟨hpos, hlt, hslot⟩ | ⟨hzero, hemp, hslot⟩
  · have hsame : t.slot p = s.slot p := by rw [hslot, Function.update_of_ne hrp.symm]
    unfold SchedState.wait
    rw [hsame]
    split
    · rename_i hp
      -- `p` has budget, so the level served in its place is smaller
      have hr : r < p := by
        rcases lt_trichotomy r p with hr | hr | hr
        · exact hr
        · exact absurd hr hrp
        · exact absurd (hlt p hr hne) (Int.not_le.mpr hp)
      rw [hslot]
      exact sum_pay_lt (mem_Iio.mpr hr) hpos
    · rw [hslot]
      exact Nat.add_lt_add_right (sum_pay_lt (mem_erase.mpr ⟨hrp, mem_univ r⟩) hpos) _
  · -- the refill: from here on only the smaller levels can come first
    have hr : r < p := by
      rcases lt_trichotomy r p with hr | hr | hr
      · exact hr
      · exact absurd hr hrp
      · exact absurd (hemp p hr) hne
    have hp : ¬ 0 < s.slot p := Int.not_lt.mpr (hzero p hne)
    have hp' : 0 < t.slot p := by
      rw [hslot, Function.update_of_ne hrp.symm]; exact fullSlot_pos p
    have hpay := sum_pay_lt (mem_Iio.mpr hr) (fullSlot_pos r)
    simp only [toNat_fullSlot] at hpay
    unfold SchedState.wait
    rw [if_neg hp, if_pos hp', hslot]
    exact hpay.trans_le (Nat.le_add_left _ _)

variable [DecidableEq α]

/-- **One `get`** either returns `P` or lowers the measure of `P`. -/
theorem get_progress {s : SchedRun α} (h : Levelled s) {p : Fin maxPrio} {ahead behind : List α} {P : α}
    (hq : s.sched.ready p = ahead ++ P :: behind) :
    (s.sched.getMlqProc s.prio).1 = some P ∨
      ∃ ahead' behind', (s.sched.getMlqProc s.prio).2.ready p = ahead' ++ P :: behind' ∧
        ahead'.length * (waitBound p + 1) + (s.sched.getMlqProc s.prio).2.wait p
          < ahead.length * (waitBound p + 1) + s.sched.wait p := by
  have hne : s.sched.ready p ≠ [] := by rw [hq]; simp
  rcases getMlqProc_cases s.prio h.inited with ⟨hemp, -⟩ | ⟨r, x, t, heq, hserved⟩
  · exact absurd (hemp p) hne
  rw [heq]
  by_cases hrp : r = p
  · -- level `p` is served: first in, first out, since all of it has priority `p`
    subst hrp
    cases ahead with
    | nil =>
      obtain ⟨hret, -⟩ := QueueT.dequeue_fifo s.prio (s.sched.mlqReadyQueue r) hq (h.level r)
      exact .inl (hserved.taken.symm.trans hret)
    | cons a ahead =>
      obtain ⟨-, hrest⟩ := QueueT.dequeue_fifo s.prio (s.sched.mlqReadyQueue r) hq (h.level r)
      have hlev : Levelled { s with sched := t } := by
        have := levelled_get h
        rwa [heq] at this
      have hw : t.wait r ≤ waitBound r := wait_le_waitBound hlev r
      refine .inr ⟨ahead, behind, hserved.ready_self.trans hrest, ?_⟩
      rw [List.length_cons, Nat.add_mul, Nat.one_mul]
      show ahead.length * (waitBound r + 1) + t.wait r < _
      omega
  · exact .inr ⟨ahead, behind, (hserved.ready_ne (Ne.symm hrp)).trans hq,
      Nat.add_lt_add_left (hserved.wait_lt hne hrp) _⟩

/-- **A call that is not a `get`** leaves `P` where it is and returns nothing. -/
theorem other_call_keeps {s t : SchedRun α} {c : Call α} {r : List (Option α)} (hc : c ≠ .get)
    (hrun : runCall s c = some (t, r)) {p : Fin maxPrio} {ahead behind : List α} {P : α}
    (hq : s.sched.ready p = ahead ++ P :: behind) :
    r = [] ∧ t.sched.wait p = s.sched.wait p ∧
      ∃ behind', t.sched.ready p = ahead ++ P :: behind' := by
  have hrequeue : ∀ {x : α} {u : SchedState α}, s.sched.requeue s.prio x = some u →
      u.wait p = s.sched.wait p ∧ ∃ behind', u.ready p = ahead ++ P :: behind' := by
    intro x u hu
    obtain ⟨hx, hself, hother, hslot, -⟩ := requeue_spec hu
    refine ⟨by unfold SchedState.wait; rw [hslot], ?_⟩
    by_cases hp : p = ⟨s.prio x, hx⟩
    · subst hp
      rw [hself, hq]
      split
      · exact ⟨behind ++ [x], by rw [List.append_assoc, List.cons_append]⟩
      · exact ⟨behind, rfl⟩
    · exact ⟨behind, (hother p hp).trans hq⟩
  cases c with
  | get => exact absurd rfl hc
  | put x =>
    obtain ⟨u, hu, heq⟩ := Option.map_eq_some_iff.mp hrun
    obtain ⟨rfl, rfl⟩ := Prod.mk.inj heq
    exact ⟨rfl, hrequeue hu⟩
  | add x =>
    obtain ⟨u, hu, heq⟩ := Option.map_eq_some_iff.mp hrun
    obtain ⟨rfl, rfl⟩ := Prod.mk.inj heq
    exact ⟨rfl, hrequeue hu⟩
  | setPrio x v =>
    simp only [runCall] at hrun
    split at hrun
    · simp at hrun
    · obtain ⟨rfl, rfl⟩ := Prod.mk.inj (Option.some.inj hrun)
      exact ⟨rfl, rfl, behind, hq⟩

/-! ## Runs -/

/-- From any state of the invariant, `P` is returned by one of the next `n` `get`s as soon as `n` exceeds
    its measure. -/
theorem returned_within {p : Fin maxPrio} {P : α} {calls : List (Call α)} :
    ∀ {s t : SchedRun α} {ahead behind : List α} {results : List (Option α)} {n : ℕ},
      Levelled s → s.sched.ready p = ahead ++ P :: behind → runCalls s calls = some (t, results) →
      ahead.length * (waitBound p + 1) + s.sched.wait p < n → n ≤ results.length →
      some P ∈ results.take n := by
  induction calls with
  | nil =>
    intro s t ahead behind results n _ _ hrun hmeas hn
    simp only [runCalls, Option.some.injEq, Prod.mk.injEq] at hrun
    rw [← hrun.2, List.length_nil] at hn
    omega
  | cons c cs ih =>
    intro s t ahead behind results n hlev hq hrun hmeas hn
    simp only [runCalls] at hrun
    split at hrun
    · simp at hrun
    rename_i u r hcall
    obtain ⟨⟨v, rs⟩, hrest, heq⟩ := Option.map_eq_some_iff.mp hrun
    obtain ⟨rfl, rfl⟩ := Prod.mk.inj heq
    have hlev' : Levelled u := levelled_step hlev hcall
    by_cases hget : c = .get
    · subst hget
      simp only [runCall, Option.some.injEq, Prod.mk.injEq] at hcall
      obtain ⟨rfl, rfl⟩ := hcall
      obtain ⟨m, rfl⟩ := Nat.exists_eq_succ_of_ne_zero (show n ≠ 0 by omega)
      rw [List.singleton_append, List.take_succ_cons]
      rcases get_progress hlev hq with hret | ⟨ahead', behind', hq', hless⟩
      · rw [hret]; exact List.mem_cons_self
      · refine List.mem_cons_of_mem _ (ih hlev' hq' hrest ?_ ?_)
        · show ahead'.length * (waitBound p + 1) + (s.sched.getMlqProc s.prio).2.wait p < m
          omega
        · rw [List.singleton_append, List.length_cons] at hn; omega
    · obtain ⟨rfl, hwait, behind', hq'⟩ := other_call_keeps hget hcall hq
      rw [List.nil_append] at hn ⊢
      exact ih hlev' hq' hrest (by rw [hwait]; exact hmeas) hn

/-- Any number of `get`s can be called, and each of them returns something or `NULL`. -/
theorem runCalls_gets (n : ℕ) : ∀ s : SchedRun α, ∃ t results,
    runCalls s (List.replicate n .get) = some (t, results) ∧ results.length = n := by
  induction n with
  | zero => exact fun s => ⟨s, [], rfl, rfl⟩
  | succ n ih =>
    intro s
    obtain ⟨t, results, hrun, hlen⟩ := ih { s with sched := (s.sched.getMlqProc s.prio).2 }
    refine ⟨t, (s.sched.getMlqProc s.prio).1 :: results, ?_, by rw [List.length_cons, hlen]⟩
    rw [List.replicate_succ]
    simp only [runCalls, runCall, hrun, Option.map_some, List.singleton_append]

/-- **Bounded waiting.** From any reachable scheduler state with `P` in level `p` behind
    `ahead.length` others, in any continuation by `get`, `put` and `add` calls (and changes of `prio` of
    processes that are not queued), one of the next `(ahead.length + 1) * (B_p + 1)` `get`s returns `P`. -/
theorem bounded_waiting {s : SchedRun α} (hs : (schedSystem α).Reachable s) {p : Fin maxPrio}
    {ahead behind : List α} {P : α} (hq : s.sched.ready p = ahead ++ P :: behind)
    {calls : List (Call α)} {t : SchedRun α} {results : List (Option α)}
    (hrun : runCalls s calls = some (t, results))
    (hgets : (ahead.length + 1) * (waitBound p + 1) ≤ results.length) :
    some P ∈ results.take ((ahead.length + 1) * (waitBound p + 1)) := by
  have hlev := levelled_of_reachable hs
  refine returned_within hlev hq hrun ?_ hgets
  have := wait_le_waitBound hlev p
  rw [Nat.add_mul, Nat.one_mul]
  omega

/-- One process added to an initialised scheduler: it is the only one in its level. -/
def oneAdded : SchedRun ℕ :=
  { sched := ((SchedState.static.initScheduler.addMlqProc (fun _ => 0) 7).getD .static)
    prio := fun _ => 0 }

/-- Level `0`. -/
def topLevel : Fin maxPrio := ⟨0, by decide⟩

theorem bounded_waiting_oneAdded : ∃ t results,
    runCalls oneAdded (List.replicate (waitBound topLevel + 1) .get) = some (t, results) ∧
      some 7 ∈ results.take ((List.length ([] : List ℕ) + 1) * (waitBound topLevel + 1)) := by
  obtain ⟨t, results, hrun, hlen⟩ := runCalls_gets (waitBound topLevel + 1) oneAdded
  have hreach : (schedSystem ℕ).Reachable oneAdded :=
    .step (l := .add 7) (.init (s := ⟨SchedState.static.initScheduler, fun _ => 0⟩) ⟨_, rfl⟩)
      ⟨[], by rfl⟩
  have hq : oneAdded.sched.ready topLevel = [] ++ 7 :: [] := by rfl
  exact ⟨t, results, hrun, bounded_waiting hreach hq hrun (by rw [hlen]; simp)⟩

end LamiaAtrium
