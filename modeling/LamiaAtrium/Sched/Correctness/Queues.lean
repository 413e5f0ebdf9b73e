import LamiaAtrium.Mem.Types
import LamiaAtrium.Sched.Queue

/-!
# `Sched.Correctness.Queues` — `queue.c` against an abstract list

`QueueMem` is `struct queue_t` as it lies in memory: nothing is known about `size` or the entries, and every use of
`proc[i]` is checked, against `size` and against the array. `QueueT`, which the scheduler is built from, carries the
bounds with it.

* `enqueue_ofQueue`, `dequeue_ofQueue`, `purgequeue_ofQueue`: on the memory of a `QueueT`, the checked functions run
  into no fault and do what those of `QueueT` do.
* `QueueSpec` is the abstract queue, on lists, and `queue_refines` puts both together over all sequences of calls.
-/

namespace LamiaAtrium

/-! ## The functions of `queue.c` with every access checked -/

/-- `struct queue_t` in memory. -/
structure QueueMem (α : Type) where
  proc : Vector (Option α) maxQueueSize
  size : ℤ

/-- A call of `enqueue`, `dequeue` or `purgequeue`. -/
inductive QueueCall (α : Type) where
  | enqueue (proc : α)
  | dequeue
  | purgequeue (proc : α)

namespace QueueMem

variable {α : Type}

/-- Read `proc[i]`: below `size` and inside the array. -/
def slot (q : QueueMem α) (i : ℕ) : Except Fault (Option α) :=
  if (i : ℤ) < q.size ∧ i < maxQueueSize then .ok (slotAt q.proc i) else .error .outOfBounds

/-- The process behind `proc[i]`. -/
def entry (q : QueueMem α) (i : ℕ) : Except Fault α :=
  match q.slot i with
  | .error e      => .error e
  | .ok none      => .error .nullDeref
  | .ok (some x)  => .ok x

/-- Write `proc[i]`: below `size` and inside the array. -/
def store (q : QueueMem α) (i : ℕ) (x : Option α) : Except Fault (QueueMem α) :=
  if (i : ℤ) < q.size ∧ i < maxQueueSize then .ok { q with proc := q.proc.setIfInBounds i x }
  else .error .outOfBounds

/-- `enqueue`: the slot behind the last one, if there is one in the array. -/
def enqueue (q : QueueMem α) (proc : α) : Except Fault (QueueMem α) :=
  if (maxQueueSize : ℤ) ≤ q.size then .ok q
  else if 0 ≤ q.size then .ok ⟨q.proc.setIfInBounds q.size.toNat (some proc), q.size + 1⟩
  else .error .outOfBounds

/-- `n` turns of the loop of `dequeue` that looks for the best index. -/
def scan (prio : α → ℕ) (q : QueueMem α) (best start : ℕ) : ℕ → Except Fault ℕ
  | 0     => .ok best
  | n + 1 => do
    let cur ← q.entry start
    let bestProc ← q.entry best
    q.scan prio (if prio cur < prio bestProc then start else best) (start + 1) n

/-- `n` turns of the loops that close a gap. -/
def shift (q : QueueMem α) (start : ℕ) : ℕ → Except Fault (QueueMem α)
  | 0     => .ok q
  | n + 1 => do
    let next ← q.slot (start + 1)
    let q ← q.store start next
    q.shift (start + 1) n

/-- `dequeue`. -/
def dequeue (prio : α → ℕ) (q : QueueMem α) : Except Fault (Option α × QueueMem α) :=
  if q.size = 0 then .ok (none, q)
  else do
    let best ← q.scan prio 0 1 (q.size - 1).toNat
    let ret ← q.slot best
    let q ← q.shift best (q.size - 1 - best).toNat
    .ok (ret, { q with size := q.size - 1 })

/-- `n` turns of the search of `purgequeue`, from index `i` on. -/
def purgeLoop [DecidableEq α] (q : QueueMem α) (proc : α) (i : ℕ) : ℕ → Except Fault (Option α × QueueMem α)
  | 0     => .ok (none, q)
  | n + 1 => do
    let ret ← q.slot i
    if ret = some proc then do
      let q ← q.shift i (q.size - 1 - i).toNat
      .ok (ret, { q with size := q.size - 1 })
    else q.purgeLoop proc (i + 1) n

/-- `purgequeue`. -/
def purgequeue [DecidableEq α] (q : QueueMem α) (proc : α) : Except Fault (Option α × QueueMem α) :=
  if q.size = 0 then .ok (none, q) else q.purgeLoop proc 0 q.size.toNat

/-- One call and what it returns; `enqueue` returns nothing. -/
def call [DecidableEq α] (prio : α → ℕ) (q : QueueMem α) : QueueCall α → Except Fault (Option α × QueueMem α)
  | .enqueue x    => (q.enqueue x).map fun q => (none, q)
  | .dequeue      => q.dequeue prio
  | .purgequeue x => q.purgequeue x

/-- A sequence of calls and what they return. -/
def run [DecidableEq α] (prio : α → ℕ) (q : QueueMem α) :
    List (QueueCall α) → Except Fault (List (Option α) × QueueMem α)
  | []      => .ok ([], q)
  | c :: cs => do
    let (ret, q) ← q.call prio c
    let (rets, q) ← q.run prio cs
    .ok (ret :: rets, q)

/-! ## On the memory of a `QueueT` -/

/-- The memory of a queue. -/
def ofQueue (t : QueueT α) : QueueMem α := ⟨t.proc, t.size⟩

variable {t : QueueT α}

theorem slot_ofQueue {i : ℕ} (hi : i < t.size) : (ofQueue t).slot i = .ok (t.get i) :=
  if_pos ⟨Int.ofNat_lt.mpr hi, hi.trans_le t.size_le⟩

/-- An entry below `size` is a process. -/
theorem entry_ofQueue {i : ℕ} (hi : i < t.size) : ∃ x, t.get i = some x ∧ (ofQueue t).entry i = .ok x := by
  obtain ⟨x, hx⟩ := Option.isSome_iff_exists.mp (t.get_isSome hi)
  refine ⟨x, hx, ?_⟩
  rw [entry, slot_ofQueue hi, hx]

theorem enqueue_ofQueue (t : QueueT α) (x : α) : (ofQueue t).enqueue x = .ok (ofQueue (t.enqueue x)) := by
  have hs : (ofQueue t).size = t.size := rfl
  rw [enqueue, QueueT.enqueue, hs]
  by_cases hfull : maxQueueSize ≤ t.size
  · rw [if_pos (Int.ofNat_le.mpr hfull), dif_pos hfull]
  · rw [if_neg (fun h => hfull (Int.ofNat_le.mp h)), if_pos (Int.natCast_nonneg _), dif_neg hfull]
    rfl

/-- The scan reads entries below `size` only, and finds what the scan of `QueueT` finds. -/
theorem scan_ofQueue (prio : α → ℕ) {best start n : ℕ} (hb : best < t.size) (hn : start + n ≤ t.size) :
    (ofQueue t).scan prio best start n = .ok (t.scanBest prio best start n) := by
  induction n generalizing best start with
  | zero => rfl
  | succ n ih =>
    have hstart : start < t.size := by omega
    obtain ⟨cur, hcur, hentry⟩ := entry_ofQueue hstart
    obtain ⟨bestProc, hbest, hentry'⟩ := entry_ofQueue hb
    have hprio : t.prioAt prio start = prio cur := by simp [QueueT.prioAt, hcur]
    have hprio' : t.prioAt prio best = prio bestProc := by simp [QueueT.prioAt, hbest]
    rw [scan, QueueT.scanBest, hentry, hentry', hprio, hprio']
    refine ih ?_ (by omega)
    split
    · exact hstart
    · exact hb

/-- Closing a gap below `size` stays below `size`. -/
theorem shift_eq {start n : ℕ} : ∀ {q : QueueMem α}, (start + n : ℤ) < q.size → q.size ≤ maxQueueSize →
    q.shift start n = .ok { q with proc := shiftDown q.proc start n } := by
  induction n generalizing start with
  | zero => exact fun _ _ => rfl
  | succ n ih =>
    intro q hlt hle
    have hslot : q.slot (start + 1) = .ok (slotAt q.proc (start + 1)) := if_pos ⟨by omega, by omega⟩
    have hstore : q.store start (slotAt q.proc (start + 1))
        = .ok { q with proc := q.proc.setIfInBounds start (slotAt q.proc (start + 1)) } := if_pos ⟨by omega, by omega⟩
    rw [shift, hslot]
    show (q.store start (slotAt q.proc (start + 1)) >>= fun q => q.shift (start + 1) n) = _
    rw [hstore, shiftDown]
    exact ih (q := { q with proc := q.proc.setIfInBounds start (slotAt q.proc (start + 1)) }) (by push_cast; omega) hle

/-- Both functions that take a process out close the gap at its index. -/
theorem shift_ofQueue {k : ℕ} (hk : k < t.size) :
    (do let q ← (ofQueue t).shift k ((ofQueue t).size - 1 - k).toNat
        Except.ok (t.get k, { q with size := q.size - 1 }) : Except Fault (Option α × QueueMem α))
      = .ok (t.get k, ofQueue (t.removeAt k hk)) := by
  have hs : (ofQueue t).size = t.size := rfl
  have hle := t.size_le
  have hn : ((ofQueue t).size - 1 - k).toNat = t.size - 1 - k := by
    rw [hs]
    omega
  rw [hn, shift_eq (by rw [hs]; omega) (by rw [hs]; omega)]
  refine congrArg Except.ok (Prod.ext rfl ?_)
  simp only [ofQueue, QueueT.removeAt, mk.injEq, true_and]
  omega

theorem dequeue_ofQueue (prio : α → ℕ) (t : QueueT α) :
    (ofQueue t).dequeue prio = .ok ((t.dequeue prio).1, ofQueue (t.dequeue prio).2) := by
  have hs : (ofQueue t).size = t.size := rfl
  rw [dequeue, QueueT.dequeue]
  by_cases hzero : t.size = 0
  · rw [if_pos (by rw [hs, hzero]; rfl), dif_pos hzero]
  · have hn : ((ofQueue t).size - 1).toNat = t.size - 1 := by
      rw [hs]
      omega
    rw [if_neg (by rw [hs]; omega), dif_neg hzero, hn, scan_ofQueue prio (by omega) (by omega)]
    have hbest := t.bestIdx_lt prio hzero
    show ((ofQueue t).slot (t.bestIdx prio) >>= _) = _
    rw [slot_ofQueue hbest]
    exact shift_ofQueue hbest

variable [DecidableEq α]

theorem purgeLoop_ofQueue (x : α) {i n : ℕ} (hn : i + n ≤ t.size) :
    (t.findProc x i n = none → (ofQueue t).purgeLoop x i n = .ok (none, ofQueue t)) ∧
      ∀ k (hk : k < t.size), t.findProc x i n = some k →
        (ofQueue t).purgeLoop x i n = .ok (some x, ofQueue (t.removeAt k hk)) := by
  induction n generalizing i with
  | zero => exact ⟨fun _ => rfl, fun k hk h => absurd h (by simp [QueueT.findProc])⟩
  | succ n ih =>
    have hi : i < t.size := by omega
    have hstep : (ofQueue t).purgeLoop x i (n + 1)
        = if t.get i = some x then .ok (t.get i, ofQueue (t.removeAt i hi)) else (ofQueue t).purgeLoop x (i + 1) n := by
      rw [purgeLoop, slot_ofQueue hi]
      show (if t.get i = some x then _ else _) = _
      split
      · exact shift_ofQueue hi
      · rfl
    rw [hstep, QueueT.findProc]
    by_cases hat : t.get i = some x
    · rw [if_pos hat, if_pos hat]
      refine ⟨fun h => absurd h (by simp), fun k hk h => ?_⟩
      obtain rfl := Option.some.inj h
      rw [hat]
    · rw [if_neg hat, if_neg hat]
      exact ih (by omega)

theorem purgequeue_ofQueue (x : α) (t : QueueT α) :
    (ofQueue t).purgequeue x = .ok ((t.purgequeue x).1, ofQueue (t.purgequeue x).2) := by
  have hs : (ofQueue t).size = t.size := rfl
  have hloop : (ofQueue t).purgequeue x = (ofQueue t).purgeLoop x 0 t.size := by
    rw [purgequeue, hs]
    by_cases hzero : t.size = 0
    · rw [if_pos (by rw [hzero]; rfl), hzero]
      rfl
    · rw [if_neg (by omega), Int.toNat_natCast]
  obtain ⟨hnone, hsome⟩ := @purgeLoop_ofQueue α t _ x 0 t.size (by omega)
  rw [hloop, QueueT.purgequeue]
  split
  · rename_i h
    exact hnone h
  · rename_i k h
    exact hsome k (by have := QueueT.findProc_lt h; omega) h

end QueueMem

/-! ## The abstract queue -/

/-- **The abstract queue**: a list, what a call returns on it, and the list afterwards. -/
inductive QueueSpec {α : Type} (prio : α → ℕ) : List α → QueueCall α → Option α → List α → Prop where
  | enqueue {l x} : l.length < maxQueueSize → QueueSpec prio l (.enqueue x) none (l ++ [x])
  | full {l x} : ¬ l.length < maxQueueSize → QueueSpec prio l (.enqueue x) none l
  | empty : QueueSpec prio [] .dequeue none []
  /-- The first of the entries of least `prio` goes. -/
  | dequeue {x ahead behind} : (∀ y ∈ ahead, prio x < prio y) → (∀ y ∈ behind, prio x ≤ prio y) →
      QueueSpec prio (ahead ++ x :: behind) .dequeue (some x) (ahead ++ behind)
  /-- The first occurrence goes. -/
  | purgequeue {x ahead behind} : x ∉ ahead →
      QueueSpec prio (ahead ++ x :: behind) (.purgequeue x) (some x) (ahead ++ behind)
  | absent {l x} : x ∉ l → QueueSpec prio l (.purgequeue x) none l

/-- A sequence of calls on the abstract queue. -/
inductive QueueSpecRun {α : Type} (prio : α → ℕ) : List α → List (QueueCall α) → List (Option α) → List α → Prop where
  | nil {l} : QueueSpecRun prio l [] [] l
  | cons {l l' l'' c cs ret rets} : QueueSpec prio l c ret l' → QueueSpecRun prio l' cs rets l'' →
      QueueSpecRun prio l (c :: cs) (ret :: rets) l''

section

variable {α : Type} (prio : α → ℕ) (t : QueueT α)

theorem enqueue_spec (x : α) : QueueSpec prio t.toList (.enqueue x) none (t.enqueue x).toList := by
  rw [t.toList_enqueue]
  split
  · rename_i hroom
    exact .enqueue hroom
  · rename_i hfull
    exact .full hfull

theorem dequeue_meets_spec : QueueSpec prio t.toList .dequeue (t.dequeue prio).1 (t.dequeue prio).2.toList := by
  by_cases hnil : t.toList = []
  · rw [t.dequeue_nil prio hnil, hnil]
    exact .empty
  · obtain ⟨k, hk, hret, hrest, hle, hlt⟩ := t.dequeue_spec prio hnil
    -- what stands ahead of index `k` has a greater `prio`, what stands behind it no smaller one
    have hspec : QueueSpec prio (t.toList.take k ++ t.toList[k] :: t.toList.drop (k + 1)) .dequeue (some t.toList[k])
        (t.toList.take k ++ t.toList.drop (k + 1)) := by
      refine .dequeue (fun y hy => ?_) (fun y hy => ?_)
      · obtain ⟨j, hj, rfl⟩ := List.mem_take_iff_getElem.mp hy
        exact hlt j (by omega) (by omega)
      · obtain ⟨j, hj, rfl⟩ := List.mem_drop_iff_getElem.mp hy
        exact hle _ _
    have hwhole : t.toList.take k ++ t.toList[k] :: t.toList.drop (k + 1) = t.toList := by
      rw [← List.drop_eq_getElem_cons hk, List.take_append_drop]
    rw [hwhole] at hspec
    rwa [hret, hrest, List.eraseIdx_eq_take_drop_succ]

variable [DecidableEq α]

theorem purgequeue_spec (x : α) :
    QueueSpec prio t.toList (.purgequeue x) (t.purgequeue x).1 (t.purgequeue x).2.toList := by
  obtain ⟨hrest, hret⟩ := t.toList_purgequeue x
  rw [hrest, hret]
  by_cases hmem : x ∈ t.toList
  · obtain ⟨ahead, behind, hnot, hsplit, herase⟩ := List.exists_erase_eq hmem
    rw [if_pos hmem, herase, hsplit]
    exact .purgequeue hnot
  · rw [if_neg hmem, List.erase_of_not_mem hmem]
    exact .absent hmem

/-- **One call** on the memory of a queue runs into no fault, and is a call of the abstract queue. -/
theorem call_meets_spec (c : QueueCall α) : ∃ ret u,
    (QueueMem.ofQueue t).call prio c = .ok (ret, .ofQueue u) ∧ QueueSpec prio t.toList c ret u.toList := by
  cases c with
  | enqueue x =>
    refine ⟨none, t.enqueue x, ?_, enqueue_spec prio t x⟩
    rw [QueueMem.call, QueueMem.enqueue_ofQueue]
    rfl
  | dequeue => exact ⟨_, _, QueueMem.dequeue_ofQueue prio t, dequeue_meets_spec prio t⟩
  | purgequeue x => exact ⟨_, _, QueueMem.purgequeue_ofQueue x t, purgequeue_spec prio t x⟩

/-- **A sequence of calls** does the same. -/
theorem run_meets_spec (cs : List (QueueCall α)) : ∀ t : QueueT α, ∃ rets u,
    (QueueMem.ofQueue t).run prio cs = .ok (rets, .ofQueue u) ∧ QueueSpecRun prio t.toList cs rets u.toList := by
  induction cs with
  | nil => exact fun t => ⟨[], t, rfl, .nil⟩
  | cons c cs ih =>
    intro t
    obtain ⟨ret, u, hcall, hspec⟩ := call_meets_spec prio t c
    obtain ⟨rets, v, hrun, hspecs⟩ := ih u
    refine ⟨ret :: rets, v, ?_, .cons hspec hspecs⟩
    rw [QueueMem.run]
    exact bind_eq_ok.mpr ⟨_, hcall, bind_eq_ok.mpr ⟨_, hrun, rfl⟩⟩

end

/-- `proc[0..size-1]` is the list `l`, and fits into the array. -/
structure QueueMem.Holds {α : Type} (q : QueueMem α) (l : List α) : Prop where
  size_nonneg : 0 ≤ q.size
  size_le : q.size ≤ maxQueueSize
  length : (l.length : ℤ) = q.size
  contents : ∀ i : ℕ, (i : ℤ) < q.size → slotAt q.proc i = l[i]?

theorem holds_ofQueue {α : Type} (t : QueueT α) : (QueueMem.ofQueue t).Holds t.toList := by
  refine ⟨Int.natCast_nonneg _, Int.ofNat_le.mpr t.size_le, ?_, fun i hi => ?_⟩
  · rw [t.length_toList]
    rfl
  · rw [t.getElem?_toList, if_pos (Int.ofNat_lt.mp hi)]
    rfl

/-- **The queue refines the abstract list.** From an empty `queue_t`, with whatever its array holds, every sequence
    of calls runs without a fault: no slot at or beyond `size` and none outside the array is used. It returns what the
    abstract queue returns, and ends with its content. -/
theorem queue_refines {α : Type} [DecidableEq α] (prio : α → ℕ) (proc : Vector (Option α) maxQueueSize)
    (cs : List (QueueCall α)) : ∃ rets q l,
      (QueueMem.mk proc 0).run prio cs = .ok (rets, q) ∧ QueueSpecRun prio [] cs rets l ∧ q.Holds l := by
  have hempty : ∀ i < 0, (proc[i]?.join).isSome = true := fun i hi => absurd hi (Nat.not_lt_zero i)
  obtain ⟨rets, u, hrun, hspec⟩ := run_meets_spec prio cs ⟨proc, 0, Nat.zero_le _, hempty⟩
  exact ⟨rets, .ofQueue u, u.toList, hrun, hspec, holds_ofQueue u⟩

end LamiaAtrium
