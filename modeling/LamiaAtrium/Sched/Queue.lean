import Mathlib.Data.List.Basic
import Mathlib.Data.List.Range
import Mathlib.Tactic

/-!
# `Sched.Queue` — `queue.c`: the fixed-capacity process queue, and the list it stands for

`QueueT` is `struct queue_t`: an array of `MAX_QUEUE_SIZE` pointers and a `size`. The bounds that the
rest of the kernel relies on (`size` never leaves the array, no `NULL` below `size`) are fields of the
structure, so every operation has to re-establish them.

The operations are the loops of `queue.c`. `toList` is the abstract content, and each operation has one
spec lemma over it: `toList_enqueue`, `dequeue_spec`, `purgequeue_spec`. Nothing above this
file looks at the array again.
-/

namespace LamiaAtrium

/-- `MAX_QUEUE_SIZE` (`queue.h`). -/
def maxQueueSize : ℕ := 50

/-- `struct queue_t`. `none` is a `NULL` entry of `proc[]`; the entries at or beyond `size` are what
    earlier operations left there. -/
structure QueueT (α : Type) where
  proc : Vector (Option α) maxQueueSize
  size : ℕ
  size_le : size ≤ maxQueueSize
  live : ∀ i < size, (proc[i]?.join).isSome = true

variable {α : Type}

/-! ## Array plumbing -/

/-- `v[i]`, `NULL` outside the array. -/
def slotAt (v : Vector (Option α) maxQueueSize) (i : ℕ) : Option α := v[i]?.join

theorem slotAt_set (v : Vector (Option α) maxQueueSize) {i j : ℕ} (x : Option α)
    (hi : i < maxQueueSize) :
    slotAt (v.setIfInBounds i x) j = if i = j then x else slotAt v j := by
  unfold slotAt
  rw [Vector.getElem?_setIfInBounds]
  by_cases h : i = j
  · subst h; simp [hi]
  · simp [h]

/-- `for (i = from; i < from + n; i++) proc[i] = proc[i + 1];` — closing the gap at `from`. -/
def shiftDown (v : Vector (Option α) maxQueueSize) (start : ℕ) : ℕ → Vector (Option α) maxQueueSize
  | 0     => v
  | n + 1 => shiftDown (v.setIfInBounds start (slotAt v (start + 1))) (start + 1) n

theorem slotAt_shiftDown {start n : ℕ} (v : Vector (Option α) maxQueueSize)
    (h : start + n < maxQueueSize) (j : ℕ) :
    slotAt (shiftDown v start n) j
      = if start ≤ j ∧ j < start + n then slotAt v (j + 1) else slotAt v j := by
  induction n generalizing v start with
  | zero =>
    rw [shiftDown, if_neg (by omega)]
  | succ n ih =>
    rw [shiftDown, ih _ (by omega)]
    simp only [slotAt_set v _ (show start < maxQueueSize by omega)]
    by_cases h1 : start = j
    · subst h1; simp
    · have h2 : start ≠ j + 1 ∨ ¬ (start + 1 ≤ j ∧ j < start + 1 + n) := by omega
      rcases h2 with h2 | h2
      · simp only [if_neg h1, if_neg h2]
        congr 1
        simp only [eq_iff_iff]
        omega
      · rw [if_neg h2, if_neg h1, if_neg (by omega)]

/-! ## The operations of `queue.c` -/

namespace QueueT

/-- `proc[i]`. -/
def get (q : QueueT α) (i : ℕ) : Option α := slotAt q.proc i

/-- A queue whose array holds only `NULL`, as a static `queue_t` starts. -/
def zero : QueueT α := ⟨Vector.replicate _ none, 0, by simp, by simp⟩

/-- The abstract content: `proc[0 .. size - 1]`. -/
def toList (q : QueueT α) : List α := (List.range q.size).filterMap q.get

/-- `empty`. -/
def empty (q : QueueT α) : Bool := q.size == 0

/-- `enqueue`: append, and return silently when the array is full. -/
def enqueue (q : QueueT α) (proc : α) : QueueT α :=
  if h : maxQueueSize ≤ q.size then q
  else
    { proc := q.proc.setIfInBounds q.size (some proc)
      size := q.size + 1
      size_le := by omega
      live := by
        intro i hi
        show (slotAt _ i).isSome = true
        rw [slotAt_set _ _ (by omega)]
        by_cases hq : q.size = i
        · simp [hq]
        · rw [if_neg hq]; exact q.live i (by omega) }

/-- `proc[0 .. size - 1]` with the entry at `best` dropped and the rest moved down one place. -/
def removeAt (q : QueueT α) (best : ℕ) (hb : best < q.size) : QueueT α where
  proc := shiftDown q.proc best (q.size - 1 - best)
  size := q.size - 1
  size_le := by have := q.size_le; omega
  live := by
    intro i hi
    show (slotAt _ i).isSome = true
    have hs := q.size_le
    rw [slotAt_shiftDown _ (by omega)]
    split
    · exact q.live (i + 1) (by omega)
    · exact q.live i (by omega)

/-- The priority field that `dequeue` reads at index `i`. -/
def prioAt (prio : α → ℕ) (q : QueueT α) (i : ℕ) : ℕ := ((q.get i).map prio).getD 0

/-- The scan of `dequeue`: `for (i = start; i < start + n; i++) if (cur_prio < best_prio) best = i;`. -/
def scanBest (prio : α → ℕ) (q : QueueT α) (best start : ℕ) : ℕ → ℕ
  | 0     => best
  | n + 1 => scanBest prio q (if q.prioAt prio start < q.prioAt prio best then start else best) (start + 1) n

/-- The index `dequeue` removes. -/
def bestIdx (prio : α → ℕ) (q : QueueT α) : ℕ := q.scanBest prio 0 1 (q.size - 1)

theorem scanBest_lt (prio : α → ℕ) (q : QueueT α) {best start n : ℕ} (hb : best < q.size)
    (hn : start + n ≤ q.size) : q.scanBest prio best start n < q.size := by
  induction n generalizing best start with
  | zero => exact hb
  | succ n ih =>
    rw [scanBest]
    split
    · exact ih (by omega) (by omega)
    · exact ih hb (by omega)

theorem bestIdx_lt (prio : α → ℕ) (q : QueueT α) (h : q.size ≠ 0) : q.bestIdx prio < q.size :=
  scanBest_lt prio q (by omega) (by omega)

/-- `dequeue`: the entry of least `prio` (the first of them), and the queue without it. -/
def dequeue (prio : α → ℕ) (q : QueueT α) : Option α × QueueT α :=
  if h : q.size = 0 then (none, q)
  else (q.get (q.bestIdx prio), q.removeAt (q.bestIdx prio) (q.bestIdx_lt prio h))

/-- The search loop of `purgequeue`, over the `n` indices from `i` on. -/
def findProc [DecidableEq α] (q : QueueT α) (proc : α) (i : ℕ) : ℕ → Option ℕ
  | 0     => none
  | n + 1 => if q.get i = some proc then some i else q.findProc proc (i + 1) n

theorem findProc_lt [DecidableEq α] {q : QueueT α} {proc : α} {i n k : ℕ}
    (h : q.findProc proc i n = some k) : i ≤ k ∧ k < i + n := by
  induction n generalizing i with
  | zero => simp [findProc] at h
  | succ n ih =>
    rw [findProc] at h
    split at h
    · simp only [Option.some.injEq] at h; omega
    · have := ih h; omega

/-- `purgequeue`: remove the first entry equal to `proc`; `NULL` and no change when there is none. -/
def purgequeue [DecidableEq α] (q : QueueT α) (proc : α) : Option α × QueueT α :=
  match h : q.findProc proc 0 q.size with
  | none   => (none, q)
  | some k => (some proc, q.removeAt k (by have := findProc_lt h; omega))

/-! ## The abstract content -/

theorem get_isSome (q : QueueT α) {i : ℕ} (h : i < q.size) : (q.get i).isSome = true := q.live i h

/-- Below `size` the list and the array agree; at and beyond it the list has ended. -/
theorem getElem?_toList (q : QueueT α) (i : ℕ) :
    q.toList[i]? = if i < q.size then q.get i else none := by
  have key : ∀ n ≤ q.size, ∀ i, ((List.range n).filterMap q.get)[i]? = if i < n then q.get i else none := by
    intro n
    induction n with
    | zero => intro _ i; simp
    | succ n ih =>
      intro hn i
      obtain ⟨x, hx⟩ := Option.isSome_iff_exists.mp (q.get_isSome (show n < q.size by omega))
      have hlen : ((List.range n).filterMap q.get).length = n := by
        have hnone := ih (by omega) n
        rw [if_neg (Nat.lt_irrefl n), List.getElem?_eq_none_iff] at hnone
        refine Nat.le_antisymm hnone (Nat.le_of_not_lt fun hlt => ?_)
        have hat := ih (by omega) ((List.range n).filterMap q.get).length
        rw [if_pos hlt, List.getElem?_eq_none (Nat.le_refl _)] at hat
        have := q.get_isSome (show ((List.range n).filterMap q.get).length < q.size by omega)
        rw [← hat] at this
        simp at this
      rw [List.range_succ, List.filterMap_append, List.getElem?_append, hlen, ih (by omega) i]
      by_cases hi : i < n
      · simp [hi, Nat.lt_succ_of_lt hi]
      · by_cases hin : i = n
        · subst hin; simp [hx]
        · rw [if_neg hi, if_neg (by omega)]
          simp only [List.filterMap_cons, hx, List.filterMap_nil]
          exact List.getElem?_eq_none (by simp; omega)
  exact key q.size (Nat.le_refl _) i

@[simp] theorem length_toList (q : QueueT α) : q.toList.length = q.size := by
  have hnone := q.getElem?_toList q.size
  rw [if_neg (Nat.lt_irrefl _), List.getElem?_eq_none_iff] at hnone
  refine Nat.le_antisymm hnone (Nat.le_of_not_lt fun hlt => ?_)
  have hat := q.getElem?_toList q.toList.length
  rw [if_pos hlt, List.getElem?_eq_none (Nat.le_refl _)] at hat
  have := q.get_isSome hlt
  rw [← hat] at this
  simp at this

@[simp] theorem toList_zero : (zero : QueueT α).toList = [] := rfl

theorem empty_iff (q : QueueT α) : q.empty = true ↔ q.toList = [] := by
  rw [empty, beq_iff_eq, ← q.length_toList, List.length_eq_zero_iff]

theorem empty_eq_false_iff (q : QueueT α) : q.empty = false ↔ q.toList ≠ [] := by
  rw [ne_eq, ← empty_iff, Bool.not_eq_true]

/-- **`enqueue` appends when there is room**, and otherwise drops its argument. -/
theorem toList_enqueue (q : QueueT α) (x : α) :
    (q.enqueue x).toList = if q.toList.length < maxQueueSize then q.toList ++ [x] else q.toList := by
  rw [length_toList]
  by_cases hfull : maxQueueSize ≤ q.size
  · rw [enqueue, dif_pos hfull, if_neg (by omega)]
  · rw [if_pos (by omega)]
    apply List.ext_getElem?
    intro i
    rw [getElem?_toList, List.getElem?_append, length_toList, getElem?_toList, enqueue, dif_neg hfull]
    simp only [get, slotAt_set _ _ (show q.size < maxQueueSize by omega)]
    rcases Nat.lt_trichotomy i q.size with hi | hi | hi
    · simp [hi, Nat.lt_succ_of_lt hi, Nat.ne_of_gt hi]
    · subst hi; simp
    · rw [if_neg (by omega), if_neg (by omega), List.getElem?_eq_none (by simp; omega)]

/-- Closing the gap in the array erases that index of the list. -/
theorem toList_removeAt (q : QueueT α) {k : ℕ} (hk : k < q.size) :
    (q.removeAt k hk).toList = q.toList.eraseIdx k := by
  have hs := q.size_le
  apply List.ext_getElem?
  intro i
  rw [getElem?_toList, List.getElem?_eraseIdx, getElem?_toList, getElem?_toList]
  simp only [removeAt, get, slotAt_shiftDown _ (show k + (q.size - 1 - k) < maxQueueSize by omega)]
  by_cases hik : i < k
  · rw [if_pos (show i < q.size - 1 by omega), if_neg (by omega), if_pos hik, if_pos (by omega)]
  · rw [if_neg hik]
    by_cases hi : i < q.size - 1
    · rw [if_pos hi, if_pos (by omega), if_pos (by omega)]
    · rw [if_neg hi, if_neg (by omega)]

/-! ## `dequeue` takes the first entry of least priority -/

/-- What the scan has found after the indices below `start`: the first of the least. -/
def IsBest (prio : α → ℕ) (q : QueueT α) (start best : ℕ) : Prop :=
  best < start ∧ (∀ j < start, q.prioAt prio best ≤ q.prioAt prio j) ∧
    ∀ j < best, q.prioAt prio best < q.prioAt prio j

theorem scanBest_isBest (prio : α → ℕ) (q : QueueT α) {best start n : ℕ}
    (h : IsBest prio q start best) : IsBest prio q (start + n) (q.scanBest prio best start n) := by
  induction n generalizing best start with
  | zero => exact h
  | succ n ih =>
    obtain ⟨hlt, hle, hfst⟩ := h
    rw [scanBest, ← Nat.add_assoc, Nat.add_right_comm]
    split
    · rename_i hbetter
      refine ih ⟨Nat.lt_succ_self _, fun j hj => ?_, fun j hj => ?_⟩
      · rcases Nat.lt_succ_iff_lt_or_eq.mp hj with hj | rfl
        · exact (Nat.le_of_lt hbetter).trans (hle j hj)
        · exact Nat.le_refl _
      · exact Nat.lt_of_lt_of_le hbetter (hle j hj)
    · rename_i hworse
      refine ih ⟨by omega, fun j hj => ?_, hfst⟩
      rcases Nat.lt_succ_iff_lt_or_eq.mp hj with hj | rfl
      · exact hle j hj
      · exact Nat.le_of_not_lt hworse

theorem bestIdx_isBest (prio : α → ℕ) (q : QueueT α) (h : q.size ≠ 0) :
    IsBest prio q q.size (q.bestIdx prio) := by
  have h1 : IsBest prio q 1 0 :=
    ⟨Nat.one_pos, fun j hj => by rw [Nat.lt_one_iff.mp hj], fun j hj => absurd hj (Nat.not_lt_zero j)⟩
  have := scanBest_isBest prio q (n := q.size - 1) h1
  rwa [show 1 + (q.size - 1) = q.size by omega] at this

theorem prioAt_eq (prio : α → ℕ) (q : QueueT α) {i : ℕ} (h : i < q.toList.length) :
    q.prioAt prio i = prio (q.toList[i]) := by
  have hat := q.getElem?_toList i
  rw [List.getElem?_eq_getElem h, if_pos (by simpa using h)] at hat
  simp [prioAt, ← hat]

/-- **`dequeue` on a non-empty queue**: it removes the entry at some index `k`, which has the least
    `prio`, every earlier entry having a strictly greater one. -/
theorem dequeue_spec (prio : α → ℕ) (q : QueueT α) (h : q.toList ≠ []) :
    ∃ (k : ℕ) (hk : k < q.toList.length),
      (q.dequeue prio).1 = some q.toList[k] ∧ (q.dequeue prio).2.toList = q.toList.eraseIdx k ∧
      (∀ j (hj : j < q.toList.length), prio q.toList[k] ≤ prio q.toList[j]) ∧
      ∀ j (hj : j < q.toList.length), j < k → prio q.toList[k] < prio q.toList[j] := by
  have hsz : q.size ≠ 0 := by
    rw [← q.length_toList]; exact fun h0 => h (List.length_eq_zero_iff.mp h0)
  have hlt := q.bestIdx_lt prio hsz
  have hk : q.bestIdx prio < q.toList.length := by rw [length_toList]; exact hlt
  obtain ⟨-, hle, hfst⟩ := bestIdx_isBest prio q hsz
  refine ⟨q.bestIdx prio, hk, ?_, ?_, fun j hj => ?_, fun j hj hjk => ?_⟩
  · have hat := q.getElem?_toList (q.bestIdx prio)
    rw [List.getElem?_eq_getElem hk, if_pos hlt] at hat
    rw [dequeue, dif_neg hsz]
    exact hat.symm
  · rw [dequeue, dif_neg hsz]
    exact q.toList_removeAt hlt
  · rw [← prioAt_eq prio q hk, ← prioAt_eq prio q hj]
    exact hle j (by simpa using hj)
  · rw [← prioAt_eq prio q hk, ← prioAt_eq prio q hj]
    exact hfst j hjk

theorem dequeue_nil (prio : α → ℕ) (q : QueueT α) (h : q.toList = []) : q.dequeue prio = (none, q) := by
  have : q.size = 0 := by rw [← q.length_toList, h]; rfl
  rw [dequeue, dif_pos this]

/-- On a queue whose entries share one priority, `dequeue` is first in, first out. -/
theorem dequeue_fifo (prio : α → ℕ) (q : QueueT α) {x : α} {l : List α} {p : ℕ} (h : q.toList = x :: l)
    (hp : ∀ y ∈ q.toList, prio y = p) :
    (q.dequeue prio).1 = some x ∧ (q.dequeue prio).2.toList = l := by
  obtain ⟨k, hk, hret, hrest, -, hfst⟩ := q.dequeue_spec prio (by rw [h]; simp)
  have hk0 : k = 0 := by
    by_contra hne
    have h0 : 0 < k := Nat.pos_of_ne_zero hne
    have := hfst 0 (h0.trans hk) h0
    rw [hp _ (List.getElem_mem hk), hp _ (List.getElem_mem (h0.trans hk))] at this
    exact Nat.lt_irrefl p this
  subst hk0
  simp only [h] at hret hrest
  exact ⟨hret, hrest⟩

/-! ## `purgequeue` -/

theorem findProc_some [DecidableEq α] {q : QueueT α} {proc : α} {i n k : ℕ}
    (h : q.findProc proc i n = some k) :
    q.get k = some proc ∧ ∀ j, i ≤ j → j < k → q.get j ≠ some proc := by
  induction n generalizing i with
  | zero => simp [findProc] at h
  | succ n ih =>
    rw [findProc] at h
    split at h
    · rename_i hat
      obtain rfl := Option.some.inj h
      exact ⟨hat, fun j h1 h2 => absurd h2 (by omega)⟩
    · rename_i hat
      refine ⟨(ih h).1, fun j h1 h2 => ?_⟩
      rcases Nat.eq_or_lt_of_le h1 with rfl | h1
      · exact hat
      · exact (ih h).2 j h1 h2

theorem findProc_none [DecidableEq α] {q : QueueT α} {proc : α} {i n : ℕ}
    (h : q.findProc proc i n = none) : ∀ j, i ≤ j → j < i + n → q.get j ≠ some proc := by
  induction n generalizing i with
  | zero => intro j h1 h2; omega
  | succ n ih =>
    rw [findProc] at h
    split at h
    · simp at h
    · rename_i hat
      intro j h1 h2
      rcases Nat.eq_or_lt_of_le h1 with rfl | h1
      · exact hat
      · exact ih h j h1 (by omega)

/-- **`purgequeue` erases the first occurrence.** -/
theorem toList_purgequeue [DecidableEq α] (q : QueueT α) (proc : α) :
    (q.purgequeue proc).2.toList = q.toList.erase proc ∧
      ((q.purgequeue proc).1 = if proc ∈ q.toList then some proc else none) := by
  unfold purgequeue
  split
  · rename_i h
    have hnot : proc ∉ q.toList := by
      intro hmem
      obtain ⟨j, hj⟩ := List.mem_iff_getElem?.mp hmem
      rw [getElem?_toList] at hj
      split at hj
      · rename_i hlt; exact findProc_none h j (Nat.zero_le _) (by omega) hj
      · simp at hj
    exact ⟨(List.erase_of_not_mem hnot).symm, by simp [hnot]⟩
  · rename_i k h
    have hk : k < q.size := by have := findProc_lt h; omega
    obtain ⟨hat, hfst⟩ := findProc_some h
    have hidx : q.toList[k]? = some proc := by rw [getElem?_toList, if_pos hk, hat]
    have hmem : proc ∈ q.toList := List.mem_of_getElem? hidx
    refine ⟨?_, by simp [hmem]⟩
    have hlen : k < q.toList.length := by simpa using hk
    have hidxOf : q.toList.idxOf proc = k := by
      rw [List.idxOf, List.findIdx_eq hlen]
      refine ⟨?_, fun j hj => ?_⟩
      · rw [List.getElem?_eq_getElem hlen] at hidx
        simp [Option.some.inj hidx]
      · rw [beq_eq_false_iff_ne]
        intro heq
        refine hfst j (Nat.zero_le _) hj ?_
        have hj' := q.getElem?_toList j
        rw [List.getElem?_eq_getElem (hj.trans hlen), heq, if_pos (hj.trans hk)] at hj'
        exact hj'.symm
    rw [toList_removeAt _ hk, List.erase_eq_eraseIdx_of_idxOf hidxOf]

end QueueT

end LamiaAtrium
