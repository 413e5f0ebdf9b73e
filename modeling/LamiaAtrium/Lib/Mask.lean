import Mathlib.Data.BitVec

/-!
# `Lib.Mask` — the fields of a word

A field is a mask. `put` replaces the bits under it, and two laws say what is read back: under the same mask
the bits put there, under a disjoint mask the bits of before. `get_of_range` is the reading of a field whose
bits are consecutive, `and_flag_eq_zero_iff` that of a single bit.

The last part is about values that are too small for the word they are in: which bits are zero, and when they
pass through a wider signed word.

Words of any width.
-/

namespace Mask

variable {n : ℕ} {mask mask' w x : BitVec n}

/-- Replace the bits of `w` under `mask` by those of `x`. -/
def put (mask w x : BitVec n) : BitVec n := (w &&& ~~~mask) ||| (x &&& mask)

theorem getLsbD_put {i : ℕ} (hi : i < n) :
    (put mask w x).getLsbD i = if mask.getLsbD i then x.getLsbD i else w.getLsbD i := by
  unfold put
  rw [BitVec.getLsbD_or, BitVec.getLsbD_and, BitVec.getLsbD_and, BitVec.getLsbD_not]
  cases hm : mask.getLsbD i with
  | true => simp
  | false => simp [hi]

/-- **What was put is read back** under its mask. -/
theorem put_and_self : put mask w x &&& mask = x &&& mask := by
  apply BitVec.eq_of_getLsbD_eq
  intro i hi
  rw [BitVec.getLsbD_and, BitVec.getLsbD_and, getLsbD_put hi]
  cases hm : mask.getLsbD i <;> simp

/-- **A disjoint field stays.** -/
theorem put_and_of_disjoint (h : mask &&& mask' = 0) : put mask w x &&& mask' = w &&& mask' := by
  apply BitVec.eq_of_getLsbD_eq
  intro i hi
  have hbit := congrArg (fun v => v.getLsbD i) h
  rw [BitVec.getLsbD_and] at hbit
  rw [BitVec.getLsbD_and, BitVec.getLsbD_and, getLsbD_put hi]
  cases hm : mask.getLsbD i with
  | false => simp
  | true =>
    have hm' : mask'.getLsbD i = false := by simpa [hm] using hbit
    simp [hm']

/-- **A flag**: the test of a mask of one bit. -/
theorem and_flag_eq_zero_iff {i : ℕ} (hi : i < n) (hmask : ∀ j < n, mask.getLsbD j = decide (j = i)) :
    w &&& mask = 0 ↔ w.getLsbD i = false := by
  constructor
  · intro h
    have hbit := congrArg (fun v => v.getLsbD i) h
    rw [BitVec.getLsbD_and, hmask i hi, decide_eq_true rfl, Bool.and_true] at hbit
    rw [hbit]
    exact BitVec.getLsbD_zero
  · intro h
    apply BitVec.eq_of_getLsbD_eq
    intro j hj
    have hzero : (0 : BitVec n).getLsbD j = false := BitVec.getLsbD_zero
    rw [BitVec.getLsbD_and, hmask j hj, hzero]
    by_cases hji : j = i
    · rw [hji, h, Bool.false_and]
    · rw [decide_eq_false hji, Bool.and_false]

/-! ## Small values -/

/-- A value below `2 ^ len` has no bit from `len` on. -/
theorem getLsbD_of_lt {len i : ℕ} (hx : x.toNat < 2 ^ len) (hi : len ≤ i) : x.getLsbD i = false :=
  Nat.testBit_lt_two_pow (hx.trans_le (Nat.pow_le_pow_right Nat.two_pos hi))

/-- A value that fits into bits `lo` to `lo + len - 1` comes back from them. -/
theorem get_of_range {lo len : ℕ} (hmask : ∀ i < n, mask.getLsbD i = decide (lo ≤ i ∧ i < lo + len))
    (hn : lo + len ≤ n) (hx : x.toNat < 2 ^ len) : (x <<< lo &&& mask) >>> lo = x := by
  apply BitVec.eq_of_getLsbD_eq
  intro i hi
  rw [BitVec.getLsbD_ushiftRight, BitVec.getLsbD_and, BitVec.getLsbD_shiftLeft]
  by_cases hlen : i < len
  · rw [hmask (lo + i) (by omega)]
    have hrange : lo + i < n ∧ lo ≤ lo + i ∧ lo + i < lo + len := by omega
    simp [hrange]
  · have hzero := getLsbD_of_lt hx (Nat.le_of_not_lt hlen)
    rw [hzero]
    simp [hzero]

/-- A value goes unchanged into a wider word, as a signed one, when its top bit is zero. -/
theorem signExtend_eq_setWidth_iff {m : ℕ} (hn : 0 < n) (hm : n < m) (x : BitVec n) :
    x.signExtend m = x.setWidth m ↔ x.toNat < 2 ^ (n - 1) := by
  have hpow : 2 ^ n = 2 * 2 ^ (n - 1) := by
    rw [← Nat.pow_succ', Nat.succ_eq_add_one, Nat.sub_add_cancel hn]
  have hmsb : x.msb = false ↔ x.toNat < 2 ^ (n - 1) := by
    rw [BitVec.msb_eq_false_iff_two_mul_lt, hpow]
    omega
  rw [← hmsb]
  constructor
  · intro h
    have hbit := congrArg (fun v => v.getLsbD (m - 1)) h
    simp only [BitVec.getLsbD_signExtend, BitVec.getLsbD_setWidth] at hbit
    rw [if_neg (by omega), BitVec.getLsbD_of_ge x _ (by omega), decide_eq_true (by omega)] at hbit
    simpa using hbit
  · exact BitVec.signExtend_eq_setWidth_of_msb_false

end Mask
