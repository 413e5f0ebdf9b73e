import LamiaAtrium.Loader.Loader
import LamiaAtrium.Mem.Run

/-!
# `Loader.Correctness.Stale` — what a loaded program takes over from the heap

`load` stores what has been converted and nothing else, so a field that the file does not give keeps what the block of
`malloc` held.

* `usedArgs` is how many argument fields `run` reads, and `run_of_sameRead` says that it reads no others.
* `HeapIndependent`: on whatever heap the file is loaded, `run` does the same with the process. `heapIndependent_iff`:
  the file has to give every field that is read. A system call with fewer than four arguments does not.
-/

namespace LamiaAtrium

open Scan

/-! ## What `run` reads -/

/-- `arg_0` to `arg_3`. -/
def InstT.arg (ins : InstT) : ℕ → BitVec 64
  | 0 => ins.arg0
  | 1 => ins.arg1
  | 2 => ins.arg2
  | _ => ins.arg3

/-- How many of the fields `arg_0` to `arg_3` are read by `run`. The third one of a READ is only written to. -/
def usedArgs : InsOpcodeT → ℕ
  | .calc    => 0
  | .alloc   => 2
  | .free    => 1
  | .read    => 2
  | .write   => 3
  | .syscall => 4

/-- Two instructions that are the same to `run`. -/
def SameRead (a b : InstT) : Prop := a.opcode = b.opcode ∧ ∀ j < usedArgs a.opcode, a.arg j = b.arg j

/-- **`run` reads no other fields.** -/
theorem run_of_sameRead {a b : InstT} (h : SameRead a b) (k : CharKind) (sched : SchedState ℕ) (s : Kernel) (x : ℕ)
    (junk : BYTE) : s.run k sched x a junk = s.run k sched x b junk := by
  obtain ⟨op, a0, a1, a2, a3⟩ := a
  obtain ⟨op', b0, b1, b2, b3⟩ := b
  obtain ⟨hop, hargs⟩ := h
  dsimp only at hop hargs
  subst hop
  cases op with
  | «calc» => rfl
  | alloc =>
    obtain rfl : a0 = b0 := hargs 0 (by decide)
    obtain rfl : a1 = b1 := hargs 1 (by decide)
    rfl
  | free =>
    obtain rfl : a0 = b0 := hargs 0 (by decide)
    rfl
  | read =>
    obtain rfl : a0 = b0 := hargs 0 (by decide)
    obtain rfl : a1 = b1 := hargs 1 (by decide)
    rfl
  | write =>
    obtain rfl : a0 = b0 := hargs 0 (by decide)
    obtain rfl : a1 = b1 := hargs 1 (by decide)
    obtain rfl : a2 = b2 := hargs 2 (by decide)
    rfl
  | syscall =>
    obtain rfl : a0 = b0 := hargs 0 (by decide)
    obtain rfl : a1 = b1 := hargs 1 (by decide)
    obtain rfl : a2 = b2 := hargs 2 (by decide)
    obtain rfl : a3 = b3 := hargs 3 (by decide)
    rfl

/-- Two processes that are the same to the scheduler and to `run`. -/
structure Agree (p q : PcbT) : Prop where
  priority : p.priority = q.priority
  size : p.code.size = q.code.size
  text : List.Forall₂ SameRead p.code.text q.code.text

/-- **A loaded program depends only on its file**, and not on what `malloc` hands out. -/
def HeapIndependent (stack : Stack) (file : List Char) : Prop :=
  ∀ heap heap' p q, load heap stack file = .ok p → load heap' stack file = .ok q → Agree p q

/-! ## What the file gives -/

/-- Each of the first `n` instructions comes with all the arguments that `run` reads. -/
def ArgsGiven (n : ℕ) (st : ScanState) : Prop :=
  ∀ rs, spelled n st = .ok rs → ∀ r ∈ rs, usedArgs r.opcode ≤ r.args.length

/-- The file gives the priority. It gives the number of instructions and what `run` reads of them; or no instruction
    can be read, so that only the number 0 is left for `load` to return with. -/
def FileDecides (stack : Stack) (file : List Char) : Prop :=
  match (numbers 2 file).1 with
  | []          => False
  | [_]         => ∀ rs, spelled 1 ⟨(numbers 2 file).2, stack.opcode, stack.buf⟩ ≠ .ok rs
  | _ :: n :: _ => ArgsGiven (n.setWidth 32).toNat ⟨(numbers 2 file).2, stack.opcode, stack.buf⟩

theorem arg_fill (ins : InstT) (r : ReadInst) {j : ℕ} (hj : j < 4) :
    (ins.fill r).arg j = r.args[j]?.getD (ins.arg j) := by
  interval_cases j <;> rfl

theorem usedArgs_le (op : InsOpcodeT) : usedArgs op ≤ 4 := by
  cases op <;> decide

/-- An instruction that comes with its arguments is the same on every heap. -/
theorem sameRead_fill {r : ReadInst} (h : usedArgs r.opcode ≤ r.args.length) (a b : InstT) :
    SameRead (a.fill r) (b.fill r) := by
  refine ⟨rfl, fun j hj => ?_⟩
  have hj' : j < usedArgs r.opcode := hj
  have hlt := hj'.trans_le (usedArgs_le r.opcode)
  rw [arg_fill a r hlt, arg_fill b r hlt, List.getElem?_eq_getElem (hj'.trans_le h), Option.getD_some, Option.getD_some]

theorem sameRead_fillFrom {rs : List ReadInst} (h : ∀ r ∈ rs, usedArgs r.opcode ≤ r.args.length)
    (text text' : ℕ → InstT) :
    ∀ i, List.Forall₂ SameRead (fillFrom text i rs) (fillFrom text' i rs) := by
  induction rs with
  | nil => exact fun _ => .nil
  | cons r rs ih =>
    intro i
    exact .cons (sameRead_fill (h r List.mem_cons_self) _ _)
      (ih (fun r' hr => h r' (List.mem_cons_of_mem r hr)) (i + 1))

/-- A heap on which every argument is `v`. -/
def heapOf (priority size : BitVec 32) (v : BitVec 64) : Heap := ⟨priority, size, fun _ => ⟨.calc, v, v, v, v⟩⟩

theorem arg_heapOf (priority size : BitVec 32) (v : BitVec 64) (i j : ℕ) :
    ((heapOf priority size v).text i).arg j = v := by
  unfold InstT.arg
  split <;> rfl

/-- Two heaps that differ everywhere show which arguments are missing. -/
theorem usedArgs_le_of_sameRead {rs : List ReadInst} : ∀ {i : ℕ},
    List.Forall₂ SameRead (fillFrom (heapOf 0 0 0).text i rs) (fillFrom (heapOf 0 0 1).text i rs) →
      ∀ r ∈ rs, usedArgs r.opcode ≤ r.args.length := by
  induction rs with
  | nil => exact fun _ r hr => absurd hr List.not_mem_nil
  | cons r rs ih =>
    intro i h r' hr'
    rw [fillFrom, fillFrom, List.forall₂_cons] at h
    obtain ⟨⟨-, hargs⟩, hrest⟩ := h
    rcases List.mem_cons.mp hr' with rfl | hr'
    · by_contra hlt
      have hj : r'.args.length < usedArgs r'.opcode := Nat.lt_of_not_le hlt
      have hsame := hargs r'.args.length hj
      have hlt4 := hj.trans_le (usedArgs_le r'.opcode)
      rw [arg_fill _ _ hlt4, arg_fill _ _ hlt4, List.getElem?_eq_none (Nat.le_refl _), Option.getD_none,
        Option.getD_none, arg_heapOf, arg_heapOf] at hsame
      exact absurd hsame (by decide)
    · exact ih hrest r' hr'

/-! ## The three kinds of header -/

section

variable {stack : Stack} {file : List Char} {prio n : BitVec 64} {vals : List (BitVec 64)}

theorem load_of_values {heap : Heap} {priority size : BitVec 32} {rs : List ReadInst}
    (hprio : ((numbers 2 file).1[0]?.map (BitVec.setWidth 32)).getD heap.priority = priority)
    (hsize : ((numbers 2 file).1[1]?.map (BitVec.setWidth 32)).getD heap.size = size)
    (hrs : spelled size.toNat ⟨(numbers 2 file).2, stack.opcode, stack.buf⟩ = .ok rs) :
    load heap stack file = .ok ⟨priority, ⟨fillFrom heap.text 0 rs, size⟩⟩ :=
  load_eq_ok.mpr ⟨hprio.symm, hsize.symm, rs, hrs, rfl⟩

/-- A value of the header is stored, whatever the heap holds in its place. -/
theorem header_some {i : ℕ} {v : BitVec 64} (h : (numbers 2 file).1[i]? = some v) (old : BitVec 32) :
    ((numbers 2 file).1[i]?.map (BitVec.setWidth 32)).getD old = v.setWidth 32 := by
  rw [h]
  rfl

theorem header_none {i : ℕ} (h : (numbers 2 file).1[i]? = none) (old : BitVec 32) :
    ((numbers 2 file).1[i]?.map (BitVec.setWidth 32)).getD old = old := by
  rw [h]
  rfl

/-- Without a header, the priority comes from the heap. -/
theorem not_heapIndependent_of_nil (hvals : (numbers 2 file).1 = []) : ¬ HeapIndependent stack file := by
  intro h
  have hnone : ∀ i : ℕ, (numbers 2 file).1[i]? = none := fun i => by rw [hvals, List.getElem?_nil]
  have hload : ∀ priority, load (heapOf priority 0 0) stack file = .ok ⟨priority, ⟨[], 0⟩⟩ := fun priority =>
    @load_of_values stack file (heapOf priority 0 0) priority 0 [] (header_none (hnone 0) _) (header_none (hnone 1) _)
      rfl
  exact absurd (h _ _ _ _ (hload 0) (hload 1)).priority (by decide)

/-- When not even one instruction can be read, `load` returns with none or not at all. -/
theorem length_eq_zero_of_unreadable {st : ScanState} {rs : List ReadInst} {m : ℕ} (h : ∀ rs, spelled 1 st ≠ .ok rs)
    (hrs : spelled m st = .ok rs) : m = 0 ∧ rs = [] := by
  have hm : m = 0 := by
    by_contra hne
    obtain ⟨m, rfl⟩ := Nat.exists_eq_succ_of_ne_zero hne
    obtain ⟨r, st', rest, hread, -, -⟩ := spelled_succ.mp hrs
    exact h _ (spelled_succ.mpr ⟨r, st', [], hread, rfl, rfl⟩)
  exact ⟨hm, List.length_eq_zero_iff.mp ((length_spelled hrs).trans hm)⟩

/-- With nothing but the priority, the number of instructions comes from the heap. -/
theorem heapIndependent_of_singleton_iff (hvals : (numbers 2 file).1 = [prio]) :
    HeapIndependent stack file ↔ ∀ rs, spelled 1 ⟨(numbers 2 file).2, stack.opcode, stack.buf⟩ ≠ .ok rs := by
  have hprio := @header_some file 0 prio (by rw [hvals]; rfl)
  have hsize := @header_none file 1 (by rw [hvals]; rfl)
  constructor
  · intro h rs hrs
    have hnone := @load_of_values stack file (heapOf 0 0 0) _ _ [] (hprio _) (hsize _) rfl
    have hone := @load_of_values stack file (heapOf 0 1 0) _ _ rs (hprio _) (hsize _) hrs
    have hsz : (0 : BitVec 32) = 1 := (h _ _ _ _ hnone hone).size
    exact absurd hsz (by decide)
  · intro h heap heap' p q hp hq
    have hempty : ∀ {heap : Heap} {p : PcbT}, load heap stack file = .ok p →
        p.priority = prio.setWidth 32 ∧ p.code.size = 0 ∧ p.code.text = [] := by
      intro heap p hp
      obtain ⟨hpp, -, rs, hrs, htext⟩ := load_eq_ok.mp hp
      obtain ⟨hnil, rfl⟩ := length_eq_zero_of_unreadable h hrs
      exact ⟨hpp.trans (hprio _), BitVec.eq_of_toNat_eq hnil, htext⟩
    obtain ⟨hpp, hps, hpt⟩ := hempty hp
    obtain ⟨hqp, hqs, hqt⟩ := hempty hq
    refine ⟨hpp.trans hqp.symm, hps.trans hqs.symm, ?_⟩
    rw [hpt, hqt]
    exact .nil

/-- With a whole header, only arguments can come from the heap. -/
theorem heapIndependent_of_header_iff (hvals : (numbers 2 file).1 = prio :: n :: vals) :
    HeapIndependent stack file ↔
      ArgsGiven (n.setWidth 32).toNat ⟨(numbers 2 file).2, stack.opcode, stack.buf⟩ := by
  have hprio := @header_some file 0 prio (by rw [hvals]; rfl)
  have hsize := @header_some file 1 n (by rw [hvals]; rfl)
  constructor
  · intro h rs hrs
    have hzeros := @load_of_values stack file (heapOf 0 0 0) _ _ rs (hprio _) (hsize _) hrs
    have hones := @load_of_values stack file (heapOf 0 0 1) _ _ rs (hprio _) (hsize _) hrs
    exact usedArgs_le_of_sameRead (h _ _ _ _ hzeros hones).text
  · intro h heap heap' p q hp hq
    obtain ⟨hpp, hps, rs, hrs, hpt⟩ := load_eq_ok.mp hp
    obtain ⟨hqp, hqs, rs', hrs', hqt⟩ := load_eq_ok.mp hq
    rw [hprio] at hpp hqp
    rw [hsize] at hps hqs
    rw [hps] at hrs
    rw [hqs] at hrs'
    obtain rfl := Except.ok.inj (hrs.symm.trans hrs')
    refine ⟨hpp.trans hqp.symm, hps.trans hqs.symm, ?_⟩
    rw [hpt, hqt]
    exact sameRead_fillFrom (h rs hrs) _ _ 0

end

/-! ## The result -/

/-- **A loaded program depends only on its file exactly when** the file gives every field that is read. -/
theorem heapIndependent_iff (stack : Stack) (file : List Char) :
    HeapIndependent stack file ↔ FileDecides stack file := by
  unfold FileDecides
  cases hvals : (numbers 2 file).1 with
  | nil => exact iff_false_intro (not_heapIndependent_of_nil hvals)
  | cons prio vals =>
    cases vals with
    | nil => exact heapIndependent_of_singleton_iff hvals
    | cons n vals => exact heapIndependent_of_header_iff hvals

/-- A system call with two arguments, as in the file `sc2`: the other two registers hold what the heap held. -/
theorem heapIndependent_fails : ¬ ∀ stack file, HeapIndependent stack file := by
  intro hall
  have hload : ∀ v, ∃ p, load (heapOf 0 0 v) ⟨[], []⟩
      ['1', ' ', '1', '\n', 's', 'y', 's', 'c', 'a', 'l', 'l', ' ', '1', '0', '1', ' ', '1', '\n'] = .ok p ∧
        p.code.text = [⟨.syscall, 101, 1, v, v⟩] := fun v => ⟨_, rfl, rfl⟩
  obtain ⟨p, hp, hptext⟩ := hload 0
  obtain ⟨q, hq, hqtext⟩ := hload 1
  have htext := (hall _ _ _ _ p q hp hq).text
  rw [hptext, hqtext, List.forall₂_cons] at htext
  have harg : (0 : BitVec 64) = 1 := htext.1.2 2 (by decide)
  exact absurd harg (by decide)

end LamiaAtrium
