import LamiaAtrium.Lib.Scan
import LamiaAtrium.Mem.Types

/-!
# `Loader.Loader` — `loader.c`: a process description becomes a code segment

`load` reads a header `priority size` and then `size` instructions. No result of `scanf` or `fgets` is looked at: what
is not converted stays what it was, in the memory of `malloc` (`Heap`) or on the stack of `load` (`Stack`), and both
are parameters. `LoadEnd` says how `load` can end without a process.

`readInst` is one turn of the loop up to the values that have been converted. It does not depend on the heap; the
stores into `code->text[i]` are `InstT.fill`.
-/

namespace LamiaAtrium

open Scan

/-- `exit(1)`, or undefined behaviour. -/
inductive LoadEnd where
  | exit
  | fault
deriving DecidableEq

/-- What `malloc` hands out: `priority`, `code->size` and `code->text` before anything is stored there. -/
structure Heap where
  priority : BitVec 32
  size : BitVec 32
  text : ℕ → InstT

/-- The buffers `opcode` and `buf` before anything is stored there. -/
structure Stack where
  opcode : List Char
  buf : List Char

/-- The rest of the file, and the buffers. -/
structure ScanState where
  file : List Char
  opcode : List Char
  buf : List Char

/-- `struct code_seg_t`. -/
structure CodeSegT where
  text : List InstT
  size : BitVec 32

/-- `struct pcb_t`, as far as the file has a say in it. -/
structure PcbT where
  priority : BitVec 32
  code : CodeSegT

/-! ## Opcodes -/

/-- `OPT_CALC` to `OPT_SYSCALL`. -/
def optOf : InsOpcodeT → List Char
  | .calc    => ['c', 'a', 'l', 'c']
  | .alloc   => ['a', 'l', 'l', 'o', 'c']
  | .free    => ['f', 'r', 'e', 'e']
  | .read    => ['r', 'e', 'a', 'd']
  | .write   => ['w', 'r', 'i', 't', 'e']
  | .syscall => ['s', 'y', 's', 'c', 'a', 'l', 'l']

/-- `get_opcode`. -/
def getOpcode (opt : List Char) : Except LoadEnd InsOpcodeT :=
  if cString opt = optOf .calc then .ok .calc
  else if cString opt = optOf .alloc then .ok .alloc
  else if cString opt = optOf .free then .ok .free
  else if cString opt = optOf .read then .ok .read
  else if cString opt = optOf .write then .ok .write
  else if cString opt = optOf .syscall then .ok .syscall
  else .error .exit

theorem getOpcode_optOf (op : InsOpcodeT) : getOpcode (optOf op) = .ok op := by
  cases op <;> rfl

/-! ## One instruction -/

/-- `fscanf(file, "%s", opcode)`: ten characters or more overflow the buffer, and at the end of the file the buffer
    keeps what it holds. -/
def scanOpcode (st : ScanState) : Except LoadEnd ScanState :=
  if word st.file = [] then .ok { st with file := afterWord st.file }
  else if (word st.file).length < 10 then .ok { st with file := afterWord st.file, opcode := word st.file }
  else .error .fault

/-- What `n` arguments and a line end in the format leave of the file. -/
def afterArgs (n : ℕ) (file : List Char) : List Char :=
  if (numbers n file).1.length = n then skipSpace (numbers n file).2 else (numbers n file).2

/-- `fscanf` with a format of `n` arguments and a line end: the values that have been converted. -/
def scanArgs (n : ℕ) (st : ScanState) : List (BitVec 64) × ScanState :=
  ((numbers n st.file).1, { st with file := afterArgs n st.file })

/-- `fgets(buf, 200, file)`: at the end of the file `buf` keeps what it holds. -/
def getLine (st : ScanState) : ScanState :=
  if st.file = [] then st else { st with file := (line 199 st.file).2, buf := (line 199 st.file).1 }

/-- The line of a system call: `fgets`, and `sscanf` on `buf`. -/
def scanLine (st : ScanState) : List (BitVec 64) × ScanState :=
  ((numbers 4 (cString (getLine st).buf)).1, getLine st)

/-- The arguments of an instruction: the cases of the `switch`. -/
def scanInst (st : ScanState) : InsOpcodeT → List (BitVec 64) × ScanState
  | .calc    => ([], st)
  | .alloc   => scanArgs 2 st
  | .free    => scanArgs 1 st
  | .read    => scanArgs 3 st
  | .write   => scanArgs 3 st
  | .syscall => scanLine st

/-- An instruction as it has been read: its opcode, and the values for the first of its arguments. -/
structure ReadInst where
  opcode : InsOpcodeT
  args : List (BitVec 64)

/-- One turn of the loop, but for the stores. -/
def readInst (st : ScanState) : Except LoadEnd (ReadInst × ScanState) := do
  let st ← scanOpcode st
  let opcode ← getOpcode st.opcode
  .ok (⟨opcode, (scanInst st opcode).1⟩, (scanInst st opcode).2)

/-- The stores of one turn: an argument that has not been converted keeps its value. -/
def InstT.fill (ins : InstT) (r : ReadInst) : InstT where
  opcode := r.opcode
  arg0 := r.args[0]?.getD ins.arg0
  arg1 := r.args[1]?.getD ins.arg1
  arg2 := r.args[2]?.getD ins.arg2
  arg3 := r.args[3]?.getD ins.arg3

/-! ## `load` -/

/-- `n` turns of the loop, from instruction `i` on. -/
def loadLoop (text : ℕ → InstT) : ℕ → ℕ → ScanState → Except LoadEnd (List InstT)
  | _, 0,     _  => .ok []
  | i, n + 1, st => do
    let (r, st) ← readInst st
    let rest ← loadLoop text (i + 1) n st
    .ok ((text i).fill r :: rest)

/-- `load`, on a file that exists. -/
def load (heap : Heap) (stack : Stack) (file : List Char) : Except LoadEnd PcbT :=
  let priority := ((numbers 2 file).1[0]?.map (BitVec.setWidth 32)).getD heap.priority
  let size := ((numbers 2 file).1[1]?.map (BitVec.setWidth 32)).getD heap.size
  (loadLoop heap.text 0 size.toNat ⟨(numbers 2 file).2, stack.opcode, stack.buf⟩).map fun text =>
    ⟨priority, ⟨text, size⟩⟩

/-! ## What the file spells -/

/-- `n` turns of the loop without the stores. -/
def spelled : ℕ → ScanState → Except LoadEnd (List ReadInst)
  | 0,     _  => .ok []
  | n + 1, st => do
    let (r, st) ← readInst st
    let rest ← spelled n st
    .ok (r :: rest)

/-- The stores, from instruction `i` on. -/
def fillFrom (text : ℕ → InstT) : ℕ → List ReadInst → List InstT
  | _, []      => []
  | i, r :: rs => (text i).fill r :: fillFrom text (i + 1) rs

/-- **The heap has no say in what is read**, and comes in with the stores only. -/
theorem loadLoop_eq (text : ℕ → InstT) (n : ℕ) : ∀ i st,
    loadLoop text i n st = (spelled n st).map (fillFrom text i) := by
  induction n with
  | zero => exact fun _ _ => rfl
  | succ n ih =>
    intro i st
    rw [loadLoop, spelled]
    cases readInst st with
    | error e => rfl
    | ok got =>
      obtain ⟨r, st'⟩ := got
      show (loadLoop text (i + 1) n st' >>= _) = Except.map _ (spelled n st' >>= _)
      rw [ih]
      cases spelled n st' with
      | error e => rfl
      | ok rs => rfl

theorem spelled_succ {n : ℕ} {st : ScanState} {rs : List ReadInst} : spelled (n + 1) st = .ok rs ↔
    ∃ r st' rest, readInst st = .ok (r, st') ∧ spelled n st' = .ok rest ∧ rs = r :: rest := by
  rw [spelled, bind_eq_ok]
  constructor
  · rintro ⟨⟨r, st'⟩, hread, h⟩
    obtain ⟨rest, hrest, h⟩ := bind_eq_ok.mp h
    exact ⟨r, st', rest, hread, hrest, (Except.ok.inj h).symm⟩
  · rintro ⟨r, st', rest, hread, hrest, rfl⟩
    exact ⟨(r, st'), hread, bind_eq_ok.mpr ⟨rest, hrest, rfl⟩⟩

theorem length_spelled {n : ℕ} : ∀ {st : ScanState} {rs : List ReadInst}, spelled n st = .ok rs → rs.length = n := by
  induction n with
  | zero =>
    intro st rs h
    rw [← Except.ok.inj h]
    rfl
  | succ n ih =>
    intro st rs h
    obtain ⟨r, st', rest, -, hrest, rfl⟩ := spelled_succ.mp h
    rw [List.length_cons, ih hrest]

/-- `load` returns a process when the instructions can be read, and then it is the one that the file spells. -/
theorem load_eq_ok {heap : Heap} {stack : Stack} {file : List Char} {proc : PcbT} :
    load heap stack file = .ok proc ↔
      proc.priority = ((numbers 2 file).1[0]?.map (BitVec.setWidth 32)).getD heap.priority ∧
      proc.code.size = ((numbers 2 file).1[1]?.map (BitVec.setWidth 32)).getD heap.size ∧
      ∃ rs, spelled proc.code.size.toNat ⟨(numbers 2 file).2, stack.opcode, stack.buf⟩ = .ok rs ∧
        proc.code.text = fillFrom heap.text 0 rs := by
  unfold load
  dsimp only
  rw [loadLoop_eq]
  generalize ((numbers 2 file).1[0]?.map (BitVec.setWidth 32)).getD heap.priority = priority
  generalize ((numbers 2 file).1[1]?.map (BitVec.setWidth 32)).getD heap.size = size
  obtain ⟨priority', text, size'⟩ := proc
  dsimp only
  constructor
  · intro h
    cases hrs : spelled size.toNat ⟨(numbers 2 file).2, stack.opcode, stack.buf⟩ with
    | error e =>
      rw [hrs] at h
      exact absurd h (by simp [Except.map])
    | ok rs =>
      rw [hrs] at h
      obtain ⟨rfl, hcode⟩ := PcbT.mk.inj (Except.ok.inj h)
      obtain ⟨rfl, rfl⟩ := CodeSegT.mk.inj hcode
      exact ⟨rfl, rfl, rs, hrs, rfl⟩
  · rintro ⟨rfl, rfl, rs, hrs, rfl⟩
    rw [hrs]
    rfl

end LamiaAtrium
