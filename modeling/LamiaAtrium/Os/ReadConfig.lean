import LamiaAtrium.Loader.Loader
import LamiaAtrium.Os.Config

/-!
# `Os.ReadConfig` — `read_config` of `os.c`: the configuration file

`read_config` looks at no result of `fscanf`. The statics are zero before it runs, so a number that is not converted
stays zero; the arrays of `ld_processes` come from `malloc` and the buffer `proc` is on the stack, so a line that is
not there leaves what memory held (`RawArgs`). The file is read with the build's options: five sizes follow the first
three numbers, and a process is a start time, a name and a priority.

`bootConfig` goes on to the process descriptions, which `ld_routine` loads by the paths that have been put together.
-/

namespace LamiaAtrium

open Scan

/-- What `ld_processes` gets for one process. -/
structure LdProcess where
  startTime : BitVec 64
  path : List Char
  prio : BitVec 64

/-- What is in memory before anything is stored: the arrays, and the C string in `proc` in each turn of the loop. -/
structure RawArgs where
  startTime : ℕ → BitVec 64
  proc : ℕ → List Char
  prio : ℕ → BitVec 64

/-- What `read_config` stores. -/
structure ReadConfig where
  timeSlot : BitVec 32
  numCpus : BitVec 32
  numProcesses : BitVec 32
  memramsz : BitVec 32
  memswpsz : List (BitVec 32)
  processes : List LdProcess

/-- `input/proc/` in front of a name. -/
def procPath (name : List Char) : List Char :=
  ['i', 'n', 'p', 'u', 't', '/', 'p', 'r', 'o', 'c', '/'] ++ name

theorem length_procPath (name : List Char) : (procPath name).length = 11 + name.length := by
  rw [procPath, List.length_append]
  rfl

/-- The end of a turn: `strcat` on a buffer of 100 characters. -/
def storeProcess (startTime : BitVec 64) (name : List Char) (prio : BitVec 64) (file : List Char) :
    Except LoadEnd (LdProcess × List Char) :=
  if (procPath name).length < 100 then .ok (⟨startTime, procPath name, prio⟩, file) else .error .fault

/-- One turn of the loop: `fscanf(file, "%lu %s %lu\n", ..)` up to the first conversion that fails. -/
def scanProcess (raw : RawArgs) (i : ℕ) (file : List Char) : Except LoadEnd (LdProcess × List Char) :=
  match number file with
  | (none, rest) => storeProcess (raw.startTime i) (raw.proc i) (raw.prio i) rest
  | (some start, rest) =>
    if word rest = [] then storeProcess start (raw.proc i) (raw.prio i) (afterWord rest)
    else if 100 ≤ (word rest).length then .error .fault
    else
      match number (afterWord rest) with
      | (none, rest')      => storeProcess start (cString (word rest)) (raw.prio i) rest'
      | (some prio, rest') => storeProcess start (cString (word rest)) prio (skipSpace rest')

/-- `n` turns of the loop, from process `i` on. -/
def scanProcesses (raw : RawArgs) : ℕ → ℕ → List Char → Except LoadEnd (List LdProcess)
  | _, 0,     _    => .ok []
  | i, n + 1, file => do
    let (p, file) ← scanProcess raw i file
    let rest ← scanProcesses raw (i + 1) n file
    .ok (p :: rest)

/-- `fscanf(file, "%d", &x)`, where `x` is zero. -/
def scanSize (file : List Char) : BitVec 32 × List Char := ((integer file).1.getD 0, (integer file).2)

/-- The loop over `memswpsz`. -/
def scanSizes : ℕ → List Char → List (BitVec 32) × List Char
  | 0,     file => ([], file)
  | n + 1, file => ((scanSize file).1 :: (scanSizes n (scanSize file).2).1, (scanSizes n (scanSize file).2).2)

/-- White space at the end of a format: it is read when everything before it has been converted. -/
def formatEnd (converted : Bool) (file : List Char) : List Char := if converted then skipSpace file else file

/-- `read_config`, on a file that exists. -/
def readConfig (raw : RawArgs) (file : List Char) : Except LoadEnd ReadConfig := do
  let (ints, file) := integers 3 file
  let file := formatEnd (ints.length = 3) file
  let (ram, file) := integer file
  let file := formatEnd ram.isSome file
  let (swaps, file) := scanSizes pagingMaxMmswp file
  let numProcesses := ints[2]?.getD 0
  let processes ← scanProcesses raw 0 numProcesses.toInt.toNat (skipSpace file)
  .ok ⟨ints[0]?.getD 0, ints[1]?.getD 0, numProcesses, ram.getD 0, swaps, processes⟩

/-! ## The process descriptions -/

/-- `load(ld_processes.path[i])`: there is no process without a file. -/
def loadFile (files : List Char → Option (List Char)) (heap : Heap) (stack : Stack) (path : List Char) :
    Except LoadEnd PcbT :=
  match files path with
  | none      => .error .exit
  | some file => load heap stack file

/-- The calls of `load`, from process `i` on. -/
def loadFiles (files : List Char → Option (List Char)) (heap : ℕ → Heap) (stack : ℕ → Stack) :
    ℕ → List LdProcess → Except LoadEnd (List PcbT)
  | _, []      => .ok []
  | i, p :: ps => do
    let proc ← loadFile files (heap i) (stack i) p.path
    let rest ← loadFiles files heap stack (i + 1) ps
    .ok (proc :: rest)

/-- The statics together with the loaded code. -/
def ReadConfig.configFile (r : ReadConfig) (procs : List PcbT) : ConfigFile where
  timeSlot := r.timeSlot
  numCpus := r.numCpus
  numProcesses := r.numProcesses
  memramsz := r.memramsz
  memswpsz i := r.memswpsz[(i : ℕ)]?.getD 0
  startTime i := (r.processes[i]?.map LdProcess.startTime).getD 0
  prio i := (r.processes[i]?.map LdProcess.prio).getD 0
  code i := (procs[i]?.map fun p => p.code.text).getD []

/-- Everything that the simulator reads: the configuration file, and the processes that it names. -/
def bootConfig (files : List Char → Option (List Char)) (raw : RawArgs) (heap : ℕ → Heap) (stack : ℕ → Stack)
    (file : List Char) : Except LoadEnd ConfigFile := do
  let r ← readConfig raw file
  let procs ← loadFiles files heap stack 0 r.processes
  .ok (r.configFile procs)

end LamiaAtrium
