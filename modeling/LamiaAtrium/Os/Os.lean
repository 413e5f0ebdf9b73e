import LamiaAtrium.Mem.Types
import LamiaAtrium.Sched.Sched
import LamiaAtrium.Timer.Timer

/-!
# `Os.Os` — `os.c`: the CPU threads and the loader thread

A thread is a program counter over the accesses it makes to shared state: a scheduler call, a read or a
write of `done`, one instruction, the start and the end of `next_slot`. What it does to its own locals in
between belongs to the step.

* A process is named by its position in the configuration; `pid` is that position plus one.
* What an instruction does to memory, and what loading a process does to it, is a `Machine`. The threads
  never look into it.
* `osSystem` lets the threads interleave freely and `current_time()` return anything. `bootSystem` is the
  same threads with every `next_slot` tied to the slot barrier of `Timer.Timer`.
* `reaped` and `executed` are history variables: the processes freed so far, and the instructions that
  `run` has executed for each process, in order.
-/

namespace LamiaAtrium

/-- What `read_config` and `load` read from the input files. -/
structure Config where
  timeSlot : ℤ
  numCpus : ℕ
  numProcesses : ℕ
  startTime : ℕ → ℕ
  prio : ℕ → ℕ
  code : ℕ → List InstT

/-- The memory below the threads: its states at the start, loading a process, executing one instruction
    of a process (which may look at the queues). -/
structure Machine (M : Type) where
  start : M → Prop
  load : ℕ → M → M → Prop
  exec : SchedState ℕ → ℕ → InstT → M → M → Prop

/-- Where a CPU thread is in `cpu_routine`. -/
inductive CpuPc where
  | top            -- `while (1)`
  | getAfterFree   -- between `free(proc)` and `get_proc()`
  | getAfterPut    -- between `put_proc(proc)` and `get_proc()`
  | check          -- `if (proc == NULL && done)`
  | run            -- `run(proc)`
  | slot           -- before `next_slot(timer_id)`
  | inSlot
  | leaving        -- after `break`, before `detach_event(timer_id)`
  | exited
deriving DecidableEq

/-- The locals of `cpu_routine`. -/
structure Cpu where
  pc : CpuPc
  proc : Option ℕ
  timeLeft : ℤ
deriving DecidableEq

/-- Where the loader thread is in `ld_routine`. -/
inductive LdPc where
  | top            -- `while (i < num_processes)`
  | waitTest       -- `while (current_time() < start_time[i])`
  | waitSlot       -- before the `next_slot(timer_id)` of that loop
  | inWaitSlot
  | initMm         -- `init_mm(krnl->mm, proc)`
  | add            -- `add_proc(proc)`
  | slot           -- before the `next_slot(timer_id)` after `add_proc`
  | inSlot
  | setDone        -- `done = 1`
  | leaving
  | exited
deriving DecidableEq

/-- The statics of `os.c` and `sched.c`, the locals of the threads, the `pc` of every PCB. -/
structure OsState (n : ℕ) (M : Type) where
  sched : SchedState ℕ
  done : Bool
  cpu : Fin n → Cpu
  ld : LdPc
  i : ℕ
  procPc : ℕ → ℕ
  mem : M
  reaped : List ℕ
  executed : ℕ → List InstT

/-- What a step is, seen from outside. -/
inductive OsEvent (n : ℕ) where
  | silent
  | get (c : Fin n)
  | put (c : Fin n) (x : ℕ)
  | add (x : ℕ)
  | slot (e : SlotEvent (Fin (n + 1)))

variable {n : ℕ} {M : Type}

/-- `args[i].timer_id`: the CPUs attach first. -/
def cpuDev (c : Fin n) : Fin (n + 1) := c.castSucc

/-- `ld_event`: the loader attaches last. -/
def ldDev : Fin (n + 1) := Fin.last n

/-- Replace the locals of CPU `c`. -/
def OsState.setCpu (s : OsState n M) (c : Fin n) (v : Cpu) : OsState n M :=
  { s with cpu := Function.update s.cpu c v }

@[simp] theorem cpu_setCpu_self (s : OsState n M) (c : Fin n) (v : Cpu) : (s.setCpu c v).cpu c = v :=
  Function.update_self ..

theorem cpu_setCpu_of_ne (s : OsState n M) {c d : Fin n} (v : Cpu) (h : d ≠ c) :
    (s.setCpu c v).cpu d = s.cpu d := Function.update_of_ne h ..

/-- `run(proc)`: nothing at the end of the code, otherwise fetch, advance `pc`, execute. -/
inductive Run (cfg : Config) (mach : Machine M) (s : OsState n M) (x : ℕ) : OsState n M → Prop where
  | atEnd : (cfg.code x).length ≤ s.procPc x → Run cfg mach s x s
  | exec {ins m} : (cfg.code x)[s.procPc x]? = some ins → mach.exec s.sched x ins s.mem m →
      Run cfg mach s x
        { s with
          procPc := Function.update s.procPc x (s.procPc x + 1)
          mem := m
          executed := Function.update s.executed x (s.executed x ++ [ins]) }

/-- One step of CPU `c`. -/
inductive CpuStep (cfg : Config) (mach : Machine M) (s : OsState n M) (c : Fin n) :
    OsEvent n → OsState n M → Prop where
  | getIdle : (s.cpu c).pc = .top → (s.cpu c).proc = none →
      CpuStep cfg mach s c (.get c)
        ({ s with sched := (s.sched.getMlqProc cfg.prio).2 }.setCpu c
          { s.cpu c with
            pc := if (s.sched.getMlqProc cfg.prio).1.isSome then .check else .slot
            proc := (s.sched.getMlqProc cfg.prio).1 })
  | reap {x} : (s.cpu c).pc = .top → (s.cpu c).proc = some x → s.procPc x = (cfg.code x).length →
      CpuStep cfg mach s c .silent
        ({ s with reaped := x :: s.reaped }.setCpu c { s.cpu c with pc := .getAfterFree })
  | getAfterFree : (s.cpu c).pc = .getAfterFree →
      CpuStep cfg mach s c (.get c)
        ({ s with sched := (s.sched.getMlqProc cfg.prio).2 }.setCpu c
          ⟨.check, (s.sched.getMlqProc cfg.prio).1, 0⟩)
  | put {x t} : (s.cpu c).pc = .top → (s.cpu c).proc = some x → s.procPc x ≠ (cfg.code x).length →
      (s.cpu c).timeLeft = 0 → s.sched.putMlqProc cfg.prio x = some t →
      CpuStep cfg mach s c (.put c x)
        ({ s with sched := t }.setCpu c { s.cpu c with pc := .getAfterPut })
  | getAfterPut : (s.cpu c).pc = .getAfterPut →
      CpuStep cfg mach s c (.get c)
        ({ s with sched := (s.sched.getMlqProc cfg.prio).2 }.setCpu c
          ⟨.check, (s.sched.getMlqProc cfg.prio).1, (s.cpu c).timeLeft⟩)
  | keep {x} : (s.cpu c).pc = .top → (s.cpu c).proc = some x → s.procPc x ≠ (cfg.code x).length →
      (s.cpu c).timeLeft ≠ 0 →
      CpuStep cfg mach s c .silent (s.setCpu c { s.cpu c with pc := .check })
  | stop : (s.cpu c).pc = .check → (s.cpu c).proc = none → s.done = true →
      CpuStep cfg mach s c .silent (s.setCpu c { s.cpu c with pc := .leaving })
  | idle : (s.cpu c).pc = .check → (s.cpu c).proc = none → s.done = false →
      CpuStep cfg mach s c .silent (s.setCpu c { s.cpu c with pc := .slot })
  | dispatch {x} : (s.cpu c).pc = .check → (s.cpu c).proc = some x →
      CpuStep cfg mach s c .silent
        (s.setCpu c ⟨.run, some x, if (s.cpu c).timeLeft = 0 then cfg.timeSlot else (s.cpu c).timeLeft⟩)
  | run {x t} : (s.cpu c).pc = .run → (s.cpu c).proc = some x → Run cfg mach s x t →
      CpuStep cfg mach s c .silent
        (t.setCpu c ⟨.slot, some x, (s.cpu c).timeLeft - 1⟩)
  | call : (s.cpu c).pc = .slot →
      CpuStep cfg mach s c (.slot (.call (cpuDev c))) (s.setCpu c { s.cpu c with pc := .inSlot })
  | ret : (s.cpu c).pc = .inSlot →
      CpuStep cfg mach s c (.slot (.ret (cpuDev c))) (s.setCpu c { s.cpu c with pc := .top })
  | detach : (s.cpu c).pc = .leaving →
      CpuStep cfg mach s c (.slot (.detach (cpuDev c))) (s.setCpu c { s.cpu c with pc := .exited })

/-- One step of the loader, at a moment when `current_time()` is `now`. -/
inductive LdStep (cfg : Config) (mach : Machine M) (now : ℕ) (s : OsState n M) :
    OsEvent n → OsState n M → Prop where
  | load : s.ld = .top → s.i < cfg.numProcesses → LdStep cfg mach now s .silent { s with ld := .waitTest }
  | allLoaded : s.ld = .top → ¬ s.i < cfg.numProcesses →
      LdStep cfg mach now s .silent { s with ld := .setDone }
  | early : s.ld = .waitTest → now < cfg.startTime s.i →
      LdStep cfg mach now s .silent { s with ld := .waitSlot }
  | onTime : s.ld = .waitTest → ¬ now < cfg.startTime s.i →
      LdStep cfg mach now s .silent { s with ld := .initMm }
  | callWait : s.ld = .waitSlot →
      LdStep cfg mach now s (.slot (.call ldDev)) { s with ld := .inWaitSlot }
  | retWait : s.ld = .inWaitSlot →
      LdStep cfg mach now s (.slot (.ret ldDev)) { s with ld := .waitTest }
  | initMm {m} : s.ld = .initMm → mach.load s.i s.mem m →
      LdStep cfg mach now s .silent { s with mem := m, ld := .add }
  | add {t} : s.ld = .add → s.sched.addMlqProc cfg.prio s.i = some t →
      LdStep cfg mach now s (.add s.i) { s with sched := t, i := s.i + 1, ld := .slot }
  | call : s.ld = .slot → LdStep cfg mach now s (.slot (.call ldDev)) { s with ld := .inSlot }
  | ret : s.ld = .inSlot → LdStep cfg mach now s (.slot (.ret ldDev)) { s with ld := .top }
  | setDone : s.ld = .setDone → LdStep cfg mach now s .silent { s with done := true, ld := .leaving }
  | detach : s.ld = .leaving → LdStep cfg mach now s (.slot (.detach ldDev)) { s with ld := .exited }

/-- One step of any thread. -/
inductive OsStep (cfg : Config) (mach : Machine M) (now : ℕ) (s : OsState n M) :
    OsEvent n → OsState n M → Prop where
  | cpu {c e t} : CpuStep cfg mach s c e t → OsStep cfg mach now s e t
  | ld {e t} : LdStep cfg mach now s e t → OsStep cfg mach now s e t

/-- The state in which `main` creates the threads. -/
def OsState.start (n : ℕ) (m : M) : OsState n M where
  sched := SchedState.static.initScheduler
  done := false
  cpu _ := ⟨.top, none, 0⟩
  ld := .top
  i := 0
  procPc _ := 0
  mem := m
  reaped := []
  executed _ := []

/-- The threads alone, in any interleaving and at any time. -/
def osSystem (cfg : Config) (mach : Machine M) : Lts.System (OsState cfg.numCpus M) (OsEvent cfg.numCpus) where
  init s := ∃ m, mach.start m ∧ s = .start cfg.numCpus m
  step s e t := ∃ now, OsStep cfg mach now s e t

/-! ## The threads on the slot barrier -/

/-- The whole simulator. -/
structure BootState (n : ℕ) (M : Type) where
  os : OsState n M
  timer : TimerState (Fin (n + 1))

/-- A thread moves, the timer (or a thread inside a timer call) moves, or a thread enters or leaves a timer
    call. -/
inductive BootStep (cfg : Config) (mach : Machine M) :
    BootState n M → Option (OsEvent n) → BootState n M → Prop where
  | thread {s l t} : (∀ e, l ≠ .slot e) → OsStep cfg mach s.timer.time s.os l t →
      BootStep cfg mach s (some l) ⟨t, s.timer⟩
  | timer {s t} : TimerStep (devListOf (n + 1)) s.timer none t → BootStep cfg mach s none ⟨s.os, t⟩
  | slot {s e t u} : OsStep cfg mach s.timer.time s.os (.slot e) t →
      TimerStep (devListOf (n + 1)) s.timer (some e) u → BootStep cfg mach s (some (.slot e)) ⟨t, u⟩

/-- The simulator from `main` on. -/
def bootSystem (cfg : Config) (mach : Machine M) :
    Lts.System (BootState cfg.numCpus M) (Option (OsEvent cfg.numCpus)) where
  init s := (∃ m, mach.start m ∧ s.os = .start cfg.numCpus m) ∧ s.timer = .start (cfg.numCpus + 1)
  step := BootStep cfg mach

/-- A run of the simulator is a run of its threads. -/
theorem osReachable_of_boot {cfg : Config} {mach : Machine M} {s : BootState cfg.numCpus M}
    (h : (bootSystem cfg mach).Reachable s) : (osSystem cfg mach).Reachable s.os := by
  induction h with
  | init hs => exact .init hs.1
  | step _ hst ih =>
    cases hst with
    | thread _ hos => exact .step ih ⟨_, hos⟩
    | timer _ => exact ih
    | slot hos _ => exact .step ih ⟨_, hos⟩

/-- A run of the simulator is a run of the barrier. -/
theorem timerReachable_of_boot {cfg : Config} {mach : Machine M} {s : BootState cfg.numCpus M}
    (h : (bootSystem cfg mach).Reachable s) : (timerSystem (cfg.numCpus + 1)).Reachable s.timer := by
  induction h with
  | init hs => exact .init hs.2
  | step _ hst ih =>
    cases hst with
    | thread _ _ => exact ih
    | timer ht => exact .step ih ht
    | slot _ ht => exact .step ih ht

end LamiaAtrium
