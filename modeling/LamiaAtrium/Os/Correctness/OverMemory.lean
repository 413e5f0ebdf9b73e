import LamiaAtrium.Os.Os

/-!
# `Os.Correctness.OverMemory` — the threads over another memory

* `OsStep.lift`: the threads see nothing of their memory but how its steps go, so they can be put over any other memory
  whose steps follow. A step that touches no memory is the same one over any.
* `reachable_withMem`: so is a whole run, when the steps follow in every state that it reaches.
-/

namespace LamiaAtrium

section

variable {n now : ℕ} {M N : Type} {cfg : Config} {mach : Machine M} {mach' : Machine N}

/-- The threads as they are, over another memory. -/
def OsState.withMem (s : OsState n M) (m : N) : OsState n N :=
  ⟨s.sched, s.done, s.cpu, s.ld, s.i, s.procPc, m, s.reaped, s.executed⟩

/-- The steps of one memory that a thread may be about to take are steps of the other, along `R`. -/
structure Follows (cfg : Config) (mach : Machine M) (mach' : Machine N) (R : M → N → Prop) (s : OsState n M) (m' : N) :
    Prop where
  load : s.ld = .initMm → ∀ u, mach.load s.i s.mem u → ∃ u', mach'.load s.i m' u' ∧ R u u'
  exec : ∀ c x ins u, (s.cpu c).pc = .run → (s.cpu c).proc = some x → (cfg.code x)[s.procPc x]? = some ins →
    mach.exec s.sched x ins s.mem u → ∃ u', mach'.exec s.sched x ins m' u' ∧ R u u'

variable {R : M → N → Prop} {s t : OsState n M} {m' : N} {e : OsEvent n}

theorem Run.lift {x : ℕ} (hR : R s.mem m') (hexec : ∀ ins u, (cfg.code x)[s.procPc x]? = some ins →
      mach.exec s.sched x ins s.mem u → ∃ u', mach'.exec s.sched x ins m' u' ∧ R u u') (h : Run cfg mach s x t) :
    ∃ u', Run cfg mach' (s.withMem m') x (t.withMem u') ∧ R t.mem u' := by
  cases h with
  | atEnd hend => exact ⟨m', .atEnd hend, hR⟩
  | exec hins hm =>
    obtain ⟨u', hm', hR'⟩ := hexec _ _ hins hm
    exact ⟨u', .exec hins hm', hR'⟩

theorem CpuStep.lift {c : Fin n} (hR : R s.mem m') (hf : Follows cfg mach mach' R s m')
    (h : CpuStep cfg mach s c e t) : ∃ u', CpuStep cfg mach' (s.withMem m') c e (t.withMem u') ∧ R t.mem u' := by
  cases h with
  | getIdle hpc hproc => exact ⟨m', .getIdle hpc hproc, hR⟩
  | reap hpc hproc hend => exact ⟨m', .reap hpc hproc hend, hR⟩
  | getAfterFree hpc => exact ⟨m', .getAfterFree hpc, hR⟩
  | put hpc hproc hmore hslot hput => exact ⟨m', .put hpc hproc hmore hslot hput, hR⟩
  | getAfterPut hpc => exact ⟨m', .getAfterPut hpc, hR⟩
  | keep hpc hproc hmore hslot => exact ⟨m', .keep hpc hproc hmore hslot, hR⟩
  | stop hpc hproc hdone => exact ⟨m', .stop hpc hproc hdone, hR⟩
  | idle hpc hproc hdone => exact ⟨m', .idle hpc hproc hdone, hR⟩
  | dispatch hpc hproc => exact ⟨m', .dispatch hpc hproc, hR⟩
  | run hpc hproc hrun =>
    obtain ⟨u', hrun', hR'⟩ := hrun.lift hR fun ins u => hf.exec c _ ins u hpc hproc
    have hstep := CpuStep.run (s := s.withMem m') hpc hproc hrun'
    exact ⟨u', hstep, hR'⟩
  | call hpc => exact ⟨m', .call hpc, hR⟩
  | ret hpc => exact ⟨m', .ret hpc, hR⟩
  | detach hpc => exact ⟨m', .detach hpc, hR⟩

theorem LdStep.lift (hR : R s.mem m') (hf : Follows cfg mach mach' R s m') (h : LdStep cfg mach now s e t) :
    ∃ u', LdStep cfg mach' now (s.withMem m') e (t.withMem u') ∧ R t.mem u' := by
  cases h with
  | load hpc hlt => exact ⟨m', .load hpc hlt, hR⟩
  | allLoaded hpc hend => exact ⟨m', .allLoaded hpc hend, hR⟩
  | early hpc hlt => exact ⟨m', .early hpc hlt, hR⟩
  | onTime hpc hge => exact ⟨m', .onTime hpc hge, hR⟩
  | callWait hpc => exact ⟨m', .callWait hpc, hR⟩
  | retWait hpc => exact ⟨m', .retWait hpc, hR⟩
  | initMm hpc hload =>
    obtain ⟨u', hload', hR'⟩ := hf.load hpc _ hload
    exact ⟨u', .initMm hpc hload', hR'⟩
  | add hpc hadd => exact ⟨m', .add hpc hadd, hR⟩
  | call hpc => exact ⟨m', .call hpc, hR⟩
  | ret hpc => exact ⟨m', .ret hpc, hR⟩
  | setDone hpc => exact ⟨m', .setDone hpc, hR⟩
  | detach hpc => exact ⟨m', .detach hpc, hR⟩

/-- **A step of the threads over another memory.** -/
theorem OsStep.lift (hR : R s.mem m') (hf : Follows cfg mach mach' R s m') (h : OsStep cfg mach now s e t) :
    ∃ u', OsStep cfg mach' now (s.withMem m') e (t.withMem u') ∧ R t.mem u' := by
  cases h with
  | cpu hcpu =>
    obtain ⟨u', hcpu', hR'⟩ := hcpu.lift hR hf
    exact ⟨u', .cpu hcpu', hR'⟩
  | ld hld =>
    obtain ⟨u', hld', hR'⟩ := hld.lift hR hf
    exact ⟨u', .ld hld', hR'⟩

/-- **Every run of the threads is a run over the other memory**, when its steps follow in every state reached. -/
theorem reachable_withMem (hstart : ∀ m, mach.start m → ∃ m', mach'.start m' ∧ R m m')
    (hfollows : ∀ (s : OsState cfg.numCpus M) (m' : N), (osSystem cfg mach).Reachable s → R s.mem m' →
      Follows cfg mach mach' R s m') {s : OsState cfg.numCpus M} (hs : (osSystem cfg mach).Reachable s) :
    ∃ m', (osSystem cfg mach').Reachable (s.withMem m') ∧ R s.mem m' := by
  induction hs with
  | init hinit =>
    obtain ⟨m, hm, rfl⟩ := hinit
    obtain ⟨m', hm', hR⟩ := hstart m hm
    exact ⟨m', .init ⟨m', hm', rfl⟩, hR⟩
  | step hs hst ih =>
    obtain ⟨now, hos⟩ := hst
    obtain ⟨m', hs', hR⟩ := ih
    obtain ⟨u', hos', hR'⟩ := hos.lift hR (hfollows _ m' hs hR)
    exact ⟨u', hs'.step ⟨now, hos'⟩, hR'⟩

end

end LamiaAtrium
