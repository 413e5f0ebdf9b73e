import LamiaAtrium.Os.Correctness.Places
import LamiaAtrium.Os.Correctness.Running

/-!
# `Os.Correctness.Slicing` — how long a CPU keeps a process

`slices_exact`: from a dispatch on, a CPU calls `run` on the process it has dispatched, once in every slot,
`time_slot` times or until no instruction remains, and only then puts the process back or frees it.

`time_left` alone cannot say that: it is a local of the loop, set in one branch, reset in another and carried
through the rest. So the run keeps a record of what each CPU does (`CpuAct`), and `Slicing` ties `time_left`
to the part of the record since the last dispatch, one clause for each place in the loop.
-/

namespace LamiaAtrium

open Lts.System

variable {n : ℕ} {M : Type} {cfg : Config} {mach : Machine M}

/-! ## The record of a CPU -/

/-- What a CPU does to the process it holds, and the slots it passes. -/
inductive CpuAct where
  | dispatched (x remaining : ℕ)
  | ran (x : ℕ)
  | slot
  | put (x : ℕ)
  | reaped (x : ℕ)
deriving DecidableEq

/-- Instructions that remain of process `x`. -/
def OsState.remaining (cfg : Config) (s : OsState n M) (x : ℕ) : ℕ := (cfg.code x).length - s.procPc x

/-- What a CPU with locals `v` has done when its locals are `w` one step later. -/
def actsOf (remaining : ℕ → ℕ) (v w : Cpu) : List CpuAct :=
  match v.proc, v.pc, w.pc with
  | some x, .check, .run => if v.timeLeft = 0 then [.dispatched x (remaining x)] else []
  | some x, .run, .slot => [.ran x]
  | some x, .top, .getAfterPut => [.put x]
  | some x, .top, .getAfterFree => [.reaped x]
  | _, .slot, .inSlot => [.slot]
  | _, _, _ => []

/-- The threads, with the record of every CPU. -/
def recordedSystem (cfg : Config) (mach : Machine M) :
    Lts.System (OsState cfg.numCpus M × (Fin cfg.numCpus → List CpuAct)) (OsEvent cfg.numCpus) :=
  (osSystem cfg mach).record (fun _ => []) fun s t acts c =>
    acts c ++ actsOf (s.remaining cfg) (s.cpu c) (t.cpu c)

/-- A CPU that does not move does nothing. -/
theorem actsOf_self (remaining : ℕ → ℕ) (v : Cpu) : actsOf remaining v v = [] := by
  obtain ⟨pc, proc, timeLeft⟩ := v
  cases proc <;> cases pc <;> rfl

/-! ## Slices -/

/-- `k` calls of `run` on `x`, one in every slot. -/
def turns (x k : ℕ) : List CpuAct := (List.replicate k [.ran x, .slot]).flatten

/-- What follows the dispatch of `x` with `r` instructions remaining, when `run` is called `k` times. -/
def sliceOf (timeSlot : ℤ) (x r k : ℕ) : List CpuAct :=
  turns x k ++ [if (r : ℤ) ≤ timeSlot then .reaped x else .put x]

/-- **The slices of a record are exact.** After every dispatch with instructions remaining the record goes on
    as `sliceOf` says, as far as it goes, and `run` is called nowhere else. -/
structure ExactSlices (timeSlot : ℤ) (acts : List CpuAct) : Prop where
  exact : ∀ before x r rest, acts = before ++ .dispatched x r :: rest → 0 < r →
    rest <+: sliceOf timeSlot x r (min timeSlot.toNat r) ∨ sliceOf timeSlot x r (min timeSlot.toNat r) <+: rest
  inside : ∀ before x rest, acts = before ++ .ran x :: rest →
    ∃ earlier r k, before = earlier ++ .dispatched x r :: turns x k

/-- Calls of `run` in a slice. A process without code is run once, which does nothing. -/
def calls (timeSlot : ℤ) (r : ℕ) : ℕ := max 1 (min timeSlot.toNat r)

/-- A record of whole slices and idle slots. -/
inductive Whole (timeSlot : ℤ) : List CpuAct → Prop where
  | nil : Whole timeSlot []
  | idle {l} : Whole timeSlot l → Whole timeSlot (l ++ [.slot])
  | slice {l} (x r : ℕ) : Whole timeSlot l →
      Whole timeSlot (l ++ .dispatched x r :: sliceOf timeSlot x r (calls timeSlot r))

theorem turns_succ (x k : ℕ) : turns x (k + 1) = .ran x :: .slot :: turns x k := by
  simp only [turns, List.replicate_succ, List.flatten_cons, List.cons_append, List.nil_append]

theorem turns_succ_last (x k : ℕ) : turns x (k + 1) = turns x k ++ [.ran x] ++ [.slot] := by
  simp only [turns, List.replicate_succ', List.flatten_append, List.flatten_cons, List.flatten_nil,
    List.append_assoc, List.cons_append, List.nil_append]

/-- An element of `l ++ m` is in `l` or in `m`. -/
theorem append_eq_append_cons {α : Type*} {l m before rest : List α} {a : α} (h : l ++ m = before ++ a :: rest) :
    (∃ as, before = l ++ as ∧ m = as ++ a :: rest) ∨ ∃ as, l = before ++ a :: as ∧ rest = as ++ m := by
  rcases List.append_eq_append_iff.mp h with hleft | ⟨bs, hl, hbs⟩
  · exact .inl hleft
  · cases bs with
    | nil => exact .inl ⟨[], by simpa using hl.symm, hbs.symm⟩
    | cons b bs =>
      obtain ⟨rfl, hrest⟩ := List.cons.inj hbs
      exact .inr ⟨bs, hl, hrest⟩

/-- An element of `l ++ m` that is not in `m`. -/
theorem append_eq_append_cons_of_notMem {α : Type*} {l m before rest : List α} {a : α} (ha : a ∉ m)
    (h : l ++ m = before ++ a :: rest) : ∃ as, l = before ++ a :: as ∧ rest = as ++ m := by
  rcases append_eq_append_cons h with ⟨as, -, rfl⟩ | hleft
  · exact absurd (List.mem_append_right _ List.mem_cons_self) ha
  · exact hleft

/-- No dispatch is inside a slice. -/
theorem dispatched_not_mem_sliceOf (timeSlot : ℤ) (x r k y q : ℕ) :
    .dispatched y q ∉ sliceOf timeSlot x r k := by
  induction k with
  | zero =>
    intro hmem
    have := List.mem_singleton.mp hmem
    split at this <;> cases this
  | succ k ih =>
    unfold sliceOf at ih ⊢
    simpa [turns_succ] using ih

/-- A call of `run` in a slice follows whole turns of the same process. -/
theorem ran_sliceOf {timeSlot : ℤ} {x y r k : ℕ} : ∀ {before rest : List CpuAct},
    sliceOf timeSlot x r k = before ++ .ran y :: rest → y = x ∧ ∃ j, before = turns x j := by
  induction k with
  | zero =>
    intro before rest h
    obtain ⟨a, ha, hne⟩ : ∃ a : CpuAct, sliceOf timeSlot x r 0 = [a] ∧ a ≠ .ran y := by
      refine ⟨_, rfl, ?_⟩
      split <;> exact nofun
    rw [ha] at h
    have hmem : CpuAct.ran y ∈ [a] := by
      rw [h]
      exact List.mem_append_right _ List.mem_cons_self
    exact absurd (List.mem_singleton.mp hmem).symm hne
  | succ k ih =>
    intro before rest h
    have hslice : sliceOf timeSlot x r (k + 1) = .ran x :: .slot :: sliceOf timeSlot x r k := by
      simp only [sliceOf, turns_succ, List.cons_append]
    rw [hslice] at h
    cases before with
    | nil =>
      obtain ⟨hx, -⟩ := List.cons.inj h
      exact ⟨(CpuAct.ran.inj hx).symm, 0, rfl⟩
    | cons a before =>
      obtain ⟨rfl, htail⟩ := List.cons.inj h
      cases before with
      | nil => cases (List.cons.inj htail).1
      | cons b before =>
        obtain ⟨rfl, hrest⟩ := List.cons.inj htail
        obtain ⟨hy, j, rfl⟩ := ih hrest
        exact ⟨hy, j + 1, (turns_succ x j).symm⟩

/-- Every dispatch in a whole record is followed by its slice. -/
theorem Whole.exact {timeSlot : ℤ} {l : List CpuAct} (h : Whole timeSlot l) {x r : ℕ} :
    ∀ {before rest : List CpuAct}, l = before ++ .dispatched x r :: rest →
      sliceOf timeSlot x r (calls timeSlot r) <+: rest := by
  induction h with
  | nil =>
    intro before rest hl
    exact absurd hl (by simp)
  | idle _ ih =>
    intro before rest hl
    obtain ⟨as, hl', rfl⟩ := append_eq_append_cons_of_notMem (by simp) hl
    exact (ih hl').trans (List.prefix_append _ _)
  | slice y q _ ih =>
    intro before rest hl
    rcases append_eq_append_cons hl with ⟨as, -, has⟩ | ⟨as, hl', rfl⟩
    · cases as with
      | nil =>
        -- it is the dispatch of this slice
        obtain ⟨hd, hrest⟩ := List.cons.inj has
        obtain ⟨rfl, rfl⟩ := CpuAct.dispatched.inj hd
        rw [hrest]
      | cons a as =>
        have hmem : CpuAct.dispatched x r ∈ sliceOf timeSlot y q (calls timeSlot q) := by
          rw [(List.cons.inj has).2]
          exact List.mem_append_right _ List.mem_cons_self
        exact absurd hmem (dispatched_not_mem_sliceOf timeSlot y q _ x r)
    · exact (ih hl').trans (List.prefix_append _ _)

/-- Every call of `run` in a whole record is inside a slice. -/
theorem Whole.inside {timeSlot : ℤ} {l : List CpuAct} (h : Whole timeSlot l) {x : ℕ} :
    ∀ {before rest : List CpuAct}, l = before ++ .ran x :: rest →
      ∃ earlier r k, before = earlier ++ .dispatched x r :: turns x k := by
  induction h with
  | nil =>
    intro before rest hl
    exact absurd hl (by simp)
  | idle _ ih =>
    intro before rest hl
    obtain ⟨as, hl', rfl⟩ := append_eq_append_cons_of_notMem (by simp) hl
    exact ih hl'
  | @slice l y q _ ih =>
    intro before rest hl
    rcases append_eq_append_cons hl with ⟨as, rfl, has⟩ | ⟨as, hl', rfl⟩
    · cases as with
      | nil => cases (List.cons.inj has).1
      | cons a as =>
        obtain ⟨rfl, hslice⟩ := List.cons.inj has
        obtain ⟨rfl, k, rfl⟩ := ran_sliceOf hslice
        exact ⟨l, q, k, rfl⟩
    · exact ih hl'

/-- **The beginning of a whole record has exact slices.** -/
theorem exactSlices_of_begins {timeSlot : ℤ} (hslot : 1 ≤ timeSlot) {l acts : List CpuAct} (h : Whole timeSlot l)
    (hacts : acts <+: l) : ExactSlices timeSlot acts := by
  obtain ⟨more, rfl⟩ := hacts
  constructor
  · intro before x r rest hrest hr
    subst hrest
    have hcalls : calls timeSlot r = min timeSlot.toNat r := by
      unfold calls
      omega
    have hslice := h.exact (show _ = before ++ .dispatched x r :: (rest ++ more) by simp)
    rw [hcalls] at hslice
    exact List.prefix_or_prefix_of_prefix (List.prefix_append rest more) hslice
  · intro before x rest hrest
    subst hrest
    exact h.inside (show _ = before ++ .ran x :: (rest ++ more) by simp)

/-! ## Where a CPU is in its slice -/

/-- `pc` does not run past the code. -/
theorem procPc_le {s : OsState cfg.numCpus M} (h : (osSystem cfg mach).Reachable s) (x : ℕ) :
    s.procPc x ≤ (cfg.code x).length := by
  refine h.invariant (I := fun s => ∀ x, s.procPc x ≤ (cfg.code x).length) ?_ ?_ x
  · rintro s ⟨m, -, rfl⟩ x
    exact Nat.zero_le _
  · rintro s e t ih ⟨now, hst⟩ x
    cases hst with
    | cpu hc =>
      cases hc with
      | @run y t _ _ hrun =>
        cases hrun with
        | atEnd _ => exact ih x
        | exec hins _ =>
          have hlt := (List.getElem?_eq_some_iff.mp hins).1
          by_cases hx : x = y
          · subst hx
            show Function.update s.procPc x _ x ≤ _
            rw [Function.update_self]
            exact hlt
          · show Function.update s.procPc y _ x ≤ _
            rw [Function.update_of_ne hx]
            exact ih x
      | _ => exact ih x
    | ld hl => cases hl <;> exact ih x

/-- Only the CPU that holds a process moves its `pc`. -/
theorem CpuStep.remaining_of_ne {s t : OsState n M} {c : Fin n} {e : OsEvent n} (h : CpuStep cfg mach s c e t)
    {x : ℕ} (hx : (s.cpu c).held ≠ some x) : t.remaining cfg x = s.remaining cfg x := by
  cases h with
  | @run y t hpc hproc hrun =>
    cases hrun with
    | atEnd _ => rfl
    | exec _ _ =>
      rw [Cpu.held_of_owns (by rw [hpc]; rfl), hproc] at hx
      show (cfg.code x).length - Function.update s.procPc y _ x = _
      rw [Function.update_of_ne (fun hxy => hx (by rw [hxy]))]
      rfl
  | _ => rfl

/-- `run` has been called `k` times since `x` was dispatched with `r` instructions remaining, and `tail` is the
    record since then. -/
structure InSlice (cfg : Config) (remaining : ℕ → ℕ) (timeLeft : ℤ) (acts tail : List CpuAct) (x r k : ℕ) :
    Prop where
  acts : ∃ whole, Whole cfg.timeSlot whole ∧ acts = whole ++ .dispatched x r :: tail
  timeLeft : timeLeft = cfg.timeSlot - k
  remaining : remaining x = r - k
  le_calls : k ≤ calls cfg.timeSlot r

/-- **What `time_left` says**, by the place of the CPU in `cpu_routine`. -/
def Slicing (cfg : Config) (remaining : ℕ → ℕ) (v : Cpu) (acts : List CpuAct) : Prop :=
  match v.proc with
  | none => Whole cfg.timeSlot acts ∧ v.timeLeft = 0
  | some x =>
    match v.pc with
    | .top | .inSlot => ∃ r k, 0 < k ∧ InSlice cfg remaining v.timeLeft acts (turns x k) x r k
    | .check =>
      (Whole cfg.timeSlot acts ∧ v.timeLeft = 0) ∨
        ∃ r k, 0 < k ∧ k < calls cfg.timeSlot r ∧ InSlice cfg remaining v.timeLeft acts (turns x k) x r k
    | .run => ∃ r k, k < calls cfg.timeSlot r ∧ InSlice cfg remaining v.timeLeft acts (turns x k) x r k
    | .slot => ∃ r k, InSlice cfg remaining v.timeLeft acts (turns x k ++ [.ran x]) x r (k + 1)
    | .getAfterFree => Whole cfg.timeSlot acts
    | .getAfterPut => Whole cfg.timeSlot acts ∧ v.timeLeft = 0
    | .leaving | .exited => False

/-- Only the process the CPU holds matters. -/
theorem Slicing.congr {remaining remaining' : ℕ → ℕ} {v : Cpu} {acts : List CpuAct}
    (h : Slicing cfg remaining v acts) (heq : ∀ x, v.held = some x → remaining' x = remaining x) :
    Slicing cfg remaining' v acts := by
  have hin : ∀ {x tail r k}, v.held = some x → InSlice cfg remaining v.timeLeft acts tail x r k →
      InSlice cfg remaining' v.timeLeft acts tail x r k := by
    intro x tail r k hx hs
    exact ⟨hs.acts, hs.timeLeft, (heq x hx).trans hs.remaining, hs.le_calls⟩
  obtain ⟨pc, proc, timeLeft⟩ := v
  cases proc with
  | none => exact h
  | some x =>
    cases pc with
    | top | inSlot =>
      obtain ⟨r, k, hk, hs⟩ := h
      exact ⟨r, k, hk, hin rfl hs⟩
    | check =>
      rcases h with hclosed | ⟨r, k, hk, hlt, hs⟩
      · exact .inl hclosed
      · exact .inr ⟨r, k, hk, hlt, hin rfl hs⟩
    | run =>
      obtain ⟨r, k, hlt, hs⟩ := h
      exact ⟨r, k, hlt, hin rfl hs⟩
    | slot =>
      obtain ⟨r, k, hs⟩ := h
      exact ⟨r, k, hin rfl hs⟩
    | getAfterFree | getAfterPut | leaving | exited => exact h

/-- The slice ends with `free`: no instruction remains. -/
theorem InSlice.reap {remaining : ℕ → ℕ} {l : ℤ} {acts : List CpuAct} {x r k : ℕ} (hslot : 1 ≤ cfg.timeSlot)
    (h : InSlice cfg remaining l acts (turns x k) x r k) (hk : 0 < k) (hend : remaining x = 0) :
    Whole cfg.timeSlot (acts ++ [.reaped x]) := by
  obtain ⟨whole, hwhole, rfl⟩ := h.acts
  have hrem := h.remaining
  have hle := h.le_calls
  have hcalls : k = calls cfg.timeSlot r := by
    unfold calls at hle ⊢
    omega
  have hlast : (r : ℤ) ≤ cfg.timeSlot := by
    unfold calls at hle
    omega
  have := hwhole.slice x r
  rw [sliceOf, if_pos hlast, ← hcalls] at this
  simpa using this

/-- The slice ends with `put_proc`: the time slot is used up, and instructions remain. -/
theorem InSlice.put {remaining : ℕ → ℕ} {acts : List CpuAct} {x r k : ℕ} (hslot : 1 ≤ cfg.timeSlot)
    (h : InSlice cfg remaining 0 acts (turns x k) x r k) (hmore : 0 < remaining x) :
    Whole cfg.timeSlot (acts ++ [.put x]) := by
  obtain ⟨whole, hwhole, rfl⟩ := h.acts
  have hrem := h.remaining
  have htime := h.timeLeft
  have hcalls : k = calls cfg.timeSlot r := by
    unfold calls
    omega
  have hlast : ¬ (r : ℤ) ≤ cfg.timeSlot := by omega
  have := hwhole.slice x r
  rw [sliceOf, if_neg hlast, ← hcalls] at this
  simpa using this

/-- The slice goes on: neither is the time slot used up nor are the instructions. -/
theorem InSlice.lt_calls {remaining : ℕ → ℕ} {l : ℤ} {acts tail : List CpuAct} {x r k : ℕ}
    (hslot : 1 ≤ cfg.timeSlot) (h : InSlice cfg remaining l acts tail x r k) (hmore : 0 < remaining x) (hl : l ≠ 0) :
    k < calls cfg.timeSlot r := by
  have hrem := h.remaining
  have htime := h.timeLeft
  have hle := h.le_calls
  unfold calls at hle ⊢
  omega

/-- Inside a slice `time_left` is not zero. -/
theorem InSlice.timeLeft_ne {remaining : ℕ → ℕ} {l : ℤ} {acts tail : List CpuAct} {x r k : ℕ}
    (h : InSlice cfg remaining l acts tail x r k) (hk : 0 < k) (hlt : k < calls cfg.timeSlot r) : l ≠ 0 := by
  have htime := h.timeLeft
  unfold calls at hlt
  omega

/-! ## What a step of the CPU does to its slice -/

/-- A CPU that has got nothing, or a process it has not dispatched. -/
theorem slicing_got {remaining : ℕ → ℕ} {acts : List CpuAct} (h : Whole cfg.timeSlot acts) (got : Option ℕ) :
    Slicing cfg remaining ⟨.check, got, 0⟩ acts := by
  cases got with
  | none => exact ⟨h, rfl⟩
  | some x => exact .inl ⟨h, rfl⟩

/-- A step without an act. -/
theorem Slicing.silent {remaining : ℕ → ℕ} {v w : Cpu} {acts : List CpuAct} (hact : actsOf remaining v w = [])
    (h : Slicing cfg remaining w acts) : Slicing cfg remaining w (acts ++ actsOf remaining v w) := by
  rwa [hact, List.append_nil]

/-- `run` executes an instruction if one remains. -/
theorem Run.remaining {s t : OsState n M} {x : ℕ} (h : Run cfg mach s x t) :
    t.remaining cfg x = s.remaining cfg x - 1 := by
  cases h with
  | atEnd hend =>
    unfold OsState.remaining
    omega
  | exec _ _ =>
    show (cfg.code x).length - Function.update s.procPc x _ x = (cfg.code x).length - s.procPc x - 1
    rw [Function.update_self]
    omega

theorem InSlice.run {remaining remaining' : ℕ → ℕ} {l : ℤ} {acts : List CpuAct} {x r k : ℕ}
    (h : InSlice cfg remaining l acts (turns x k) x r k) (hlt : k < calls cfg.timeSlot r)
    (hrem : remaining' x = remaining x - 1) :
    InSlice cfg remaining' (l - 1) (acts ++ [.ran x]) (turns x k ++ [.ran x]) x r (k + 1) := by
  obtain ⟨whole, hwhole, rfl⟩ := h.acts
  refine ⟨⟨whole, hwhole, ?_⟩, ?_, ?_, hlt⟩
  · rw [List.append_assoc, List.cons_append]
  · rw [h.timeLeft]
    push_cast
    ring
  · rw [hrem, h.remaining, Nat.sub_sub]

theorem InSlice.slot {remaining : ℕ → ℕ} {l : ℤ} {acts : List CpuAct} {x r k : ℕ}
    (h : InSlice cfg remaining l acts (turns x k ++ [.ran x]) x r (k + 1)) :
    InSlice cfg remaining l (acts ++ [.slot]) (turns x (k + 1)) x r (k + 1) := by
  obtain ⟨whole, hwhole, rfl⟩ := h.acts
  refine ⟨⟨whole, hwhole, ?_⟩, h.timeLeft, h.remaining, h.le_calls⟩
  rw [turns_succ_last, List.append_assoc, List.cons_append]

/-- **A step of the CPU keeps its slice.** -/
theorem slicing_cpuStep (hslot : 1 ≤ cfg.timeSlot) {s t : OsState n M} {c : Fin n} {e : OsEvent n}
    (hc : CpuStep cfg mach s c e t) (hpc : ∀ x, s.procPc x ≤ (cfg.code x).length) {acts : List CpuAct}
    (h : Slicing cfg (s.remaining cfg) (s.cpu c) acts) :
    Slicing cfg (t.remaining cfg) (t.cpu c) (acts ++ actsOf (s.remaining cfg) (s.cpu c) (t.cpu c)) := by
  have hmore : ∀ {x}, s.procPc x ≠ (cfg.code x).length → 0 < s.remaining cfg x := by
    intro x hx
    have := hpc x
    unfold OsState.remaining
    omega
  obtain ⟨pc, proc, timeLeft, hv⟩ : ∃ pc proc timeLeft, s.cpu c = ⟨pc, proc, timeLeft⟩ := ⟨_, _, _, rfl⟩
  rw [hv] at h
  cases hc with
  | getIdle hat hproc =>
    rw [hv] at hat hproc
    subst hat hproc
    obtain ⟨hwhole, rfl⟩ := h
    rw [cpu_setCpu_self, hv]
    cases (s.sched.getMlqProc cfg.prio).1 with
    | none => exact .silent rfl ⟨hwhole, rfl⟩
    | some x => exact .silent rfl (slicing_got hwhole (some x))
  | reap hat hproc hend =>
    rw [hv] at hat hproc
    subst hat hproc
    obtain ⟨r, k, hk, hin⟩ := h
    rw [cpu_setCpu_self, hv]
    apply hin.reap hslot hk
    unfold OsState.remaining
    omega
  | getAfterFree hat =>
    rw [hv] at hat
    subst hat
    rw [cpu_setCpu_self, hv]
    cases proc with
    | none => exact .silent rfl (slicing_got h.1 _)
    | some x => exact .silent rfl (slicing_got h _)
  | put hat hproc hne htime hput =>
    rw [hv] at hat hproc htime
    subst hat hproc htime
    obtain ⟨r, k, hk, hin⟩ := h
    rw [cpu_setCpu_self, hv]
    exact ⟨hin.put hslot (hmore hne), rfl⟩
  | getAfterPut hat =>
    rw [hv] at hat
    subst hat
    rw [cpu_setCpu_self, hv]
    cases proc with
    | none | some x =>
      obtain ⟨hwhole, rfl⟩ := h
      exact .silent rfl (slicing_got hwhole _)
  | keep hat hproc hne htime =>
    rw [hv] at hat hproc htime
    subst hat hproc
    obtain ⟨r, k, hk, hin⟩ := h
    rw [cpu_setCpu_self, hv]
    exact .silent rfl (.inr ⟨r, k, hk, hin.lt_calls hslot (hmore hne) htime, hin⟩)
  | stop hat hproc _ | idle hat hproc _ =>
    rw [hv] at hat hproc
    subst hat hproc
    rw [cpu_setCpu_self, hv]
    exact .silent rfl h
  | @dispatch x hat hproc =>
    rw [hv] at hat hproc
    subst hat hproc
    rw [cpu_setCpu_self, hv]
    rcases h with ⟨hwhole, rfl⟩ | ⟨r, k, hk, hlt, hin⟩
    · -- a new slice
      refine ⟨s.remaining cfg x, 0, ?_, ⟨acts, hwhole, rfl⟩, ?_, rfl, Nat.zero_le _⟩
      · unfold calls
        omega
      · rw [if_pos rfl, Nat.cast_zero, sub_zero]
    · have hne : timeLeft ≠ 0 := hin.timeLeft_ne hk hlt
      rw [if_neg hne]
      exact .silent (if_neg hne) ⟨r, k, hlt, hin⟩
  | run hat hproc hrun =>
    rw [hv] at hat hproc
    subst hat hproc
    obtain ⟨r, k, hlt, hin⟩ := h
    rw [cpu_setCpu_self, hv]
    exact ⟨r, k, hin.run hlt hrun.remaining⟩
  | call hat =>
    rw [hv] at hat
    subst hat
    rw [cpu_setCpu_self, hv]
    cases proc with
    | none => exact ⟨h.1.idle, h.2⟩
    | some x =>
      obtain ⟨r, k, hin⟩ := h
      exact ⟨r, k + 1, Nat.succ_pos k, hin.slot⟩
  | ret hat | detach hat =>
    rw [hv] at hat
    subst hat
    rw [cpu_setCpu_self, hv]
    cases proc with
    | none | some x => exact .silent rfl h

/-- **The invariant of the record.** -/
theorem slicing_of_reachable (hslot : 1 ≤ cfg.timeSlot) {s : OsState cfg.numCpus M}
    {acts : Fin cfg.numCpus → List CpuAct} (h : (recordedSystem cfg mach).Reachable (s, acts)) (c : Fin cfg.numCpus) :
    Slicing cfg (s.remaining cfg) (s.cpu c) (acts c) := by
  refine Reachable.record_invariant (I := fun s acts => ∀ c, Slicing cfg (s.remaining cfg) (s.cpu c) (acts c))
    ?_ ?_ h c
  · rintro s ⟨m, -, rfl⟩ c
    exact ⟨.nil, rfl⟩
  · rintro s e t acts hs ih ⟨now, hst⟩ c
    have hother : t.cpu c = s.cpu c → (∀ x, (s.cpu c).held = some x → t.remaining cfg x = s.remaining cfg x) →
        Slicing cfg (t.remaining cfg) (t.cpu c) (acts c ++ actsOf (s.remaining cfg) (s.cpu c) (t.cpu c)) := by
      intro hcpu hrem
      rw [hcpu, actsOf_self, List.append_nil]
      exact (ih c).congr hrem
    cases hst with
    | @cpu d _ _ hc =>
      by_cases hcd : c = d
      · subst hcd
        exact slicing_cpuStep hslot hc (procPc_le hs) (ih c)
      · -- another CPU runs another process
        refine hother (hc.cpu_of_ne hcd) fun x hx => hc.remaining_of_ne fun hd => ?_
        exact hcd (holder_unique hs hx hd)
    | ld hl => cases hl <;> exact hother rfl fun _ _ => rfl

/-! ## The result -/

theorem turns_le (x : ℕ) {j k : ℕ} (h : j ≤ k) : turns x j <+: turns x k := by
  obtain ⟨d, rfl⟩ := Nat.exists_eq_add_of_le h
  rw [turns, turns, List.replicate_add, List.flatten_append]
  exact List.prefix_append _ _

/-- A slice that has begun can be completed. -/
theorem InSlice.begins {remaining : ℕ → ℕ} {l : ℤ} {acts tail : List CpuAct} {x r k : ℕ}
    (h : InSlice cfg remaining l acts tail x r k) (htail : tail <+: turns x k) :
    ∃ l, Whole cfg.timeSlot l ∧ acts <+: l := by
  obtain ⟨whole, hwhole, rfl⟩ := h.acts
  refine ⟨_, hwhole.slice x r, ?_⟩
  rw [List.prefix_append_right_inj, List.cons_prefix_cons]
  exact ⟨rfl, (htail.trans (turns_le x h.le_calls)).trans (List.prefix_append _ _)⟩

/-- The record of a CPU is the beginning of a whole one. -/
theorem Slicing.begins {remaining : ℕ → ℕ} {v : Cpu} {acts : List CpuAct} (h : Slicing cfg remaining v acts) :
    ∃ l, Whole cfg.timeSlot l ∧ acts <+: l := by
  obtain ⟨pc, proc, timeLeft⟩ := v
  cases proc with
  | none => exact ⟨acts, h.1, List.prefix_rfl⟩
  | some x =>
    cases pc with
    | top | inSlot =>
      obtain ⟨r, k, -, hin⟩ := h
      exact hin.begins List.prefix_rfl
    | check =>
      rcases h with hclosed | ⟨r, k, -, -, hin⟩
      · exact ⟨acts, hclosed.1, List.prefix_rfl⟩
      · exact hin.begins List.prefix_rfl
    | run =>
      obtain ⟨r, k, -, hin⟩ := h
      exact hin.begins List.prefix_rfl
    | slot =>
      obtain ⟨r, k, hin⟩ := h
      apply hin.begins
      rw [turns_succ_last]
      exact List.prefix_append _ _
    | getAfterFree => exact ⟨acts, h, List.prefix_rfl⟩
    | getAfterPut => exact ⟨acts, h.1, List.prefix_rfl⟩
    | leaving | exited => exact h.elim

/-- **Time slicing is exact.** With a time slot of at least one, every dispatch on every CPU is followed by
    exactly `min(time_slot, instructions remaining)` calls of `run` on the dispatched process, one in every slot,
    and then by `put_proc` or `free`; and a CPU whose `proc` is `NULL` has `time_left` 0. -/
theorem slices_exact (cfg : Config) (mach : Machine M) (hslot : 1 ≤ cfg.timeSlot) (s : OsState cfg.numCpus M)
    (acts : Fin cfg.numCpus → List CpuAct) (h : (recordedSystem cfg mach).Reachable (s, acts))
    (c : Fin cfg.numCpus) :
    ExactSlices cfg.timeSlot (acts c) ∧ ((s.cpu c).proc = none → (s.cpu c).timeLeft = 0) := by
  have hslicing := slicing_of_reachable hslot h c
  obtain ⟨l, hl, hacts⟩ := hslicing.begins
  refine ⟨exactSlices_of_begins hslot hl hacts, fun hproc => ?_⟩
  unfold Slicing at hslicing
  rw [hproc] at hslicing
  exact hslicing.2

/-- A step of a CPU appends to its record. -/
theorem recorded_cpuStep {s t : OsState cfg.numCpus M} {acts : Fin cfg.numCpus → List CpuAct}
    (h : (recordedSystem cfg mach).Reachable (s, acts)) {c : Fin cfg.numCpus} {e : OsEvent cfg.numCpus}
    (hc : CpuStep cfg mach s c e t) {v w : Cpu} (hv : s.cpu c = v) (hw : t.cpu c = w) :
    ∃ acts', (recordedSystem cfg mach).Reachable (t, acts') ∧
      acts' c = acts c ++ actsOf (s.remaining cfg) v w := by
  subst hv hw
  exact ⟨_, h.record_step ⟨0, .cpu hc⟩, rfl⟩

/-- The first turn after a dispatch, up to the end of the slot. -/
theorem recorded_turn {s : OsState cfg.numCpus Unit} {acts : Fin cfg.numCpus → List CpuAct}
    (h : (recordedSystem cfg noMemory).Reachable (s, acts)) {c : Fin cfg.numCpus} {x : ℕ}
    (hcpu : s.cpu c = ⟨.check, some x, 0⟩) {ins : InstT} (hins : (cfg.code x)[s.procPc x]? = some ins) :
    ∃ t acts', (recordedSystem cfg noMemory).Reachable (t, acts') ∧
      acts' c = acts c ++ [.dispatched x (s.remaining cfg x), .ran x, .slot] ∧
      t.cpu c = ⟨.top, some x, cfg.timeSlot - 1⟩ ∧ t.sched = s.sched ∧
      t.procPc = Function.update s.procPc x (s.procPc x + 1) := by
  have hslot : (if (s.cpu c).timeLeft = 0 then cfg.timeSlot else (s.cpu c).timeLeft) = cfg.timeSlot := by
    rw [hcpu]
    exact if_pos rfl
  obtain ⟨acts₁, h₁, hacts₁⟩ := recorded_cpuStep h (.dispatch (x := x) (by rw [hcpu]) (by rw [hcpu])) hcpu
    (w := ⟨.run, some x, cfg.timeSlot⟩) (by rw [cpu_setCpu_self, hslot])
  obtain ⟨acts₂, h₂, hacts₂⟩ := recorded_cpuStep h₁ (.run (x := x) (by rw [cpu_setCpu_self])
    (by rw [cpu_setCpu_self]) (.exec (m := ()) hins trivial)) (v := ⟨.run, some x, cfg.timeSlot⟩)
    (w := ⟨.slot, some x, cfg.timeSlot - 1⟩) (by rw [cpu_setCpu_self, hslot])
    (by rw [cpu_setCpu_self, cpu_setCpu_self, hslot])
  obtain ⟨acts₃, h₃, hacts₃⟩ := recorded_cpuStep h₂ (.call (by rw [cpu_setCpu_self]))
    (v := ⟨.slot, some x, cfg.timeSlot - 1⟩) (w := ⟨.inSlot, some x, cfg.timeSlot - 1⟩)
    (by rw [cpu_setCpu_self, cpu_setCpu_self, hslot]) (by simp only [cpu_setCpu_self, hslot])
  obtain ⟨acts₄, h₄, hacts₄⟩ := recorded_cpuStep h₃ (.ret (by rw [cpu_setCpu_self]))
    (v := ⟨.inSlot, some x, cfg.timeSlot - 1⟩) (w := ⟨.top, some x, cfg.timeSlot - 1⟩)
    (by simp only [cpu_setCpu_self, hslot]) (by simp only [cpu_setCpu_self, hslot])
  refine ⟨_, acts₄, h₄, ?_, by simp only [cpu_setCpu_self, hslot], rfl, rfl⟩
  rw [hacts₄, hacts₃, hacts₂, hacts₁]
  simp only [actsOf, if_true, List.append_assoc, List.cons_append, List.nil_append, List.append_nil]

/-- A CPU whose time slot is over puts its process back, and dispatches the one it gets. -/
theorem recorded_preempt {s : OsState cfg.numCpus Unit} {acts : Fin cfg.numCpus → List CpuAct}
    (h : (recordedSystem cfg noMemory).Reachable (s, acts)) {c : Fin cfg.numCpus} {x y : ℕ}
    (hcpu : s.cpu c = ⟨.top, some x, 0⟩) (hmore : s.procPc x ≠ (cfg.code x).length) {q r : SchedState ℕ}
    (hput : s.sched.putMlqProc cfg.prio x = some q) (hget : q.getMlqProc cfg.prio = (some y, r)) :
    ∃ t acts', (recordedSystem cfg noMemory).Reachable (t, acts') ∧
      acts' c = acts c ++ [.put x, .dispatched y (s.remaining cfg y)] := by
  have hfst : (q.getMlqProc cfg.prio).1 = some y := congrArg Prod.fst hget
  obtain ⟨acts₁, h₁, hacts₁⟩ := recorded_cpuStep h (.put (by rw [hcpu]) (by rw [hcpu]) hmore (by rw [hcpu]) hput)
    hcpu (w := ⟨.getAfterPut, some x, 0⟩) (by rw [cpu_setCpu_self, hcpu])
  obtain ⟨acts₂, h₂, hacts₂⟩ := recorded_cpuStep h₁ (.getAfterPut (by rw [cpu_setCpu_self]))
    (v := ⟨.getAfterPut, some x, 0⟩) (w := ⟨.check, some y, 0⟩) (by rw [cpu_setCpu_self, hcpu])
    (by rw [cpu_setCpu_self, cpu_setCpu_self, hcpu]; exact congrArg (Cpu.mk .check · 0) hfst)
  obtain ⟨acts₃, h₃, hacts₃⟩ := recorded_cpuStep h₂ (.dispatch (x := y) (by rw [cpu_setCpu_self])
    (by rw [cpu_setCpu_self]; exact hfst)) (v := ⟨.check, some y, 0⟩) (w := ⟨.run, some y, cfg.timeSlot⟩)
    (by rw [cpu_setCpu_self, cpu_setCpu_self, hcpu]; exact congrArg (Cpu.mk .check · 0) hfst)
    (by rw [cpu_setCpu_self, cpu_setCpu_self, cpu_setCpu_self, hcpu]; rfl)
  refine ⟨_, acts₃, h₃, ?_⟩
  rw [hacts₃, hacts₂, hacts₁]
  simp only [actsOf, if_true, List.append_assoc, List.cons_append, List.nil_append]
  rfl

/-- Two instructions for each of two processes; the time slot is one. -/
def twoCalcs : List InstT := [⟨.calc, 0, 0, 0, 0⟩, ⟨.calc, 0, 0, 0, 0⟩]

/-- The CPU runs the first process for its time slot, puts it back, and dispatches the second one. -/
theorem twoProcesses_sliced : ∃ (s : OsState (twoProcesses twoCalcs).numCpus Unit)
    (acts : Fin (twoProcesses twoCalcs).numCpus → List CpuAct) (before : List CpuAct),
      (recordedSystem (twoProcesses twoCalcs) noMemory).Reachable (s, acts) ∧
        acts (twoCpu twoCalcs) = before ++ [.dispatched 0 2, .ran 0, .slot, .put 0, .dispatched 1 2] := by
  let cfg := twoProcesses twoCalcs
  let c := twoCpu twoCalcs
  obtain ⟨s, h, hs⟩ := @oneWaits twoCalcs (fun _ _ => True) fun _ _ _ => trivial
  obtain ⟨acts, hrec⟩ : ∃ acts, (recordedSystem cfg noMemory).Reachable (s, acts) := h.of_guard.recorded _ _
  have hrem : ∀ t : OsState cfg.numCpus Unit, ∀ x, t.procPc x = 0 → t.remaining cfg x = 2 := by
    intro t x ht
    unfold OsState.remaining
    rw [ht]
    rfl
  have hins : (cfg.code 0)[s.procPc 0]? = some ⟨.calc, 0, 0, 0, 0⟩ := by
    rw [hs.procPc]
    rfl
  obtain ⟨t, acts₁, h₁, hacts₁, hcpu, hsched, hpc⟩ := recorded_turn hrec hs.cpu hins
  have hpc0 : t.procPc 0 = 1 := by rw [hpc, Function.update_self, hs.procPc]
  have hpc1 : t.procPc 1 = 0 := by rw [hpc, Function.update_of_ne Nat.one_ne_zero, hs.procPc]
  -- the first process goes behind the second one
  obtain ⟨q, hq⟩ : ∃ q, t.sched.putMlqProc cfg.prio 0 = some q := SchedState.requeue_isSome _ (Nat.succ_pos 139)
  obtain ⟨hp, hself, -⟩ := SchedState.requeue_spec hq
  have hready : q.ready level0 = [1, 0] := by
    refine hself.trans ?_
    rw [hsched, show s.sched.ready ⟨cfg.prio 0, hp⟩ = [1] from hs.ready]
    rfl
  have hmore : t.procPc 0 ≠ (cfg.code 0).length := by
    rw [hpc0]
    decide
  have hleft : t.cpu c = ⟨.top, some 0, 0⟩ := hcpu
  have hputStep := h₁.of_record.step ⟨0, .cpu (.put (c := c) (by rw [hleft]) (by rw [hleft]) hmore (by rw [hleft]) hq)⟩
  obtain ⟨r, hget, -⟩ := getMlqProc_front (fun _ => rfl) hputStep hready
  obtain ⟨u, acts₂, h₂, hacts₂⟩ := recorded_preempt h₁ hleft hmore hq hget
  refine ⟨u, acts₂, acts c, h₂, ?_⟩
  rw [hacts₂, hacts₁, hrem s 0 (hs.procPc 0), hrem t 1 hpc1, List.append_assoc]
  rfl

theorem slices_exact_two : ∃ (s : OsState (twoProcesses twoCalcs).numCpus Unit)
    (acts : Fin (twoProcesses twoCalcs).numCpus → List CpuAct) (before : List CpuAct),
      acts (twoCpu twoCalcs) = before ++ [.dispatched 0 2, .ran 0, .slot, .put 0, .dispatched 1 2] ∧
        ExactSlices 1 (acts (twoCpu twoCalcs)) ∧
        ((s.cpu (twoCpu twoCalcs)).proc = none → (s.cpu (twoCpu twoCalcs)).timeLeft = 0) := by
  obtain ⟨s, acts, before, h, hacts⟩ := twoProcesses_sliced
  exact ⟨s, acts, before, hacts,
    slices_exact (twoProcesses twoCalcs) noMemory (Int.le_refl 1) s acts h (twoCpu twoCalcs)⟩

end LamiaAtrium
