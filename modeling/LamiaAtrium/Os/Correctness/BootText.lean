import LamiaAtrium.Loader.Correctness.Grammar
import LamiaAtrium.Os.ReadConfig

/-!
# `Os.Correctness.BootText` — the input files are read as they are written

* `SrcConfig` is a configuration as its author means it, `Spells` the texts of it: the numbers and names in their
  order, with white space of any kind between them.
* `scanProcess_of_line` is the step lemma, `scanProcesses_of_lines` the run. `boot_as_written`: the threads get the
  configuration that the files spell, whatever was in memory before.
* `legacy_config_misread`: a file without the line of the memory sizes is read too, but nothing of its processes.
-/

namespace LamiaAtrium

open Scan

/-! ## The texts of a configuration -/

/-- A process as the input files describe it: its line in the configuration, and the file at its path. -/
structure SrcProcess where
  startTime : BitVec 64
  name : List Char
  prio : BitVec 64
  priority : ℕ
  code : List SrcInst
  name_ne : name ≠ []
  name_word : ∀ c ∈ name, isSpace c = false ∧ c ≠ Char.ofNat 0
  name_short : (procPath name).length < 100

/-- A configuration: four sizes of swap devices, and no more processes than an `int` counts. -/
structure SrcConfig where
  timeSlot : BitVec 32
  numCpus : BitVec 32
  memramsz : BitVec 32
  memswpsz : List (BitVec 32)
  procs : List SrcProcess
  sizes : memswpsz.length = pagingMaxMmswp
  count : procs.length < 2 ^ 31

/-- The process lines: three fields each, with white space in front of every field. -/
inductive ProcLines : List SrcProcess → List Char → Prop where
  | nil {t} : (∀ c ∈ t, isSpace c = true) → ProcLines [] t
  | cons {p ps b start g g' prio t} : (∀ c ∈ b, isSpace c = true) → b ≠ [] → Numeral start p.startTime →
      (∀ c ∈ g, isSpace c = true) → g ≠ [] → (∀ c ∈ g', isSpace c = true) → g' ≠ [] → Numeral prio p.prio →
      ProcLines ps t → ProcLines (p :: ps) (b ++ start ++ (g ++ p.name ++ (g' ++ prio ++ t)))

/-- The text of a configuration. -/
inductive Spells (src : SrcConfig) : List Char → Prop where
  | intro {lead slot heads sizes lines} : (∀ c ∈ lead, isSpace c = true) → IntNumeral slot src.timeSlot →
      IntFields [src.numCpus, BitVec.ofNat 32 src.procs.length] heads →
      IntFields (src.memramsz :: src.memswpsz) sizes → ProcLines src.procs lines →
      Spells src (lead ++ slot ++ (heads ++ (sizes ++ lines)))

/-- The files hold the programs, at the paths that the configuration names. -/
def HoldPrograms (files : List Char → Option (List Char)) (src : SrcConfig) : Prop :=
  ∀ p ∈ src.procs, ∃ file body, files (procPath p.name) = some file ∧ Announces file p.priority p.code.length body ∧
    Listing p.code body

/-- The threads get what is written. -/
structure AsWritten (src : SrcConfig) (f : ConfigFile) : Prop where
  timeSlot : f.config.timeSlot = src.timeSlot.toInt
  numCpus : f.config.numCpus = src.numCpus.toInt.toNat
  numProcesses : f.config.numProcesses = src.procs.length
  memramsz : f.memramsz = src.memramsz
  memswpsz : List.ofFn f.memswpsz = src.memswpsz
  startTime : ∀ i p, src.procs[i]? = some p → f.config.startTime i = p.startTime.toNat
  prio : ∀ i p, src.procs[i]? = some p → f.config.prio i = (p.prio.setWidth 32).toNat
  code : ∀ i p, src.procs[i]? = some p → List.Forall₂ Carries p.code (f.config.code i)

/-! ## The configuration file -/

theorem atSpace_of_nonempty {b : List Char} (hb : ∀ c ∈ b, isSpace c = true) (hne : b ≠ []) (s : List Char) :
    AtSpace (b ++ s) := by
  obtain ⟨c, b, rfl⟩ := List.exists_cons_of_ne_nil hne
  exact atSpace_cons (hb c List.mem_cons_self)

theorem ProcLines.atSpace {ps : List SrcProcess} {t : List Char} (h : ProcLines ps t) : AtSpace t := by
  cases h with
  | nil ht =>
    have := atSpace_append ht atSpace_nil
    rwa [List.append_nil] at this
  | @cons p ps b start g g' prio t hb hne _ _ _ _ _ _ _ =>
    rw [List.append_assoc]
    exact atSpace_of_nonempty hb hne _

/-- The line of a process, as `ld_processes` gets it. -/
def SrcProcess.line (p : SrcProcess) : LdProcess := ⟨p.startTime, procPath p.name, p.prio⟩

/-- **A process line is read as it is written.** -/
theorem scanProcess_of_line {p : SrcProcess} {raw : RawArgs} {i : ℕ} {b start g g' prio rest file : List Char}
    (hb : ∀ c ∈ b, isSpace c = true) (hstart : Numeral start p.startTime) (hg : ∀ c ∈ g, isSpace c = true)
    (hgne : g ≠ []) (hg' : ∀ c ∈ g', isSpace c = true) (hgne' : g' ≠ []) (hprio : Numeral prio p.prio)
    (hrest : AtSpace rest)
    (hfile : skipSpace file = skipSpace (b ++ start ++ (g ++ p.name ++ (g' ++ prio ++ rest)))) :
    scanProcess raw i file = .ok (p.line, skipSpace rest) := by
  have hnum : number file = (some p.startTime, g ++ p.name ++ (g' ++ prio ++ rest)) := by
    rw [← number_skipSpace, hfile, number_skipSpace]
    refine number_of_numeral hb hstart ?_
    rw [List.append_assoc]
    exact atSpace_of_nonempty hg hgne _
  have hend : AtSpace (g' ++ prio ++ rest) := by
    rw [List.append_assoc]
    exact atSpace_of_nonempty hg' hgne' _
  obtain ⟨hword, hafter⟩ := word_append hg (fun c hc => (p.name_word c hc).1) p.name_ne hend
  have hshort := p.name_short
  have hlen : ¬ 100 ≤ p.name.length := by
    rw [length_procPath] at hshort
    omega
  rw [scanProcess, hnum]
  dsimp only
  rw [hword, hafter, if_neg p.name_ne, if_neg hlen, number_of_numeral hg' hprio hrest]
  dsimp only
  rw [cString_of_forall fun c hc => (p.name_word c hc).2, storeProcess, if_pos hshort]
  rfl

theorem scanProcesses_succ {raw : RawArgs} {i n : ℕ} {file rest : List Char} {p : LdProcess} {ps : List LdProcess}
    (hp : scanProcess raw i file = .ok (p, rest)) (hps : scanProcesses raw (i + 1) n rest = .ok ps) :
    scanProcesses raw i (n + 1) file = .ok (p :: ps) := by
  rw [scanProcesses]
  exact bind_eq_ok.mpr ⟨(p, rest), hp, bind_eq_ok.mpr ⟨ps, hps, rfl⟩⟩

/-- **The process lines are read one after the other.** -/
theorem scanProcesses_of_lines {raw : RawArgs} {ps : List SrcProcess} {t : List Char} (h : ProcLines ps t) :
    ∀ {i : ℕ} {file : List Char}, skipSpace file = skipSpace t →
      scanProcesses raw i ps.length file = .ok (ps.map SrcProcess.line) := by
  induction h with
  | nil _ => exact fun _ => rfl
  | @cons p ps b start g g' prio t hb _ hstart hg hgne hg' hgne' hprio ht ih =>
    intro i file hfile
    exact scanProcesses_succ (scanProcess_of_line hb hstart hg hgne hg' hgne' hprio ht.atSpace hfile)
      (ih (skipSpace_skipSpace t))

/-- The swap sizes are read one after the other. -/
theorem scanSizes_of_fields {vs : List (BitVec 32)} {t rest : List Char} (h : IntFields vs t) (hs : AtSpace rest) :
    scanSizes vs.length (t ++ rest) = (vs, rest) := by
  induction h with
  | nil => rfl
  | @cons v vs b s t hb _ hv hf ih =>
    have hread := integer_of_numeral hb hv (hf.atSpace hs)
    rw [List.length_cons, scanSizes, scanSize, List.append_assoc, hread]
    dsimp only
    rw [ih]
    rfl

theorem scanSizes_skipSpace (n : ℕ) (file : List Char) :
    scanSizes (n + 1) (skipSpace file) = scanSizes (n + 1) file := by
  rw [scanSizes, scanSizes, scanSize, scanSize, integer_skipSpace]

/-- The number of processes fits. -/
theorem toNat_count {k : ℕ} (h : k < 2 ^ 31) : (BitVec.ofNat 32 k).toInt.toNat = k := by
  have hk : (BitVec.ofNat 32 k).toNat = k := by
    rw [BitVec.toNat_ofNat, Nat.mod_eq_of_lt (h.trans (by decide))]
  rw [BitVec.toInt_eq_toNat_of_lt (by rw [hk]; omega), hk, Int.toNat_natCast]

/-- `read_config` in four parts. -/
theorem readConfig_eq {raw : RawArgs} {file rest₁ rest₂ rest₃ : List Char} {ints swaps : List (BitVec 32)}
    {ram : Option (BitVec 32)} {ps : List LdProcess} (hints : integers 3 file = (ints, rest₁))
    (hram : integer (formatEnd (ints.length = 3) rest₁) = (ram, rest₂))
    (hswaps : scanSizes pagingMaxMmswp (formatEnd ram.isSome rest₂) = (swaps, rest₃))
    (hps : scanProcesses raw 0 (ints[2]?.getD 0).toInt.toNat (skipSpace rest₃) = .ok ps) :
    readConfig raw file
      = .ok ⟨ints[0]?.getD 0, ints[1]?.getD 0, ints[2]?.getD 0, ram.getD 0, swaps, ps⟩ := by
  rw [readConfig, hints]
  dsimp only
  rw [hram]
  dsimp only
  rw [hswaps]
  dsimp only
  rw [hps]
  rfl

/-- **The configuration file is read as it is written**, whatever was in memory. -/
theorem readConfig_of_spells {src : SrcConfig} {text : List Char} (h : Spells src text) (raw : RawArgs) :
    readConfig raw text = .ok ⟨src.timeSlot, src.numCpus, BitVec.ofNat 32 src.procs.length, src.memramsz, src.memswpsz,
      src.procs.map SrcProcess.line⟩ := by
  obtain ⟨hlead, hslot, hheads, hsizes, hlines⟩ := h
  rename_i lead slot heads sizes lines
  have hsizesEnd : AtSpace (sizes ++ lines) := hsizes.atSpace hlines.atSpace
  have hfirst := integer_of_numeral hlead hslot (hheads.atSpace hsizesEnd)
  have hnext : integers 2 (heads ++ (sizes ++ lines)) = ([src.numCpus, BitVec.ofNat 32 src.procs.length],
      sizes ++ lines) := integers_of_fields hheads hsizesEnd
  have hints : integers 3 (lead ++ slot ++ (heads ++ (sizes ++ lines)))
      = ([src.timeSlot, src.numCpus, BitVec.ofNat 32 src.procs.length], sizes ++ lines) := by
    rw [integers, hfirst]
    dsimp only
    rw [hnext]
  cases hsizes with
  | @cons v vs b s t hb _ hram hswaps =>
    have hread : integer (skipSpace (b ++ s ++ t ++ lines)) = (some src.memramsz, t ++ lines) := by
      rw [integer_skipSpace, List.append_assoc]
      exact integer_of_numeral hb hram (hswaps.atSpace hlines.atSpace)
    have hrest : scanSizes pagingMaxMmswp (skipSpace (t ++ lines)) = (src.memswpsz, lines) := by
      rw [pagingMaxMmswp, scanSizes_skipSpace, show 3 + 1 = src.memswpsz.length from src.sizes.symm]
      exact scanSizes_of_fields hswaps hlines.atSpace
    refine readConfig_eq hints hread hrest ?_
    show scanProcesses raw 0 (BitVec.ofNat 32 src.procs.length).toInt.toNat (skipSpace lines) = _
    rw [toNat_count src.count]
    exact scanProcesses_of_lines hlines (skipSpace_skipSpace lines)

/-! ## The programs -/

theorem load_of_listing {file body : List Char} {prio : ℕ} {is : List SrcInst}
    (h : Announces file prio is.length body) (hbody : Listing is body) (heap : Heap) (stack : Stack) :
    ∃ proc, load heap stack file = .ok proc ∧ List.Forall₂ Carries is proc.code.text := by
  obtain ⟨rest, hrest, hload⟩ := load_of_announces h
  have hspelled := spelled_of_listed hbody ⟨rest, stack.opcode, stack.buf⟩ hrest
  refine ⟨_, by rw [hload, hspelled]; rfl, ?_⟩
  exact carries_fillFrom heap.text is 0

/-- **The programs are loaded one after the other.** -/
theorem loadFiles_of_programs {files : List Char → Option (List Char)} (heap : ℕ → Heap) (stack : ℕ → Stack)
    (ps : List SrcProcess) (h : ∀ p ∈ ps, ∃ file body, files (procPath p.name) = some file ∧
      Announces file p.priority p.code.length body ∧ Listing p.code body) :
    ∀ i, ∃ procs, loadFiles files heap stack i (ps.map SrcProcess.line) = .ok procs ∧
      List.Forall₂ (fun p proc => List.Forall₂ Carries p.code proc.code.text) ps procs := by
  induction ps with
  | nil => exact fun _ => ⟨[], rfl, .nil⟩
  | cons p ps ih =>
    intro i
    obtain ⟨file, body, hfile, hannounces, hlisting⟩ := h p List.mem_cons_self
    obtain ⟨proc, hload, hcode⟩ := load_of_listing hannounces hlisting (heap i) (stack i)
    obtain ⟨procs, hrest, hcodes⟩ := ih (fun q hq => h q (List.mem_cons_of_mem p hq)) (i + 1)
    have hone : loadFile files (heap i) (stack i) p.line.path = .ok proc := by
      rw [loadFile, show files p.line.path = some file from hfile]
      exact hload
    refine ⟨proc :: procs, ?_, .cons hcode hcodes⟩
    rw [List.map_cons, loadFiles]
    exact bind_eq_ok.mpr ⟨proc, hone, bind_eq_ok.mpr ⟨procs, hrest, rfl⟩⟩

/-- What the threads get. -/
theorem bootConfig_of_spells {src : SrcConfig} {text : List Char} (h : Spells src text)
    {files : List Char → Option (List Char)} (hfiles : HoldPrograms files src) (raw : RawArgs) (heap : ℕ → Heap)
    (stack : ℕ → Stack) : ∃ f, bootConfig files raw heap stack text = .ok f ∧ AsWritten src f := by
  obtain ⟨procs, hload, hcodes⟩ := loadFiles_of_programs heap stack src.procs hfiles 0
  refine ⟨_, bind_eq_ok.mpr ⟨_, readConfig_of_spells h raw, bind_eq_ok.mpr ⟨procs, hload, rfl⟩⟩, ?_⟩
  have hline : ∀ (i : ℕ) (p : SrcProcess), src.procs[i]? = some p →
      (src.procs.map SrcProcess.line)[i]? = some p.line := by
    intro i p hp
    rw [List.getElem?_map, hp]
    rfl
  constructor
  · rfl
  · rfl
  · exact toNat_count src.count
  · rfl
  · refine List.ext_getElem (by rw [List.length_ofFn, src.sizes]) fun i hi hi' => ?_
    rw [List.getElem_ofFn]
    show src.memswpsz[i]?.getD 0 = _
    rw [List.getElem?_eq_getElem hi']
    rfl
  · intro i p hp
    show ((((src.procs.map SrcProcess.line)[i]?).map LdProcess.startTime).getD 0).toNat = _
    rw [hline i p hp]
    rfl
  · intro i p hp
    show (BitVec.setWidth 32 ((((src.procs.map SrcProcess.line)[i]?).map LdProcess.prio).getD 0)).toNat = _
    rw [hline i p hp]
    rfl
  · intro i p hp
    obtain ⟨hi, hget⟩ := List.getElem?_eq_some_iff.mp hp
    have hi' : i < procs.length := hcodes.length_eq ▸ hi
    have hcode := hcodes.get hi hi'
    rw [List.get_eq_getElem, List.get_eq_getElem, hget] at hcode
    show List.Forall₂ Carries p.code ((procs[i]?.map fun p => p.code.text).getD [])
    rw [List.getElem?_eq_getElem hi']
    exact hcode

/-- **The input files are read as they are written.** For every configuration, every text of it with white space of any
    kind and amount between its fields, and process files that list its programs: whatever `malloc` hands out and the
    stack holds, `read_config` and the calls of `load` end with that configuration. -/
theorem boot_as_written (src : SrcConfig) (text : List Char) (h : Spells src text)
    (files : List Char → Option (List Char)) (hfiles : HoldPrograms files src) (raw : RawArgs) (heap : ℕ → Heap)
    (stack : ℕ → Stack) : ∃ f, bootConfig files raw heap stack text = .ok f ∧ AsWritten src f :=
  bootConfig_of_spells h hfiles raw heap stack

/-- One process of one instruction. -/
def calcProcess : SrcProcess where
  startTime := BitVec.ofNat 64 0
  name := ['p']
  prio := BitVec.ofNat 64 3
  priority := 1
  code := [⟨.calc, [], rfl⟩]
  name_ne := by simp
  name_word := by simp [isSpace]
  name_short := by decide

/-- One CPU, and one page of memory. -/
def calcConfig : SrcConfig where
  timeSlot := BitVec.ofNat 32 2
  numCpus := BitVec.ofNat 32 1
  memramsz := BitVec.ofNat 32 4096
  memswpsz := [BitVec.ofNat 32 0, BitVec.ofNat 32 0, BitVec.ofNat 32 0, BitVec.ofNat 32 0]
  procs := [calcProcess]
  sizes := rfl
  count := by decide

/-- `2 1 1`, `4096 0 0 0 0` and `0 p 3`. -/
def calcText : List Char :=
  ['2', ' ', '1', ' ', '1', '\n', '4', '0', '9', '6', ' ', '0', ' ', '0', ' ', '0', ' ', '0', '\n', '0', ' ', 'p', ' ',
    '3', '\n']

/-- `1 1` and `calc`. -/
def calcFile : List Char := ['1', ' ', '1', '\n', 'c', 'a', 'l', 'c']

theorem calcText_spells : Spells calcConfig calcText := by
  have hzero : IntNumeral ['0'] (BitVec.ofNat 32 0) := .plain ⟨by simp, by simp, by decide⟩ (by decide)
  have hone : IntNumeral ['1'] (BitVec.ofNat 32 1) := .plain ⟨by simp, by simp, by decide⟩ (by decide)
  have htwo : IntNumeral ['2'] (BitVec.ofNat 32 2) := .plain ⟨by simp, by simp, by decide⟩ (by decide)
  have hpage : IntNumeral ['4', '0', '9', '6'] (BitVec.ofNat 32 4096) :=
    .plain ⟨by simp, by simp, by decide⟩ (by decide)
  have hstart : Numeral ['0'] (BitVec.ofNat 64 0) := .plain ⟨by simp, by simp, by decide⟩ (by decide)
  have hprio : Numeral ['3'] (BitVec.ofNat 64 3) := .plain ⟨by simp, by simp, by decide⟩ (by decide)
  have hblank : ∀ c ∈ [' '], isSpace c = true := by simp [isSpace]
  have hend : ∀ c ∈ ['\n'], isSpace c = true := by simp [isSpace]
  have hswaps : IntFields calcConfig.memswpsz [' ', '0', ' ', '0', ' ', '0', ' ', '0'] :=
    .cons hblank (by simp) hzero (.cons hblank (by simp) hzero (.cons hblank (by simp) hzero
      (.cons hblank (by simp) hzero .nil)))
  have hlines : ProcLines [calcProcess] ['\n', '0', ' ', 'p', ' ', '3', '\n'] :=
    @ProcLines.cons calcProcess [] ['\n'] ['0'] [' '] [' '] ['3'] ['\n'] hend (by simp) hstart hblank (by simp) hblank
      (by simp) hprio (.nil hend)
  exact @Spells.intro calcConfig [] _ _ _ _ (List.forall_mem_nil _) htwo
    (.cons hblank (by simp) hone (.cons hblank (by simp) hone .nil)) (.cons hend (by simp) hpage hswaps) hlines

/-- The only file. -/
def calcFiles (path : List Char) : Option (List Char) := if path = procPath ['p'] then some calcFile else none

theorem calcFiles_hold : HoldPrograms calcFiles calcConfig := by
  intro p hp
  obtain rfl := List.mem_singleton.mp hp
  have hdigit : Digits ['1'] 1 := ⟨by simp, by simp, by decide⟩
  have hline : InstLine ⟨.calc, [], rfl⟩ ['c', 'a', 'l', 'c'] :=
    @InstLine.intro ⟨.calc, [], rfl⟩ [] [] [] (List.forall_mem_nil _) .nil (List.forall_mem_nil _) (by simp)
  refine ⟨calcFile, ['\n', 'c', 'a', 'l', 'c'], if_pos rfl, ⟨['1', ' ', '1'], rfl, ?_, .inr ⟨_, rfl⟩⟩, ?_⟩
  · exact @Header.intro 1 1 [] ['1'] [' '] ['1'] [] (List.forall_mem_nil _) hdigit (by decide) (by simp [isBlank])
      (by simp) hdigit (by decide) (List.forall_mem_nil _)
  · exact .cons hline .done

theorem boot_as_written_calc : ∃ f, bootConfig (fun path => if path = procPath ['p'] then some calcFile else none)
    ⟨fun _ => 7, fun _ => [], fun _ => 9⟩ (fun _ => ⟨5, 6, fun _ => ⟨.free, 1, 2, 3, 4⟩⟩) (fun _ => ⟨[], []⟩) calcText
      = .ok f ∧ AsWritten calcConfig f :=
  boot_as_written calcConfig calcText calcText_spells calcFiles calcFiles_hold _ _ _

/-! ## Files without memory sizes -/

/-- A configuration file that goes on with its processes after the first three numbers: `first` is the first start
    time, and a name begins with no digit and no sign. -/
inductive LegacyText (timeSlot numCpus numProcesses first : BitVec 32) : List Char → Prop where
  | intro {lead slot heads b start g c rest} : (∀ c ∈ lead, isSpace c = true) → IntNumeral slot timeSlot →
      IntFields [numCpus, numProcesses] heads → (∀ c ∈ b, isSpace c = true) → b ≠ [] → IntNumeral start first →
      (∀ c ∈ g, isSpace c = true) → g ≠ [] → isSpace c = false → c.isDigit = false → c ≠ '+' → c ≠ '-' →
      LegacyText timeSlot numCpus numProcesses first (lead ++ slot ++ (heads ++ (b ++ start ++ (g ++ c :: rest))))

/-- What was in memory for process `i`. -/
def RawArgs.process (raw : RawArgs) (i : ℕ) : LdProcess := ⟨raw.startTime i, procPath (raw.proc i), raw.prio i⟩

section

variable {c : Char} {rest : List Char}

theorem scanSizes_of_stuck (h : integer (c :: rest) = (none, c :: rest)) (n : ℕ) :
    scanSizes n (c :: rest) = (List.replicate n 0, c :: rest) := by
  induction n with
  | zero => rfl
  | succ n ih =>
    rw [scanSizes, scanSize, h]
    dsimp only
    rw [ih]
    rfl

/-- A conversion that cannot go on leaves every process as it was. -/
theorem scanProcesses_of_stuck {raw : RawArgs} (h : number (c :: rest) = (none, c :: rest)) (n : ℕ) :
    ∀ {i : ℕ}, (∀ j, i ≤ j → j < i + n → (procPath (raw.proc j)).length < 100) →
      scanProcesses raw i n (c :: rest) = .ok ((List.range' i n).map raw.process) := by
  induction n with
  | zero => exact fun _ => rfl
  | succ n ih =>
    intro i hroom
    have hone : scanProcess raw i (c :: rest) = .ok (raw.process i, c :: rest) := by
      rw [scanProcess, h]
      dsimp only
      rw [storeProcess, if_pos (hroom i le_rfl (by omega))]
      rfl
    have hrest := @ih (i + 1) fun j hj hlt => hroom j (by omega) (by omega)
    rw [List.range'_succ, List.map_cons]
    exact scanProcesses_succ hone hrest

end

/-- **A file without the memory sizes is read, and nothing of its processes**, when its first start time is an `int`,
    the name behind it begins with no digit and no sign, and what `proc` holds before leaves room for `input/proc/` in
    each turn. The first start time becomes the size of the memory, all swap sizes are zero, and `ld_processes` is what
    was in memory, for every process. -/
theorem legacy_config_misread (timeSlot numCpus numProcesses first : BitVec 32) (text : List Char)
    (h : LegacyText timeSlot numCpus numProcesses first text) (raw : RawArgs)
    (hroom : ∀ i < numProcesses.toInt.toNat, (procPath (raw.proc i)).length < 100) :
    readConfig raw text = .ok ⟨timeSlot, numCpus, numProcesses, first, List.replicate 4 0,
      (List.range numProcesses.toInt.toNat).map raw.process⟩ := by
  obtain ⟨hlead, hslot, hheads, hb, hbne, hstart, hg, hgne, hspace, hdigit, hplus, hminus⟩ := h
  rename_i lead slot heads b start g c rest
  obtain ⟨hint, hnum⟩ := integer_of_letter hspace hdigit hplus hminus (List.forall_mem_nil _) rest
  have hend : AtSpace (g ++ c :: rest) := atSpace_of_nonempty hg hgne _
  have hmid : AtSpace (b ++ start ++ (g ++ c :: rest)) := by
    rw [List.append_assoc]
    exact atSpace_of_nonempty hb hbne _
  have hfirst := integer_of_numeral hlead hslot (hheads.atSpace hmid)
  have hnext : integers 2 (heads ++ (b ++ start ++ (g ++ c :: rest))) = ([numCpus, numProcesses],
      b ++ start ++ (g ++ c :: rest)) := integers_of_fields hheads hmid
  have hints : integers 3 (lead ++ slot ++ (heads ++ (b ++ start ++ (g ++ c :: rest))))
      = ([timeSlot, numCpus, numProcesses], b ++ start ++ (g ++ c :: rest)) := by
    rw [integers, hfirst]
    dsimp only
    rw [hnext]
  have hram : integer (skipSpace (b ++ start ++ (g ++ c :: rest))) = (some first, g ++ c :: rest) := by
    rw [integer_skipSpace]
    exact integer_of_numeral hb hstart hend
  have hskip : skipSpace (c :: rest) = c :: rest := List.dropWhile_cons_of_neg (by simp [hspace])
  have hswaps : scanSizes pagingMaxMmswp (skipSpace (g ++ c :: rest)) = (List.replicate 4 0, c :: rest) := by
    rw [skipSpace_append hg, hskip]
    exact scanSizes_of_stuck hint 4
  refine readConfig_eq hints hram hswaps ?_
  show scanProcesses raw 0 numProcesses.toInt.toNat (skipSpace (c :: rest)) = _
  rw [hskip, List.range_eq_range']
  exact scanProcesses_of_stuck hnum _ fun j _ hj => hroom j (by omega)

theorem legacy_config_misread_one : readConfig ⟨fun _ => 7, fun _ => ['q'], fun _ => 9⟩
    (['4', ' ', '2', ' ', '1', '\n', '3', ' ', 'p', ' ', '0', '\n']) = .ok ⟨4, 2, 1, 3, List.replicate 4 0,
      [⟨7, procPath ['q'], 9⟩]⟩ := by
  have htwo : IntNumeral ['2'] (BitVec.ofNat 32 2) := .plain ⟨by simp, by simp, by decide⟩ (by decide)
  have hone : IntNumeral ['1'] (BitVec.ofNat 32 1) := .plain ⟨by simp, by simp, by decide⟩ (by decide)
  have hfour : IntNumeral ['4'] (BitVec.ofNat 32 4) := .plain ⟨by simp, by simp, by decide⟩ (by decide)
  have hthree : IntNumeral ['3'] (BitVec.ofNat 32 3) := .plain ⟨by simp, by simp, by decide⟩ (by decide)
  have hblank : ∀ c ∈ [' '], isSpace c = true := by simp [isSpace]
  have hend : ∀ c ∈ ['\n'], isSpace c = true := by simp [isSpace]
  have htext : LegacyText 4 2 1 3 (['4', ' ', '2', ' ', '1', '\n', '3', ' ', 'p', ' ', '0', '\n']) :=
    @LegacyText.intro 4 2 1 3 [] ['4'] _ ['\n'] ['3'] [' '] 'p' [' ', '0', '\n'] (List.forall_mem_nil _) hfour
      (.cons hblank (by simp) htwo (.cons hblank (by simp) hone .nil)) hend (by simp) hthree hblank (by simp)
      (by decide) (by decide) (by decide) (by decide)
  exact legacy_config_misread 4 2 1 3 _ htext ⟨fun _ => 7, fun _ => ['q'], fun _ => 9⟩ fun _ _ => by
    rw [length_procPath]
    simp

end LamiaAtrium
