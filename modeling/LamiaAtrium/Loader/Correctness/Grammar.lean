import LamiaAtrium.Loader.Loader

/-!
# `Loader.Correctness.Grammar` — which process descriptions `load` accepts

* `InstLine`, `Listing`, `Header` are the grammar: a header `priority n`, and one instruction per line.
* `readInst_of_line` is the step lemma for files of the grammar, `spelled_of_listed` the run: they are loaded as they
  are written.
* `AcceptsGrammar` wants besides that nothing is loaded from a file whose header announces more instructions than there
  are complete lines. At the end of the file the buffer `opcode` keeps the last opcode, and `load` returns a process
  unless one of the words that it reads as opcodes is none (`Foreign`, `acceptsGrammar_iff`).
-/

namespace LamiaAtrium

open Scan

/-! ## The grammar -/

/-- How many arguments an instruction is written with. -/
def InsOpcodeT.arity : InsOpcodeT → ℕ
  | .calc    => 0
  | .alloc   => 2
  | .free    => 1
  | .read    => 3
  | .write   => 3
  | .syscall => 4

/-- An instruction as it is written. -/
structure SrcInst where
  opcode : InsOpcodeT
  args : List (BitVec 64)
  arity : args.length = opcode.arity

/-- The line of an instruction, without its end. The one of a system call has fewer than 200 characters. -/
inductive InstLine (i : SrcInst) : List Char → Prop where
  | intro {lead fields trail} : (∀ c ∈ lead, isBlank c = true) → Fields i.args fields →
      (∀ c ∈ trail, isBlank c = true) →
      (i.opcode = .syscall → (lead ++ optOf i.opcode ++ fields ++ trail).length < 200) →
      InstLine i (lead ++ optOf i.opcode ++ fields ++ trail)

/-- Instructions, one per line; the last line may lack its end. -/
inductive Listing : List SrcInst → List Char → Prop where
  | done : Listing [] []
  | lineEnd : Listing [] ['\n']
  | cons {i l is rest} : InstLine i l → Listing is rest → Listing (i :: is) ('\n' :: (l ++ rest))

/-- The header line `priority n`, without its end. -/
inductive Header (prio n : ℕ) : List Char → Prop where
  | intro {lead p gap m trail} : (∀ c ∈ lead, isBlank c = true) → Digits p prio → prio < 2 ^ 32 →
      (∀ c ∈ gap, isBlank c = true) → gap ≠ [] → Digits m n → n < 2 ^ 32 → (∀ c ∈ trail, isBlank c = true) →
      Header prio n (lead ++ p ++ gap ++ m ++ trail)

/-- A line ends here. -/
def AtLineEnd (s : List Char) : Prop := s = [] ∨ ∃ t, s = '\n' :: t

/-- The file begins with a header that announces `n` instructions, and goes on with `body`. -/
def Announces (file : List Char) (prio n : ℕ) (body : List Char) : Prop :=
  ∃ h, file = h ++ body ∧ Header prio n h ∧ AtLineEnd body

/-- The text has fewer than `n` complete instruction lines. -/
def Short (n : ℕ) (body : List Char) : Prop :=
  ∀ ls : List (List Char), ls.Sublist (body.splitOn '\n') → (∀ l ∈ ls, ∃ i, InstLine i l) → ls.length < n

/-- The loaded instruction has the opcode and the arguments of the written one. -/
def Carries (i : SrcInst) (ins : InstT) : Prop :=
  ins.opcode = i.opcode ∧ [ins.arg0, ins.arg1, ins.arg2, ins.arg3].take i.args.length = i.args

/-- **`load` accepts exactly the grammar**, on this file. -/
structure AcceptsGrammar (file : List Char) : Prop where
  /-- A list of instructions is loaded as it is written. -/
  listing : ∀ prio is body, Announces file prio is.length body → Listing is body → ∀ heap stack, ∃ proc,
    load heap stack file = .ok proc ∧ proc.priority.toNat = prio ∧ proc.code.size.toNat = is.length ∧
      List.Forall₂ Carries is proc.code.text
  /-- When there are fewer lines than announced, no process is returned. -/
  truncated : ∀ prio n body, Announces file prio n body → Short n body → ∀ heap stack proc,
    load heap stack file ≠ .ok proc

/-! ## One instruction line -/

theorem AtLineEnd.atSpace {s : List Char} (h : AtLineEnd s) : AtSpace s := by
  rcases h with rfl | ⟨t, rfl⟩
  · exact atSpace_nil
  · exact atSpace_cons (by decide)

theorem Listing.atLineEnd {is : List SrcInst} {body : List Char} (h : Listing is body) : AtLineEnd body := by
  cases h with
  | done => exact .inl rfl
  | lineEnd => exact .inr ⟨[], rfl⟩
  | cons _ _ => exact .inr ⟨_, rfl⟩

theorem isSpace_optOf (op : InsOpcodeT) : ∀ c ∈ optOf op, isSpace c = false := by
  have hall : (optOf op).all (fun c => !isSpace c) = true := by
    cases op <;> rfl
  simpa using hall

theorem isSpace_of_blanks {b : List Char} (h : ∀ c ∈ b, isBlank c = true) : ∀ c ∈ b, isSpace c = true :=
  fun c hc => isSpace_of_isBlank (h c hc)

/-- A read gives an instruction in three steps. -/
theorem readInst_eq_ok {st st' : ScanState} {r : ReadInst} : readInst st = .ok (r, st') ↔
    ∃ st₁, scanOpcode st = .ok st₁ ∧ getOpcode st₁.opcode = .ok r.opcode ∧ scanInst st₁ r.opcode = (r.args, st') := by
  rw [readInst, bind_eq_ok]
  constructor
  · rintro ⟨st₁, hscan, h⟩
    obtain ⟨op, hop, h⟩ := bind_eq_ok.mp h
    obtain ⟨rfl, rfl⟩ := Prod.mk.inj (Except.ok.inj h)
    exact ⟨st₁, hscan, hop, rfl⟩
  · rintro ⟨st₁, hscan, hop, hargs⟩
    refine ⟨st₁, hscan, bind_eq_ok.mpr ⟨r.opcode, hop, ?_⟩⟩
    rw [hargs]

/-- The formats of `alloc`, `free`, `read` and `write` on well-formed arguments. -/
theorem scanArgs_of_fields {vs : List (BitVec 64)} {t rest : List Char} {st : ScanState} (h : Fields vs t)
    (hs : AtSpace rest) (hfile : st.file = t ++ rest) :
    scanArgs vs.length st = (vs, { st with file := skipSpace rest }) := by
  rw [scanArgs, afterArgs, hfile, numbers_of_fields h hs, if_pos rfl]

/-- What stands behind the opcode of a line is blanks, signs and digits. -/
theorem ne_of_mem_fields {vs : List (BitVec 64)} {t trail : List Char} (h : Fields vs t)
    (htrail : ∀ c ∈ trail, isBlank c = true) {d : Char} (hblank : isBlank d = false) (hminus : d ≠ '-')
    (hdigit : d.isDigit = false) : ∀ c ∈ t ++ trail, c ≠ d := by
  rintro c hc rfl
  rcases List.mem_append.mp hc with hc | hc
  · rcases h.chars c hc with hb | hm | hd
    · exact Bool.false_ne_true (hblank.symm.trans hb)
    · exact hminus hm
    · exact Bool.false_ne_true (hdigit.symm.trans hd)
  · exact Bool.false_ne_true (hblank.symm.trans (htrail c hc))

/-- A line that fits is read as a whole, with its end if it has one. -/
theorem line_of_atLineEnd {l rest : List Char} {n : ℕ} (hl : ∀ c ∈ l, c ≠ '\n') (hrest : AtLineEnd rest)
    (hlt : l.length < n) : ∃ nl rest', line n (l ++ rest) = (l ++ nl, rest') ∧ (∀ c ∈ nl, c = '\n') ∧
      skipSpace rest' = skipSpace rest := by
  rcases hrest with rfl | ⟨rest', rfl⟩
  · refine ⟨[], [], ?_, List.forall_mem_nil _, rfl⟩
    rw [List.append_nil, line_of_last hl hlt]
  · refine ⟨['\n'], rest', line_append hl rest' hlt, List.forall_mem_singleton.mpr rfl, ?_⟩
    rw [skipSpace_cons (by decide)]

/-- The line of a system call on well-formed arguments. -/
theorem scanLine_of_fields {vs : List (BitVec 64)} {t trail rest : List Char} {st : ScanState} (h : Fields vs t)
    (hlen : vs.length = 4) (htrail : ∀ c ∈ trail, isBlank c = true) (hrest : AtLineEnd rest)
    (hlt : (t ++ trail).length < 199) (hfile : st.file = t ++ (trail ++ rest)) :
    (scanLine st).1 = vs ∧ skipSpace (scanLine st).2.file = skipSpace rest := by
  have hnl := ne_of_mem_fields h htrail (show isBlank '\n' = false by decide) (by decide) (by decide)
  have hnul := ne_of_mem_fields h htrail (show isBlank (Char.ofNat 0) = false by decide) (by decide) (by decide)
  obtain ⟨nl, rest', hline, hend, hskip⟩ := line_of_atLineEnd hnl hrest hlt
  have hne : st.file ≠ [] := by
    rw [hfile]
    intro hnil
    cases h with
    | nil => exact absurd hlen (by simp)
    | @cons v vs b s t _ hb _ _ =>
      simp only [List.append_eq_nil_iff] at hnil
      exact hb hnil.1.1.1
  have hget : getLine st = { st with file := rest', buf := t ++ trail ++ nl } := by
    rw [getLine, if_neg hne, hfile, ← List.append_assoc, hline]
  have hbuf : cString (t ++ trail ++ nl) = t ++ (trail ++ nl) := by
    rw [cString_of_forall, List.append_assoc]
    intro c hc
    rcases List.mem_append.mp hc with hc | hc
    · exact hnul c hc
    · rw [hend c hc]
      decide
  have hnlSpace : AtSpace nl := by
    rintro c s rfl
    rw [hend c List.mem_cons_self]
    decide
  rw [scanLine, hget]
  dsimp only
  rw [hbuf, ← hlen, numbers_of_fields h (atSpace_append (isSpace_of_blanks htrail) hnlSpace)]
  exact ⟨rfl, hskip⟩

/-- The arguments of an instruction are read as they are written, up to the end of the line. -/
theorem scanInst_of_fields {i : SrcInst} {fields trail rest : List Char} {st : ScanState}
    (hfields : Fields i.args fields) (htrail : ∀ c ∈ trail, isBlank c = true) (hrest : AtLineEnd rest)
    (hroom : i.opcode = .syscall → (fields ++ trail).length < 199) (hfile : st.file = fields ++ (trail ++ rest)) :
    ∃ st', scanInst st i.opcode = (i.args, st') ∧ skipSpace st'.file = skipSpace rest := by
  have hskip : skipSpace (trail ++ rest) = skipSpace rest := skipSpace_append (isSpace_of_blanks htrail) rest
  have hformat : ∃ st', scanArgs i.opcode.arity st = (i.args, st') ∧ skipSpace st'.file = skipSpace rest := by
    rw [← i.arity, scanArgs_of_fields hfields (atSpace_append (isSpace_of_blanks htrail) hrest.atSpace) hfile]
    exact ⟨_, rfl, by rw [skipSpace_skipSpace, hskip]⟩
  have harity := i.arity
  cases hop : i.opcode with
  | «calc» =>
    rw [hop] at harity
    have hnil : i.args = [] := List.length_eq_zero_iff.mp harity
    rw [hnil] at hfields
    cases hfields
    exact ⟨st, by rw [scanInst, hnil], by rw [hfile, List.nil_append, hskip]⟩
  | alloc =>
    rw [hop] at hformat
    exact hformat
  | free =>
    rw [hop] at hformat
    exact hformat
  | read =>
    rw [hop] at hformat
    exact hformat
  | write =>
    rw [hop] at hformat
    exact hformat
  | syscall =>
    rw [hop] at harity
    obtain ⟨hvals, hnext⟩ := scanLine_of_fields hfields harity htrail hrest (hroom hop) hfile
    exact ⟨(scanLine st).2, Prod.ext hvals rfl, hnext⟩

/-- **An instruction line is read as it is written**, and the next line comes up. -/
theorem readInst_of_line {i : SrcInst} {l rest : List Char} {st : ScanState} (hl : InstLine i l)
    (hrest : AtLineEnd rest) (hfile : skipSpace st.file = skipSpace (l ++ rest)) :
    ∃ st', readInst st = .ok (⟨i.opcode, i.args⟩, st') ∧ skipSpace st'.file = skipSpace rest := by
  obtain ⟨hlead, hfields, htrail, hlt⟩ := hl
  rename_i lead fields trail
  have hend : AtSpace (trail ++ rest) := atSpace_append (isSpace_of_blanks htrail) hrest.atSpace
  have hne : optOf i.opcode ≠ [] := by cases i.opcode <;> decide
  have hsmall : (optOf i.opcode).length < 10 := by cases i.opcode <;> decide
  have hsplit : lead ++ optOf i.opcode ++ fields ++ trail ++ rest
      = lead ++ optOf i.opcode ++ (fields ++ (trail ++ rest)) := by simp only [List.append_assoc]
  -- the opcode is the first word
  obtain ⟨hword, hafter⟩ := word_congr hfile
  obtain ⟨hword', hafter'⟩ := word_append (isSpace_of_blanks hlead) (isSpace_optOf i.opcode) hne (hfields.atSpace hend)
  rw [hsplit, hword'] at hword
  rw [hsplit, hafter'] at hafter
  have hscan : scanOpcode st = .ok { st with file := fields ++ (trail ++ rest), opcode := optOf i.opcode } := by
    rw [scanOpcode, hword, hafter, if_neg hne, if_pos hsmall]
  -- of the 200 characters of a system call, the opcode has taken seven
  have hroom : i.opcode = .syscall → (fields ++ trail).length < 199 := by
    intro hop
    have hline := hlt hop
    rw [hop] at hline
    simp only [List.length_append, optOf, List.length_cons, List.length_nil] at hline ⊢
    omega
  obtain ⟨st', hargs, hnext⟩ := @scanInst_of_fields i fields trail rest
    { st with file := fields ++ (trail ++ rest), opcode := optOf i.opcode } hfields htrail hrest hroom rfl
  exact ⟨st', readInst_eq_ok.mpr ⟨_, hscan, getOpcode_optOf i.opcode, hargs⟩, hnext⟩

/-! ## Listings -/

/-- **A listing is read as it is written.** -/
theorem spelled_of_listed {is : List SrcInst} {body : List Char} (h : Listing is body) : ∀ st : ScanState,
    skipSpace st.file = skipSpace body → spelled is.length st = .ok (is.map fun i => ⟨i.opcode, i.args⟩) := by
  induction h with
  | done => exact fun _ _ => rfl
  | lineEnd => exact fun _ _ => rfl
  | @cons i l is rest hl hrest ih =>
    intro st hst
    rw [skipSpace_cons (by decide)] at hst
    obtain ⟨st', hread, hnext⟩ := readInst_of_line hl hrest.atLineEnd hst
    exact spelled_succ.mpr ⟨_, st', _, hread, ih st' hnext, rfl⟩

theorem carries_fill (i : SrcInst) (ins : InstT) : Carries i (ins.fill ⟨i.opcode, i.args⟩) := by
  have hle : i.args.length ≤ 4 := by
    rw [i.arity]
    cases i.opcode <;> decide
  refine ⟨rfl, ?_⟩
  apply List.ext_getElem?
  intro j
  rw [List.getElem?_take]
  split
  · rename_i hj
    have hj4 : j < 4 := hj.trans_le hle
    interval_cases j <;> simp [InstT.fill, List.getElem?_eq_getElem hj]
  · rename_i hj
    exact (List.getElem?_eq_none (Nat.le_of_not_lt hj)).symm

theorem carries_fillFrom (text : ℕ → InstT) (is : List SrcInst) : ∀ k,
    List.Forall₂ Carries is (fillFrom text k (is.map fun i => ⟨i.opcode, i.args⟩)) := by
  induction is with
  | nil => exact fun _ => .nil
  | cons i is ih => exact fun k => .cons (carries_fill i (text k)) (ih (k + 1))

/-- The header is read as it is written. -/
theorem numbers_of_announces {file body : List Char} {prio n : ℕ} (h : Announces file prio n body) :
    prio < 2 ^ 32 ∧ n < 2 ^ 32 ∧ ∃ rest, skipSpace rest = skipSpace body ∧
      numbers 2 file = ([BitVec.ofNat 64 prio, BitVec.ofNat 64 n], rest) := by
  obtain ⟨hd, rfl, ⟨hlead, hp, hprio, hgap, hne, hm, hn, htrail⟩, hbody⟩ := h
  rename_i lead p gap m trail
  have hend : AtSpace (trail ++ body) := atSpace_append (isSpace_of_blanks htrail) hbody.atSpace
  have hfirst : AtSpace (gap ++ m ++ (trail ++ body)) := by
    obtain ⟨c, gap, rfl⟩ := List.exists_cons_of_ne_nil hne
    exact atSpace_cons (isSpace_of_isBlank (hgap c List.mem_cons_self))
  have hsplit : lead ++ p ++ gap ++ m ++ trail ++ body = lead ++ p ++ (gap ++ m ++ (trail ++ body)) := by
    simp only [List.append_assoc]
  refine ⟨hprio, hn, trail ++ body, skipSpace_append (isSpace_of_blanks htrail) body, ?_⟩
  have hread := number_of_numeral (isSpace_of_blanks hlead) (.plain hp (hprio.trans (by decide))) hfirst
  have hread' := number_of_numeral (isSpace_of_blanks hgap) (.plain hm (hn.trans (by decide))) hend
  rw [hsplit, numbers, hread]
  dsimp only
  rw [numbers, hread']
  rfl

theorem toNat_header {m : ℕ} (h : m < 2 ^ 32) : ((BitVec.ofNat 64 m).setWidth 32).toNat = m := by
  rw [BitVec.toNat_setWidth, BitVec.toNat_ofNat, Nat.mod_eq_of_lt (h.trans (by decide)), Nat.mod_eq_of_lt h]

/-- After its header, `load` is the reading of the announced instructions. -/
theorem load_of_announces {file body : List Char} {prio n : ℕ} (h : Announces file prio n body) :
    ∃ rest, skipSpace rest = skipSpace body ∧ ∀ heap stack, load heap stack file
      = (spelled n ⟨rest, stack.opcode, stack.buf⟩).map fun rs =>
          ⟨(BitVec.ofNat 64 prio).setWidth 32, ⟨fillFrom heap.text 0 rs, (BitVec.ofNat 64 n).setWidth 32⟩⟩ := by
  obtain ⟨-, hn, rest, hrest, hnumbers⟩ := numbers_of_announces h
  refine ⟨rest, hrest, fun heap stack => ?_⟩
  unfold load
  rw [hnumbers]
  show (loadLoop heap.text 0 ((BitVec.ofNat 64 n).setWidth 32).toNat _).map _ = _
  rw [toNat_header hn, loadLoop_eq]
  cases spelled n ⟨rest, stack.opcode, stack.buf⟩ with
  | error e => rfl
  | ok rs => rfl

/-! ## Words that are no opcodes -/

/-- The word fits into the buffer and is an opcode. -/
def IsOpcode (w : List Char) : Prop := w.length < 10 ∧ ∃ op, getOpcode w = .ok op

/-- What the arguments of an instruction leave of the file. -/
def afterInst : InsOpcodeT → List Char → List Char
  | .calc,    s => s
  | .alloc,   s => afterArgs 2 s
  | .free,    s => afterArgs 1 s
  | .read,    s => afterArgs 3 s
  | .write,   s => afterArgs 3 s
  | .syscall, s => (line 199 s).2

/-- **One of the first `n` words that stand where an opcode is read is no opcode.** -/
inductive Foreign : ℕ → List Char → Prop where
  | here {n s} : word s ≠ [] → ¬ IsOpcode (word s) → Foreign (n + 1) s
  | later {n s op} : word s ≠ [] → getOpcode (word s) = .ok op → Foreign n (afterInst op (afterWord s)) →
      Foreign (n + 1) s

theorem foreign_congr {n : ℕ} {s t : List Char} (h : skipSpace s = skipSpace t) : Foreign n s ↔ Foreign n t := by
  have key : ∀ {s t : List Char}, skipSpace s = skipSpace t → Foreign n s → Foreign n t := by
    intro s t hst hs
    obtain ⟨hword, hafter⟩ := word_congr hst
    cases hs with
    | here hne hop => exact .here (hword ▸ hne) (hword ▸ hop)
    | later hne hop hrest =>
      rw [hafter] at hrest
      exact .later (hword ▸ hne) (hword ▸ hop) hrest
  exact ⟨key h, key h.symm⟩

theorem scanInst_file (st : ScanState) (op : InsOpcodeT) :
    (scanInst st op).2.file = afterInst op st.file ∧ (scanInst st op).2.opcode = st.opcode := by
  cases op with
  | syscall =>
    rw [scanInst, scanLine, getLine, afterInst]
    by_cases hnil : st.file = []
    · rw [if_pos hnil, hnil]
      exact ⟨rfl, rfl⟩
    · rw [if_neg hnil]
      exact ⟨rfl, rfl⟩
  | _ => exact ⟨rfl, rfl⟩

/-- Such a word ends `load`, whatever the buffers hold. -/
theorem spelled_of_foreign {n : ℕ} {s : List Char} (h : Foreign n s) : ∀ {st : ScanState} {rs : List ReadInst},
    st.file = s → spelled n st ≠ .ok rs := by
  induction h with
  | @here n s hne hop =>
    rintro st rs rfl hrs
    obtain ⟨r, st', rest, hread, -, -⟩ := spelled_succ.mp hrs
    obtain ⟨st₁, hscan, hget, -⟩ := readInst_eq_ok.mp hread
    rw [scanOpcode, if_neg hne] at hscan
    split at hscan
    · rename_i hlt
      rw [← Except.ok.inj hscan] at hget
      exact hop ⟨hlt, _, hget⟩
    · exact absurd hscan (by simp)
  | @later n s op hne hop _ ih =>
    rintro st rs rfl hrs
    obtain ⟨r, st', rest, hread, hrest, -⟩ := spelled_succ.mp hrs
    obtain ⟨st₁, hscan, hget, hargs⟩ := readInst_eq_ok.mp hread
    rw [scanOpcode, if_neg hne] at hscan
    split at hscan
    · obtain rfl := Except.ok.inj hscan
      obtain rfl := Except.ok.inj (hget.symm.trans hop)
      refine ih ?_ hrest
      have hfile := (scanInst_file { st with file := afterWord st.file, opcode := word st.file } r.opcode).1
      rw [hargs] at hfile
      exact hfile
    · exact absurd hscan (by simp)

theorem word_nil : word [] = [] := rfl

theorem afterInst_nil (op : InsOpcodeT) : afterInst op [] = [] := by
  cases op <;> rfl

theorem not_foreign_nil (n : ℕ) : ¬ Foreign n [] := by
  intro h
  cases h with
  | here hne _ => exact hne word_nil
  | later hne _ _ => exact hne word_nil

/-- **Without such a word `load` reads to the end**: behind the last word, it reads the last opcode again. -/
theorem exists_spelled (n : ℕ) : ∀ st : ScanState, ¬ Foreign n st.file → (∃ op, getOpcode st.opcode = .ok op) →
    ∃ rs, spelled n st = .ok rs := by
  induction n with
  | zero => exact fun st _ _ => ⟨[], rfl⟩
  | succ n ih =>
    intro st hst hop
    -- after the opcode has been read, the buffer holds one, and no foreign word follows
    obtain ⟨st₁, op, hscan, hget, hnext⟩ : ∃ st₁ op, scanOpcode st = .ok st₁ ∧ getOpcode st₁.opcode = .ok op ∧
        ¬ Foreign n (afterInst op st₁.file) := by
      by_cases hword : word st.file = []
      · obtain ⟨op, hop⟩ := hop
        refine ⟨{ st with file := afterWord st.file }, op, by rw [scanOpcode, if_pos hword], hop, ?_⟩
        rw [afterWord_of_word_eq_nil hword, afterInst_nil]
        exact not_foreign_nil n
      · obtain ⟨hlt, op, hget⟩ : IsOpcode (word st.file) := by
          by_contra hno
          exact hst (.here hword hno)
        refine ⟨_, op, by rw [scanOpcode, if_neg hword, if_pos hlt], hget, fun hforeign => ?_⟩
        exact hst (.later hword hget hforeign)
    obtain ⟨hfile, hopcode⟩ := scanInst_file st₁ op
    obtain ⟨rest, hrest⟩ := ih (scanInst st₁ op).2 (by rwa [hfile]) ⟨op, by rwa [hopcode]⟩
    have hread : readInst st = .ok (⟨op, (scanInst st₁ op).1⟩, (scanInst st₁ op).2) :=
      readInst_eq_ok.mpr ⟨st₁, hscan, hget, rfl⟩
    exact ⟨_, spelled_succ.mpr ⟨_, _, rest, hread, hrest, rfl⟩⟩

/-! ## The result -/

/-- **`load` accepts exactly the grammar on a file exactly when** the file has as many complete lines as its header
    announces, or one of the words that are read as opcodes is none. -/
theorem acceptsGrammar_iff (file : List Char) : AcceptsGrammar file ↔
    ∀ prio n body, Announces file prio n body → Short n body → Foreign n body := by
  constructor
  · intro h prio n body hannounces hshort
    by_contra hforeign
    obtain ⟨rest, hskip, hload⟩ := load_of_announces hannounces
    -- the buffer may hold an opcode from the start
    obtain ⟨rs, hrs⟩ := exists_spelled n ⟨rest, optOf .calc, []⟩ ((foreign_congr hskip).not.mpr hforeign)
      ⟨_, getOpcode_optOf .calc⟩
    have hok := hload ⟨0, 0, fun _ => ⟨.calc, 0, 0, 0, 0⟩⟩ ⟨optOf .calc, []⟩
    rw [hrs] at hok
    exact h.truncated prio n body hannounces hshort _ _ _ hok
  · intro h
    constructor
    · intro prio is body hannounces hlisted heap stack
      obtain ⟨hprio, hn, -⟩ := numbers_of_announces hannounces
      obtain ⟨rest, hskip, hload⟩ := load_of_announces hannounces
      rw [hload, spelled_of_listed hlisted ⟨rest, stack.opcode, stack.buf⟩ hskip]
      exact ⟨_, rfl, toNat_header hprio, toNat_header hn, carries_fillFrom heap.text is 0⟩
    · intro prio n body hannounces hshort heap stack proc
      obtain ⟨rest, hskip, hload⟩ := load_of_announces hannounces
      have hforeign : Foreign n rest := (foreign_congr hskip).mpr (h prio n body hannounces hshort)
      rw [hload]
      intro hok
      cases hrs : spelled n ⟨rest, stack.opcode, stack.buf⟩ with
      | error e =>
        rw [hrs] at hok
        exact absurd hok (by simp [Except.map])
      | ok rs => exact spelled_of_foreign hforeign rfl hrs

/-- Two instructions are announced, and there is one: it is loaded twice. -/
theorem acceptsGrammar_fails : ¬ ∀ file, AcceptsGrammar file := by
  intro hall
  have hannounces : Announces ['1', ' ', '2', '\n', 'c', 'a', 'l', 'c', '\n'] 1 2 ['\n', 'c', 'a', 'l', 'c', '\n'] := by
    refine ⟨['1', ' ', '2'], rfl, ?_, .inr ⟨_, rfl⟩⟩
    have hone : Digits ['1'] 1 := ⟨by decide, List.forall_mem_singleton.mpr rfl, by decide⟩
    have htwo : Digits ['2'] 2 := ⟨by decide, List.forall_mem_singleton.mpr rfl, by decide⟩
    exact @Header.intro 1 2 [] ['1'] [' '] ['2'] [] (List.forall_mem_nil _) hone (by decide)
      (List.forall_mem_singleton.mpr rfl) (by decide) htwo (by decide) (List.forall_mem_nil _)
  have hshort : Short 2 ['\n', 'c', 'a', 'l', 'c', '\n'] := by
    intro ls hls hlines
    have hsplit : ['\n', 'c', 'a', 'l', 'c', '\n'].splitOn '\n' = [[], ['c', 'a', 'l', 'c'], []] := by decide
    rw [hsplit] at hls
    -- an empty line is no instruction line
    have hkeep : ls.filter (fun l => !l.isEmpty) = ls := by
      rw [List.filter_eq_self]
      intro l hl
      obtain ⟨i, hlead, -⟩ := hlines l hl
      cases i.opcode <;> simp [optOf]
    have hle := (hls.filter fun l => !l.isEmpty).length_le
    rw [hkeep] at hle
    exact Nat.lt_succ_of_le hle
  have hload : ∃ proc, load ⟨0, 0, fun _ => ⟨.calc, 0, 0, 0, 0⟩⟩ ⟨[], []⟩
      ['1', ' ', '2', '\n', 'c', 'a', 'l', 'c', '\n'] = .ok proc := ⟨_, rfl⟩
  obtain ⟨proc, hload⟩ := hload
  exact (hall _).truncated 1 2 _ hannounces hshort _ _ proc hload

end LamiaAtrium
