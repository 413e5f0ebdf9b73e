import Mathlib.Data.BitVec
import Mathlib.Tactic

/-!
# `Lib.Scan` — reading a text as the C library does

Nothing here mentions the operating system. A stream is the list of the characters that are still to be read.

* `word`, `number`, `numbers` and `line` are the conversions `%s` and `%llu` of `scanf`, a format of several `%llu`,
  and `fgets`; `integer` and `integers` are `%d`. A conversion that fails has consumed what it has looked at.
* `Digits`, `Numeral` and `Fields` say what well-formed numbers look like. `number_of_numeral` and `numbers_of_fields`:
  they are read back as they were meant; so are the `IntFields`.
-/

namespace Scan

/-! ## Characters -/

/-- `isspace` in the C locale. -/
def isSpace (c : Char) : Bool := c == ' ' || (9 ≤ c.toNat && c.toNat ≤ 13)

/-- White space inside of a line. -/
def isBlank (c : Char) : Bool := c == ' ' || c == '\t'

theorem isSpace_of_isBlank {c : Char} (h : isBlank c = true) : isSpace c = true := by
  rw [isBlank, Bool.or_eq_true, beq_iff_eq, beq_iff_eq] at h
  rcases h with rfl | rfl
  · decide
  · decide

theorem isSpace_of_isDigit {c : Char} (h : c.isDigit = true) : isSpace c = false := by
  have hlow : 48 ≤ c.toNat := (Char.isDigit_iff_toNat.mp h).1
  have hne : c ≠ ' ' := by
    rintro rfl
    exact absurd h (by decide)
  simp only [isSpace, Bool.or_eq_false_iff, beq_eq_false_iff_ne, Bool.and_eq_false_iff, decide_eq_false_iff_not]
  exact ⟨hne, .inr (by omega)⟩

theorem isDigit_of_isSpace {c : Char} (h : isSpace c = true) : c.isDigit = false := by
  by_contra hd
  rw [isSpace_of_isDigit (Bool.not_eq_false _ ▸ hd)] at h
  exact absurd h Bool.false_ne_true

/-- A token ends here: the stream is at its end, or at white space. -/
def AtSpace (s : List Char) : Prop := ∀ c t, s = c :: t → isSpace c = true

theorem atSpace_nil : AtSpace [] := fun _ _ h => absurd h (by simp)

theorem atSpace_cons {c : Char} {s : List Char} (h : isSpace c = true) : AtSpace (c :: s) := by
  intro d t hd
  rwa [← (List.cons.inj hd).1]

/-- Blanks in front of a place where a token ends. -/
theorem atSpace_append {b s : List Char} (hb : ∀ c ∈ b, isSpace c = true) (hs : AtSpace s) : AtSpace (b ++ s) := by
  cases b with
  | nil => exact hs
  | cons c b => exact atSpace_cons (hb c List.mem_cons_self)

/-! ## White space -/

/-- White space in a format. -/
def skipSpace (s : List Char) : List Char := s.dropWhile isSpace

theorem skipSpace_append {b : List Char} (hb : ∀ c ∈ b, isSpace c = true) (s : List Char) :
    skipSpace (b ++ s) = skipSpace s := List.dropWhile_append_of_pos hb

theorem skipSpace_cons {c : Char} (h : isSpace c = true) (s : List Char) : skipSpace (c :: s) = skipSpace s :=
  List.dropWhile_cons_of_pos h

@[simp] theorem skipSpace_skipSpace (s : List Char) : skipSpace (skipSpace s) = skipSpace s := by
  induction s with
  | nil => rfl
  | cons c s ih =>
    by_cases hc : isSpace c = true
    · rw [skipSpace_cons hc]
      exact ih
    · have hstop : skipSpace (c :: s) = c :: s := List.dropWhile_cons_of_neg hc
      rw [hstop, hstop]

/-! ## Words -/

/-- `%s`: the characters up to the next white space. There are none when the input ends first. -/
def word (s : List Char) : List Char := (skipSpace s).takeWhile fun c => !isSpace c

/-- What `%s` leaves. -/
def afterWord (s : List Char) : List Char := (skipSpace s).dropWhile fun c => !isSpace c

theorem word_congr {s t : List Char} (h : skipSpace s = skipSpace t) : word s = word t ∧ afterWord s = afterWord t := by
  rw [word, word, afterWord, afterWord, h]
  exact ⟨rfl, rfl⟩

/-- When there is no word left, nothing is left. -/
theorem afterWord_of_word_eq_nil {s : List Char} (h : word s = []) : afterWord s = [] := by
  unfold word at h
  unfold afterWord
  cases hs : skipSpace s with
  | nil => rfl
  | cons c t =>
    have hc : isSpace c = false := by
      have := List.head?_dropWhile_not isSpace s
      rw [show s.dropWhile isSpace = c :: t from hs] at this
      simpa using this
    rw [hs, List.takeWhile_cons_of_pos (by simp [hc])] at h
    exact absurd h (by simp)

/-- A word between white space is read as it stands. -/
theorem word_append {b w s : List Char} (hb : ∀ c ∈ b, isSpace c = true) (hw : ∀ c ∈ w, isSpace c = false)
    (hne : w ≠ []) (hs : AtSpace s) : word (b ++ w ++ s) = w ∧ afterWord (b ++ w ++ s) = s := by
  have hskip : skipSpace (b ++ w ++ s) = w ++ s := by
    rw [List.append_assoc, skipSpace_append hb]
    obtain ⟨c, w, rfl⟩ := List.exists_cons_of_ne_nil hne
    exact List.dropWhile_cons_of_neg (by simp [hw c List.mem_cons_self])
  have hpos : ∀ c ∈ w, (!isSpace c) = true := fun c hc => by simp [hw c hc]
  rw [word, afterWord, hskip, List.takeWhile_append_of_pos hpos, List.dropWhile_append_of_pos hpos]
  cases s with
  | nil => simp
  | cons c s =>
    have hc := hs c s rfl
    rw [List.takeWhile_cons_of_neg (by simp [hc]), List.dropWhile_cons_of_neg (by simp [hc]), List.append_nil]
    exact ⟨rfl, rfl⟩

/-! ## Numbers -/

/-- What `strtoull` makes of a numeral: out of range it is the largest number, with a minus sign it wraps around. -/
def toUll (neg : Bool) (m : ℕ) : BitVec 64 :=
  if 2 ^ 64 ≤ m then BitVec.allOnes 64
  else if neg then -BitVec.ofNat 64 m
  else BitVec.ofNat 64 m

/-- The optional sign of a numeral: is it a minus? -/
def sign : List Char → Bool × List Char
  | '-' :: s => (true, s)
  | '+' :: s => (false, s)
  | s        => (false, s)

/-- `%llu`. -/
def number (s : List Char) : Option (BitVec 64) × List Char :=
  let (neg, t) := sign (skipSpace s)
  let ds := t.takeWhile Char.isDigit
  if ds.isEmpty then (none, t) else (some (toUll neg (Nat.ofDigitChars 10 ds 0)), t.dropWhile Char.isDigit)

/-- `n` times `%llu`: the numbers up to the first conversion that fails. -/
def numbers : ℕ → List Char → List (BitVec 64) × List Char
  | 0,     s => ([], s)
  | n + 1, s =>
    match number s with
    | (none, rest)   => ([], rest)
    | (some v, rest) => (v :: (numbers n rest).1, (numbers n rest).2)

/-- A decimal numeral with value `m`. -/
structure Digits (s : List Char) (m : ℕ) : Prop where
  ne_nil : s ≠ []
  digit : ∀ c ∈ s, c.isDigit = true
  value : Nat.ofDigitChars 10 s 0 = m

/-- A numeral of a 64-bit number; a minus sign wraps around. -/
inductive Numeral : List Char → BitVec 64 → Prop where
  | plain {s m} : Digits s m → m < 2 ^ 64 → Numeral s (BitVec.ofNat 64 m)
  | minus {s m} : Digits s m → m < 2 ^ 64 → Numeral ('-' :: s) (-BitVec.ofNat 64 m)

theorem sign_of_isDigit {c : Char} (h : c.isDigit = true) (s : List Char) : sign (c :: s) = (false, c :: s) := by
  unfold sign
  split
  · rename_i heq
    rw [(List.cons.inj heq).1] at h
    exact absurd h (by decide)
  · rename_i heq
    rw [(List.cons.inj heq).1] at h
    exact absurd h (by decide)
  · rfl

/-- The digits of a numeral, read up to the place where it ends. -/
theorem Digits.scan {s rest : List Char} {m : ℕ} (h : Digits s m) (hs : AtSpace rest) :
    (s ++ rest).takeWhile Char.isDigit = s ∧ (s ++ rest).dropWhile Char.isDigit = rest := by
  rw [List.takeWhile_append_of_pos h.digit, List.dropWhile_append_of_pos h.digit]
  cases rest with
  | nil => simp
  | cons c rest =>
    have hc := isDigit_of_isSpace (hs c rest rfl)
    rw [List.takeWhile_cons_of_neg (by simp [hc]), List.dropWhile_cons_of_neg (by simp [hc]), List.append_nil]
    exact ⟨rfl, rfl⟩

/-- **A numeral is read as the number that it stands for.** -/
theorem number_of_numeral {b s rest : List Char} {v : BitVec 64} (hb : ∀ c ∈ b, isSpace c = true) (h : Numeral s v)
    (hs : AtSpace rest) : number (b ++ s ++ rest) = (some v, rest) := by
  rw [number, List.append_assoc, skipSpace_append hb]
  cases h with
  | @plain s m hd hm =>
    obtain ⟨htake, hdrop⟩ := hd.scan hs
    have hhead : sign (skipSpace (s ++ rest)) = (false, s ++ rest) := by
      obtain ⟨c, s, rfl⟩ := List.exists_cons_of_ne_nil hd.ne_nil
      have hc := hd.digit c List.mem_cons_self
      rw [List.cons_append, skipSpace, List.dropWhile_cons_of_neg (by simp [isSpace_of_isDigit hc]),
        sign_of_isDigit hc]
    rw [hhead]
    dsimp only
    rw [htake, hdrop, hd.value, if_neg (by simpa using hd.ne_nil), toUll, if_neg (Nat.not_le.mpr hm),
      if_neg Bool.false_ne_true]
  | @minus s m hd hm =>
    obtain ⟨htake, hdrop⟩ := hd.scan hs
    have hhead : sign (skipSpace ('-' :: s ++ rest)) = (true, s ++ rest) := by
      rw [List.cons_append, skipSpace, List.dropWhile_cons_of_neg (by decide), sign]
    rw [hhead]
    dsimp only
    rw [htake, hdrop, hd.value, if_neg (by simpa using hd.ne_nil), toUll, if_neg (Nat.not_le.mpr hm), if_pos rfl]

/-- Numerals, each with blanks in front of it. -/
inductive Fields : List (BitVec 64) → List Char → Prop where
  | nil : Fields [] []
  | cons {v vs b s t} : (∀ c ∈ b, isBlank c = true) → b ≠ [] → Numeral s v → Fields vs t →
      Fields (v :: vs) (b ++ s ++ t)

theorem Fields.atSpace {vs : List (BitVec 64)} {t rest : List Char} (h : Fields vs t) (hs : AtSpace rest) :
    AtSpace (t ++ rest) := by
  cases h with
  | nil => exact hs
  | @cons v vs b s t hb hne _ _ =>
    obtain ⟨c, b, rfl⟩ := List.exists_cons_of_ne_nil hne
    exact atSpace_cons (isSpace_of_isBlank (hb c List.mem_cons_self))

/-- **Numerals in a row are read one after the other.** -/
theorem numbers_of_fields {vs : List (BitVec 64)} {t rest : List Char} (h : Fields vs t) (hs : AtSpace rest) :
    numbers vs.length (t ++ rest) = (vs, rest) := by
  induction h with
  | nil => rfl
  | @cons v vs b s t hb _ hv hf ih =>
    have hread := number_of_numeral (fun c hc => isSpace_of_isBlank (hb c hc)) hv (hf.atSpace hs)
    rw [List.length_cons, numbers, List.append_assoc, hread]
    dsimp only
    rw [ih]

/-- The characters of numerals in a row. -/
theorem Fields.chars {vs : List (BitVec 64)} {t : List Char} (h : Fields vs t) :
    ∀ c ∈ t, isBlank c = true ∨ c = '-' ∨ c.isDigit = true := by
  induction h with
  | nil => exact fun c hc => absurd hc List.not_mem_nil
  | @cons v vs b s t hb _ hv _ ih =>
    intro c hc
    rcases List.mem_append.mp hc with hc | hc
    · rcases List.mem_append.mp hc with hc | hc
      · exact .inl (hb c hc)
      · cases hv with
        | plain hd _ => exact .inr (.inr (hd.digit c hc))
        | minus hd _ =>
          rcases List.mem_cons.mp hc with rfl | hc
          · exact .inr (.inl rfl)
          · exact .inr (.inr (hd.digit c hc))
    · exact ih c hc

/-! ## Signed numbers -/

/-- What `strtol` makes of a numeral: out of range it is the largest or the smallest number. -/
def toLong (neg : Bool) (m : ℕ) : BitVec 64 :=
  if neg then (if 2 ^ 63 < m then BitVec.intMin 64 else -BitVec.ofNat 64 m)
  else if 2 ^ 63 ≤ m then BitVec.intMax 64
  else BitVec.ofNat 64 m

/-- `%d`: the number is narrowed to an `int`. -/
def integer (s : List Char) : Option (BitVec 32) × List Char :=
  let (neg, t) := sign (skipSpace s)
  let ds := t.takeWhile Char.isDigit
  if ds.isEmpty then (none, t)
  else (some ((toLong neg (Nat.ofDigitChars 10 ds 0)).setWidth 32), t.dropWhile Char.isDigit)

/-- `n` times `%d`: the numbers up to the first conversion that fails. -/
def integers : ℕ → List Char → List (BitVec 32) × List Char
  | 0,     s => ([], s)
  | n + 1, s =>
    match integer s with
    | (none, rest)   => ([], rest)
    | (some v, rest) => (v :: (integers n rest).1, (integers n rest).2)

/-- A numeral of an `int`. -/
inductive IntNumeral : List Char → BitVec 32 → Prop where
  | plain {s m} : Digits s m → m < 2 ^ 31 → IntNumeral s (BitVec.ofNat 32 m)
  | minus {s m} : Digits s m → m ≤ 2 ^ 31 → IntNumeral ('-' :: s) (-BitVec.ofNat 32 m)

@[simp] theorem number_skipSpace (s : List Char) : number (skipSpace s) = number s := by
  rw [number, number, skipSpace_skipSpace]

@[simp] theorem integer_skipSpace (s : List Char) : integer (skipSpace s) = integer s := by
  rw [integer, integer, skipSpace_skipSpace]

/-- **A numeral of an `int` is read as the number that it stands for.** -/
theorem integer_of_numeral {b s rest : List Char} {v : BitVec 32} (hb : ∀ c ∈ b, isSpace c = true)
    (h : IntNumeral s v) (hs : AtSpace rest) : integer (b ++ s ++ rest) = (some v, rest) := by
  rw [integer, List.append_assoc, skipSpace_append hb]
  cases h with
  | @plain s m hd hm =>
    obtain ⟨htake, hdrop⟩ := hd.scan hs
    have hhead : sign (skipSpace (s ++ rest)) = (false, s ++ rest) := by
      obtain ⟨c, s, rfl⟩ := List.exists_cons_of_ne_nil hd.ne_nil
      have hc := hd.digit c List.mem_cons_self
      rw [List.cons_append, skipSpace, List.dropWhile_cons_of_neg (by simp [isSpace_of_isDigit hc]),
        sign_of_isDigit hc]
    have hvalue : (toLong false m).setWidth 32 = BitVec.ofNat 32 m := by
      rw [toLong, if_neg Bool.false_ne_true, if_neg (by omega), BitVec.setWidth_ofNat_of_le (by decide)]
    rw [hhead]
    dsimp only
    rw [htake, hdrop, hd.value, if_neg (by simpa using hd.ne_nil), hvalue]
  | @minus s m hd hm =>
    obtain ⟨htake, hdrop⟩ := hd.scan hs
    have hhead : sign (skipSpace ('-' :: s ++ rest)) = (true, s ++ rest) := by
      rw [List.cons_append, skipSpace, List.dropWhile_cons_of_neg (by decide), sign]
    have hvalue : (toLong true m).setWidth 32 = -BitVec.ofNat 32 m := by
      rw [toLong, if_pos rfl, if_neg (by omega), BitVec.setWidth_neg_of_le (by decide),
        BitVec.setWidth_ofNat_of_le (by decide)]
    rw [hhead]
    dsimp only
    rw [htake, hdrop, hd.value, if_neg (by simpa using hd.ne_nil), hvalue]

/-- A numeral does not begin with a letter. -/
theorem integer_of_letter {c : Char} (hspace : isSpace c = false) (hdigit : c.isDigit = false) (hplus : c ≠ '+')
    (hminus : c ≠ '-') {b : List Char} (hb : ∀ d ∈ b, isSpace d = true) (s : List Char) :
    integer (b ++ c :: s) = (none, c :: s) ∧ number (b ++ c :: s) = (none, c :: s) := by
  have hskip : skipSpace (b ++ c :: s) = c :: s := by
    rw [skipSpace_append hb]
    exact List.dropWhile_cons_of_neg (by simp [hspace])
  have hsign : sign (c :: s) = (false, c :: s) := by
    unfold sign
    split
    · rename_i heq
      exact absurd (List.cons.inj heq).1 hminus
    · rename_i heq
      exact absurd (List.cons.inj heq).1 hplus
    · rfl
  have htake : (c :: s).takeWhile Char.isDigit = [] := List.takeWhile_cons_of_neg (by simp [hdigit])
  rw [integer, number, hskip, hsign]
  dsimp only
  rw [htake]
  exact ⟨rfl, rfl⟩

/-- Numerals of `int`s, each with white space in front of it. -/
inductive IntFields : List (BitVec 32) → List Char → Prop where
  | nil : IntFields [] []
  | cons {v vs b s t} : (∀ c ∈ b, isSpace c = true) → b ≠ [] → IntNumeral s v → IntFields vs t →
      IntFields (v :: vs) (b ++ s ++ t)

theorem IntFields.atSpace {vs : List (BitVec 32)} {t rest : List Char} (h : IntFields vs t) (hs : AtSpace rest) :
    AtSpace (t ++ rest) := by
  cases h with
  | nil => exact hs
  | @cons v vs b s t hb hne _ _ =>
    obtain ⟨c, b, rfl⟩ := List.exists_cons_of_ne_nil hne
    exact atSpace_cons (hb c List.mem_cons_self)

/-- **`int`s in a row are read one after the other.** -/
theorem integers_of_fields {vs : List (BitVec 32)} {t rest : List Char} (h : IntFields vs t) (hs : AtSpace rest) :
    integers vs.length (t ++ rest) = (vs, rest) := by
  induction h with
  | nil => rfl
  | @cons v vs b s t hb _ hv hf ih =>
    have hread := integer_of_numeral hb hv (hf.atSpace hs)
    rw [List.length_cons, integers, List.append_assoc, hread]
    dsimp only
    rw [ih]

/-! ## Lines -/

/-- `fgets` with room for `n` characters: up to the end of the line, which is included. -/
def line : ℕ → List Char → List Char × List Char
  | 0,     s      => ([], s)
  | _ + 1, []     => ([], [])
  | n + 1, c :: s => if c = '\n' then ([c], s) else (c :: (line n s).1, (line n s).2)

/-- A buffer as a C string. -/
def cString (s : List Char) : List Char := s.takeWhile fun c => c != Char.ofNat 0

theorem cString_of_forall {s : List Char} (h : ∀ c ∈ s, c ≠ Char.ofNat 0) : cString s = s := by
  have hpos : ∀ c ∈ s, (c != Char.ofNat 0) = true := fun c hc => by simpa using h c hc
  have htake := @List.takeWhile_append_of_pos _ _ s [] hpos
  rwa [List.append_nil, List.takeWhile_nil, List.append_nil] at htake

/-- A line that fits is read as a whole. -/
theorem line_append {l : List Char} (hl : ∀ c ∈ l, c ≠ '\n') : ∀ {n : ℕ} (s : List Char), l.length < n →
    line n (l ++ '\n' :: s) = (l ++ ['\n'], s) := by
  induction l with
  | nil =>
    intro n s hn
    obtain ⟨n, rfl⟩ := Nat.exists_eq_succ_of_ne_zero (Nat.ne_of_gt hn)
    rw [List.nil_append, line, if_pos rfl, List.nil_append]
  | cons c l ih =>
    intro n s hn
    obtain ⟨n, rfl⟩ := Nat.exists_eq_succ_of_ne_zero (Nat.ne_of_gt (Nat.zero_lt_of_lt hn))
    rw [List.cons_append, line, if_neg (hl c List.mem_cons_self),
      ih (fun d hd => hl d (List.mem_cons_of_mem c hd)) s (Nat.lt_of_succ_lt_succ hn), List.cons_append]

/-- So is the last one, which may lack its end. -/
theorem line_of_last {l : List Char} (hl : ∀ c ∈ l, c ≠ '\n') : ∀ {n : ℕ}, l.length < n → line n l = (l, []) := by
  induction l with
  | nil =>
    intro n hn
    obtain ⟨n, rfl⟩ := Nat.exists_eq_succ_of_ne_zero (Nat.ne_of_gt hn)
    rw [line]
  | cons c l ih =>
    intro n hn
    obtain ⟨n, rfl⟩ := Nat.exists_eq_succ_of_ne_zero (Nat.ne_of_gt (Nat.zero_lt_of_lt hn))
    rw [line, if_neg (hl c List.mem_cons_self),
      ih (fun d hd => hl d (List.mem_cons_of_mem c hd)) (Nat.lt_of_succ_lt_succ hn)]

end Scan
