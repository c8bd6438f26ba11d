import Mathlib

/-! # Texts cut at separators, and numerals read from them

A text is the list of its characters.  Cutting at the first separator, trimming
blanks at both ends and reading an unsigned 64-bit numeral are characterised by
what they accept, so that a grammar can be stated without the functions.
-/

namespace Text

section Cutting

variable {α : Type}

/-- The parts before and after the first separator. -/
def splitOnce [DecidableEq α] (sep : α) : List α → Option (List α × List α)
  | [] => none
  | c :: rest =>
      if c = sep then some ([], rest)
      else (splitOnce sep rest).map fun parts => (c :: parts.1, parts.2)

theorem splitOnce_eq_some [DecidableEq α] {sep : α} {text before after : List α} :
    splitOnce sep text = some (before, after) ↔ text = before ++ sep :: after ∧ sep ∉ before := by
  induction text generalizing before with
  | nil => simp [splitOnce]
  | cons c rest ih =>
      rw [splitOnce]
      split_ifs with here
      · cases before with
        | nil => simp [here, eq_comm]
        | cons b before => simp +contextual [here]
      · cases before with
        | nil => simp [here]
        | cons b before =>
            simp only [Option.map_eq_some_iff, Prod.mk.injEq, List.cons.injEq, Prod.exists,
              List.cons_append, List.mem_cons, not_or]
            constructor
            · rintro ⟨before, after, found, ⟨rfl, rfl⟩, rfl⟩
              obtain ⟨cut, absent⟩ := ih.mp found
              exact ⟨⟨rfl, cut⟩, Ne.symm here, absent⟩
            · rintro ⟨⟨rfl, cut⟩, -, absent⟩
              exact ⟨before, after, ih.mpr ⟨cut, absent⟩, ⟨rfl, rfl⟩, rfl⟩

/-- The text without the blanks at its two ends. -/
def trim (blank : α → Bool) (text : List α) : List α :=
  (text.dropWhile blank).rdropWhile blank

theorem trim_blank {blank : α → Bool} {text : List α} (blanks : ∀ c ∈ text, blank c) :
    trim blank text = [] := by
  rw [trim, List.dropWhile_eq_nil_iff.mpr blanks, List.rdropWhile_nil]

/-- Blanks around a text that neither starts nor ends with one. -/
theorem trim_padded {blank : α → Bool} {left right body : List α} {first last : α}
    (lefts : ∀ c ∈ left, blank c) (rights : ∀ c ∈ right, blank c)
    (starts : body.head? = some first) (solid : ¬ blank first)
    (ends : body.getLast? = some last) (solid' : ¬ blank last) :
    trim blank (left ++ body ++ right) = body := by
  obtain ⟨rest, rfl⟩ := List.head?_eq_some_iff.mp starts
  obtain ⟨front, cut⟩ := List.getLast?_eq_some_iff.mp ends
  have dropped : (left ++ first :: rest ++ right).dropWhile blank = first :: rest ++ right := by
    rw [List.append_assoc, List.dropWhile_append_of_pos lefts, List.cons_append,
      List.dropWhile_cons_of_neg solid]
  rw [trim, dropped, cut, List.rdropWhile, List.reverse_append,
    List.dropWhile_append_of_pos (fun c member => rights c (List.mem_reverse.mp member)),
    List.reverse_append, List.reverse_singleton, List.singleton_append,
    List.dropWhile_cons_of_neg solid', List.reverse_cons, List.reverse_reverse]

end Cutting

/-- Why a text is not an unsigned number. -/
inductive IntErrorKind where
  | empty
  | invalidDigit
  | posOverflow
  deriving DecidableEq, Repr

instance : ToString IntErrorKind where
  toString
    | .empty => "cannot parse integer from empty string"
    | .invalidDigit => "invalid digit found in string"
    | .posOverflow => "number too large to fit in target type"

/-- The value of a decimal digit. -/
def toDigit (c : Char) : Option Nat := if c.isDigit then some (c.toNat - '0'.toNat) else none

/-- An intermediate value that has to fit 64 bits. -/
def checked (n : Nat) : Except IntErrorKind Nat :=
  if n < 2 ^ 64 then .ok n else .error .posOverflow

/-- The digits after a value already read.  A character that is no digit is found before the
    overflow of the same position. -/
def readDigits : List Char → Nat → Except IntErrorKind Nat
  | [], value => .ok value
  | c :: rest, value =>
      match toDigit c with
      | none => .error .invalidDigit
      | some digit => do
          let shifted ← checked (10 * value)
          let value ← checked (shifted + digit)
          readDigits rest value

/-- `str::parse::<u64>`: digits, with a leading plus sign allowed. -/
def parseU64 : List Char → Except IntErrorKind UInt64
  | [] => .error .empty
  | ['+'] => .error .invalidDigit
  | ['-'] => .error .invalidDigit
  | '+' :: digits => (readDigits digits 0).map UInt64.ofNat
  | digits => (readDigits digits 0).map UInt64.ofNat

/-- A text that denotes a number of 64 bits. -/
def Numeral (text : List Char) (n : UInt64) : Prop :=
  ∃ digits, (text = digits ∨ text = '+' :: digits) ∧ digits ≠ [] ∧
    (∀ c ∈ digits, c.isDigit) ∧ Nat.ofDigitChars 10 digits 0 = n.toNat

theorem le_ofDigitChars (digits : List Char) (value : Nat) :
    value ≤ Nat.ofDigitChars 10 digits value := by
  induction digits generalizing value with
  | nil => exact le_rfl
  | cons c rest ih =>
      rw [Nat.ofDigitChars_cons]
      have further := ih (10 * value + (c.toNat - '0'.toNat))
      omega

theorem readDigits_cons {c : Char} (digit : c.isDigit) (rest : List Char) {value : Nat}
    (fits : 10 * value + (c.toNat - '0'.toNat) < 2 ^ 64) :
    readDigits (c :: rest) value = readDigits rest (10 * value + (c.toNat - '0'.toNat)) := by
  have shifted : checked (10 * value) = .ok (10 * value) := if_pos (by omega)
  have added : checked (10 * value + (c.toNat - '0'.toNat)) = .ok _ := if_pos fits
  rw [readDigits, toDigit, if_pos digit]
  simp only [shifted, added, bind, Except.bind]

theorem readDigits_overflow {c : Char} (digit : c.isDigit) (rest : List Char) {value : Nat}
    (large : ¬ 10 * value + (c.toNat - '0'.toNat) < 2 ^ 64) :
    readDigits (c :: rest) value = .error .posOverflow := by
  have added : checked (10 * value + (c.toNat - '0'.toNat)) = .error .posOverflow := if_neg large
  rw [readDigits, toDigit, if_pos digit]
  by_cases room : 10 * value < 2 ^ 64
  · have shifted : checked (10 * value) = .ok (10 * value) := if_pos room
    simp only [shifted, added, bind, Except.bind]
  · have shifted : checked (10 * value) = .error .posOverflow := if_neg room
    simp only [shifted, bind, Except.bind]

theorem readDigits_eq_ok (digits : List Char) {value : Nat} (small : value < 2 ^ 64) (n : Nat) :
    readDigits digits value = .ok n ↔
      n < 2 ^ 64 ∧ (∀ c ∈ digits, c.isDigit) ∧ Nat.ofDigitChars 10 digits value = n := by
  induction digits generalizing value with
  | nil =>
      simp only [readDigits, Except.ok.injEq, List.not_mem_nil, false_imp_iff, implies_true,
        true_and]
      change value = n ↔ n < 2 ^ 64 ∧ value = n
      omega
  | cons c rest ih =>
      rw [Nat.ofDigitChars_cons, List.forall_mem_cons]
      by_cases digit : c.isDigit
      · by_cases fits : 10 * value + (c.toNat - '0'.toNat) < 2 ^ 64
        · rw [readDigits_cons digit rest fits, ih fits]
          simp only [digit, true_and]
        · -- What is read so far is already too large, and further digits do not make it smaller.
          have grows := le_ofDigitChars rest (10 * value + (c.toNat - '0'.toNat))
          rw [readDigits_overflow digit rest fits]
          simp only [reduceCtorEq, false_iff]
          rintro ⟨below, -, rfl⟩
          omega
      · simp [readDigits, toDigit, digit]

theorem readDigits_map_eq_ok {digits : List Char} {n : UInt64} :
    (readDigits digits 0).map UInt64.ofNat = .ok n ↔
      (∀ c ∈ digits, c.isDigit) ∧ Nat.ofDigitChars 10 digits 0 = n.toNat := by
  have read := readDigits_eq_ok digits (by norm_num : 0 < 2 ^ 64)
  constructor
  · intro same
    cases result : readDigits digits 0 with
    | error e => simp [result, Except.map] at same
    | ok k =>
        obtain ⟨below, all, value⟩ := (read k).mp result
        have word : UInt64.ofNat k = n := by simpa [result, Except.map] using same
        refine ⟨all, ?_⟩
        rw [value, ← word]
        exact (UInt64.toNat_ofNat_of_lt below).symm
  · rintro ⟨all, value⟩
    rw [(read n.toNat).mpr ⟨n.toNat_lt, all, value⟩]
    exact congrArg Except.ok UInt64.ofNat_toNat

theorem numeral_signed {digits : List Char} {n : UInt64} : Numeral ('+' :: digits) n ↔
    digits ≠ [] ∧ (∀ c ∈ digits, c.isDigit) ∧ Nat.ofDigitChars 10 digits 0 = n.toNat := by
  constructor
  · rintro ⟨rest, rfl | signed, nonempty, all, value⟩
    · -- A plus sign is not a digit itself.
      exact absurd (all '+' List.mem_cons_self) (by decide)
    · obtain rfl := List.tail_eq_of_cons_eq signed
      exact ⟨nonempty, all, value⟩
  · exact fun denotes => ⟨digits, .inr rfl, denotes⟩

theorem numeral_unsigned {text : List Char} (unsigned : ∀ rest, text ≠ '+' :: rest) {n : UInt64} :
    Numeral text n ↔
      text ≠ [] ∧ (∀ c ∈ text, c.isDigit) ∧ Nat.ofDigitChars 10 text 0 = n.toNat := by
  constructor
  · rintro ⟨rest, rfl | signed, denotes⟩
    · exact denotes
    · exact absurd signed (unsigned rest)
  · exact fun denotes => ⟨text, .inl rfl, denotes⟩

/-- Reading succeeds exactly on the numerals, with the number they denote. -/
theorem parseU64_eq_ok {text : List Char} {n : UInt64} :
    parseU64 text = .ok n ↔ Numeral text n := by
  unfold parseU64
  split
  next => simp [numeral_unsigned]
  next => simp [numeral_signed]
  next => simp [numeral_unsigned]
  next digits more =>
    rw [readDigits_map_eq_ok, numeral_signed]
    exact (and_iff_right more).symm
  next nonempty _ _ unsigned =>
    rw [readDigits_map_eq_ok, numeral_unsigned fun rest signed => unsigned rest signed]
    exact (and_iff_right nonempty).symm

/-- The decimal text of a number denotes it. -/
theorem numeral_toDigits (n : UInt64) : Numeral (Nat.toDigits 10 n.toNat) n :=
  ⟨_, .inl rfl, Nat.toDigits_ne_nil,
    fun _ member => Nat.isDigit_of_mem_toDigits (by decide) (by decide) member,
    Nat.ofDigitChars_toDigits (by decide) (by decide)⟩

end Text
