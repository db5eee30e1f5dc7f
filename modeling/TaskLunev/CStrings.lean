import Mathlib.Algebra.Group.Int.Defs
import Mathlib.Algebra.Group.Nat.Defs
import Mathlib.Data.Int.Notation
import Mathlib.Data.List.TakeWhile
import Mathlib.Data.Nat.Notation
import Mathlib.Order.MinMax
import Mathlib.Tactic.Common

/-!
# Strings of C

A string is the list of its characters, without the terminator. Of the standard
library there are the functions that take a text apart: `strtok` gives the
parts between delimiters, `atoi` the number a text starts with. Numbers written
out come back, and so do the parts of a joined text.
-/
namespace TaskLunev.CStrings

/-! ## Numbers -/

def isspace (c : Char) : Bool := c = ' ' || decide (9 ≤ c.toNat ∧ c.toNat ≤ 13)

def LONG_MAX : ℤ := 2 ^ 63 - 1

def LONG_MIN : ℤ := -2 ^ 63

/-- The number that the digits at the start of a text make. -/
def leadingNumber (s : List Char) : ℕ := Nat.ofDigitChars 10 (s.takeWhile Char.isDigit) 0

/-- `strtol` to the base ten: blanks, a sign, digits. A number that is no
`long` gives the nearest one that is. -/
def strtol (s : List Char) : ℤ :=
  match s.dropWhile isspace with
  | '-' :: rest => max LONG_MIN (-leadingNumber rest)
  | '+' :: rest => min LONG_MAX (leadingNumber rest)
  | rest => min LONG_MAX (leadingNumber rest)

/-- The `long` converted to `int`. -/
def atoi (s : List Char) : ℤ := Int.bmod (strtol s) (2 ^ 32)

/-- A number in decimal digits. -/
def digits (n : ℕ) : List Char := Nat.toDigits 10 n

theorem isDigit_of_mem_digits {n : ℕ} {c : Char} (h : c ∈ digits n) : c.isDigit = true :=
  Nat.isDigit_of_mem_toDigits (by decide) (by decide) h

theorem digits_ne_nil {n : ℕ} : digits n ≠ [] := Nat.toDigits_ne_nil

section
variable {rest : List Char}

theorem leadingNumber_digits {n : ℕ} (hrest : ∀ c ∈ rest.head?, c.isDigit = false) :
    leadingNumber (digits n ++ rest) = n := by
  have hnone : rest.takeWhile Char.isDigit = [] := by
    cases rest with
    | nil => rfl
    | cons c rest => rw [List.takeWhile_cons, hrest c rfl, if_neg Bool.false_ne_true]
  unfold leadingNumber
  rw [List.takeWhile_append_of_pos fun c hc => isDigit_of_mem_digits hc, hnone, List.append_nil]
  exact Nat.ofDigitChars_toDigits (by decide) (by decide)

/-- A digit is neither a blank nor a sign. -/
theorem not_special_of_isDigit {c : Char} (h : c.isDigit = true) :
    isspace c = false ∧ c ≠ '-' ∧ c ≠ '+' := by
  have hge : 48 ≤ c.toNat := by
    simp only [Char.isDigit, ge_iff_le, Bool.and_eq_true, decide_eq_true_eq] at h
    exact UInt32.le_iff_toNat_le.mp h.1
  refine ⟨?_, ?_, ?_⟩
  · have hspace : c ≠ ' ' := by
      intro he
      subst he
      exact absurd hge (by decide)
    simp only [isspace, hspace, decide_false, Bool.false_or, decide_eq_false_iff_not]
    omega
  · intro he
    subst he
    exact absurd hge (by decide)
  · intro he
    subst he
    exact absurd hge (by decide)

theorem strtol_digits {n : ℕ} (hrest : ∀ c ∈ rest.head?, c.isDigit = false) :
    strtol (digits n ++ rest) = min LONG_MAX n := by
  have hvalue := leadingNumber_digits (n := n) hrest
  cases hd : digits n with
  | nil => exact absurd hd digits_ne_nil
  | cons c cs =>
      obtain ⟨hspace, hminus, hplus⟩ :=
        not_special_of_isDigit (isDigit_of_mem_digits (hd ▸ List.mem_cons_self))
      rw [hd] at hvalue
      unfold strtol
      rw [List.cons_append] at hvalue ⊢
      rw [List.dropWhile_cons, hspace, if_neg Bool.false_ne_true]
      split
      next h => exact absurd (List.cons.inj h).1 hminus
      next h => exact absurd (List.cons.inj h).1 hplus
      next => rw [hvalue]

/-- What a number written out is read as. -/
def read (n : ℕ) : ℤ := Int.bmod (min LONG_MAX n) (2 ^ 32)

theorem atoi_digits {n : ℕ} (hrest : ∀ c ∈ rest.head?, c.isDigit = false) :
    atoi (digits n ++ rest) = read n := by
  rw [atoi, strtol_digits hrest, read]

theorem read_of_lt {n : ℕ} (h : n < 2 ^ 31) : read n = n := by
  have hmin : min LONG_MAX (n : ℤ) = n := min_eq_right (by unfold LONG_MAX; omega)
  rw [read, hmin]
  exact Int.bmod_eq_of_le (by omega) (by omega)

end

/-! ## Parts -/

/-- `strchr`: the text from the first such character on. -/
def strchr (s : List Char) (c : Char) : Option (List Char) :=
  match s.dropWhile (· ≠ c) with
  | [] => none
  | found => some found

theorem strchr_append {a b : List Char} {c : Char} (ha : c ∉ a) :
    strchr (a ++ c :: b) c = some (c :: b) := by
  have hskip : ∀ x ∈ a, decide (x ≠ c) = true := fun x hx =>
    decide_eq_true fun he => ha (he ▸ hx)
  simp only [strchr, List.dropWhile_append_of_pos hskip, List.dropWhile_cons, ne_eq, not_true,
    decide_false, if_neg Bool.false_ne_true]

theorem strchr_none {a : List Char} {c : Char} (ha : c ∉ a) : strchr a c = none := by
  have hskip : ∀ x ∈ a, decide (x ≠ c) = true := fun x hx =>
    decide_eq_true fun he => ha (he ▸ hx)
  rw [strchr, List.dropWhile_eq_nil_iff.mpr hskip]

/-- `strtok` with one delimiter: the next part, and the text behind the
delimiter that ends it. -/
def strtok (delim : Char) (s : List Char) : Option (List Char × List Char) :=
  match s.dropWhile (· = delim) with
  | [] => none
  | part => some (part.takeWhile (· ≠ delim), (part.dropWhile (· ≠ delim)).drop 1)

/-- The parts that at most so many calls give. -/
def tokensIn (delim : Char) : ℕ → List Char → List (List Char)
  | 0, _ => []
  | calls + 1, s =>
      match strtok delim s with
      | none => []
      | some (token, rest) => token :: tokensIn delim calls rest

/-- Every part has a character, so there are not more of them. -/
def tokens (delim : Char) (s : List Char) : List (List Char) := tokensIn delim s.length s

section
variable {delim : Char} {part : List Char}

/-- The delimiter that ends a part is not there at the end of the text. -/
theorem strtok_append (hne : part ≠ []) (hd : delim ∉ part) {rest : List Char}
    (hrest : ∀ c ∈ rest.head?, c = delim) :
    strtok delim (part ++ rest) = some (part, rest.drop 1) := by
  have hin : ∀ x ∈ part, decide (x ≠ delim) = true := fun x hx =>
    decide_eq_true fun he => hd (he ▸ hx)
  have htake : (part ++ rest).takeWhile (· ≠ delim) = part := by
    rw [List.takeWhile_append_of_pos hin]
    cases rest with
    | nil => rw [List.takeWhile_nil, List.append_nil]
    | cons c rest =>
        rw [List.takeWhile_cons_of_neg (by simpa using hrest c rfl), List.append_nil]
  have hdrop : (part ++ rest).dropWhile (· ≠ delim) = rest := by
    rw [List.dropWhile_append_of_pos hin]
    cases rest with
    | nil => rfl
    | cons c rest => exact List.dropWhile_cons_of_neg (by simpa using hrest c rfl)
  have hstart : (part ++ rest).dropWhile (· = delim) = part ++ rest := by
    cases part with
    | nil => exact absurd rfl hne
    | cons c part =>
        rw [List.cons_append]
        exact List.dropWhile_cons_of_neg (by simpa using hin c List.mem_cons_self)
  unfold strtok
  rw [hstart]
  split
  next hnil => exact absurd (List.append_eq_nil_iff.mp hnil).1 hne
  next => rw [htake, hdrop]

theorem tokensIn_join {parts : List (List Char)} (hne : ∀ p ∈ parts, p ≠ [])
    (hd : ∀ p ∈ parts, delim ∉ p) {calls : ℕ}
    (hcalls : ([delim].intercalate parts).length ≤ calls) :
    tokensIn delim calls ([delim].intercalate parts) = parts := by
  induction parts generalizing calls with
  | nil => cases calls <;> rfl
  | cons p parts ih =>
      obtain ⟨hp, hne⟩ := List.forall_mem_cons.mp hne
      obtain ⟨hdp, hd⟩ := List.forall_mem_cons.mp hd
      have hlen : 0 < p.length := List.length_pos_iff.mpr hp
      cases parts with
      | nil =>
          rw [List.intercalate_singleton] at hcalls ⊢
          obtain ⟨calls, rfl⟩ : ∃ m, calls = m + 1 := ⟨calls - 1, by omega⟩
          have htok : strtok delim (p ++ []) = some (p, []) := strtok_append hp hdp (by simp)
          rw [List.append_nil] at htok
          rw [tokensIn, htok]
          cases calls <;> rfl
      | cons q parts =>
          have hjoin : [delim].intercalate (p :: q :: parts) =
              p ++ delim :: [delim].intercalate (q :: parts) := by
            rw [List.intercalate_cons_cons, List.append_assoc, List.singleton_append]
          rw [hjoin, List.length_append, List.length_cons] at hcalls
          obtain ⟨calls, rfl⟩ : ∃ m, calls = m + 1 := ⟨calls - 1, by omega⟩
          have hrest : tokensIn delim calls ([delim].intercalate (q :: parts)) = q :: parts :=
            ih hne hd (by omega)
          rw [hjoin, tokensIn, strtok_append hp hdp (by simp), List.drop_one, List.tail_cons]
          simp only [hrest]

/-- Parts that were joined come apart again. -/
theorem tokens_join {parts : List (List Char)} (hne : ∀ p ∈ parts, p ≠ [])
    (hd : ∀ p ∈ parts, delim ∉ p) : tokens delim ([delim].intercalate parts) = parts :=
  tokensIn_join hne hd le_rfl

/-- What stands behind a joined text belongs to its last part. -/
theorem exists_ended {parts : List (List Char)} (hne : parts ≠ []) (ending : List Char) :
    ∃ ended, [delim].intercalate parts ++ ending = [delim].intercalate ended ∧
      List.Forall₂ (fun p token => token = p ∨ token = p ++ ending) parts ended := by
  induction parts with
  | nil => exact absurd rfl hne
  | cons p parts ih =>
      cases parts with
      | nil =>
          refine ⟨[p ++ ending], ?_, .cons (.inr rfl) .nil⟩
          rw [List.intercalate_singleton, List.intercalate_singleton]
      | cons q parts =>
          obtain ⟨ended, htext, hended⟩ := ih (List.cons_ne_nil q parts)
          refine ⟨p :: ended, ?_, .cons (.inl rfl) hended⟩
          have hended : ended ≠ [] := by
            intro he
            subst he
            cases hended
          rw [List.intercalate_cons_cons, List.append_assoc, htext,
            List.intercalate_cons_of_ne_nil hended]

/-- A text with a part has a token. -/
theorem tokens_eq_nil_iff {s : List Char} : tokens delim s = [] ↔ ∀ c ∈ s, c = delim := by
  unfold tokens
  constructor
  · intro h
    by_contra hne
    cases hs : s.length with
    | zero =>
        rw [List.length_eq_zero_iff.mp hs] at hne
        exact hne fun c hc => nomatch hc
    | succ m =>
        rw [hs, tokensIn] at h
        have hdrop : s.dropWhile (· = delim) ≠ [] := by
          intro hnil
          refine hne fun c hc => ?_
          simpa using List.dropWhile_eq_nil_iff.mp hnil c hc
        have htok : strtok delim s ≠ none := by
          unfold strtok
          split
          next hnil => exact absurd hnil hdrop
          next => exact Option.some_ne_none _
        split at h
        next hnone => exact htok hnone
        next => cases h
  · intro h
    have hdrop : s.dropWhile (· = delim) = [] :=
      List.dropWhile_eq_nil_iff.mpr fun c hc => decide_eq_true (h c hc)
    cases s.length with
    | zero => rfl
    | succ m => rw [tokensIn, strtok, hdrop]

end

end TaskLunev.CStrings
