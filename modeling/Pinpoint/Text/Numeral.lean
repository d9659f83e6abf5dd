/-
Decimal numerals of bounded size.

`Numeral.value` reads digits, and `Numeral.parse?` a numeral as it is written
in a name component or a command line: an optional plus sign and at least one
digit, with a value below the bound.
-/

namespace Pinpoint.Text

namespace Numeral

/-- The value of a list of decimal digits. -/
def value (digits : List Char) : Nat :=
  digits.foldl (fun acc c => 10 * acc + (c.toNat - '0'.toNat)) 0

/-- At least one digit, nothing else, and a value below `bound`. -/
def digits? (bound : Nat) (cs : List Char) : Option Nat :=
  if !cs.isEmpty && cs.all Char.isDigit && value cs < bound then some (value cs) else none

/-- A numeral below `bound`; one plus sign may stand before the digits. -/
def parse? (bound : Nat) : List Char → Option Nat
  | '+' :: cs => digits? bound cs
  | cs => digits? bound cs

/-- What is read from digits is their value, and is below the bound. -/
theorem digits?_eq_some_iff {bound n : Nat} {cs : List Char} :
    digits? bound cs = some n ↔
      cs ≠ [] ∧ (∀ c ∈ cs, c.isDigit = true) ∧ value cs < bound ∧ n = value cs := by
  simp only [digits?]
  split <;> rename_i h
  · simp only [Bool.and_eq_true, Bool.not_eq_true', List.isEmpty_eq_false_iff,
      List.all_eq_true, decide_eq_true_eq] at h
    constructor
    · rintro hn
      cases hn
      exact ⟨h.1.1, h.1.2, h.2, rfl⟩
    · rintro ⟨-, -, -, rfl⟩
      rfl
  · constructor
    · intro hn
      cases hn
    · rintro ⟨hne, hall, hlt, -⟩
      refine absurd ?_ h
      simp only [Bool.and_eq_true, Bool.not_eq_true', List.isEmpty_eq_false_iff,
        List.all_eq_true, decide_eq_true_eq]
      exact ⟨⟨hne, hall⟩, hlt⟩

end Numeral

/-- The pieces of a text between the occurrences of a separator; a text
without the separator is one piece. -/
def splitAt (sep : Char) : List Char → List (List Char)
  | [] => [[]]
  | c :: cs =>
    if c = sep then [] :: splitAt sep cs
    else
      match splitAt sep cs with
      | piece :: rest => (c :: piece) :: rest
      | [] => [[c]]

end Pinpoint.Text
