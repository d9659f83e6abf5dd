/-
Classes of characters given by tables of code point ranges.

A table lists closed ranges in increasing order, none overlapping the next;
`memRanges` walks it and stops at the first range that starts above the code
point.  The tables themselves are in the modules named for the property
(`Text.Alphabetic`, `Text.Blank`, `Text.Unprintable`).
-/

namespace Pinpoint.Text

/-- Whether `n` lies in one of the closed ranges of a table sorted in
increasing order. -/
def memRanges : List (Nat × Nat) → Nat → Bool
  | [], _ => false
  | (lo, hi) :: rest, n => if n < lo then false else n ≤ hi || memRanges rest n

/-- A code point found in a table lies in one of its ranges. -/
theorem exists_range_of_memRanges {table : List (Nat × Nat)} {n : Nat}
    (h : memRanges table n = true) : ∃ r ∈ table, r.1 ≤ n ∧ n ≤ r.2 := by
  induction table with
  | nil => simp [memRanges] at h
  | cons r rest ih =>
    obtain ⟨lo, hi⟩ := r
    simp only [memRanges] at h
    split at h
    · cases h
    · rename_i hlo
      simp only [Bool.or_eq_true, decide_eq_true_eq] at h
      rcases h with hhi | hrest
      · exact ⟨(lo, hi), by simp, by omega, hhi⟩
      · obtain ⟨r, hr, hn⟩ := ih hrest
        exact ⟨r, by simp [hr], hn⟩

end Pinpoint.Text
