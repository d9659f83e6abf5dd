/-
What simplified levels stand for.

A level and its simplified form have one value, whatever the parameters stand
for.  Where there are no parameters nothing is left of a level but that value:
each of the two maxima of numbers is a number.

* `value_simplify` — simplification keeps the value;
* `simplify_eq_ofNat` — a level without parameters becomes a number;
* `simplify_evaluates` — so simplification decides whether two such levels have
  the same value.
-/
import Pinpoint.Proofs.Levels
import Pinpoint.Proofs.TypedEnvironments

namespace Pinpoint.Level

variable {l : Level} (v : Name → Nat)

/-! ### The two maxima -/

theorem value_simplifyMax (a b : Level) :
    (simplifyMax a b).value v = Nat.max (a.value v) (b.value v) := by
  -- the smaller one is dropped only where it is `0` or the same level
  rcases simplifyMax_cases a b with ⟨m, n, rfl, rfl⟩ | rfl | rfl | rfl | h
  · simp only [simplifyMax_ofNat, value_ofNat]
  · rw [simplifyMax_zero_left]
    exact (Nat.zero_max _).symm
  · rw [simplifyMax_zero_right]
    exact (Nat.max_zero _).symm
  · rw [simplifyMax_self]
    exact (Nat.max_self _).symm
  · rw [h, value]

theorem value_simplifyImax (a b : Level) :
    (simplifyImax a b).value v =
      if b.value v = 0 then 0 else Nat.max (a.value v) (b.value v) := by
  rcases simplifyImax_cases a b with rfl | ⟨m, n, rfl, rfl⟩ | h
  · rfl
  · simp only [simplifyImax_ofNat, value_ofNat, if_neg n.succ_ne_zero]
  · rw [h, value]

/-- The impredicative maximum of two numbers is a number. -/
theorem exists_simplifyImax_eq_ofNat (m n : Nat) :
    ∃ k, simplifyImax (ofNat m) (ofNat n) = ofNat k := by
  cases n with
  | zero => exact ⟨0, rfl⟩
  | succ n => exact ⟨_, simplifyImax_ofNat m n⟩

/-! ### Levels -/

/-- A level and its simplified form have one value. -/
theorem value_simplify (l : Level) : l.simplify.value v = l.value v := by
  induction l with
  | zero | param n => rfl
  | succ l ih => rw [simplify, value, value, ih]
  | max a b iha ihb => rw [simplify, value_simplifyMax, value, iha, ihb]
  | imax a b iha ihb => rw [simplify, value_simplifyImax, value, iha, ihb]

/-- A level without parameters is simplified to a number. -/
theorem exists_simplify_eq_ofNat (h : l.paramsIn []) : ∃ n, l.simplify = ofNat n := by
  -- the parts of a maximum are numbers, and then so is the maximum
  induction l with
  | zero => exact ⟨0, rfl⟩
  | param p => exact absurd (of_decide_eq_true h) List.not_mem_nil
  | succ l ih =>
    obtain ⟨n, hn⟩ := ih h
    exact ⟨n + 1, congrArg succ hn⟩
  | max a b iha ihb =>
    rw [paramsIn, Bool.and_eq_true] at h
    obtain ⟨m, hm⟩ := iha h.1
    obtain ⟨n, hn⟩ := ihb h.2
    exact ⟨_, by rw [simplify, hm, hn, simplifyMax_ofNat]⟩
  | imax a b iha ihb =>
    rw [paramsIn, Bool.and_eq_true] at h
    obtain ⟨m, hm⟩ := iha h.1
    obtain ⟨n, hn⟩ := ihb h.2
    rw [simplify, hm, hn]
    exact exists_simplifyImax_eq_ofNat m n

/-- That number is the value of the level. -/
theorem simplify_eq_ofNat (h : l.paramsIn []) : l.simplify = ofNat (l.value v) := by
  obtain ⟨n, hn⟩ := exists_simplify_eq_ofNat h
  rw [← value_simplify, hn, value_ofNat]

/-- Simplification keeps the value of a level, changes nothing when it is done
again, and turns a level without parameters into the number that is its value;
so two such levels have one value exactly if they are simplified to one level. -/
theorem simplify_evaluates (l : Level) (v : Name → Nat) :
    l.simplify.value v = l.value v ∧ l.simplify.simplify = l.simplify ∧
      (l.paramsIn [] → l.simplify = ofNat (l.value v) ∧
        ∀ l' : Level, l'.paramsIn [] → (l.value v = l'.value v ↔ l.simplify = l'.simplify)) := by
  refine ⟨value_simplify v l, simplify_idem l, fun hl => ⟨simplify_eq_ofNat v hl, fun l' hl' => ?_⟩⟩
  constructor
  · intro heq
    rw [simplify_eq_ofNat v hl, simplify_eq_ofNat v hl', heq]
  · intro heq
    rw [← value_simplify v l, heq, value_simplify v l']

namespace Nested

/-- A level in which both maxima are nested under each other. -/
def left : Level := .max (.imax (ofNat 3) .zero) (.succ (.imax .zero (.max (ofNat 2) .one)))

/-- A level of another shape with the same value. -/
def right : Level := .imax (.succ .zero) (.succ (.max (.imax .zero .one) (ofNat 2)))

end Nested

open Nested in
theorem simplify_evaluates_nested :
    left.simplify = ofNat 3 ∧ right.simplify = left.simplify ∧ left ≠ right := by
  obtain ⟨-, -, h⟩ := simplify_evaluates left fun _ => 0
  obtain ⟨hleft, hsame⟩ := h (by decide)
  exact ⟨hleft, ((hsame right (by decide)).mp (by decide)).symm, by decide⟩

end Pinpoint.Level
