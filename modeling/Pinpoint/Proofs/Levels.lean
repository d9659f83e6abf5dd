/-
Simplified levels.

* `simplify_instantiate` — parameters can be replaced before or after a level
  is simplified; so levels that the checker takes for equal stay equal when
  their parameters get values;
* `simplify_idem` — a simplified level is simplified.
-/
import Pinpoint.Level

namespace Pinpoint.Level

variable {a b : Level} {n : Nat}

theorem toNat?_eq_some_iff : a.toNat? = some n ↔ a = ofNat n := by
  refine ⟨fun h => ?_, fun h => h ▸ toNat?_ofNat n⟩
  induction a generalizing n with
  | zero => exact Option.some.inj h ▸ rfl
  | succ a ih =>
    obtain ⟨m, hm, rfl⟩ := Option.map_eq_some_iff.mp h
    rw [ih hm]
    rfl
  | _ => cases h

@[simp] theorem simplify_ofNat (n : Nat) : (ofNat n).simplify = ofNat n := by
  induction n with
  | zero => rfl
  | succ n ih => rw [ofNat, simplify, ih]

@[simp] theorem instantiate_ofNat (s : List (Name × Level)) (n : Nat) :
    (ofNat n).instantiate s = ofNat n := by
  induction n with
  | zero => rfl
  | succ n ih => rw [ofNat, instantiate, ih]

theorem isZero_iff : a.isZero ↔ a = .zero := by
  cases a <;> simp [isZero]

/-! ### The two maxima of simplified levels -/

theorem simplifyMax_ofNat (m n : Nat) : simplifyMax (ofNat m) (ofNat n) = ofNat (Nat.max m n) := by
  simp only [simplifyMax, toNat?_ofNat]

/-- Two levels of which one is no number are compared as they are. -/
theorem simplifyMax_of_none (h : a.toNat? = none ∨ b.toNat? = none) :
    simplifyMax a b =
      if a.isZero then b else if b.isZero then a else if a = b then a else .max a b := by
  unfold simplifyMax
  rcases ha : a.toNat? with _ | x
  · rfl
  · rcases hb : b.toNat? with _ | y
    · rfl
    · simp [ha, hb] at h

theorem simplifyMax_zero_left (b : Level) : simplifyMax .zero b = b := by
  rcases hb : b.toNat? with _ | y
  · rw [simplifyMax_of_none (.inr hb)]
    rfl
  · obtain rfl := toNat?_eq_some_iff.mp hb
    exact (simplifyMax_ofNat 0 y).trans (congrArg ofNat (Nat.zero_max y))

theorem simplifyMax_zero_right (a : Level) : simplifyMax a .zero = a := by
  rcases ha : a.toNat? with _ | x
  · rw [simplifyMax_of_none (.inl ha)]
    cases a <;> rfl
  · obtain rfl := toNat?_eq_some_iff.mp ha
    exact (simplifyMax_ofNat x 0).trans (congrArg ofNat (Nat.max_zero x))

theorem simplifyMax_self (a : Level) : simplifyMax a a = a := by
  rcases ha : a.toNat? with _ | x
  · rw [simplifyMax_of_none (.inl ha)]
    simp
  · obtain rfl := toNat?_eq_some_iff.mp ha
    exact (simplifyMax_ofNat x x).trans (congrArg ofNat (Nat.max_self x))

/-- What the larger of two simplified levels can be. -/
theorem simplifyMax_cases (a b : Level) :
    (∃ m n, a = ofNat m ∧ b = ofNat n) ∨ a = .zero ∨ b = .zero ∨ a = b ∨
      simplifyMax a b = .max a b := by
  rcases ha : a.toNat? with _ | m
  · rw [simplifyMax_of_none (.inl ha)]
    simp only [isZero_iff]
    grind
  · rcases hb : b.toNat? with _ | n
    · rw [simplifyMax_of_none (.inr hb)]
      simp only [isZero_iff]
      grind
    · exact .inl ⟨m, n, toNat?_eq_some_iff.mp ha, toNat?_eq_some_iff.mp hb⟩

theorem simplifyImax_ofNat (m n : Nat) :
    simplifyImax (ofNat m) (ofNat (n + 1)) = ofNat (Nat.max m (n + 1)) := by
  have hzero : (ofNat (n + 1)).isZero = false := rfl
  simp only [simplifyImax, hzero, toNat?_ofNat]
  rfl

/-- What the impredicative maximum of two simplified levels can be. -/
theorem simplifyImax_cases (a b : Level) :
    b = .zero ∨ (∃ m n, a = ofNat m ∧ b = ofNat (n + 1)) ∨ simplifyImax a b = .imax a b := by
  by_cases hzero : b = .zero
  · exact .inl hzero
  · have hnot : b.isZero = false := by
      rw [← Bool.not_eq_true, isZero_iff]
      exact hzero
    refine .inr ?_
    rcases ha : a.toNat? with _ | m
    · exact .inr (by simp [simplifyImax, hnot, ha])
    · rcases hb : b.toNat? with _ | n
      · exact .inr (by simp [simplifyImax, hnot, ha, hb])
      · obtain rfl := toNat?_eq_some_iff.mp hb
        rcases n with _ | n
        · exact absurd rfl hzero
        · exact .inl ⟨m, n, toNat?_eq_some_iff.mp ha, rfl⟩

/-! ### Replacing parameters -/

section
variable (s : List (Name × Level))

theorem simplify_instantiate_simplifyMax (a b : Level) :
    ((simplifyMax a b).instantiate s).simplify =
      simplifyMax (a.instantiate s).simplify (b.instantiate s).simplify := by
  rcases simplifyMax_cases a b with ⟨m, n, rfl, rfl⟩ | rfl | rfl | rfl | h
  · simp only [simplifyMax_ofNat, instantiate_ofNat, simplify_ofNat]
  · rw [simplifyMax_zero_left, instantiate, simplify, simplifyMax_zero_left]
  · rw [simplifyMax_zero_right, instantiate, simplify, simplifyMax_zero_right]
  · rw [simplifyMax_self, simplifyMax_self]
  · rw [h, instantiate, simplify]

theorem simplify_instantiate_simplifyImax (a b : Level) :
    ((simplifyImax a b).instantiate s).simplify =
      simplifyImax (a.instantiate s).simplify (b.instantiate s).simplify := by
  rcases simplifyImax_cases a b with rfl | ⟨m, n, rfl, rfl⟩ | h
  · rfl
  · simp only [simplifyImax_ofNat, instantiate_ofNat, simplify_ofNat]
  · rw [h, instantiate, simplify]

/-- Parameters can be replaced before or after a level is simplified. -/
theorem simplify_instantiate (l : Level) :
    (l.simplify.instantiate s).simplify = (l.instantiate s).simplify := by
  induction l with
  | zero => rfl
  | param n => rfl
  | succ l ih => simp only [simplify, instantiate, ih]
  | max a b iha ihb => rw [simplify, simplify_instantiate_simplifyMax, iha, ihb, instantiate, simplify]
  | imax a b iha ihb =>
    rw [simplify, simplify_instantiate_simplifyImax, iha, ihb, instantiate, simplify]

end

theorem instantiate_nil (l : Level) : l.instantiate [] = l := by
  induction l with
  | zero | param n => rfl
  | succ l ih => rw [instantiate, ih]
  | max a b iha ihb | imax a b iha ihb => rw [instantiate, iha, ihb]

@[simp] theorem simplify_idem (l : Level) : l.simplify.simplify = l.simplify := by
  have h := simplify_instantiate [] l
  rwa [instantiate_nil, instantiate_nil] at h

/-- The levels that stand for parameters can be simplified first. -/
theorem simplify_instantiate_map (s : List (Name × Level)) (l : Level) :
    (l.instantiate (s.map fun p => (p.1, p.2.simplify))).simplify =
      (l.instantiate s).simplify := by
  induction l with
  | zero => rfl
  | succ l ih => rw [instantiate, instantiate, simplify, simplify, ih]
  | max a b iha ihb | imax a b iha ihb =>
    rw [instantiate, instantiate, simplify, simplify, iha, ihb]
  | param n =>
    have hlookup : (s.map fun p => (p.1, p.2.simplify)).lookup n =
        (s.lookup n).map simplify := by
      induction s with
      | nil => rfl
      | cons p s ih =>
        rw [List.map_cons, List.lookup_cons, List.lookup_cons]
        cases n == p.1
        · exact ih
        · rfl
    rw [instantiate, instantiate, hlookup]
    cases s.lookup n with
    | none => rfl
    | some l => exact simplify_idem l

end Pinpoint.Level
