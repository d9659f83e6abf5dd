/-
What the search for occurrences promises.

* `Rule.hasType_of_wellTyped` — the values of a match have the types of the
  rule's variables;
* `Rule.isMatch_of_mem_findMatches` — every match that is listed for a rule
  stands where its path says, has no loose bound variable, and matches the
  pattern with values of the right types;
* `isMatch_of_mem_findAll` — the same for a list of rules, with the place of
  the rule.
-/
import Pinpoint.Proofs.Inference
import Pinpoint.Proofs.Matching
import Pinpoint.Proofs.Positions

namespace Pinpoint

/-! ### Types of the values -/

/-- Whether the checker, at some time, gives a term a type that is equal by
definition to the given one. -/
def Checker.HasType (checker : Checker) (e type : Expr) : Prop :=
  ∃ s T s', (checker.inferType e).Returns s T s' ∧ checker.isDefEq .all T type = some true

/-- A term that has a type is no bound variable, also under metadata. -/
theorem Checker.HasType.skeleton_ne_bvar {checker : Checker} {e type : Expr}
    (h : checker.HasType e type) (i : UInt32) : e.skeleton ≠ .bvar i := by
  obtain ⟨s, T, s', hT, -⟩ := h
  exact Environment.skeleton_ne_bvar_of_inferType hT i

theorem dependsOnUnbound_map_some (type : Expr) (vals : List Expr) :
    dependsOnUnbound type (vals.map some) = false := by
  unfold dependsOnUnbound
  rw [List.any_eq_false]
  rintro ⟨v, i⟩ hv
  have hmem : v ∈ (vals.map some).reverse := by
    simpa using List.mem_map_of_mem (f := Prod.fst) hv
  obtain ⟨w, -, rfl⟩ := List.mem_map.mp (List.mem_reverse.mp hmem)
  simp

/-- A value is checked against the type of its variable at the values before
it, if all of these are there. -/
theorem valuesHaveTypes_cons_some {checker : Checker} {earlier types : List Expr}
    {type v : Expr} {values : Substitution} {s s' : UInt64}
    (h : (valuesHaveTypes checker (earlier.map some) (type :: types) (some v :: values)).run s =
      some (true, s')) :
    ∃ T t, (checker.inferType v).Returns s T t ∧
      checker.isDefEq .all T (type.instantiateRev earlier) = some true ∧
      (valuesHaveTypes checker ((earlier ++ [v]).map some) types values).run t =
        some (true, s') := by
  rw [valuesHaveTypes] at h
  simp only [dependsOnUnbound_map_some, Bool.false_eq_true, if_false] at h
  obtain ⟨r, t, hr, h⟩ := Supply.run_bind_eq_some.mp h
  cases r with
  | error e =>
    obtain ⟨fits, u, hfits, h⟩ := Supply.run_bind_eq_some.mp h
    obtain ⟨rfl, rfl⟩ := Supply.run_pure_eq_some.mp hfits
    obtain ⟨⟨⟩, -⟩ := Supply.run_pure_eq_some.mp h
  | ok T =>
    obtain ⟨fits, u, hfits, h⟩ := Supply.run_bind_eq_some.mp h
    obtain ⟨hT, rfl⟩ := Supply.run_lift_eq_some.mp hfits
    cases fits with
    | false => obtain ⟨⟨⟩, -⟩ := Supply.run_pure_eq_some.mp h
    | true =>
      refine ⟨T, t, hr, ?_, ?_⟩
      · simpa [Function.comp_def] using hT
      · simpa using h

/-- If all variables have values, all values have been checked. -/
theorem hasType_of_valuesHaveTypes {checker : Checker} {earlier types vals : List Expr}
    {s s' : UInt64}
    (h : (valuesHaveTypes checker (earlier.map some) types (vals.map some)).run s =
      some (true, s'))
    {k : Nat} {type v : Expr} (htype : types[k]? = some type) (hv : vals[k]? = some v) :
    checker.HasType v (type.instantiateRev (earlier ++ vals.take k)) := by
  induction types generalizing earlier vals s k with
  | nil => simp at htype
  | cons type₀ types ih =>
    rcases vals with _ | ⟨v₀, vals⟩
    · simp at hv
    · obtain ⟨T, t, hT, htype₀, h⟩ := valuesHaveTypes_cons_some h
      rcases k with _ | k
      · obtain rfl : type₀ = type := by simpa using htype
        obtain rfl : v₀ = v := by simpa using hv
        exact ⟨s, T, t, hT, by simpa using htype₀⟩
      · simpa using ih h (by simpa using htype) (by simpa using hv)

/-- The values of a match have the types of the variables. -/
theorem Rule.hasType_of_wellTyped {checker : Checker} {r : Rule} {vals : List Expr}
    {s s' : UInt64} (h : (r.wellTyped checker (vals.map some)).run s = some (true, s'))
    (hlen : vals.length = r.varTypes.length) {k : Nat} {v : Expr} (hv : vals[k]? = some v) :
    ∃ type, r.varTypes[k]? = some type ∧
      checker.HasType v (type.instantiateRev (vals.take k)) := by
  have hk : k < r.varTypes.length := hlen ▸ (List.getElem?_eq_some_iff.mp hv).1
  refine ⟨r.varTypes[k], List.getElem?_eq_getElem hk, ?_⟩
  have h' : (valuesHaveTypes checker (([] : List Expr).map some) r.varTypes
      (vals.map some)).run s = some (true, s') := h
  simpa using hasType_of_valuesHaveTypes h' (List.getElem?_eq_getElem hk) hv

/-! ### Matches -/

/-- What the search promises of a match of the rule in the host. -/
structure Rule.IsMatch (checker : Checker) (r : Rule) (host : Expr) (m : Match) : Prop where
  subterm_eq : host.subterm? m.path = some m.subterm
  closed : m.subterm.hasLooseBVars = false
  match_eq : r.match? m.subterm = some m.subst
  typed : ∃ s s', (r.wellTyped checker m.subst).run s = some (true, s')

namespace Rule

variable {checker : Checker} {r : Rule} {m : Match} {ms : List Match} {s s' : UInt64}

theorem isMatch_of_mem_matchRoot {e : Expr} (he : e.stripMData = e)
    (h : (r.matchRoot checker e).run s = some (ms, s')) (hm : m ∈ ms) :
    r.IsMatch checker e m := by
  unfold matchRoot at h
  by_cases hloose : e.hasLooseBVars
  · rw [if_pos hloose] at h
    obtain ⟨rfl, -⟩ := Supply.run_pure_eq_some.mp h
    cases hm
  · rw [if_neg hloose] at h
    split at h
    · obtain ⟨rfl, -⟩ := Supply.run_pure_eq_some.mp h
      cases hm
    · rename_i subst hsubst
      obtain ⟨b, t, hb, h⟩ := Supply.run_bind_eq_some.mp h
      split at h
      · rename_i hbt
        obtain ⟨rfl, -⟩ := Supply.run_pure_eq_some.mp h
        obtain rfl := List.mem_singleton.mp hm
        exact ⟨by rw [Expr.subterm?_nil, he], by simpa using hloose, hsubst, s, t, hbt ▸ hb⟩
      · obtain ⟨rfl, -⟩ := Supply.run_pure_eq_some.mp h
        cases hm

/-- A match in a part is one in the whole, one step deeper. -/
theorem isMatch_of_mem_inPart {step : Step} {e part : Expr} {limit : Option Nat}
    {search : Option Nat → Supply (List Match)}
    (hstep : ∀ p, e.subterm? (step :: p) = part.subterm? p)
    (hsearch : ∀ {limit ms s s' m}, (search limit).run s = some (ms, s') → m ∈ ms →
      r.IsMatch checker part m)
    (h : (inPart limit step search).run s = some (ms, s')) (hm : m ∈ ms) :
    r.IsMatch checker e m := by
  have hunder : ∀ {limit s s' ms}, (search limit >>= fun found =>
      pure (found.map (Match.under step))).run s = some (ms, s') → m ∈ ms →
        r.IsMatch checker e m := by
    intro limit s s' ms h hm
    obtain ⟨found, t, hfound, h⟩ := Supply.run_bind_eq_some.mp h
    obtain ⟨rfl, -⟩ := Supply.run_pure_eq_some.mp h
    obtain ⟨m', hm', rfl⟩ := List.mem_map.mp hm
    have hm' := hsearch hfound hm'
    exact ⟨(hstep _).trans hm'.subterm_eq, hm'.closed, hm'.match_eq, hm'.typed⟩
  rcases limit with _ | _ | d
  · exact hunder h hm
  · obtain ⟨rfl, -⟩ := Supply.run_pure_eq_some.mp h
    cases hm
  · exact hunder h hm

/-- Every listed match is one. -/
theorem isMatch_of_mem_findMatches {e : Expr} {limit : Option Nat}
    (h : (r.findMatches checker e limit).run s = some (ms, s')) (hm : m ∈ ms) :
    r.IsMatch checker e m := by
  induction e generalizing limit s s' ms m with
  | app f a ihf iha =>
    simp only [findMatches, Supply.run_bind_eq_some, Supply.run_pure_eq_some] at h
    obtain ⟨here, t₁, hhere, inFn, t₂, hinFn, inArg, t₃, hinArg, rfl, -⟩ := h
    simp only [List.mem_append] at hm
    rcases hm with (hm | hm) | hm
    · exact isMatch_of_mem_matchRoot rfl hhere hm
    · exact isMatch_of_mem_inPart (fun _ => by rw [Expr.subterm?]) ihf hinFn hm
    · exact isMatch_of_mem_inPart (fun _ => by rw [Expr.subterm?]) iha hinArg hm
  | lam i t b iht ihb | pi i t b iht ihb =>
    simp only [findMatches, Supply.run_bind_eq_some, Supply.run_pure_eq_some] at h
    obtain ⟨here, t₁, hhere, inType, t₂, hinType, inBody, t₃, hinBody, rfl, -⟩ := h
    simp only [List.mem_append] at hm
    rcases hm with (hm | hm) | hm
    · exact isMatch_of_mem_matchRoot rfl hhere hm
    · exact isMatch_of_mem_inPart (fun _ => by rw [Expr.subterm?]) iht hinType hm
    · exact isMatch_of_mem_inPart (fun _ => by rw [Expr.subterm?]) ihb hinBody hm
  | letE t v b iht ihv ihb =>
    simp only [findMatches, Supply.run_bind_eq_some, Supply.run_pure_eq_some] at h
    obtain ⟨here, t₁, hhere, inType, t₂, hinType, inValue, t₃, hinValue, inBody, t₄, hinBody,
      rfl, -⟩ := h
    simp only [List.mem_append] at hm
    rcases hm with ((hm | hm) | hm) | hm
    · exact isMatch_of_mem_matchRoot rfl hhere hm
    · exact isMatch_of_mem_inPart (fun _ => by rw [Expr.subterm?]) iht hinType hm
    · exact isMatch_of_mem_inPart (fun _ => by rw [Expr.subterm?]) ihv hinValue hm
    · exact isMatch_of_mem_inPart (fun _ => by rw [Expr.subterm?]) ihb hinBody hm
  | mdata d e ih =>
    have hm' := ih (by simpa only [findMatches] using h) hm
    exact ⟨by rw [Expr.subterm?_mdata, hm'.subterm_eq], hm'.closed, hm'.match_eq, hm'.typed⟩
  | _ => exact isMatch_of_mem_matchRoot rfl (by simpa only [findMatches] using h) hm

end Rule

/-- Every listed match of several rules is one of the rule at its place. -/
theorem isMatch_of_mem_findAllFrom {checker : Checker} {limit : Option Nat} {host : Expr}
    {n : Nat} {rules : List Rule} {found : List (Nat × Match)} {s s' : UInt64}
    (h : (findAllFrom checker limit host n rules).run s = some (found, s')) {i : Nat} {m : Match}
    (hm : (i, m) ∈ found) :
    ∃ r, n ≤ i ∧ rules[i - n]? = some r ∧ r.IsMatch checker host m := by
  induction rules generalizing n found s s' with
  | nil =>
    obtain ⟨rfl, -⟩ := Supply.run_pure_eq_some.mp h
    cases hm
  | cons r rules ih =>
    simp only [findAllFrom, Supply.run_bind_eq_some, Supply.run_pure_eq_some] at h
    obtain ⟨here, t, hhere, rest, t', hrest, rfl, -⟩ := h
    rcases List.mem_append.mp hm with hm | hm
    · obtain ⟨m', hm', heq⟩ := List.mem_map.mp hm
      obtain ⟨rfl, rfl⟩ := Prod.mk.inj heq
      exact ⟨r, Nat.le_refl n, by simp, r.isMatch_of_mem_findMatches hhere hm'⟩
    · obtain ⟨r', hle, hr', hmatch⟩ := ih hrest hm
      refine ⟨r', Nat.le_of_succ_le hle, ?_, hmatch⟩
      rw [show i - n = i - (n + 1) + 1 by omega, List.getElem?_cons_succ, hr']

theorem isMatch_of_mem_findAll {checker : Checker} {limit : Option Nat} {host : Expr}
    {rules : List Rule} {found : List (Nat × Match)} {s s' : UInt64}
    (h : (findAll checker limit rules host).run s = some (found, s')) {i : Nat} {m : Match}
    (hm : (i, m) ∈ found) : ∃ r, rules[i]? = some r ∧ r.IsMatch checker host m := by
  obtain ⟨r, -, hr, hmatch⟩ := isMatch_of_mem_findAllFrom h hm
  exact ⟨r, hr, hmatch⟩

end Pinpoint
