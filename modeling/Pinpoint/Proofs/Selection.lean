/-
The occurrence that a selection means.

`Choice` is what a rewrite at one site works with once all its questions are
answered: the statement there, the part of it that is searched, and the match
with its rule.

* `Selection.equation` — the equation of the selected match, once it is known
  what was found (`selectedEquation_run`);
* `selectedEquation_eq_ok_iff` — a rewrite has an equation exactly if there
  is a choice, the match evaluates, and the result can be lifted to the
  statement;
* `Scope.evaluate_eq_ok`, `Scope.justify_eq_ok` — what the equation is.
-/
import Pinpoint.Proofs.Equations
import Pinpoint.Proofs.Queries
import Pinpoint.Proofs.Search
import Pinpoint.Proofs.Statements

namespace Pinpoint

/-- The values of a match; `Prop` stands for one that is missing. -/
def Match.values (m : Match) : List Expr := m.subst.map fun v => v.getD .prop

@[simp] theorem Match.values_of_subst_eq {m : Match} {vals : List Expr}
    (h : m.subst = vals.map some) : m.values = vals := by
  simp [values, h, Function.comp_def]

namespace Scope

/-- From an equation between what is searched to one between statements. -/
def justify (env : Environment) (scope : Scope) (eq : Equation) : Except ProofError Equation :=
  match scope.side with
  | none => .ok eq
  | some (side, s) => lift env s eq side

variable {env : Environment} {scope : Scope} {r : Rule} {m : Match} {eq eq' : Equation}

/-- A match evaluates only if all variables have values.  At the root it is
the equation that the rule states of them, and elsewhere that equation under
the rest of the term. -/
theorem evaluate_eq_ok (h : scope.evaluate env r m = .ok eq) :
    m.subst = m.values.map some ∧
      if m.path = [] then eq = r.equationAt m.values
      else ∃ body, scope.host.abstractAt? m.path = some body ∧
        eq = (r.equationAt m.values).under (r.equationAt m.values).carrier body scope.type
          scope.level := by
  unfold evaluate at h
  cases hinst : r.instantiate env m.subst with
  | error e => simp [hinst, bind, Except.bind] at h
  | ok eq₀ =>
    obtain ⟨vals, hvals, rfl⟩ := Rule.instantiate_eq_ok hinst
    rw [Match.values_of_subst_eq hvals]
    refine ⟨hvals, ?_⟩
    simp only [hinst, bind, Except.bind] at h
    by_cases hpath : m.path = []
    · rw [if_pos hpath]
      rw [hpath] at h
      exact (Except.ok.inj h).symm
    · rw [if_neg hpath]
      rw [if_neg (by simpa using hpath)] at h
      cases hbody : scope.host.abstractAt? m.path with
      | none => simp [hbody] at h
      | some body => exact ⟨body, rfl, Equation.congruence_lam_eq_ok (by simpa [hbody] using h)⟩

theorem lift_eq_ok {s : Statement} {side : Side} (h : lift env s eq side = .ok eq') :
    eq' = eq.under s.carrier (s.withSide (.bvar 0) side) .prop .one := by
  cases side <;> exact Equation.congruence_lam_eq_ok h

/-- The equation between statements: the one between what is searched, or
that under the statement of which a side is searched. -/
theorem justify_eq_ok (h : scope.justify env eq = .ok eq') :
    match scope.side with
    | none => eq' = eq
    | some (side, s) => eq' = eq.under s.carrier (s.withSide (.bvar 0) side) .prop .one := by
  unfold justify at h
  split at h
  · exact (Except.ok.inj h).symm
  · exact lift_eq_ok h

/-! ### Sides -/

section
variable (s : Statement) (side : Side)

@[simp] theorem side_ofSide : (ofSide s side).side = some (side, s) := by cases side <;> rfl

@[simp] theorem host_ofSide : (ofSide s side).host = s.side side := by cases side <;> rfl

@[simp] theorem type_ofSide : (ofSide s side).type = s.carrier := by cases side <;> rfl

@[simp] theorem level_ofSide : (ofSide s side).level = s.level := by cases side <;> rfl

end

/-- What is searched is the whole statement, or a side of what it was read
as. -/
theorem select_eq_ok {target : Expr} {side? : Option Side}
    (h : select target side? = .ok scope) :
    match side? with
    | none => scope = whole target
    | some side => ∃ s, target.statement? = some s ∧ scope = ofSide s side := by
  cases side? with
  | none => exact (Except.ok.inj h).symm
  | some side =>
    unfold select at h
    cases hs : target.statement? with
    | none => simp [hs] at h
    | some s =>
      simp only [hs] at h
      exact ⟨s, rfl, (Except.ok.inj h).symm⟩

end Scope

namespace Selection

/-- The equation of the selected match, or the reason why there is none. -/
def equation (env : Environment) (sel : Selection) (scope : Scope) (found : List (Nat × Match)) :
    Except RewriteError Equation :=
  match found[sel.index]? with
  | none => .error (.noMatch sel.index found.length)
  | some (i, m) =>
    match sel.rules[i]? with
    | none => .error (.noMatch sel.index found.length)
    | some r =>
      match scope.evaluate env r m with
      | .error e => .error (.evaluation sel.index e)
      | .ok eq =>
        match scope.side with
        | none => .ok eq
        | some (side, _) => (scope.justify env eq).mapError (.congruence side)

theorem equation_eq_ok {env : Environment} {sel : Selection} {scope : Scope}
    {found : List (Nat × Match)} {eq : Equation} :
    sel.equation env scope found = .ok eq ↔
      ∃ i m r eq₀, found[sel.index]? = some (i, m) ∧ sel.rules[i]? = some r ∧
        scope.evaluate env r m = .ok eq₀ ∧ scope.justify env eq₀ = .ok eq := by
  unfold equation
  constructor
  · intro h
    split at h
    · cases h
    · rename_i i m hi
      split at h
      · cases h
      · rename_i r hr
        split at h
        · cases h
        · rename_i eq₀ heq₀
          refine ⟨i, m, r, eq₀, hi, hr, heq₀, ?_⟩
          split at h
          · rename_i hside
            simp only [Scope.justify, hside]
            rw [Except.ok.inj h]
          · cases hjust : scope.justify env eq₀ with
            | error e => simp [hjust] at h
            | ok eq' =>
              rw [hjust] at h
              rw [Except.ok.inj h]
  · rintro ⟨i, m, r, eq₀, hi, hr, heval, hjust⟩
    simp only [hi, hr, heval, hjust]
    split
    · rename_i hside
      simp only [Scope.justify, hside] at hjust
      rw [Except.ok.inj hjust]
    · rfl

end Selection

namespace ProofState

/-- What a rewrite at one site works with: the statement there, the part that
is searched, and the match that is selected, with its rule. -/
structure Choice (fuel : Nat) (st : ProofState) (sel : Selection) (site : Site) (target : Expr)
    (scope : Scope) (r : Rule) (m : Match) : Prop where
  target_eq : (st.statementAt site).run = some (.ok target)
  scope_eq : Scope.select target sel.side = .ok scope
  found : ∃ checker found i, (st.mainChecker fuel).run = some (.ok checker) ∧
    (findAll checker sel.maxDepth sel.rules scope.host).runFresh = some found ∧
    found[sel.index]? = some (i, m) ∧ sel.rules[i]? = some r

variable {fuel : Nat} {st : ProofState} {sel : Selection} {site : Site} {target : Expr}
  {scope : Scope} {r : Rule} {m : Match}

/-- The match of a choice is one of its rule. -/
theorem Choice.isMatch (h : st.Choice fuel sel site target scope r m) :
    ∃ checker, (st.mainChecker fuel).run = some (.ok checker) ∧
      r.IsMatch checker scope.host m := by
  obtain ⟨checker, found, i, hchecker, hfound, hi, hr⟩ := h.found
  obtain ⟨t, hfound⟩ := Supply.runFresh_eq_some.mp hfound
  obtain ⟨r', hr', hmatch⟩ := isMatch_of_mem_findAll hfound (List.mem_of_getElem? hi)
  obtain rfl : r = r' := Option.some.inj (hr.symm.trans hr')
  exact ⟨checker, hchecker, hmatch⟩

/-- Once the questions of a rewrite are answered, its equation depends on
nothing else. -/
theorem selectedEquation_run {checker : Checker} {found : List (Nat × Match)}
    (htarget : (st.statementAt site).run = some (.ok target))
    (hscope : Scope.select target sel.side = .ok scope)
    (hchecker : (st.mainChecker fuel).run = some (.ok checker))
    (hfound : (findAll checker sel.maxDepth sel.rules scope.host).runFresh = some found) :
    (st.selectedEquation fuel sel site).run = some (sel.equation st.env scope found) := by
  unfold selectedEquation Selection.equation Scope.justify
  rw [QueryM.run_bind_of_ok htarget, hscope, QueryM.run_bind_of_ok (QueryM.run_ofExcept _),
    QueryM.run_bind_of_ok hchecker, QueryM.run_bind_of_ok (QueryM.run_lift_eq_ok.mpr hfound)]
  cases found[sel.index]? with
  | none => exact Eq.refl _
  | some p =>
    dsimp only
    cases sel.rules[p.1]? with
    | none => exact Eq.refl _
    | some r =>
      dsimp only
      cases scope.evaluate st.env r p.2 with
      | error e => exact Eq.refl _
      | ok eq =>
        dsimp only
        cases scope.side with
        | none => exact Eq.refl _
        | some q =>
          dsimp only
          cases Scope.lift st.env q.2 eq q.1 <;> exact Eq.refl _

/-- A rewrite has an equation exactly if something is chosen, the match
evaluates, and the result can be lifted to the statement. -/
theorem selectedEquation_eq_ok_iff {eq : Equation} :
    (st.selectedEquation fuel sel site).run = some (.ok eq) ↔
      ∃ target scope r m eq₀, st.Choice fuel sel site target scope r m ∧
        scope.evaluate st.env r m = .ok eq₀ ∧ scope.justify st.env eq₀ = .ok eq := by
  constructor
  · intro h
    have h' := h
    unfold selectedEquation at h'
    simp only [QueryM.run_bind_eq_ok, QueryM.run_ofExcept_eq_ok, QueryM.run_lift_eq_ok] at h'
    obtain ⟨target, htarget, scope, hscope, checker, hchecker, found, hfound, -⟩ := h'
    rw [selectedEquation_run htarget hscope hchecker hfound, Option.some.injEq] at h
    obtain ⟨i, m, r, eq₀, hi, hr, heval, hjust⟩ := Selection.equation_eq_ok.mp h
    exact ⟨target, scope, r, m, eq₀,
      ⟨htarget, hscope, checker, found, i, hchecker, hfound, hi, hr⟩, heval, hjust⟩
  · rintro ⟨target, scope, r, m, eq₀, hchoice, heval, hjust⟩
    obtain ⟨checker, found, i, hchecker, hfound, hi, hr⟩ := hchoice.found
    rw [selectedEquation_run hchoice.target_eq hchoice.scope_eq hchecker hfound, Option.some.injEq]
    exact Selection.equation_eq_ok.mpr ⟨i, m, r, eq₀, hi, hr, heval, hjust⟩

end ProofState

end Pinpoint
