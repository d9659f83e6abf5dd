/-
When the store accepts the equation of an occurrence that was found.

The left side of the equation is the statement with the pattern, at the values
of the match, put back at the position.  Two things can make it another term
than the statement that the store holds.  The pattern is matched up to the
simplification of all universes, while the store compares the universe
arguments of constants as they are written.  And the way there and back
through a binder can disturb what is beside the position, which
`Scope.keepsContext` excludes.

* `lhs_skeleton_eq_iff` — the left side is the statement, up to metadata,
  exactly if neither happens;
* `found_occurrence_accepted_iff` — exactly then the store does not object
  that the proof rewrites another statement;
* `found_occurrence_rejected` — it does object to a rule about `K.{max 1 0}`
  where the statement is about `K.{1}`.
-/
import Pinpoint.Prelude
import Pinpoint.Proofs.Atomicity
import Pinpoint.Proofs.Selection

namespace Pinpoint

/-- Whether an objection of the store is that the equation is about another
statement. -/
def ReplacementError.isOtherStatement : ReplacementError → Bool
  | .otherTarget .. => true
  | .otherHypothesis .. => true
  | _ => false

/-- Whether a rewrite at the path keeps everything beside it: the largest
index occurs nowhere beside the path, and around a side everything is closed
and the statement is the one that it was read from. -/
def Scope.keepsContext (scope : Scope) (target : Expr) (path : Path) : Bool :=
  scope.host.besideBVars (fun _ i => i ≠ maxIndex) 0 path &&
    match scope.side with
    | none => true
    | some (side, s) => s.keeps target side

/-! ### The pattern at the values of a match -/

section
variable {checker : Checker} {r : Rule} {host : Expr} {m : Match}

/-- The pattern at the values of a match has the canonical form of what was
matched. -/
theorem Rule.IsMatch.canonical_eq (h : r.IsMatch checker host m)
    (hvals : m.subst = m.values.map some) :
    (r.pattern.instantiateRev m.values).canonical = m.subterm.canonical := by
  have hmatch := h.match_eq
  rw [hvals] at hmatch
  exact (Rule.match?_spec hmatch).2.2

/-- No variable is loose in the pattern at the values of a match. -/
theorem Rule.IsMatch.hasLooseBVars_eq_false (h : r.IsMatch checker host m)
    (hvals : m.subst = m.values.map some) :
    (r.pattern.instantiateRev m.values).hasLooseBVars = false := by
  rw [Expr.hasLooseBVars_of_canonical_eq (h.canonical_eq hvals)]
  exact h.closed

/-- The pattern at the values of a match is no bound variable: only a variable
of the rule matches one, and its value would have no type. -/
theorem Rule.IsMatch.skeleton_ne_bvar (h : r.IsMatch checker host m)
    (hvals : m.subst = m.values.map some) (i : UInt32) :
    (r.pattern.instantiateRev m.values).skeleton ≠ .bvar i := by
  intro hi
  have hmatch := h.match_eq
  have hcanon := h.canonical_eq hvals
  rw [Expr.canonical, hi] at hcanon
  obtain ⟨j, hj⟩ : ∃ j, m.subterm.stripMData = .bvar j := by
    rw [← Expr.canonical_stripMData] at hcanon
    have hne := Expr.stripMData_ne_mdata m.subterm
    generalize m.subterm.stripMData = e at hcanon hne
    cases e <;> simp [Expr.canonical, Expr.skeleton, Expr.simplifyConsts] at hcanon hne
    exact ⟨_, rfl⟩
  obtain ⟨v, hv, hvj⟩ := value_of_matchAt?_bvar hmatch r.closed_unbound hj
  rw [hvals] at hmatch hv
  obtain ⟨v, hvmem, hveq⟩ := List.mem_map.mp hv
  obtain ⟨k, hk⟩ := List.mem_iff_getElem?.mp hvmem
  obtain ⟨s, s', htyped⟩ := h.typed
  rw [hvals] at htyped
  obtain ⟨type, -, htype⟩ := Rule.hasType_of_wellTyped htyped (Rule.match?_spec hmatch).1 hk
  obtain rfl := Option.some.inj hveq
  exact htype.skeleton_ne_bvar j hvj

end

/-! ### The left side -/

namespace Scope

variable {env : Environment} {checker : Checker} {scope : Scope} {r : Rule} {m : Match}
  {eq eq' : Equation}

/-- The left side of an evaluated match is what was searched exactly if the
pattern is what was matched and everything beside it is kept. -/
theorem evaluate_lhs_skeleton_eq_iff (h : r.IsMatch checker scope.host m)
    (heq : scope.evaluate env r m = .ok eq) :
    eq.lhs.skeleton = scope.host.skeleton ↔
      (r.pattern.instantiateRev m.values).skeleton = m.subterm.skeleton ∧
        scope.host.besideBVars (fun _ i => i ≠ maxIndex) 0 m.path := by
  obtain ⟨hvals, heq⟩ := evaluate_eq_ok heq
  by_cases hpath : m.path = []
  · rw [if_pos hpath] at heq
    have hsub : m.subterm = scope.host.stripMData := by
      have := h.subterm_eq
      rw [hpath, Expr.subterm?_nil] at this
      exact (Option.some.inj this).symm
    rw [heq, Rule.equationAt_lhs, hsub, Expr.skeleton_stripMData, hpath, Expr.besideBVars_nil]
    simp
  · rw [if_neg hpath] at heq
    obtain ⟨body, hbody, rfl⟩ := heq
    rw [Equation.under, Rule.equationAt_lhs]
    exact Expr.skeleton_instantiate_abstractAt?_iff (h.hasLooseBVars_eq_false hvals)
      (h.skeleton_ne_bvar hvals) h.subterm_eq hbody

theorem evaluate_lhs_skeleton_ne_bvar (h : r.IsMatch checker scope.host m)
    (heq : scope.evaluate env r m = .ok eq) (i : UInt32) : eq.lhs.skeleton ≠ .bvar i := by
  obtain ⟨hvals, heq⟩ := evaluate_eq_ok heq
  by_cases hpath : m.path = []
  · rw [if_pos hpath] at heq
    rw [heq, Rule.equationAt_lhs]
    exact h.skeleton_ne_bvar hvals i
  · rw [if_neg hpath] at heq
    obtain ⟨body, hbody, rfl⟩ := heq
    exact Expr.skeleton_instantiate_abstractAt?_ne_bvar hpath hbody i

/-- The left side of the equation of a statement is the statement, up to
metadata, exactly if the pattern is what was matched and everything beside it
is kept. -/
theorem lhs_skeleton_eq_iff {target : Expr} {side? : Option Side}
    (hselect : select target side? = .ok scope) (h : r.IsMatch checker scope.host m)
    (heq : scope.evaluate env r m = .ok eq) (heq' : scope.justify env eq = .ok eq') :
    eq'.lhs.skeleton = target.skeleton ↔
      (r.pattern.instantiateRev m.values).skeleton = m.subterm.skeleton ∧
        scope.keepsContext target m.path := by
  have hlhs := evaluate_lhs_skeleton_eq_iff h heq
  have hbvar := evaluate_lhs_skeleton_ne_bvar h heq
  have heq' := justify_eq_ok heq'
  cases side? with
  | none =>
    have hwhole : scope = whole target := select_eq_ok hselect
    subst hwhole
    have heq' : eq' = eq := heq'
    simpa [heq', keepsContext, whole] using hlhs
  | some side =>
    obtain ⟨s, hs, rfl⟩ := select_eq_ok hselect
    simp only [side_ofSide] at heq'
    rw [host_ofSide] at hlhs
    rw [heq', Equation.under, Statement.instantiate_withSide,
      Statement.skeleton_withSide_iff hs hbvar, hlhs, keepsContext, side_ofSide, host_ofSide,
      Bool.and_eq_true, and_assoc]

end Scope

/-! ### The store -/

namespace ProofState

variable {fuel : Nat} {st : ProofState} {sel : Selection} {site : Site} {target : Expr}
  {scope : Scope} {r : Rule} {m : Match} {eq₀ eq : Equation}

/-- The store objects that an equation is about another statement exactly if
its left side is not the statement at the site. -/
theorem replace_rejects_iff (htarget : (st.statementAt site).run = some (.ok target)) :
    (∃ e, (st.replace site eq).run = some (.error (.replacement e)) ∧ e.isOtherStatement) ↔
      eq.lhs.eqModMData target = false := by
  obtain ⟨g, hg, htarget⟩ := QueryM.run_bind_eq_ok.mp htarget
  cases site with
  | goal =>
    show (∃ e, (st.replaceTarget eq).run = _ ∧ _) ↔ _
    rw [replaceTarget_eq]
    rw [QueryM.run_bind_of_ok hg, QueryM.run_bind_of_ok htarget]
    cases hlhs : eq.lhs.eqModMData target with
    | false => simp [ReplacementError.isOtherStatement]
    | true =>
      cases eq.castGoal st.env st.metas.nextId.toExpr <;>
        simp [ReplacementError.isOtherStatement]
  | hyp x =>
    obtain ⟨h, hh, htarget⟩ := QueryM.run_bind_eq_ok.mp htarget
    show (∃ e, (st.replaceHyp x eq).run = _ ∧ _) ↔ _
    rw [replaceHyp_eq]
    rw [QueryM.run_bind_of_ok hg, QueryM.run_bind_of_ok hh, QueryM.run_bind_of_ok htarget]
    cases hlhs : eq.lhs.eqModMData target with
    | false => simp [ReplacementError.isOtherStatement]
    | true =>
      -- what is left to object to is that the hypothesis is in use, or the cast
      by_cases hused : (g.hyps.eraseIdx (g.hyps.findIdx fun h => h.fvar = x)).any (mentions x) ||
          g.target.hasFVar x
      · simp [hused, ReplacementError.isOtherStatement]
      · cases eq.castHyp st.env (.fvar x) <;> simp [hused, ReplacementError.isOtherStatement]

/-- An occurrence that was found and evaluates is accepted exactly if its
instance of the pattern spells the universe arguments of all constants like
the term at the position, and everything beside the position is kept; exactly
otherwise a rewrite fails because the equation is about another statement. -/
theorem found_occurrence_accepted_iff (hchoice : st.Choice fuel sel site target scope r m)
    (heval : scope.evaluate st.env r m = .ok eq₀)
    (hjust : scope.justify st.env eq₀ = .ok eq) :
    (eq.lhs.eqModMData target = true ↔
      (r.pattern.instantiateRev m.values).constLevels = m.subterm.constLevels ∧
        scope.keepsContext target m.path = true) ∧
    ((∃ e, (st.rewriteAt fuel sel site).run = some (.error (.replacement e)) ∧
        e.isOtherStatement = true) ↔
      ¬ ((r.pattern.instantiateRev m.values).constLevels = m.subterm.constLevels ∧
        scope.keepsContext target m.path = true)) := by
  obtain ⟨checker, -, hmatch⟩ := hchoice.isMatch
  have haccept : eq.lhs.eqModMData target = true ↔
      (r.pattern.instantiateRev m.values).constLevels = m.subterm.constLevels ∧
        scope.keepsContext target m.path = true := by
    rw [Expr.eqModMData_iff, Scope.lhs_skeleton_eq_iff hchoice.scope_eq hmatch heval hjust,
      Expr.skeleton_eq_iff_constLevels_eq (hmatch.canonical_eq (Scope.evaluate_eq_ok heval).1)]
  refine ⟨haccept, ?_⟩
  have hselected : (st.selectedEquation fuel sel site).run = some (.ok eq) :=
    selectedEquation_eq_ok_iff.mpr ⟨target, scope, r, m, eq₀, hchoice, heval, hjust⟩
  rw [← haccept, Bool.not_eq_true, rewriteAt_eq, QueryM.run_bind_of_ok hselected]
  exact replace_rejects_iff hchoice.target_eq

end ProofState

/-! ### One constant in two spellings -/

namespace Spelling

/-- The natural numbers. -/
def nat : Expr := .const Vocabulary.nat []

/-- A constant of the natural numbers with a universe parameter. -/
def k (l : Level) : Expr := .const (.simple "K") [l]

/-- A constant of the natural numbers without one. -/
def x : Expr := .const (.simple "x") []

/-- The statement about the constant at universe `1`. -/
def target : Expr := .app (.const (.simple "P") []) (k .one)

/-- The prelude with the constants above. -/
def env : Environment := ⟨Prelude.constants ++
  [⟨.simple "K", [.simple "u"], nat, none⟩, ⟨.simple "x", [], nat, none⟩,
    ⟨.simple "P", [], .arrow nat .prop, none⟩]⟩

/-- A proof of the statement from `h : K.{l} = x`. -/
def state (l : Level) : ProofState :=
  .start env target [⟨⟨0⟩, "h", .mkEq .one nat (k l) x, none⟩]

/-- The hypothesis as a rule. -/
def rule (l : Level) : Rule := ⟨.fvar ⟨0⟩, [], ⟨.eq, .one, nat, k l, x⟩, false, "h"⟩

/-- The first occurrence. -/
def selection (l : Level) : Selection := ⟨none, 0, [rule l], none⟩

/-- The argument of the statement. -/
def occurrence : Match := ⟨[.appArg], k .one, []⟩

/-- The occurrence is found if the rule spells the universe as `1`, and if it
spells it as `max 1 0`. -/
theorem choice {l : Level} (h : l = .one ∨ l = .max .one .zero) :
    (state l).Choice 8 (selection l) .goal target (.whole target) (rule l) occurrence := by
  rcases h with rfl | rfl
  · exact ⟨by rfl, by rfl, _, _, 0, by rfl, by rfl, by rfl, by rfl⟩
  · exact ⟨by rfl, by rfl, _, _, 0, by rfl, by rfl, by rfl, by rfl⟩

/-- The equation of the occurrence. -/
def equation (l : Level) : Equation :=
  ((rule l).equationAt []).under nat (.app (.const (.simple "P") []) (.bvar 0)) .prop .one

theorem evaluate (l : Level) :
    (Scope.whole target).evaluate env (rule l) occurrence = .ok (equation l) := by
  rfl

end Spelling

open Spelling in
/-- A rule that spells the universe like the statement is accepted. -/
theorem found_occurrence_accepted :
    (equation .one).lhs.eqModMData target = true ∧
      ¬ ∃ e, ((state .one).rewriteAt 8 (selection .one) .goal).run =
        some (.error (.replacement e)) ∧ e.isOtherStatement = true := by
  have h := ProofState.found_occurrence_accepted_iff (choice (.inl rfl)) (evaluate .one) rfl
  have hkept : ((rule .one).pattern.instantiateRev occurrence.values).constLevels =
      occurrence.subterm.constLevels ∧
        (Scope.whole target).keepsContext target occurrence.path = true := by
    decide
  exact ⟨h.1.mpr hkept, fun hreject => h.2.mp hreject hkept⟩

open Spelling in
/-- Not every occurrence that is found and evaluates is accepted: a rule about
`K.{max 1 0}` matches `K.{1}`, but the store takes them for different
statements. -/
theorem found_occurrence_rejected :
    ¬ ∀ (fuel : Nat) (st : ProofState) (sel : Selection) (site : Site) (target : Expr)
      (scope : Scope) (r : Rule) (m : Match) (eq₀ eq : Equation),
      st.Choice fuel sel site target scope r m → scope.evaluate st.env r m = .ok eq₀ →
        scope.justify st.env eq₀ = .ok eq → eq.lhs.eqModMData target = true := by
  intro h
  have hlhs : (equation (.max .one .zero)).lhs.eqModMData target = false := by decide
  have := h 8 _ _ _ _ _ _ _ _ _ (choice (.inr rfl)) (evaluate _) rfl
  rw [hlhs] at this
  cases this

end Pinpoint
