/-
What a rewrite puts in the place of a statement.

Where the store accepts the equation of an occurrence, the way through the new
binder disturbs nothing.  So the right side of the equation is the statement
with the other side of the rule, at the values of the match, at the position,
and with everything else as it was.

* `Scope.evaluate_rhs` — the right side of an evaluated match;
* `Scope.justify_rhs` — the right side of the equation of the statement;
* `ProofState.storedAt?_replace` — what the store holds after a rewrite.
-/
import Pinpoint.Proofs.Acceptance
import Pinpoint.Proofs.WellTyped

namespace Pinpoint

/-- The statement with what is searched replaced. -/
def Scope.fill (scope : Scope) (e : Expr) : Expr :=
  match scope.side with
  | none => e
  | some (side, s) => s.withSide e side

namespace Expr

/-- Replacing the root leaves the metadata around it. -/
theorem replaceAt?_nil (e new : Expr) :
    ∃ part, e.replaceAt? [] new = some part ∧ part.eraseMData = new.eraseMData := by
  unfold replaceAt?
  induction e with
  | mdata m e ih =>
    obtain ⟨part, hpart, heq⟩ := ih
    exact ⟨.mdata m part, by rw [replaceWith?, hpart]; rfl, heq⟩
  | _ => exact ⟨new, rfl, rfl⟩

theorem eraseMData_withSide {s : Statement} {e e' : Expr} (h : e.eraseMData = e'.eraseMData)
    (side : Side) : (s.withSide e side).eraseMData = (s.withSide e' side).eraseMData := by
  cases side <;> simp only [Statement.withSide, Statement.rebuild] <;> cases s.relation <;>
    simp [mkEq, mkIff, eraseMData, h]

end Expr

theorem Scope.eraseMData_fill (scope : Scope) {e e' : Expr} (h : e.eraseMData = e'.eraseMData) :
    (scope.fill e).eraseMData = (scope.fill e').eraseMData := by
  unfold fill
  split
  · exact h
  · exact Expr.eraseMData_withSide h _

namespace Scope

variable {env : Environment} {checker : Checker} {scope : Scope} {r : Rule} {m : Match}
  {eq eq' : Equation} {target : Expr} {side? : Option Side}

/-- The right side of an evaluated match is, up to metadata at its root, what
was searched with the other side of the rule at the position. -/
theorem evaluate_rhs (heq : scope.evaluate env r m = .ok eq)
    (hnew : (r.replacement.instantiateRev m.values).hasLooseBVars = false)
    (hbeside : scope.host.besideBVars (fun _ i => i ≠ maxIndex) 0 m.path) :
    ∃ part, scope.host.replaceAt? m.path (r.replacement.instantiateRev m.values) = some part ∧
      eq.rhs.eraseMData = part.eraseMData := by
  obtain ⟨-, heq⟩ := evaluate_eq_ok heq
  by_cases hpath : m.path = []
  · rw [if_pos hpath] at heq
    obtain ⟨part, hpart, herase⟩ :=
      scope.host.replaceAt?_nil (r.replacement.instantiateRev m.values)
    rw [hpath, heq, Rule.equationAt_rhs]
    exact ⟨part, hpart, herase.symm⟩
  · rw [if_neg hpath] at heq
    obtain ⟨body, hbody, rfl⟩ := heq
    refine ⟨body.instantiate (r.replacement.instantiateRev m.values), ?_, ?_⟩
    · rw [← Expr.map_instantiate_abstractAt? hnew hbeside, hbody]
      rfl
    · rw [Equation.under, Rule.equationAt_rhs]

/-- The right side of the equation of a statement is the statement with the
right side of the searched part in its place. -/
theorem justify_rhs (hselect : select target side? = .ok scope)
    (heq : scope.justify env eq = .ok eq')
    (hkeeps : scope.keepsContext target m.path = true) : eq'.rhs = scope.fill eq.rhs := by
  have heq := justify_eq_ok heq
  cases side? with
  | none =>
    have hwhole : scope = whole target := select_eq_ok hselect
    subst hwhole
    have heq : eq' = eq := heq
    rw [heq]
    rfl
  | some side =>
    obtain ⟨s, hs, rfl⟩ := select_eq_ok hselect
    simp only [keepsContext, side_ofSide, Statement.keeps, Bool.and_eq_true] at hkeeps
    simp only [side_ofSide] at heq
    rw [heq, fill, side_ofSide]
    show (s.withSide (.bvar 0) side).instantiate eq.rhs = s.withSide eq.rhs side
    rw [Statement.instantiate_withSide, Statement.instantiate_eq_self hkeeps.2.1.1 hkeeps.2.1.2]

/-- A side that is searched is one of the statement. -/
theorem statement?_of_side (hselect : select target side? = .ok scope) {side : Side}
    {s : Statement} (hside : scope.side = some (side, s)) : target.statement? = some s := by
  cases side? with
  | none =>
    have hwhole : scope = whole target := select_eq_ok hselect
    rw [hwhole] at hside
    cases hside
  | some side' =>
    obtain ⟨s', hs', rfl⟩ := select_eq_ok hselect
    cases side' <;> cases hside <;> exact hs'

/-- The statement that was read with its own part is, up to metadata, the
statement itself, if the store accepts the equation. -/
theorem fill_host (hselect : select target side? = .ok scope)
    (hkeeps : scope.keepsContext target m.path = true) :
    (scope.fill scope.host).eraseMData = target.eraseMData := by
  cases side? with
  | none =>
    have hwhole : scope = whole target := select_eq_ok hselect
    rw [hwhole]
    rfl
  | some side =>
    obtain ⟨s, hs, rfl⟩ := select_eq_ok hselect
    have hfill : (ofSide s side).fill (ofSide s side).host = s.toExpr := by cases side <;> rfl
    simp only [keepsContext, side_ofSide, Bool.and_eq_true] at hkeeps
    have hskel := hkeeps.2
    rw [Statement.keeps, Bool.and_eq_true, Expr.eqModMData_iff, ← Expr.skeleton_stripMData target]
      at hskel
    rw [hfill, ← Expr.eraseMData_stripMData target]
    rcases Expr.statement?_eq_some hs with ⟨-, ht⟩ | ⟨hr, -, -, ls, ht⟩
    · rw [ht]
    · rw [ht, Statement.toExpr, Statement.rebuild, hr] at hskel ⊢
      obtain rfl : [] = ls := by
        have h := hskel.2
        simp only [Expr.mkIff, Expr.mkApp_cons, Expr.mkApp_nil, Expr.skeleton, Expr.app.injEq,
          Expr.const.injEq] at h
        exact h.1.1.2
      rfl

end Scope

/-! ### What the store holds afterwards -/

namespace ProofState

variable {st st' : ProofState} {loc : Location} {site : Site} {eq : Equation}

/-- The statement at a location, as the current goal holds it. -/
def storedAt? (st : ProofState) (loc : Location) : Option Expr :=
  st.currentGoal?.bind fun g =>
    match loc with
    | .goal => some g.target
    | .hyp n => (g.findHyp? n).map Hypothesis.type
    | .everywhere => none

/-- A target that was replaced was the left side of the equation up to
metadata, and is now the right side. -/
theorem replaceTarget_eq_ok (h : (st.replaceTarget eq).run = some (.ok st')) :
    ∃ g target proof, st.currentGoal? = some g ∧ st.metas.instantiate? g.target = some target ∧
      eq.lhs.eqModMData target = true ∧
      eq.castGoal st.env st.metas.nextId.toExpr = .ok proof ∧
      st' = { st with
        goals := ⟨st.metas.nextId, eq.rhs, g.hyps⟩ :: st.goals.tail
        metas := (st.metas.push eq.rhs).assign g.metaId proof } := by
  rw [replaceTarget_eq] at h
  obtain ⟨g, hg, h⟩ := QueryM.run_bind_eq_ok.mp h
  obtain ⟨target, htarget, h⟩ := QueryM.run_bind_eq_ok.mp h
  cases hlhs : eq.lhs.eqModMData target with
  | false => simp [hlhs] at h
  | true =>
    cases hcast : eq.castGoal st.env st.metas.nextId.toExpr with
    | error e => simp [hlhs, hcast] at h
    | ok proof =>
      refine ⟨g, target, proof, mainGoal_eq_ok.mp hg, QueryM.run_lift_eq_ok.mp htarget, hlhs,
        Eq.refl _, ?_⟩
      simp only [hlhs, hcast] at h
      exact (QueryM.run_pure_eq_ok.mp h).symm

/-- The left side of an equation is replaced as the target, if the cast can be
built. -/
theorem replaceTarget_of {g : Goal} {target proof : Expr} (hg : st.currentGoal? = some g)
    (htarget : st.metas.instantiate? g.target = some target)
    (hlhs : eq.lhs.eqModMData target = true)
    (hcast : eq.castGoal st.env st.metas.nextId.toExpr = .ok proof) :
    (st.replaceTarget eq).run = some (.ok { st with
      goals := ⟨st.metas.nextId, eq.rhs, g.hyps⟩ :: st.goals.tail
      metas := (st.metas.push eq.rhs).assign g.metaId proof }) := by
  rw [replaceTarget_eq, QueryM.run_bind_of_ok (mainGoal_eq_ok.mpr hg),
    QueryM.run_bind_of_ok (QueryM.run_lift_eq_ok.mpr htarget)]
  simp only [hlhs, hcast]
  exact Eq.refl _

/-- The type of a hypothesis that was replaced was the left side of the
equation up to metadata, and neither the target nor another hypothesis mentions
the old one; the new one has the right side as its type, and the name and the
place of the old one. -/
theorem replaceHyp_eq_ok {x : FVarId} (h : (st.replaceHyp x eq).run = some (.ok st')) :
    ∃ g old type value, st.currentGoal? = some g ∧
      g.hyps.find? (fun h => h.fvar = x) = some old ∧
      st.metas.instantiate? old.type = some type ∧ eq.lhs.eqModMData type = true ∧
      ((∀ h ∈ g.hyps.eraseIdx (g.hyps.findIdx fun h => h.fvar = x), mentions x h = false) ∧
        g.target.hasFVar x = false) ∧
      eq.castHyp st.env (.fvar x) = .ok value ∧
      st' = { st with
        goals := { g with
          hyps := g.hyps.set (g.hyps.findIdx fun h => h.fvar = x) <|
            Hypothesis.mk ⟨st.nextFVar⟩ old.name eq.rhs (some value) } :: st.goals.tail
        nextFVar := st.nextFVar + 1
        hypValues := st.hypValues ++ [(⟨st.nextFVar⟩, value)] } := by
  rw [replaceHyp_eq] at h
  obtain ⟨g, hg, h⟩ := QueryM.run_bind_eq_ok.mp h
  obtain ⟨old, hold, h⟩ := QueryM.run_bind_eq_ok.mp h
  obtain ⟨type, htype, h⟩ := QueryM.run_bind_eq_ok.mp h
  -- Each of the checks has to be passed for the change to be made.
  cases hlhs : eq.lhs.eqModMData type with
  | false => simp [hlhs] at h
  | true =>
    by_cases hused : (g.hyps.eraseIdx (g.hyps.findIdx fun h => h.fvar = x)).any (mentions x) ||
        g.target.hasFVar x
    · simp [hlhs, hused] at h
    · cases hcast : eq.castHyp st.env (.fvar x) with
      | error e => simp [hlhs, hused, hcast] at h
      | ok value =>
        refine ⟨g, old, type, value, mainGoal_eq_ok.mp hg, ?_, QueryM.run_lift_eq_ok.mp htype, hlhs,
          by simpa using hused, Eq.refl _, ?_⟩
        · unfold hypOf at hold
          cases hfind : g.hyps.find? fun h => h.fvar = x with
          | none => simp [hfind] at hold
          | some h' => simpa [hfind] using hold
        · simp only [hlhs, hused, hcast] at h
          exact (QueryM.run_pure_eq_ok.mp h).symm

/-- The left side of an equation is replaced as the type of a hypothesis, if nothing
else mentions the hypothesis and the cast can be built. -/
theorem replaceHyp_of {x : FVarId} {g : Goal} {old : Hypothesis} {type value : Expr}
    (hg : st.currentGoal? = some g) (hold : (hypOf g x).run = some (.ok old))
    (htype : st.metas.instantiate? old.type = some type) (hlhs : eq.lhs.eqModMData type = true)
    (hunused : ((g.hyps.eraseIdx (g.hyps.findIdx fun h => h.fvar = x)).any (mentions x) ||
      g.target.hasFVar x) = false)
    (hcast : eq.castHyp st.env (.fvar x) = .ok value) :
    (st.replaceHyp x eq).run = some (.ok { st with
      goals := { g with
        hyps := g.hyps.set (g.hyps.findIdx fun h => h.fvar = x) <|
          Hypothesis.mk ⟨st.nextFVar⟩ old.name eq.rhs (some value) } :: st.goals.tail
      nextFVar := st.nextFVar + 1
      hypValues := st.hypValues ++ [(⟨st.nextFVar⟩, value)] }) := by
  rw [replaceHyp_eq, QueryM.run_bind_of_ok (mainGoal_eq_ok.mpr hg), QueryM.run_bind_of_ok hold,
    QueryM.run_bind_of_ok (QueryM.run_lift_eq_ok.mpr htype)]
  simp only [hlhs, hunused, hcast]
  exact Eq.refl _

/-- A goal that reflexivity closes is a statement, whose proof it is given. -/
theorem rfl_eq_ok {fuel : Nat} (h : (st.rfl fuel).run = some (.ok st')) :
    ∃ g target s refl, st.currentGoal? = some g ∧ st.metas.instantiate? g.target = some target ∧
      target.statement? = some s ∧ st.env.find? s.relation.reflName = some refl ∧
      st.isDefEq fuel .reducible s.lhs s.rhs = some true ∧
      st' = st.close g (s.reflProof refl) := by
  rw [ProofState.rfl_eq] at h
  cases hg : st.currentGoal? with
  | none =>
    rw [hg] at h
    exact absurd h QueryM.not_run_throw_eq_ok
  | some g =>
    rw [hg] at h
    obtain ⟨target, htarget, h⟩ := QueryM.run_bind_eq_ok.mp h
    cases hs : target.statement? with
    | none =>
      simp only [hs] at h
      exact absurd h QueryM.not_run_throw_eq_ok
    | some s =>
      simp only [hs] at h
      obtain ⟨equal, hequal, h⟩ := QueryM.run_bind_eq_ok.mp h
      cases equal with
      | false => exact absurd h QueryM.not_run_throw_eq_ok
      | true =>
        cases hrefl : st.env.find? s.relation.reflName with
        | none =>
          simp only [hrefl] at h
          exact absurd h QueryM.not_run_throw_eq_ok
        | some refl =>
          simp only [hrefl] at h
          exact ⟨g, target, s, refl, Eq.refl _, QueryM.run_lift_eq_ok.mp htarget, hs, hrefl,
            QueryM.run_lift_eq_ok.mp hequal, (QueryM.run_pure_eq_ok.mp h).symm⟩

/-- No change of a proof state is one of its environment. -/
theorem env_of_replace (h : (st.replace site eq).run = some (.ok st')) : st'.env = st.env := by
  cases site with
  | goal =>
    obtain ⟨-, -, -, -, -, -, -, rfl⟩ := replaceTarget_eq_ok h
    exact Eq.refl _
  | hyp x =>
    obtain ⟨-, -, -, -, -, -, -, -, -, -, rfl⟩ := replaceHyp_eq_ok h
    exact Eq.refl _

/-- The store always answers; where the statement is known, it fails only
because it refuses the new one. -/
theorem replace_answers (eq : Equation) {target : Expr}
    (htarget : (st.statementAt site).run = some (.ok target)) :
    (∃ st', (st.replace site eq).run = some (.ok st')) ∨
      ∃ e, (st.replace site eq).run = some (.error (.replacement e)) := by
  obtain ⟨g, hg, htarget⟩ := QueryM.run_bind_eq_ok.mp htarget
  cases site with
  | goal =>
    show (∃ st', (st.replaceTarget eq).run = _) ∨ ∃ e, (st.replaceTarget eq).run = _
    rw [replaceTarget_eq]
    rw [QueryM.run_bind_of_ok hg, QueryM.run_bind_of_ok htarget]
    cases eq.lhs.eqModMData target with
    | false => exact .inr ⟨_, Eq.refl _⟩
    | true => cases eq.castGoal st.env st.metas.nextId.toExpr <;> simp
  | hyp x =>
    obtain ⟨h, hh, htarget⟩ := QueryM.run_bind_eq_ok.mp htarget
    show (∃ st', (st.replaceHyp x eq).run = _) ∨ ∃ e, (st.replaceHyp x eq).run = _
    rw [replaceHyp_eq]
    rw [QueryM.run_bind_of_ok hg, QueryM.run_bind_of_ok hh, QueryM.run_bind_of_ok htarget]
    cases eq.lhs.eqModMData target with
    | false => exact .inr ⟨_, Eq.refl _⟩
    | true =>
      by_cases hused : (g.hyps.eraseIdx (g.hyps.findIdx fun h => h.fvar = x)).any (mentions x) ||
          g.target.hasFVar x
      · simp [hused]
      · cases eq.castHyp st.env (.fvar x) <;> simp [hused]

/-- The latest hypothesis of a name is before all others of the name, seen from
the end. -/
theorem findHyp?_eq_some {g : Goal} {n : String} {h : Hypothesis} (hh : g.findHyp? n = some h) :
    ∃ before after, g.hyps = before ++ h :: after ∧ h.name = n ∧ ∀ h' ∈ after, h'.name ≠ n := by
  obtain ⟨hn, after, before, hrev, hafter⟩ := List.find?_eq_some_iff_append.mp hh
  refine ⟨before.reverse, after.reverse, ?_, by simpa using hn, fun h' hh' => ?_⟩
  · rw [← List.reverse_reverse g.hyps, hrev]
    simp
  · simpa using hafter h' (List.mem_reverse.mp hh')

/-- What the store holds at the location of a statement that was replaced is
the right side of the equation. -/
theorem storedAt?_replace (hloc : (st.resolve loc).run = some (.ok site))
    (hnodup : ∀ g, st.currentGoal? = some g → (g.hyps.map Hypothesis.fvar).Nodup)
    (h : (st.replace site eq).run = some (.ok st')) : st'.storedAt? loc = some eq.rhs := by
  obtain ⟨g, hg, hsite⟩ := QueryM.run_bind_eq_ok.mp hloc
  have hg := mainGoal_eq_ok.mp hg
  cases loc with
  | everywhere => exact absurd hsite QueryM.not_run_throw_eq_ok
  | goal =>
    obtain rfl := QueryM.run_pure_eq_ok.mp hsite
    obtain ⟨-, -, -, -, -, -, -, rfl⟩ := replaceTarget_eq_ok h
    exact Eq.refl _
  | hyp n =>
    cases hfind : g.findHyp? n with
    | none => simp [hfind] at hsite
    | some old =>
      simp only [hfind] at hsite
      obtain rfl := QueryM.run_pure_eq_ok.mp hsite
      obtain ⟨g', old', -, value, hg', hold, -, -, -, -, rfl⟩ := replaceHyp_eq_ok h
      obtain rfl := Option.some.inj (hg.symm.trans hg')
      obtain ⟨before, after, hsplit, hn, hafter⟩ := findHyp?_eq_some hfind
      have hfresh : ∀ h ∈ before, h.fvar ≠ old.fvar := by
        have := hnodup g hg
        rw [hsplit, List.map_append, List.map_cons, List.nodup_append] at this
        exact fun h hh => this.2.2 h.fvar (List.mem_map_of_mem hh) old.fvar List.mem_cons_self
      have hnone : before.find? (fun h => h.fvar = old.fvar) = none := by
        simpa using hfresh
      -- the hypothesis is the first of its free variable, so it is the one that is replaced
      have hidx : g.hyps.findIdx (fun h => h.fvar = old.fvar) = before.length := by
        rw [hsplit, List.findIdx_append, List.findIdx_cons]
        have : ¬ before.findIdx (fun h => h.fvar = old.fvar) < before.length := by
          rw [List.findIdx_lt_length]
          simpa using hfresh
        simp [this]
      obtain rfl : old = old' := by
        rw [hsplit, List.find?_append, hnone] at hold
        simpa using hold
      show Option.map _ (List.find? _ (List.reverse (g.hyps.set _ _))) = _
      rw [hidx, hsplit, List.set_append_right _ _ (Nat.le_refl _), Nat.sub_self, List.set_cons_zero,
        List.reverse_append, List.reverse_cons, List.append_assoc, List.find?_append,
        List.find?_eq_none.mpr (by simpa using hafter)]
      simp [hn]

end ProofState

end Pinpoint
