/-
Rewrites there and back.

A rewrite puts an instance of the other side of its rule at a position.  With
the rule reversed, that instance is matched again, by the same values, and
rewriting it puts back what stood there, up to metadata.

* `Match.back` — what the reversed rule matches at the position;
* `Scope.rewrite_back` — rewriting that leads back to the statement;
* `Rule.back_mem_occurrences` — the reversed rule has an occurrence there;
* `rewrite_reversed` — so each rewrite of the target can be undone, as long as
  the goal is about given variables;
* `captured_number_not_rewritten_back` — a goal about a variable that a checker
  draws, in which the reversed rule passes over the position.
-/
import Pinpoint.Proofs.Enumeration
import Pinpoint.Proofs.GivenGoals
import Pinpoint.Proofs.Instances
import Pinpoint.Proofs.Listing

namespace Pinpoint

/-! ### Rules in both directions -/

namespace Rule

variable (r : Rule) (source : String)

@[simp] theorem pattern_flip : (r.flip source).pattern = r.replacement := by
  unfold pattern replacement flip
  cases r.reversed <;> rfl

@[simp] theorem replacement_flip : (r.flip source).replacement = r.pattern := by
  unfold pattern replacement flip
  cases r.reversed <;> rfl

/-- Both directions prove equations in the same type. -/
theorem carrier_equationAt_flip (vals : List Expr) :
    ((r.flip source).equationAt vals).carrier = (r.equationAt vals).carrier := by
  unfold equationAt flip
  cases r.statement.relation <;> cases r.reversed <;> rfl

end Rule

/-- What the reversed rule matches where an occurrence was rewritten. -/
def Match.back (m : Match) (r : Rule) : Match :=
  { m with subterm := (r.replacement.instantiateRev m.values).stripMData }

namespace Environment.ExtendsPrelude

variable {env : Environment}

/-- With the prelude an equation can be lifted through any function. -/
theorem congruence_eq_ok (henv : env.ExtendsPrelude) (eq : Equation) (dom body codomain : Expr)
    (level : Level) : eq.congruence env (.lam .default dom body) codomain level =
      .ok (eq.under dom body codomain level) := by
  unfold Equation.congruence
  simp only [Expr.stripMData, henv.constant_eq_ok (n := Vocabulary.congrArg) (by rfl), bind,
    Except.bind, pure, Except.pure]
  rfl

/-- With the prelude an equation between propositions can be used as a cast. -/
theorem castGoal_eq_ok (henv : env.ExtendsPrelude) {eq : Equation} (hprop : eq.carrier.isProp)
    (new : Expr) : ∃ proof, eq.castGoal env new = .ok proof := by
  unfold Equation.castGoal
  rw [if_pos hprop, henv.constant_eq_ok (n := Vocabulary.eqMpr) (by rfl)]
  exact ⟨_, rfl⟩

end Environment.ExtendsPrelude

/-! ### The position -/

namespace Scope

variable {env : Environment} {checker : Checker} {scope scope' : Scope} {r : Rule} {m : Match}
  {eq eq' : Equation} {target : Expr} {side? : Option Side}

/-- What an evaluated match is in: the type of the values of its rule, or of what
is searched. -/
theorem carrier_evaluate (heq : scope.evaluate env r m = .ok eq) :
    eq.carrier = if m.path = [] then (r.equationAt m.values).carrier else scope.type := by
  have heq := (evaluate_eq_ok heq).2
  split at heq
  · rw [if_pos ‹_›, heq]
  · obtain ⟨body, -, rfl⟩ := heq
    rw [if_neg ‹_›]
    rfl

/-- Where an occurrence was rewritten stands the instance of the other side, with
nothing changed beside it, and what stood there can be put back. -/
theorem evaluate_rhs_back (hm : r.IsMatch checker scope.host m)
    (heq : scope.evaluate env r m = .ok eq)
    (hnew : (r.replacement.instantiateRev m.values).hasLooseBVars = false)
    (hold : (r.pattern.instantiateRev m.values).skeleton = m.subterm.skeleton)
    (hbeside : scope.host.besideBVars (fun _ i => i ≠ maxIndex) 0 m.path) :
    eq.rhs.subterm? m.path = some (m.back r).subterm ∧
      eq.rhs.besideBVars (fun _ i => i ≠ maxIndex) 0 m.path ∧
      ∃ part, eq.rhs.replaceAt? m.path (r.pattern.instantiateRev m.values) = some part ∧
        part.skeleton = scope.host.skeleton := by
  obtain ⟨-, heq⟩ := evaluate_eq_ok heq
  by_cases hpath : m.path = []
  · rw [if_pos hpath] at heq
    have hsub := hm.subterm_eq
    rw [hpath, Expr.subterm?_nil] at hsub
    rw [hpath, heq, Rule.equationAt_rhs, Expr.subterm?_nil, Expr.besideBVars_nil]
    obtain ⟨part, hpart, hskel⟩ := Expr.skeleton_replaceWith?_nil
      (fun _ => r.pattern.instantiateRev m.values) (r.replacement.instantiateRev m.values) 0
    refine ⟨rfl, rfl, part, hpart, ?_⟩
    rw [hskel, hold, ← Option.some.inj hsub, Expr.skeleton_stripMData]
  · rw [if_neg hpath] at heq
    obtain ⟨body, hbody, rfl⟩ := heq
    have hpart := Expr.map_instantiate_abstractAt? hnew hbeside
    rw [hbody] at hpart
    rw [Equation.under, Rule.equationAt_rhs]
    refine ⟨Expr.subterm?_of_replaceWith? hpart.symm, ?_,
      Expr.replaceWith?_back hpart.symm hm.subterm_eq hold⟩
    rw [Expr.besideBVars_of_replaceWith? hpart.symm]
    exact hbeside

/-- With the prelude a match evaluates if all variables have values and there is
something at its position. -/
theorem evaluate_isOk (henv : env.ExtendsPrelude) (hvals : m.subst = m.values.map some)
    {v part : Expr} (hv : v.hasLooseBVars = false)
    (hbeside : scope.host.besideBVars (fun _ i => i ≠ maxIndex) 0 m.path)
    (hpart : scope.host.replaceAt? m.path v = some part) :
    ∃ eq, scope.evaluate env r m = .ok eq := by
  rw [← Expr.map_instantiate_abstractAt? hv hbeside] at hpart
  obtain ⟨body, hbody, -⟩ := Option.map_eq_some_iff.mp hpart
  have hinst : r.instantiate env m.subst = .ok (r.equationAt m.values) := by
    rw [hvals]
    exact henv.instantiate_eq_ok r m.values
  unfold evaluate
  by_cases hpath : m.path = []
  · refine ⟨r.equationAt m.values, ?_⟩
    simp only [hinst, hpath, bind, Except.bind]
    rfl
  · refine ⟨(r.equationAt m.values).under (r.equationAt m.values).carrier body scope.type
      scope.level, ?_⟩
    simp only [hinst, hbody, bind, Except.bind]
    rw [if_neg (by simpa using hpath)]
    exact henv.congruence_eq_ok _ _ _ _ _

/-- With the prelude an equation between sides is one between statements. -/
theorem justify_isOk (henv : env.ExtendsPrelude) (scope : Scope) (eq : Equation) :
    ∃ eq', scope.justify env eq = .ok eq' := by
  unfold justify
  split
  · exact ⟨eq, rfl⟩
  · rename_i side s _
    refine ⟨eq.under s.carrier (s.withSide (.bvar 0) side) .prop .one, ?_⟩
    cases side <;> exact henv.congruence_eq_ok _ _ _ _ _

/-- An equation between statements is one between propositions, if the one between
what is searched is. -/
theorem carrier_justify (heq : scope.justify env eq = .ok eq') :
    eq'.carrier = match scope.side with
      | none => eq.carrier
      | some _ => .prop := by
  have heq := justify_eq_ok heq
  split at heq
  · rename_i hside
    rw [heq, hside]
  · rename_i hside
    rw [heq, hside]
    rfl

/-! ### What is searched afterwards -/

theorem skeleton_fill (scope : Scope) {e e' : Expr} (h : e.skeleton = e'.skeleton) :
    (scope.fill e).skeleton = (scope.fill e').skeleton := by
  unfold fill
  split
  · exact h
  · rename_i side s _
    cases side <;> simp only [Statement.withSide, Statement.rebuild] <;> cases s.relation <;>
      simp [Expr.mkEq, Expr.mkIff, Expr.skeleton, h]

/-- Once the searched part of a statement is replaced, the same side is searched,
which is the new part, and it is replaced in the same statement. -/
theorem select_back (hselect : select target side? = .ok scope)
    (heq : scope.justify env eq = .ok eq')
    (hkeeps : scope.keepsContext target m.path = true)
    (hbeside : eq.rhs.besideBVars (fun _ i => i ≠ maxIndex) 0 m.path) :
    ∃ scope', select eq'.rhs side? = .ok scope' ∧ scope'.host = eq.rhs ∧
      scope'.type = scope.type ∧ (scope'.side = none ↔ scope.side = none) ∧
      scope'.keepsContext eq'.rhs m.path = true ∧ ∀ e, scope'.fill e = scope.fill e := by
  rw [justify_rhs hselect heq hkeeps]
  cases side? with
  | none =>
    have hwhole : scope = whole target := select_eq_ok hselect
    subst hwhole
    refine ⟨whole eq.rhs, rfl, rfl, rfl, Iff.rfl, ?_, fun e => rfl⟩
    rw [keepsContext, Bool.and_eq_true]
    exact ⟨hbeside, rfl⟩
  | some side =>
    obtain ⟨s, hs, rfl⟩ := select_eq_ok hselect
    obtain ⟨s', hs', hrel, hlevel, hcarrier, hother, hnew⟩ :=
      Statement.statement?_withSide hs eq.rhs side
    have hfill : (ofSide s side).fill eq.rhs = s.withSide eq.rhs side := by rw [fill, side_ofSide]
    -- Apart from the new side the statement that is read is the one from before.
    have hrest := Statement.withSide_eq hrel hlevel hcarrier hother
    refine ⟨ofSide s' side, ?_, ?_, ?_, ?_, ?_, fun e => ?_⟩
    · rw [hfill]
      simp only [select, hs']
    · rw [host_ofSide, hnew]
    · rw [type_ofSide, type_ofSide, hcarrier]
    · simp
    · simp only [keepsContext, side_ofSide, Statement.keeps, Bool.and_eq_true] at hkeeps
      simp only [keepsContext, side_ofSide, host_ofSide, Statement.keeps, hnew, hcarrier, hother,
        hfill, ← Statement.withSide_side s' side, hrest, Expr.eqModMData_iff, Bool.and_eq_true]
      exact ⟨hbeside, hkeeps.2.1, trivial⟩
    · rw [fill, fill, side_ofSide, side_ofSide]
      exact hrest e

/-- Once an occurrence is rewritten, the instance of the other side is found in
its place.  If the reversed rule matches there by the same values, then
rewriting it leads back to the statement. -/
theorem rewrite_back (henv : env.ExtendsPrelude) (hselect : select target side? = .ok scope)
    (hm : r.IsMatch checker scope.host m) (heval : scope.evaluate env r m = .ok eq)
    (hjust : scope.justify env eq = .ok eq') (hlhs : eq'.lhs.skeleton = target.skeleton)
    (hprop : eq'.carrier.isProp)
    (hnew : (r.replacement.instantiateRev m.values).hasLooseBVars = false) (source : String) :
    ∃ scope', select eq'.rhs side? = .ok scope' ∧
      scope'.host.subterm? m.path = some (m.back r).subterm ∧
      ∀ checker', (r.flip source).IsMatch checker' scope'.host (m.back r) →
        ∃ eq₁ eq₂, scope'.evaluate env (r.flip source) (m.back r) = .ok eq₁ ∧
          scope'.justify env eq₁ = .ok eq₂ ∧ eq₂.lhs.skeleton = eq'.rhs.skeleton ∧
          eq₂.carrier.isProp ∧ eq₂.rhs.skeleton = target.skeleton := by
  have hvals := (evaluate_eq_ok heval).1
  -- The occurrence that was rewritten was an instance of the rule in its place.
  obtain ⟨hold, hkeeps⟩ := (lhs_skeleton_eq_iff hselect hm heval hjust).mp hlhs
  have hbeside : scope.host.besideBVars (fun _ i => i ≠ maxIndex) 0 m.path := by
    rw [keepsContext, Bool.and_eq_true] at hkeeps
    exact hkeeps.1
  obtain ⟨hsubterm, hbeside', part, hpart, hback⟩ :=
    evaluate_rhs_back hm heval hnew hold hbeside
  obtain ⟨scope', hselect', hhost, htype, hside, hkeeps', hfill⟩ :=
    select_back hselect hjust hkeeps hbeside'
  rw [← hhost] at hsubterm hbeside' hpart
  refine ⟨scope', hselect', hsubterm, fun checker' hm' => ?_⟩
  have hclosed := hm.hasLooseBVars_eq_false hvals
  -- Both equations can be built, for the constants that they need are in the prelude.
  obtain ⟨eq₁, heval'⟩ := evaluate_isOk (r := r.flip source) (m := m.back r) henv hvals hclosed
    hbeside' hpart
  obtain ⟨eq₂, hjust'⟩ := justify_isOk henv scope' eq₁
  refine ⟨eq₁, eq₂, heval', hjust', ?_, ?_, ?_⟩
  · -- The equation back begins at the new statement, as the match back is found there.
    refine (lhs_skeleton_eq_iff hselect' hm' heval' hjust').mpr ⟨?_, hkeeps'⟩
    rw [Rule.pattern_flip]
    exact (Expr.skeleton_stripMData _).symm
  · -- It is one of propositions, since the same part of the statement is searched.
    rw [carrier_justify hjust', carrier_evaluate heval', Rule.carrier_equationAt_flip, htype]
    rw [carrier_justify hjust, carrier_evaluate heval] at hprop
    cases hs : scope.side with
    | none =>
      rw [hs] at hprop
      rw [hside.mpr hs]
      exact hprop
    | some p =>
      cases hs' : scope'.side with
      | none => cases hs.symm.trans (hside.mp hs')
      | some p' => rfl
  · -- It ends at the first statement, where the part is put back into the same place.
    obtain ⟨part', hpart', herase⟩ := evaluate_rhs heval'
      (by rw [Rule.replacement_flip]; exact hclosed) hbeside'
    rw [Rule.replacement_flip] at hpart'
    obtain rfl : part = part' := Option.some.inj (hpart.symm.trans hpart')
    rw [justify_rhs hselect' hjust' hkeeps', hfill,
      ← Expr.skeleton_eq_of_eraseMData_eq (fill_host hselect hkeeps)]
    refine skeleton_fill scope ?_
    rw [Expr.skeleton_eq_of_eraseMData_eq herase, hback]

end Scope

/-! ### The search for the reversed rule -/

namespace Rule

variable {checker : Checker} {r : Rule} {host host' : Expr} {m : Match}

theorem isMatch_of_mem_occurrences (hm : m ∈ r.occurrences checker host) :
    r.IsMatch checker host m := by
  obtain ⟨hsubterm, hclosed, hmatch, htyped⟩ := mem_occurrences_iff.mp hm
  obtain ⟨s, hs⟩ := Supply.runFresh_eq_some.mp htyped
  exact ⟨hsubterm, hclosed, hmatch, _, s, hs⟩

namespace IsMatch

variable (h : r.IsMatch checker host m) (hvals : m.subst = m.values.map some)
include h hvals

/-- The values of a match are parts of what is searched. -/
theorem values_spec {v : Expr} (hv : v ∈ m.values) :
    v.stripMData = v ∧ v.nesting ≤ host.nesting := by
  rcases subterm_of_matchAt? h.match_eq (v := v) (hvals ▸ List.mem_map_of_mem hv) with
    hnone | ⟨π, hπ⟩
  · simp at hnone
  · exact ⟨Expr.stripMData_of_subterm? hπ, Nat.le_trans (Expr.nesting_subterm?_le hπ)
      (Expr.nesting_subterm?_le h.subterm_eq)⟩

theorem nesting_replacement_le :
    (r.replacement.instantiateRev m.values).nesting ≤ r.replacement.nesting + host.nesting :=
  Expr.nesting_instantiateRev_le (fun _ hv => (h.values_spec hvals hv).2) _

section
variable (hscoped : r.replacement.Scoped r.varTypes.length)
  (hwidth : host.nesting + r.replacement.nesting < 2 ^ 32)
include hscoped hwidth

theorem hasLooseBVars_replacement :
    (r.replacement.instantiateRev m.values).hasLooseBVars = false := by
  obtain ⟨hlen, hvalues⟩ := h.scoped_values hvals
  have := h.nesting_replacement_le hvals
  exact ((hlen ▸ hscoped).instantiateRev hvalues).hasLooseBVars (by omega)

/-- The instance of the other side is matched by the same values. -/
theorem match?_back (hall : ∀ k < r.varTypes.length, r.replacement.Mentions k) (source : String) :
    (r.flip source).match? (m.back r).subterm = some m.subst := by
  have hmatch := h.match_eq
  rw [hvals] at hmatch
  obtain ⟨hlen, hclosed, -⟩ := match?_spec hmatch
  have hle := h.nesting_replacement_le hvals
  have hinst : (r.flip source).match? (r.replacement.instantiateRev m.values) =
      some (m.values.map some) := by
    rw [← r.pattern_flip source] at hscoped hall hle ⊢
    exact match?_instantiateRev (r := r.flip source) hlen hclosed
      (fun v hv => (h.values_spec hvals hv).1) hscoped (by rw [r.pattern_flip] at hle ⊢; omega) hall
  rw [hvals, ← hinst]
  exact matchAt?_stripMData _ _ _ _

end

end IsMatch

/-- An occurrence that was rewritten is one of the reversed rule. -/
theorem back_mem_occurrences (hm : m ∈ r.occurrences checker host)
    (hvals : m.subst = m.values.map some) (hscoped : r.replacement.Scoped r.varTypes.length)
    (hwidth : host.nesting + r.replacement.nesting < 2 ^ 32)
    (hall : ∀ k < r.varTypes.length, r.replacement.Mentions k) (source : String)
    (hback : host'.subterm? m.path = some (m.back r).subterm) :
    m.back r ∈ (r.flip source).occurrences checker host' := by
  have h := isMatch_of_mem_occurrences hm
  refine mem_occurrences_iff.mpr ⟨hback, ?_, h.match?_back hvals hscoped hwidth hall source, ?_⟩
  · refine (Expr.hasLooseBVars_of_canonical_eq (Expr.canonical_stripMData _)).trans ?_
    exact h.hasLooseBVars_replacement hvals hscoped hwidth
  · exact (mem_occurrences_iff.mp hm).2.2.2

/-- A search that goes deeper draws more variables. -/
theorem draws_le_draws_none (checker : Checker) (limit : Option Nat) (r : Rule) (e : Expr) :
    r.draws checker limit e ≤ r.draws checker none e := by
  refine List.Sublist.sum_le_sum (List.Sublist.map _ ?_) fun _ _ => Nat.zero_le _
  have hall : r.candidatesWithin none e = r.candidates e := by simp [candidatesWithin, Path.within]
  rw [hall]
  exact List.filter_sublist

end Rule

/-! ### There and back -/

namespace ProofState

variable {fuel index : Nat} {st st' : ProofState} {g g' : Goal} {side? : Option Side}
  {spec : RuleSpec} {r : Rule} {options : RewriteOptions} {scope : Scope}

/-- Whether a rule has an occurrence at a position of the target, and the rewrite
of it leads to a statement, up to metadata. -/
def RewritesTo (fuel : Nat) (st : ProofState) (side? : Option Side) (spec : RuleSpec) (π : Path)
    (target : Expr) : Prop :=
  ∃ (occs : List Occurrence) (i : Nat) (occ : Occurrence) (st' : ProofState) (g : Goal),
    (occurrences fuel st side? [spec] .goal).run = some (.ok occs) ∧ occs[i]? = some occ ∧
      occ.path = π ∧
      (nthRewrite fuel side? i [spec] .goal ⟨false, none⟩).answer st =
        some (.ok ⟨[.goal], []⟩, st') ∧
      st'.currentGoal? = some g ∧ g.target.eqModMData target

/-- Whether the range of a checker lasts for a search for a rule in the target. -/
def SearchFits (fuel : Nat) (st : ProofState) (side? : Option Side) (r : Rule) : Prop :=
  ∀ g scope, st.currentGoal? = some g → Scope.select g.target side? = .ok scope →
    r.draws (st.givenChecker fuel g) none scope.host < 3 * 2 ^ 62

theorem rulesFor_singleton (hg : st.currentGoal? = some g)
    (hr : (st.elaborateRule fuel g spec).run = some (.ok r)) :
    (st.rulesFor fuel [spec]).run = some (.ok [r]) := by
  unfold rulesFor elaborateRules
  rw [QueryM.run_bind_of_ok (mainGoal_eq_ok.mpr hg), List.mapM_cons, List.mapM_nil]
  refine (QueryM.run_bind_of_ok (a := r) ?_ _).trans (Eq.refl _)
  rw [QueryM.run_adapt, hr]
  exact Eq.refl _

namespace IsAt

/-- A search at the target lists the occurrences that a checker over the
hypotheses accepts. -/
theorem eq_of_findAll (h : st.IsAt g) (hfree : st.env.FVarFree) {checker : Checker}
    (hchecker : (st.mainChecker fuel).run = some (.ok checker))
    (hselect : Scope.select g.target side? = .ok scope) (hfits : st.SearchFits fuel side? r)
    {limit : Option Nat} {found : List (Nat × Match)}
    (hfound : (findAll checker limit [r] scope.host).runFresh = some found) :
    found = ((r.occurrences (st.givenChecker fuel g) scope.host).filter
      (·.path.within limit)).map (0, ·) := by
  rw [mainChecker_run fuel h.current] at hchecker
  obtain ⟨checker', hchecker', heq⟩ := Option.map_eq_some_iff.mp hchecker
  obtain rfl := Except.ok.inj heq
  have hhost : scope.host.FVarsIn FVarId.IsGiven :=
    ((Expr.fvarsIn_hereditary FVarId.IsGiven).select h.target hselect).1
  have hroom := hfits g scope h.current hselect
  have hdraws := r.draws_le_draws_none (st.givenChecker fuel g) limit scope.host
  rw [(h.agrees hchecker').findAll_eq hhost] at hfound
  have hlist := ((findAll_eq_some_iff (s := Checker.firstFresh) hfree
    (LocalContext.fvarsIn_ofHyps fun k hk =>
      ⟨(h.hyps k hk).1.2, (h.hyps k hk).2.mono fun _ hx => hx.2⟩)
    (hhost.mono fun _ hx => hx.2) UInt64.le_rfl (by
      rw [Environment.toNat_firstFresh, List.map_singleton, List.sum_singleton]
      omega)).1 found).mp hfound
  simpa using hlist.2

/-- What a rule selects at the target is one of the occurrences that a checker
over the hypotheses accepts. -/
theorem of_choice (h : st.IsAt g) (hfree : st.env.FVarFree) (hfits : st.SearchFits fuel side? r)
    {limit : Option Nat} {target : Expr} {r' : Rule} {m : Match}
    (hchoice : st.Choice fuel ⟨side?, index, [r], limit⟩ .goal target scope r' m) :
    target = g.target ∧ r' = r ∧ m ∈ r.occurrences (st.givenChecker fuel g) scope.host := by
  obtain rfl : target = g.target :=
    Except.ok.inj (Option.some.inj (hchoice.target_eq.symm.trans h.statementAt_eq))
  obtain ⟨checker, found, i, hchecker, hfound, hi, hr'⟩ := hchoice.found
  have hmem := List.mem_of_getElem? hi
  rw [h.eq_of_findAll hfree hchecker hchoice.scope_eq hfits hfound] at hmem
  obtain ⟨m', hm', heq⟩ := List.mem_map.mp hmem
  obtain ⟨rfl, rfl⟩ := Prod.mk.inj heq
  exact ⟨Eq.refl _, (Option.some.inj hr').symm, List.mem_of_mem_filter hm'⟩

theorem surveyAt_eq (h : st.IsAt g) (hselect : Scope.select g.target side? = .ok scope) :
    (st.surveyAt side? .goal).run = some (.ok (.goal, g.target, scope)) := by
  refine surveyAt_eq_ok.mpr ⟨?_, h.statementAt_eq, hselect⟩
  unfold resolve
  exact QueryM.run_bind_of_ok (mainGoal_eq_ok.mpr h.current) _

/-- With the prelude an occurrence that is found at the target is rewritten, if
its equation is one between the target and another statement. -/
theorem nthRewrite_of_found (h : st.IsAt g) (henv : st.env.ExtendsPrelude)
    (hrules : (st.rulesFor fuel [spec]).run = some (.ok [r]))
    (hselect : Scope.select g.target side? = .ok scope) {found : List (Nat × Match)} {m : Match}
    (hfound : st.foundIn? fuel [r] scope = some found) (hi : found[index]? = some (0, m))
    {eq₀ eq : Equation} (heval : scope.evaluate st.env r m = .ok eq₀)
    (hjust : scope.justify st.env eq₀ = .ok eq) (hlhs : eq.lhs.skeleton = g.target.skeleton)
    (hprop : eq.carrier.isProp) :
    ∃ st' g', (nthRewrite fuel side? index [spec] .goal ⟨false, none⟩).answer st =
        some (.ok ⟨[.goal], []⟩, st') ∧ st'.currentGoal? = some g' ∧ g'.target = eq.rhs := by
  have hequation : Selection.equation st.env ⟨side?, index, [r], none⟩ scope found = .ok eq :=
    Selection.equation_eq_ok.mpr ⟨0, m, r, eq₀, hi, Eq.refl _, heval, hjust⟩
  obtain ⟨proof, hcast⟩ := henv.castGoal_eq_ok hprop st.metas.nextId.toExpr
  obtain ⟨st', hreplace, hg'⟩ : ∃ st', (st.replaceTarget eq).run = some (.ok st') ∧
      st'.currentGoal? = some ⟨st.metas.nextId, eq.rhs, g.hyps⟩ :=
    ⟨_, (replaceTarget_eq_ok_iff h.current
      (MetaContext.instantiate?_of_isGiven h.room h.target)).mpr
        ⟨(Expr.eqModMData_iff _ _).mpr hlhs, proof, hcast, Eq.refl _⟩, Eq.refl _⟩
  have hloc : Location.goal ≠ .everywhere := nofun
  refine ⟨st', _, ?_, hg', Eq.refl _⟩
  rw [nthRewrite_answer hloc (Eq.refl _), hrules, Option.bind_some]
  dsimp only
  rw [rewriteAtLocation_of_found (Eq.refl _) (h.surveyAt_eq hselect) hfound, hequation]
  dsimp only
  rw [show st.replace .goal eq = st.replaceTarget eq from Eq.refl _, hreplace]
  exact Eq.refl _

section
variable {eq : Equation} {limit : Option Nat} (h : st.IsAt g) (hfree : st.env.FVarFree)
  (hspec : spec.FVarsIn FVarId.IsGiven) (hr : (st.elaborateRule fuel g spec).run = some (.ok r))
  (hselected : (st.selectedEquation fuel ⟨side?, index, [r], limit⟩ .goal).run = some (.ok eq))
include h hfree hspec hr hselected

/-- The equation of a rule at the target is about given variables. -/
theorem fvarsIn_selectedEquation :
    (eq.States fun _ => Expr.FVarsIn FVarId.IsGiven) ∧ eq.proof.FVarsIn FVarId.IsGiven := by
  have hnot : ∀ x : FVarId, x.IsGiven → ¬ st.metas.Has x := fun x hx => hx.not_has h.room
  obtain ⟨reversed, -, -, hterm, -⟩ := elaborateRule_eq_ok hr
  have hproof : r.proof.FVarsIn FVarId.IsGiven :=
    ruleTerm_fvarsIn hfree.fvarsIn hnot h.hyps hspec hterm
  have hstates : r.States fun _ => Expr.FVarsIn FVarId.IsGiven :=
    states_elaborateRule hfree.fvarsIn (fun _ => id) hnot (fun k hk _ => (h.hyps k hk).2) hproof hr
  obtain ⟨heq, hproofs⟩ := (Expr.fvarsIn_hereditary FVarId.IsGiven).selectedEquation hselected
    (fun e he => by
      obtain rfl := Except.ok.inj (Option.some.inj (he.symm.trans h.statementAt_eq))
      exact h.target)
    (by simpa using hstates)
  exact ⟨heq, hproofs (by simpa using hproof)⟩

/-- After the rewrite the reversed rule is what the rule was. -/
theorem rulesFor_reverse (hroom : st.metas.metas.length < 2 ^ 40)
    (hreplace : (st.replaceTarget eq).run = some (.ok st')) :
    st'.IsAt ⟨st.metas.nextId, eq.rhs, g.hyps⟩ ∧ st'.env = st.env ∧
      (st'.rulesFor fuel [spec.reverse]).run =
        some (.ok [r.flip spec.reverse.describe]) := by
  obtain ⟨heq, hproof⟩ := h.fvarsIn_selectedEquation hfree hspec hr hselected
  obtain ⟨target, scope, r', m, eq₀, hchoice, -, -⟩ := selectedEquation_eq_ok_iff.mp hselected
  obtain ⟨checker, -, -, hchecker, -⟩ := hchoice.found
  rw [mainChecker_run fuel h.current] at hchecker
  obtain ⟨checker', hchecker', -⟩ := Option.map_eq_some_iff.mp hchecker
  have hat := h.replaceTarget heq hroom hreplace
  have henv : st'.env = st.env :=
    env_of_replace (show (st.replace .goal eq).run = some (.ok st') from hreplace)
  exact ⟨hat, henv, rulesFor_singleton hat.current <|
    h.elaborateRule_reverse hat henv (Eq.refl _) hfree hspec
      (h.checker?_isSome heq hproof hroom hreplace (by rw [hchecker']; exact Eq.refl _)) hr⟩

end

end IsAt

/-- A rewrite of the target without reflexivity replaces it along the equation
of the selected occurrence. -/
theorem nthRewrite_goal_eq_ok {specs : List RuleSpec} {rules : List Rule} {outcome : RewriteOutcome}
    (hrules : (st.rulesFor fuel specs).run = some (.ok rules)) (hrfl : options.tryRfl = false)
    (h : (nthRewrite fuel side? index specs .goal options).answer st = some (.ok outcome, st')) :
    ∃ eq, (st.selectedEquation fuel ⟨side?, index, rules, options.maxDepth⟩ .goal).run =
        some (.ok eq) ∧ (st.replaceTarget eq).run = some (.ok st') := by
  have hloc : Location.goal ≠ .everywhere := nofun
  rw [nthRewrite_answer hloc hrfl, hrules, Option.bind_some] at h
  obtain ⟨_ | st₁, hst₁, heq⟩ := Option.map_eq_some_iff.mp h
  · cases (Prod.mk.inj heq).1
  · obtain ⟨-, rfl⟩ := Prod.mk.inj heq
    obtain ⟨site, eq, hsite, heq, hreplace⟩ := rewriteAtLocation_eq_ok hst₁
    obtain rfl := resolve_goal hsite
    exact ⟨eq, heq, hreplace⟩

end ProofState

/-- A rewrite of the target with one rule, all of whose variables occur in the
side that is put in, can be undone: the reversed rule has an occurrence where the
rule had the one that was rewritten, and rewriting that leads back to the target,
up to metadata.  This is so of every goal about given variables, in which the
counts of binders and of variables do not come to their end, if the search for
the reversed rule comes to its end. -/
theorem rewrite_reversed {fuel index : Nat} {st st' : ProofState} {g : Goal} {side? : Option Side}
    {spec : RuleSpec} {r : Rule} {options : RewriteOptions} {outcome : RewriteOutcome}
    (henv : st.env.ExtendsPrelude) (hfree : st.env.FVarFree) (hst : st.WellTyped) (hat : st.IsAt g)
    (hroom : st.metas.metas.length < 2 ^ 40) (hspec : spec.FVarsIn FVarId.IsGiven)
    (hr : (st.elaborateRule fuel g spec).run = some (.ok r))
    (hall : ∀ k < r.varTypes.length, r.replacement.Mentions k)
    (hwidth : g.target.nesting + r.replacement.nesting < 2 ^ 32)
    (hfits : st.SearchFits fuel side? r) (hrfl : options.tryRfl = false)
    (hrewrite : (nthRewrite fuel side? index [spec] .goal options).answer st =
      some (.ok outcome, st'))
    (hfits' : st'.SearchFits fuel side? (r.flip spec.reverse.describe))
    (hends : (occurrences fuel st' side? [spec.reverse] .goal).run.isSome) :
    ∃ scope m, st.Choice fuel ⟨side?, index, [r], options.maxDepth⟩ .goal g.target scope r m ∧
      st'.RewritesTo fuel side? spec.reverse m.path g.target := by
  have hrules := ProofState.rulesFor_singleton hat.current hr
  obtain ⟨eq, hselected, hreplace⟩ := ProofState.nthRewrite_goal_eq_ok hrules hrfl hrewrite
  obtain ⟨target, scope, r', m, eq₀, hchoice, heval, hjust⟩ :=
    ProofState.selectedEquation_eq_ok_iff.mp hselected
  obtain ⟨rfl, rfl, hm⟩ := hat.of_choice hfree hfits hchoice
  refine ⟨scope, m, hchoice, ?_⟩
  -- The position, once it is rewritten, has the instance of the other side.
  have hmatch := Rule.isMatch_of_mem_occurrences hm
  have hvals := (Scope.evaluate_eq_ok heval).1
  obtain ⟨g', hg', hrules⟩ := QueryM.run_bind_eq_ok.mp hrules
  have hscoped := hst.scoped_replacement (ProofState.mainGoal_eq_ok.mp hg') hrules
    List.mem_cons_self
  have hhost : scope.host.nesting + r'.replacement.nesting < 2 ^ 32 := by
    have := Scope.nesting_host_le hchoice.scope_eq
    omega
  have hclosed := hmatch.hasLooseBVars_replacement hvals hscoped hhost
  obtain ⟨hlhs, proof, hcast, -⟩ := (ProofState.replaceTarget_eq_ok_iff hat.current
    (MetaContext.instantiate?_of_isGiven hat.room hat.target)).mp hreplace
  obtain ⟨scope', hselect', hsubterm, hback⟩ := Scope.rewrite_back henv hchoice.scope_eq hmatch
    heval hjust ((Expr.eqModMData_iff _ _).mp hlhs) (Equation.castGoal_eq_ok hcast).1 hclosed
    spec.reverse.describe
  -- The reversed rule is searched in the same part of the new target.
  obtain ⟨hat', henv', hrules'⟩ := hat.rulesFor_reverse hfree hspec hr hselected hroom hreplace
  have hrun : (occurrences fuel st' side? [spec.reverse] .goal).run = _ :=
    ProofState.occurrences_run nofun
  simp only [hrules', hat'.surveyAt_eq hselect', Option.bind_some] at hrun
  rw [hrun, Option.isSome_map] at hends
  obtain ⟨found, hfound⟩ := Option.isSome_iff_exists.mp hends
  obtain ⟨checker, hchecker, hsearch⟩ := ProofState.foundIn?_eq_some.mp hfound
  have hgiven : st'.givenChecker fuel ⟨st.metas.nextId, eq.rhs, g.hyps⟩ = st.givenChecker fuel g := by
    rw [ProofState.givenChecker, henv']
    rfl
  have hlist := hat'.eq_of_findAll (henv' ▸ hfree) hchecker hselect' hfits' hsearch
  rw [hgiven] at hlist
  -- The match back is an occurrence, so it is among those that are found.
  have hmem := Rule.back_mem_occurrences hm hvals hscoped hhost hall spec.reverse.describe hsubterm
  obtain ⟨j, hj⟩ : ∃ j : Nat, found[j]? = some (0, m.back r') := by
    refine List.mem_iff_getElem?.mp ?_
    rw [hlist]
    exact List.mem_map.mpr ⟨_, List.mem_filter.mpr ⟨hmem, rfl⟩, rfl⟩
  -- Rewriting it is accepted, and leads to the target.
  obtain ⟨eq₁, eq₂, heval', hjust', hlhs', hprop', hrhs'⟩ :=
    hback _ (Rule.isMatch_of_mem_occurrences hmem)
  obtain ⟨st'', g'', hst'', hg'', htarget⟩ := hat'.nthRewrite_of_found (henv' ▸ henv) hrules' hselect'
    hfound hj (henv' ▸ heval') (henv' ▸ hjust') hlhs' hprop'
  refine ⟨_, j, _, st'', g'', by rw [hrun, hfound]; rfl,
    by rw [ProofState.getElem?_listed, hj]; rfl, rfl, hst'', hg'', ?_⟩
  rw [Expr.eqModMData_iff, htarget, hrhs']

/-! ### A function of texts -/

namespace Undo

/-- The natural numbers. -/
def nat : Expr := .const Vocabulary.nat []

/-- The functions from numbers to texts. -/
def functions : Expr := .arrow nat (.const Vocabulary.string [])

/-- The function with one value. -/
def constantly (e : Expr) : Expr := .lam .default nat e

/-- A number of a function. -/
def number (name : String) (f : Expr) : Expr := .app (.const (.simple name) []) f

/-- The prelude with two numbers of each function, a text, and the rule that the
numbers are equal. -/
def env : Environment := ⟨Prelude.constants ++
  [⟨.simple "K", [], .arrow functions nat, none⟩, ⟨.simple "L", [], .arrow functions nat, none⟩,
    ⟨.simple "t", [], .const Vocabulary.string [], none⟩,
    ⟨.simple "r", [], .pi .default functions
      (.mkEq .one nat (number "K" (.bvar 0)) (number "L" (.bvar 0))), none⟩,
    ⟨.simple "Q", [], .arrow functions (.arrow nat (.arrow nat .prop)), none⟩]⟩

/-- A statement about a function and numbers of two functions. -/
def target (name : String) (x : FVarId) : Expr :=
  .mkApp (.const (.simple "Q") [])
    [constantly (.const (.simple "t") []), number "L" (constantly (.const (.simple "t") [])),
      number name (constantly (.fvar x))]

/-- The text that is the value of the second function. -/
def hyps (x : FVarId) : List Hypothesis := [⟨x, "F", .const Vocabulary.string [], none⟩]

def start (x : FVarId) : ProofState := .start env (target "K" x) (hyps x)

def goal (x : FVarId) : Goal := ⟨⟨0⟩, target "K" x, hyps x⟩

/-- The rule. -/
def rule : Rule :=
  ⟨.const (.simple "r") [], [functions],
    ⟨.eq, .one, nat, number "K" (.bvar 0), number "L" (.bvar 0)⟩, false, "r"⟩

/-- The answer to a rewrite of the first occurrence. -/
def rewritten (x : FVarId) : Option (Except RewriteError RewriteOutcome × ProofState) :=
  (nthRewrite 20 none 0 [.ofText "r"] .goal ⟨false, none⟩).answer (start x)

/-- The state that it leads to. -/
def after (x : FVarId) : ProofState := ((rewritten x).map Prod.snd).getD (start x)

theorem extendsPrelude_env : env.ExtendsPrelude := by
  have h : Environment.declareAll ⟨Prelude.constants⟩ 50
      (env.constants.drop Prelude.constants.length) = some (env, .ok ()) := by rfl
  exact Environment.of_declareAll .declare Environment.extendsPrelude_prelude h

/-- The context of the goal: the text and the hole. -/
def context (x : FVarId) : LocalContext :=
  (LocalContext.empty.push x (.simple "F") (.const Vocabulary.string [])).push
    (MetaId.toFVar ⟨0⟩) (.simple "?m0") (target "K" x)

/-- The second variable that a checker draws. -/
def captured : FVarId := ⟨Checker.firstFresh + 1⟩

/-- The statements are types, whether or not a checker draws the variable. -/
theorem isType {x : FVarId} (hx : x = ⟨0⟩ ∨ x = captured) {entry : LocalEntry}
    (hentry : entry ∈ (context x).entries) : env.IsType (context x) entry.type := by
  rcases hx with rfl | rfl
  · rcases List.mem_cons.mp hentry with rfl | hentry
    · exact ⟨8, Checker.firstFresh, _, _, _, by rfl, by rfl⟩
    · obtain rfl := List.mem_singleton.mp hentry
      exact ⟨8, Checker.firstFresh, _, _, _, by rfl, by rfl⟩
  · rcases List.mem_cons.mp hentry with rfl | hentry
    · exact ⟨8, Checker.firstFresh, _, _, _, by rfl, by rfl⟩
    · obtain rfl := List.mem_singleton.mp hentry
      exact ⟨8, Checker.firstFresh, _, _, _, by rfl, by rfl⟩

theorem localContext?_start {x : FVarId} (hx : x = ⟨0⟩ ∨ x = captured) :
    (start x).localContext? (goal x) = some (context x) := by
  rcases hx with rfl | rfl <;> rfl

theorem wellTyped {x : FVarId} (hx : x = ⟨0⟩ ∨ x = captured) : (start x).WellTyped where
  env := extendsPrelude_env.checked
  context g Γ hg hΓ entry hentry := by
    obtain rfl := Option.some.inj hg
    obtain rfl := Option.some.inj ((localContext?_start hx).symm.trans hΓ)
    exact isType hx hentry
  target g Γ e hg hΓ he := by
    obtain rfl := Option.some.inj hg
    obtain rfl := Option.some.inj ((localContext?_start hx).symm.trans hΓ)
    obtain rfl : target "K" x = e := by
      rcases hx with rfl | rfl <;> exact Option.some.inj he
    exact isType hx List.mem_cons_self
  values v hv e he := by
    obtain rfl := List.mem_singleton.mp hv
    cases he
  nodup g hg := by
    obtain rfl := Option.some.inj hg
    exact List.pairwise_singleton _ x

theorem isAt : (start ⟨0⟩).IsAt (goal ⟨0⟩) where
  current := rfl
  hole := by decide
  room := by decide
  hyps := by decide
  target := by decide

/-- The rule is elaborated, the first occurrence of its pattern is the argument, and the
rewrite of it leads to the next state. -/
theorem computed {x : FVarId} (hx : x = ⟨0⟩ ∨ x = captured) :
    ((start x).elaborateRule 20 (goal x) (.ofText "r")).run.map Except.toOption =
        some (some rule) ∧
      ((start x).foundIn? 20 [rule] (.whole (target "K" x))).map (List.map fun p => p.2.path) =
        some [[.appArg]] ∧
      (rewritten x).map (fun p => (p.1.toOption, id p.2)) = some (some ⟨[.goal], []⟩, after x) := by
  rcases hx with rfl | rfl <;> decide +kernel

theorem elaborateRule_start {x : FVarId} (hx : x = ⟨0⟩ ∨ x = captured) :
    ((start x).elaborateRule 20 (goal x) (.ofText "r")).run = some (.ok rule) :=
  QueryM.run_eq_ok_of_toOption (computed hx).1

theorem rewritten_eq {x : FVarId} (hx : x = ⟨0⟩ ∨ x = captured) :
    rewritten x = some (.ok ⟨[.goal], []⟩, after x) := by
  obtain ⟨st, hst, rfl⟩ := ChangeM.answer_eq_ok (computed hx).2.2
  exact hst

/-- The first occurrence is the argument. -/
theorem path_of_choice {x : FVarId} (hx : x = ⟨0⟩ ∨ x = captured) {scope : Scope} {r : Rule}
    {m : Match}
    (h : (start x).Choice 20 ⟨none, 0, [rule], none⟩ .goal (target "K" x) scope r m) :
    m.path = [.appArg] := by
  have hpaths := (computed hx).2.1
  obtain rfl : scope = .whole (target "K" x) := Scope.select_eq_ok h.scope_eq
  obtain ⟨checker, found, i, hchecker, hfound, hi, -⟩ := h.found
  rw [ProofState.foundIn?_eq_some.mpr ⟨checker, hchecker, hfound⟩, Option.map_some,
    Option.some.injEq] at hpaths
  have hpath : (found.map fun p => p.2.path)[0]? = some m.path := by
    rw [List.getElem?_map, hi]
    rfl
  rw [hpaths] at hpath
  exact (Option.some.inj hpath).symm

/-- The range of a checker lasts for the searches in both directions. -/
theorem searchFits : (start ⟨0⟩).SearchFits 20 none rule ∧
    (after ⟨0⟩).SearchFits 20 none (rule.flip "← r") := by
  have hgoal : (after ⟨0⟩).currentGoal? = some ⟨⟨1⟩, target "L" ⟨0⟩, hyps ⟨0⟩⟩ := by decide +kernel
  constructor <;> intro g scope hg hselect
  · obtain rfl := Option.some.inj hg
    obtain rfl := Except.ok.inj hselect
    decide +kernel
  · obtain rfl := Option.some.inj (hgoal.symm.trans hg)
    obtain rfl := Except.ok.inj hselect
    decide +kernel

/-- The rule in the other direction. -/
def back : RuleSpec := ⟨.text "r", true⟩

theorem isSome_of_paths {o : Option (Except RewriteError (List Occurrence))}
    {paths : List Path} (h : (o.map fun r => r.toOption.map (List.map Occurrence.path)) =
      some (some paths)) : o.isSome :=
  (Option.isSome_map ..).symm.trans (congrArg Option.isSome h)

/-- Where the rule is found in the other direction: at the number of the variable, and, if
the checker draws the variable, at another place. -/
theorem paths_back :
    ((occurrences 20 (after ⟨0⟩) none [back] .goal).run.map fun r =>
        r.toOption.map (List.map Occurrence.path)) = some (some [[.appFn, .appArg], [.appArg]]) ∧
      ((occurrences 20 (after captured) none [back] .goal).run.map fun r =>
        r.toOption.map (List.map Occurrence.path)) = some (some [[.appFn, .appArg]]) := by
  constructor <;> decide +kernel

end Undo

open Undo in
/-- A number of the function of a variable is rewritten and back. -/
theorem number_rewritten_back : (after ⟨0⟩).RewritesTo 20 none back [.appArg] (target "K" ⟨0⟩) := by
  obtain ⟨scope, m, hchoice, hback⟩ :=
    rewrite_reversed extendsPrelude_env (Environment.fvarFree_prelude_append (by decide))
      (wellTyped (.inl rfl)) isAt (by decide) (show RuleSpec.FVarsIn _ (.ofText "r") from trivial)
      (elaborateRule_start (.inl rfl)) (by decide) (by decide) searchFits.1 rfl
      (rewritten_eq (.inl rfl)) searchFits.2 (isSome_of_paths paths_back.1)
  rw [path_of_choice (.inl rfl) hchoice] at hback
  exact hback

open Undo in
/-- If the checker draws the variable itself while it looks for the reversed
rule, then the number is not found. -/
theorem captured_number_not_rewritten_back :
    ¬ ∀ {fuel index : Nat} {st st' : ProofState} {g : Goal} {side? : Option Side} {text : String}
      {r : Rule} {outcome : RewriteOutcome}, st.env.ExtendsPrelude → st.WellTyped →
      st.currentGoal? = some g →
      (st.elaborateRule fuel g (.ofText text)).run = some (.ok r) →
      (∀ k < r.varTypes.length, r.pattern.Mentions k ∧ r.replacement.Mentions k) →
      (nthRewrite fuel side? index [.ofText text] .goal ⟨false, none⟩).answer st =
        some (.ok outcome, st') →
      (occurrences fuel st' side? [(RuleSpec.ofText text).reverse] .goal).run.isSome →
      ∃ scope m, st.Choice fuel ⟨side?, index, [r], none⟩ .goal g.target scope r m ∧
        st'.RewritesTo fuel side? (RuleSpec.ofText text).reverse m.path g.target := by
  intro h
  obtain ⟨scope, m, hchoice, occs, j, occ, -, -, hoccs, hj, hpath, -⟩ :=
    @h 20 0 _ _ (goal captured) none _ _ _ extendsPrelude_env (wellTyped (.inr rfl)) rfl
      (elaborateRule_start (.inr rfl)) (by decide) (rewritten_eq (.inr rfl))
      (isSome_of_paths paths_back.2)
  have hpaths := paths_back.2
  rw [show (occurrences 20 (after captured) none [back] .goal).run = some (.ok occs) from hoccs]
    at hpaths
  rw [path_of_choice (.inr rfl) hchoice] at hpath
  have hmem : occ.path ∈ occs.map Occurrence.path := List.mem_map_of_mem (List.mem_of_getElem? hj)
  rw [show occs.map Occurrence.path = [[.appFn, .appArg]] by simpa [Except.toOption] using hpaths,
    hpath] at hmem
  exact absurd hmem (by decide)

end Pinpoint
