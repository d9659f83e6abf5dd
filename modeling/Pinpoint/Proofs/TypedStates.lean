/-
Proof states whose terms have types.

`ProofState.Typed` gives types to the hypotheses that a proof began with and to
all rewritten ones, those included that are no longer in the goal.  A rewritten
hypothesis stands for a proof of its type, so unfolding is a substitution that
leads from these types to those of the first hypotheses.  The value of a
metavariable proves what the metavariable is to prove, once later metavariables
have their types.

* `ProofState.term_unfoldHyps` — unfolding as a substitution;
* `Typed.rule` — a rule that is elaborated has a type;
* `Typed.equation` — so has the equation of a rewrite, if its motive has one.
-/
import Pinpoint.Proofs.ClosedStates
import Pinpoint.Proofs.Linear
import Pinpoint.Proofs.TypedRewrites
import Pinpoint.Proofs.Unfolding

namespace Pinpoint

/-! ### Unfolding as a substitution -/

namespace Expr

theorem bindFVars?_substFVar (e : Expr) (x : FVarId) (v : Expr) :
    e.bindFVars? (fun y => some (if y = x then v else .fvar y)) = some (e.substFVar x v) :=
  bindFVars?_eq_mapVars (fvarsIn_of_forall (fun _ => rfl) e) 0

/-- Free variables that are replaced one after the other by closed terms are
replaced at once. -/
theorem term_substFVars {σ : List (FVarId × Expr)} (hσ : ∀ x v, (x, v) ∈ σ → v.Scoped 0)
    (e : Expr) : (e.substFVars σ).term =
      e.term.subst (.ofFree fun x => ((fvar x).substFVars σ).term) := by
  induction σ generalizing e with
  | nil => exact (Term.subst_id e.term).symm
  | cons xv σ ih =>
    obtain ⟨x, v⟩ := xv
    have ih := ih fun y w hy => hσ y w (List.mem_cons_of_mem _ hy)
    have hone : ∀ e : Expr, (e.substFVar x v).term =
        e.term.subst (.ofFree fun y => ((fvar y).substFVar x v).term) := by
      intro e
      refine term_bindFVars? (fun y w hw => ?_) (bindFVars?_substFVar e x v)
      obtain rfl := Option.some.inj hw
      exact ⟨rfl, Scoped.substFVar (e := .fvar y) trivial (hσ x v List.mem_cons_self)⟩
    show ((e.substFVar x v).substFVars σ).term = _
    rw [ih, hone, Term.subst_subst]
    congr 1
    refine Subst.ext' (fun i => rfl) fun y => ?_
    exact (ih ((fvar y).substFVar x v)).symm

end Expr

namespace ProofState

/-- What unfolding puts for free variables. -/
def unfolding (st : ProofState) : Subst := .ofFree fun x => (st.unfoldHyps (.fvar x)).term

theorem Closed.term_unfoldHyps {st : ProofState} (hst : st.Closed) (e : Expr) :
    (st.unfoldHyps e).term = e.term.subst st.unfolding :=
  Expr.term_substFVars (fun x v hx => hst.hypValues x v (List.mem_reverse.mp hx)) e

end ProofState

/-- One more variable is replaced, by what its value becomes. -/
theorem Substitutes.insert {S : Signature} {Γ L : Locals} {σ σ' : Subst} {x : FVarId} {v A : Term}
    (hσ : Substitutes S σ Γ [] L []) (hΓ : Γ.WellTyped S) (hx : Γ.type x = none)
    (hv : HasType S Γ [] v A) {l : Level} (hA : HasType S Γ [] A (.sort l))
    (hself : σ'.free x = v.subst σ) (hother : ∀ y, y ≠ x → σ'.free y = σ.free y) :
    Substitutes S σ' (Γ.insert x A hA.closed) [] L [] where
  bound hi := by cases hi
  free := by
    -- a term that has a type does not mention the new variable
    have hold : ∀ {B T : Term}, HasType S Γ [] B T → B.subst σ' = B.subst σ := by
      refine fun hB => Term.subst_congr hB.uses (fun _ hi => absurd hi (Nat.not_lt_zero _)) ?_
      rintro y hy
      refine hother y ?_
      rintro rfl
      rw [hx] at hy
      cases hy
    intro y B hB
    by_cases hy : y = x
    · subst hy
      rw [Γ.type_insert_self] at hB
      obtain rfl := Option.some.inj hB
      rw [hself, hold hA]
      exact hv.subst hσ
    · rw [Locals.type_insert_of_ne hA.closed hy] at hB
      obtain ⟨l', hl'⟩ := hΓ hB
      rw [hother y hy, hold hl']
      exact hσ.free hB

/-! ### Typed proof states -/

/-- Variables that terms may mention after each number of rewritten hypotheses,
numbered from `n` on: they come before those that are yet to come. -/
structure Numbered (n : Nat) (p : Nat → FVarId → Prop) : Prop extends Growing n p where
  below : ∀ {k x}, p k x → x.id.toNat < n + k

namespace ProofState

/-- Whether the terms of a proof state have types, where `Γ` has the types of all
hypotheses there have been, and `L` those of the hypotheses that the proof of
`target` began with. -/
structure Typed {env : Environment} (henv : env.Ground) (p : Nat → FVarId → Prop) (L : Locals)
    (target : Expr) (Γ : Locals) (st : ProofState) : Prop where
  env_eq : st.env = env
  wellTyped : Γ.WellTyped henv.signature
  fvars : ∀ {x A}, Γ.type x = some A → p st.hypValues.length x
  /-- Rewritten hypotheses stand for proofs of their types. -/
  unfolds : Substitutes henv.signature st.unfolding Γ [] L []
  hyps : ∀ g, st.currentGoal? = some g → ∀ h ∈ g.hyps, Γ.type h.fvar = some h.type.term
  first : ∃ w, st.metas.get? ⟨0⟩ = some w ∧ w.type = target
  types : ∀ m w, st.metas.get? m = some w → HasType henv.signature Γ [] w.type.term (.sort .zero)
  /-- Values prove what they should, where metavariables have their types. -/
  values : ∀ m w v, st.metas.get? m = some w → w.value = some v → ∀ Γ' : Locals,
    (∀ {x A}, Γ.type x = some A → Γ'.type x = some A) →
    (∀ m' w', st.metas.get? m' = some w' → Γ'.type m'.toFVar = some w'.type.term) →
    HasType henv.signature Γ' [] v.term w.type.term

/-- What a rewrite of the statement at a site is made with: the statement, the
part of it that is searched, the match with its rule, the equation of the match
and that of the statement. -/
structure Makes (fuel : Nat) (st : ProofState) (sel : Selection) (site : Site) (target : Expr)
    (scope : Scope) (r : Rule) (m : Match) (eq₀ eq : Equation) : Prop where
  choice : st.Choice fuel sel site target scope r m
  evaluates : scope.evaluate st.env r m = .ok eq₀
  justifies : scope.justify st.env eq₀ = .ok eq
  replaces : ∃ st', (st.replace site eq).run = some (.ok st')

end ProofState

/-- Whether a checker takes the motive of a match that is not at the root for a
function from the type of the match to that of what is searched. -/
def Match.MotiveAccepted (checker : Checker) (scope : Scope) (r : Rule) (m : Match) : Prop :=
  ∀ body, m.path ≠ [] → scope.host.abstractAt? m.path = some body →
    ∃ fuel, (Checker.mk checker.env checker.locals fuel).AcceptsWithin
      (.lam .default (r.equationAt m.values).carrier body)
      (.arrow (r.equationAt m.values).carrier scope.type)

/-- Whether the search for a match and its equation are within the widths and the
ranges of the machine. -/
structure Match.Within (checker : Checker) (sel : Selection) (target : Expr) (scope : Scope)
    (r : Rule) (m : Match) (eq : Equation) : Prop where
  statement : target.Narrow
  draws : (sel.rules.map fun r => r.draws checker sel.maxDepth scope.host).sum < 3 * 2 ^ 62
  values : checker.valuesWithin [] r.varTypes m.values Checker.firstFresh
  rule : (r.equationAt m.values).statement.Narrow
  equation : eq.statement.Narrow

namespace ProofState

variable {env : Environment} {henv : env.Ground} {n : Nat} {p : Nat → FVarId → Prop}
  {L Γ : Locals} {first : Expr} {st st' : ProofState} {g : Goal} {site : Site} {x : FVarId}
  {target e : Expr} {scope : Scope} {r : Rule} {m : Match} {eq eq₀ : Equation} {fuel : Nat}
  {sel : Selection}

/-! ### The search -/

theorem mainChecker_eq_ok {checker : Checker} (h : (st.mainChecker fuel).run = some (.ok checker)) :
    ∃ g Γ', st.currentGoal? = some g ∧ st.localContext? g = some Γ' ∧
      checker = ⟨st.env, Γ', fuel⟩ := by
  obtain ⟨g, hg, h⟩ := QueryM.run_bind_eq_ok.mp h
  obtain ⟨Γ', hΓ', hchecker⟩ := Option.bind_eq_some_iff.mp (QueryM.run_lift_eq_ok.mp h)
  exact ⟨g, Γ', mainGoal_eq_ok.mp hg, hΓ', (Option.some.inj hchecker).symm⟩

/-- The values of the match that is chosen are accepted by a checker that has
drawn no variable yet. -/
theorem Choice.accepted (h : st.Choice fuel sel site target scope r m) {checker : Checker}
    (hchecker : (st.mainChecker fuel).run = some (.ok checker)) (henv : checker.env.FVarFree)
    (hlocals : checker.locals.FVarsIn FVarId.IsOuter) (hhost : scope.host.FVarsIn FVarId.IsOuter)
    (hdraws : (sel.rules.map fun r => r.draws checker sel.maxDepth scope.host).sum < 3 * 2 ^ 62) :
    (r.wellTyped checker m.subst).runFresh = some true ∧
      m.subst.draws checker.fuel < 3 * 2 ^ 62 := by
  obtain ⟨checker', found, i, hchecker', hfound, hi, hr⟩ := h.found
  obtain rfl := Except.ok.inj (Option.some.inj (hchecker.symm.trans hchecker'))
  have hroom : Checker.firstFresh.toNat +
      (sel.rules.map fun r => r.draws checker sel.maxDepth scope.host).sum < 2 ^ 64 := by
    rw [Environment.toNat_firstFresh]
    omega
  obtain ⟨hlist, hmem⟩ := findAll_eq_some_iff henv hlocals hhost UInt64.le_rfl hroom
  have hin := List.mem_of_getElem? hi
  rw [((hlist found).mp hfound).2] at hin
  obtain ⟨⟨r', j⟩, hj, hin⟩ := List.mem_flatMap.mp hin
  obtain ⟨m', hm', heq⟩ := List.mem_map.mp hin
  obtain ⟨rfl, rfl⟩ := Prod.mk.inj heq
  obtain rfl : r' = r := by
    have hget := List.mem_zipIdx' hj
    exact Option.some.inj ((List.getElem?_eq_some_iff.mpr ⟨hget.1, hget.2.symm⟩).symm.trans hr)
  have hrules := List.mem_of_getElem? hr
  obtain ⟨hocc, hpath⟩ := List.mem_filter.mp hm'
  obtain ⟨hsubterm, hclosed, hmatch, hfits⟩ := ((hmem r' hrules).2 m').mp hocc
  refine ⟨hfits, Nat.lt_of_le_of_lt ?_ hdraws⟩
  refine Nat.le_trans ?_ (List.le_sum_of_mem (List.mem_map_of_mem hrules))
  exact List.le_sum_of_mem (List.mem_map_of_mem
    (List.mem_filter.mpr ⟨Rule.mem_candidates_iff.mpr ⟨hsubterm, hclosed, hmatch⟩, hpath⟩))

/-- The equation along which a statement is replaced is about that statement. -/
theorem eqModMData_of_replace (htarget : (st.statementAt site).run = some (.ok target))
    (h : (st.replace site eq).run = some (.ok st')) : eq.lhs.eqModMData target = true := by
  obtain ⟨g, hg, htarget⟩ := QueryM.run_bind_eq_ok.mp htarget
  have hg := mainGoal_eq_ok.mp hg
  cases site with
  | goal =>
    obtain ⟨g', target', -, hg', htarget', hlhs, -⟩ := replaceTarget_eq_ok h
    obtain rfl := Option.some.inj (hg.symm.trans hg')
    have htarget := QueryM.run_lift_eq_ok.mp htarget
    exact Option.some.inj (htarget.symm.trans htarget') ▸ hlhs
  | hyp x =>
    obtain ⟨g', old, type, -, hg', hold, htype, hlhs, -⟩ := replaceHyp_eq_ok h
    obtain rfl := Option.some.inj (hg.symm.trans hg')
    obtain ⟨h', hh', htarget⟩ := QueryM.run_bind_eq_ok.mp htarget
    obtain rfl : old = h' := by
      unfold hypOf at hh'
      rw [hold] at hh'
      exact QueryM.run_pure_eq_ok.mp hh'
    have htarget := QueryM.run_lift_eq_ok.mp htarget
    exact Option.some.inj (htarget.symm.trans htype) ▸ hlhs

/-- A motive that a checker accepts is a function between the two types. -/
theorem hasType_motive {Γ : Locals} {Γ' : LocalContext} {fuel : Nat} {A B body : Expr} {X : Term}
    (hbelow : Γ.Below Checker.firstFresh.toNat)
    (haccepts : (Checker.mk env Γ' fuel).AcceptsWithin (.lam .default A body) (.arrow A B))
    (hknown : (Expr.lam .default A body).FVarsIn (Environment.Known Γ' Γ Checker.firstFresh))
    (hB : HasType henv.signature Γ [] B.term X) (hnarrow : B.Narrow) :
    body.Narrow ∧
      HasType henv.signature Γ [] (Expr.lam .default A body).term (.pi A.term B.term) := by
  obtain ⟨hlam, hlamNarrow⟩ := hasType_of_acceptsWithin henv haccepts hbelow hknown
  -- An arrow is a quantified type that does not depend on its variable.
  have harrow : (Expr.arrow A B).term = .pi A.term B.term := by
    rw [Expr.arrow, Expr.term, Expr.term_lift hnarrow (by decide)]
    exact congrArg (Term.pi A.term) (hB.closed.rename _)
  exact ⟨(Expr.narrow_lam hlamNarrow).2, harrow ▸ hlam⟩

namespace Typed

section
variable (hst : st.Typed henv p L first Γ) (hp : Numbered n p) (hroom : st.HasRoom n)
include hst hp hroom

theorem below : Γ.Below Checker.firstFresh.toNat := by
  have hlt : ∀ x, p st.hypValues.length x → x.id.toNat < Checker.firstFresh.toNat := by
    intro x hx
    have hbelow := hp.below hx
    have hhyps := hroom.hyps
    rw [show Checker.firstFresh.toNat = 2 ^ 62 from Eq.refl _]
    omega
  intro x A hA
  obtain ⟨l, hl⟩ := hst.wellTyped hA
  refine ⟨hlt x (hst.fvars hA), hl.uses.mono (Nat.le_refl 0) fun y hy => ?_⟩
  obtain ⟨B, hB⟩ := Option.isSome_iff_exists.mp hy
  exact hlt y (hst.fvars hB)

variable (hlin : Linear n p st) (hg : st.currentGoal? = some g)
include hlin hg

/-- The variables of the goal are known to its checker. -/
theorem known {Γ' : LocalContext} (hΓ' : st.localContext? g = some Γ')
    (hx : p st.hypValues.length x) : Environment.Known Γ' Γ Checker.firstFresh x := by
  have hbelow := hp.below hx
  have hhyps := hroom.hyps
  refine ⟨?_, fun entry hentry => ?_⟩
  · rw [show Checker.firstFresh.toNat = 2 ^ 62 from Eq.refl _]
    omega
  · have hfvar : entry.fvar = x := by simpa using List.find?_some hentry
    have hnot : ∀ {y}, p st.hypValues.length y → ¬ st.metas.Has y :=
      fun hy => Linear.not_has hp.toGrowing hroom hy
    rcases mem_localContext hΓ' (List.mem_of_find?_eq_some hentry) with
      ⟨h, hh, hfvar', hinst⟩ | ⟨hmeta, -⟩
    · obtain rfl : h.fvar = x := hfvar'.symm.trans hfvar
      have htype := MetaContext.eq_of_instantiate? ((hlin.hyps g hg h hh).2.mono fun _ => hnot) hinst
      rw [← htype]
      exact hst.hyps g hg h hh
    · exact absurd (hfvar ▸ hmeta) (hnot hx)

/-- The statement at a site has a type. -/
theorem statementAt (he : (st.statementAt site).run = some (.ok e)) :
    ∃ X, HasType henv.signature Γ [] e.term X := by
  obtain ⟨g', hg', he⟩ := hlin.statementAt_eq hp.toGrowing hroom he
  obtain rfl := Option.some.inj (hg.symm.trans hg')
  cases site with
  | goal =>
    obtain rfl : g.target = e := he
    exact ⟨_, hst.types _ _ (hlin.hole g hg)⟩
  | hyp x =>
    obtain ⟨h, hh, -, rfl⟩ := he
    obtain ⟨l, hl⟩ := hst.wellTyped (hst.hyps g hg h hh)
    exact ⟨_, hl⟩

/-- A rule that is elaborated has a type. -/
theorem rule (hS : henv.signature.WellTyped) {spec : RuleSpec} (hspec : spec.FVarsIn (p 0))
    (h : (st.elaborateRule fuel g spec).run = some (.ok r))
    (hwithin : ∀ checker, st.checker? fuel g = some checker → checker.InfersWithin r.proof) :
    ∃ T, r.TypedBy henv.signature Γ T := by
  have hle : ∀ x, p 0 x → p st.hypValues.length x := fun _ => hp.le (Nat.zero_le _)
  have hhas : ∀ x, p st.hypValues.length x → ¬ st.metas.Has x :=
    fun _ => Linear.not_has hp.toGrowing hroom
  obtain ⟨reversed, type, statement, hterm, htype, hstatement, hr⟩ := elaborateRule_eq_ok h
  -- The proof of the rule mentions no metavariable, so that it is inferred as it stands.
  have hproof := ruleTerm_fvarsIn (hlin.env.mono hle) hhas (hlin.hyps g hg) (hspec.mono hle) hterm
  obtain ⟨Γ', e, T, s, hΓ', he, hT, hinst⟩ := inferType_eq_ok htype
  obtain rfl := MetaContext.eq_of_instantiate? (hproof.mono hhas) he
  have hknown := hproof.mono fun x hx => hst.known hp hroom hlin hg hΓ' hx
  -- Neither does its type, as the types of the hypotheses do not.
  have hTp : T.FVarsIn (p st.hypValues.length) := by
    refine (hlin.env.mono hle).inferType (fun _ => id) (fun x entry hx hentry => ?_) hproof hT
    have hA := (hst.known hp hroom hlin hg hΓ' hx).2 entry hentry
    obtain ⟨h, hh, -, htype⟩ := (mem_localContext hΓ' (List.mem_of_find?_eq_some hentry)).resolve_right
      fun hmeta => hhas x hx (by
        rw [← show entry.fvar = x by simpa using List.find?_some hentry]
        exact hmeta.1)
    have htypep := (hlin.hyps g hg h hh).2
    rwa [← MetaContext.eq_of_instantiate? (htypep.mono hhas) htype]
  obtain rfl := MetaContext.eq_of_instantiate? (hTp.mono hhas) hinst
  -- The inference goes through within the limits, so that it is a typing.
  have hchecker : st.checker? fuel g = some ⟨st.env, Γ', fuel⟩ := by
    rw [checker?, hΓ']
    exact Eq.refl _
  have hinfers := hwithin _ hchecker
  obtain rfl := hst.env_eq
  obtain ⟨hproofT, hnarrow⟩ := hasType_of_infersWithin henv hinfers (hst.below hp hroom) hknown hT
  have hsort := Environment.inferType_hasUniverse henv hS hst.wellTyped
    ⟨hst.below hp hroom, hknown, hinfers.within, hinfers.room⟩ hT
  rw [hr]
  exact ⟨T, hproofT, hsort, hnarrow, Eq.refl _, hstatement⟩

omit hst in
/-- The variables of the context are none that a checker draws. -/
theorem fvarsIn_localContext {Γ' : LocalContext} (hΓ' : st.localContext? g = some Γ') :
    Γ'.FVarsIn FVarId.IsOuter := by
  have hhyps := hroom.hyps
  have hmetas := hroom.metas
  have houter : ∀ x, p st.hypValues.length x → x.IsOuter := by
    intro x hx
    have hbelow := hp.below hx
    exact FVarId.isOuter_iff.mpr (by omega)
  have hhas : ∀ x, p st.hypValues.length x → ¬ st.metas.Has x :=
    fun _ => Linear.not_has hp.toGrowing hroom
  intro entry hentry
  rcases mem_localContext hΓ' hentry with ⟨h, hh, hfvar, hinst⟩ | ⟨hhole, v, hv, hinst⟩
  · obtain ⟨hx, htype⟩ := hlin.hyps g hg h hh
    rw [hfvar, ← MetaContext.eq_of_instantiate? (htype.mono hhas) hinst]
    exact ⟨houter _ hx, htype.mono houter⟩
  · have htype := hlin.types v hv
    have hlt := ((MetaContext.has_iff (by omega)).mp hhole).2
    rw [← MetaContext.eq_of_instantiate? (htype.mono hhas) hinst]
    exact ⟨FVarId.isOuter_iff.mpr (by omega), htype.mono houter⟩

omit hg in
/-- The equation of a rewrite has a type if its rule and its motive have one. -/
theorem equation (hprelude : env.ExtendsPrelude) {T : Expr}
    (hT : r.TypedBy henv.signature Γ T)
    (hstates : r.States fun _ => Expr.FVarsIn (p st.hypValues.length))
    (hmakes : st.Makes fuel sel site target scope r m eq₀ eq) {checker : Checker}
    (hchecker : (st.mainChecker fuel).run = some (.ok checker))
    (hwithin : m.Within checker sel target scope r eq₀) (hmotive : m.MotiveAccepted checker scope r) :
    eq.Typed henv.signature Γ ∧ eq.lhs.term = target.term := by
  obtain ⟨hchoice, heval, hjust, st', hreplace⟩ := hmakes
  obtain ⟨g, Γ', hg, hΓ', rfl⟩ := mainChecker_eq_ok hchecker
  have hbelow := hst.below hp hroom
  have hknown := fun x hx => hst.known hp hroom hlin hg hΓ' (x := x) hx
  have houter : ∀ x, p st.hypValues.length x → x.IsOuter :=
    fun x hx => FVarId.isOuter_iff.mpr (hknown x hx).1
  have hP := Expr.fvarsIn_hereditary (p st.hypValues.length)
  have htarget := hlin.statementAt_fvarsIn hp.toGrowing hroom hchoice.target_eq
  obtain ⟨hhost, htype, -⟩ := hP.select htarget hchoice.scope_eq
  obtain ⟨X, hX⟩ := hst.statementAt hp hroom hlin hg hchoice.target_eq
  obtain rfl := hst.env_eq
  -- The values were accepted for the variables of the rule, so its instance has a type.
  obtain ⟨hvals, -⟩ := Scope.evaluate_eq_ok heval
  obtain ⟨checker', -, hm⟩ := hchoice.isMatch
  have hlen := (hm.scoped_values hvals).1
  have hvalues := hP.values hm hvals hhost
  obtain ⟨hfits, hdraws⟩ := hchoice.accepted hchecker henv.fvarFree
    (fvarsIn_localContext hp hroom hlin hg hΓ') (hhost.mono houter) hwithin.draws
  obtain ⟨s', hfits⟩ := Supply.runFresh_eq_some.mp hfits
  rw [hvals] at hfits hdraws
  obtain ⟨htypesN, -⟩ := Expr.narrow_telescope hT.narrow
  obtain ⟨hnarrow, hargs⟩ := argsTyped_of_valuesHaveTypes henv hbelow
    (hT.varTypes ▸ htypesN) (List.forall_mem_nil _) (fun v hv => (hvalues v hv).mono hknown) hlen.symm
    (by
      rw [List.nil_append, hlen, hT.varTypes]
      exact Nat.lt_of_le_of_lt T.length_telescope_le_span hT.narrow)
    hfits hwithin.values (by rw [Environment.toNat_firstFresh]; omega)
  have hinst := hT.equationAt hprelude hnarrow hlen hargs
  -- The motive leads from there to what is searched, and the congruence to the statement.
  obtain ⟨hscope, hscopeN⟩ := Scope.hasType_type hprelude hchoice.scope_eq
    hwithin.statement hX
  have hcarrier := (hP.states_equationAt hstates hlen hvalues).carrier
  have heq₀ : eq₀.Typed henv.signature Γ := by
    refine Scope.typed_evaluate hprelude hinst hwithin.rule hscope (fun body hpath hbody => ?_) heval
    obtain ⟨fuel', haccepts⟩ := hmotive body hpath hbody
    exact hasType_motive hbelow haccepts
      ⟨hcarrier.mono hknown, (hP.abstractAt? (n := 0) hhost hbody).mono hknown⟩ hscope hscopeN
  have hlhs := Expr.term_eq_of_eqModMData (eqModMData_of_replace hchoice.target_eq hreplace)
  exact ⟨Scope.typed_justify hprelude hchoice.scope_eq hwithin.statement hX heq₀ hwithin.equation
    hjust hlhs, hlhs⟩

end

end Typed

end ProofState

end Pinpoint
