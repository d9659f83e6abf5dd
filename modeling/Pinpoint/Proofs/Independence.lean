/-
Rewrites everywhere, site by site.

A rewrite everywhere does at each statement what a rewrite at that statement
alone does.  By the time it gets there, hypotheses before it may have been
replaced; but a hypothesis that something mentions is not replaced, so all that
the statement mentions is still as it was, and so is what the search for
occurrences sees of the context.

* `Checker.Agrees.findAll_eq` — a search looks its context up at what is searched
  mentions, and nowhere else;
* `ProofState.selectedEquation_congr` — so a statement gets the same equations in
  contexts that agree there;
* `Selection.Amid` — what is known on the way through the hypotheses, and
  `Amid.sweeps`, what becomes of each of them;
* `rewriteEverywhere_eq_union` — a rewrite everywhere is made of the rewrites at
  each hypothesis and at the target alone.
-/
import Pinpoint.Proofs.Candidates
import Pinpoint.Proofs.Everywhere
import Pinpoint.Proofs.Locality
import Pinpoint.Proofs.Weakening

namespace Pinpoint

/-! ### Searches in contexts that agree -/

theorem Supply.keep_congr {α : Type} {test test' : α → Supply Bool} {as : List α}
    (h : ∀ a ∈ as, test a = test' a) : keep test as = keep test' as := by
  induction as with
  | nil => rfl
  | cons a as ih =>
    rw [keep, keep, h a List.mem_cons_self, ih fun b hb => h b (List.mem_cons_of_mem a hb)]

section
variable {p : FVarId → Prop} {checker checker' : Checker} {r : Rule}

/-- Whether two checkers differ at most in what their contexts say of other free
variables than the given ones. -/
structure Checker.Agrees (p : FVarId → Prop) (checker checker' : Checker) : Prop where
  env : checker.env = checker'.env
  fuel : checker.fuel = checker'.fuel
  find?_eq : ∀ x, p x → checker.locals.find? x = checker'.locals.find? x

namespace Checker.Agrees

variable (h : checker.Agrees p checker')
include h

theorem inferType_eq {e : Expr} (he : e.FVarsIn p) : checker.inferType e = checker'.inferType e := by
  rw [Checker.inferType, Checker.inferType, h.env, h.fuel]
  exact Environment.inferType_congr h.find?_eq he

theorem isDefEq_eq : checker.isDefEq = checker'.isDefEq := by
  funext t a b
  rw [Checker.isDefEq, Checker.isDefEq, h.env, h.fuel]

theorem valuesHaveTypes_eq {values : Substitution} (hvalues : ∀ v, some v ∈ values → v.FVarsIn p)
    (earlier : Substitution) (types : List Expr) :
    valuesHaveTypes checker earlier types values = valuesHaveTypes checker' earlier types values := by
  induction types generalizing earlier values with
  | nil => cases values <;> rfl
  | cons type types ih =>
    cases values with
    | nil => rfl
    | cons value values =>
      have hrest := ih fun v hv => hvalues v (List.mem_cons_of_mem _ hv)
      cases value with
      | none => simp only [valuesHaveTypes, hrest]
      | some v =>
        have hv := h.inferType_eq (hvalues v List.mem_cons_self)
        simp only [valuesHaveTypes, hrest, hv, h.isDefEq_eq]

theorem accepts_eq {e : Expr} (he : e.FVarsIn p) {m : Match} (hm : m ∈ r.candidates e) :
    r.accepts checker m = r.accepts checker' m := by
  obtain ⟨hsubterm, -, hmatch⟩ := Rule.mem_candidates_iff.mp hm
  refine h.valuesHaveTypes_eq (Expr.FVarsIn.of_matchAt? (he.subterm? hsubterm) (fun v hv => ?_)
    hmatch) _ _
  simp at hv

/-- A search looks its context up at what is searched mentions, and nowhere
else. -/
theorem findMatches_eq {e : Expr} (he : e.FVarsIn p) (limit : Option Nat) :
    r.findMatches checker e limit = r.findMatches checker' e limit := by
  rw [Rule.findMatches_eq_keep, Rule.findMatches_eq_keep]
  exact Supply.keep_congr fun m hm => h.accepts_eq he (List.mem_of_mem_filter hm)

theorem findAll_eq {e : Expr} (he : e.FVarsIn p) (limit : Option Nat) (rules : List Rule) :
    findAll checker limit rules e = findAll checker' limit rules e := by
  unfold findAll
  generalize 0 = i
  induction rules generalizing i with
  | nil => rfl
  | cons r rules ih => rw [findAllFrom, findAllFrom, h.findMatches_eq he, ih]

end Checker.Agrees

end

/-! ### Contexts that agree -/

section
variable {α : Type} {x : α → FVarId} {n : α → Name} {f : α → Option Expr}

/-- Contexts say the same of a variable if they are built from the same entries
but for some that are about other variables. -/
theorem find?_foldlM_push {l l' : List α} {y : FVarId} {Γ Γ' Γ₁ Γ₁' : LocalContext}
    (hl : List.Forall₂ (fun a a' => a' = a ∨ x a ≠ y ∧ x a' ≠ y) l l')
    (h : l.foldlM (fun Γ a => do return Γ.push (x a) (n a) (← f a)) Γ = some Γ₁)
    (h' : l'.foldlM (fun Γ a => do return Γ.push (x a) (n a) (← f a)) Γ' = some Γ₁')
    (hΓ : Γ.find? y = Γ'.find? y) : Γ₁.find? y = Γ₁'.find? y := by
  induction hl generalizing Γ Γ' with
  | nil =>
    obtain rfl : Γ = Γ₁ := by simpa using h
    obtain rfl : Γ' = Γ₁' := by simpa using h'
    exact hΓ
  | @cons a a' l l' ha _ ih =>
    obtain ⟨type, htype, h⟩ := foldlM_push_cons.mp h
    obtain ⟨type', htype', h'⟩ := foldlM_push_cons.mp h'
    refine ih h h' ?_
    rw [LocalContext.find?_push, LocalContext.find?_push]
    rcases ha with rfl | ⟨hne, hne'⟩
    · rw [Option.some.inj (htype'.symm.trans htype), hΓ]
    · rw [if_neg hne, if_neg hne', hΓ]

end

namespace ProofState

variable {fuel : Nat} {st st' : ProofState} {g g' : Goal} {sel : Selection} {site : Site}
  {p : FVarId → Prop}

/-- The checkers of two goals agree on what both have the same hypotheses of. -/
theorem checker?_agrees (henv : st'.env = st.env) (hmetas : st'.metas = st.metas)
    (htypes : ∀ h ∈ g.hyps, ∃ type, st.metas.instantiate? h.type = some type)
    (htypes' : ∀ h ∈ g'.hyps, ∃ type, st.metas.instantiate? h.type = some type)
    (hhyps : ∀ y, p y →
      List.Forall₂ (fun h h' => h' = h ∨ h.fvar ≠ y ∧ h'.fvar ≠ y) g.hyps g'.hyps) :
    Option.Rel (Checker.Agrees p) (st.checker? fuel g) (st'.checker? fuel g') := by
  obtain ⟨Γ, hΓ⟩ : ∃ Γ, st.hypContext? g = some Γ := exists_foldlM_push_iff.mpr htypes
  obtain ⟨Γ', hΓ'⟩ : ∃ Γ', st'.hypContext? g' = some Γ' :=
    exists_foldlM_push_iff.mpr (hmetas ▸ htypes')
  have hfind : ∀ y, p y → Γ.find? y = Γ'.find? y := fun y hy =>
    find?_foldlM_push (x := Hypothesis.fvar) (f := fun h => st.metas.instantiate? h.type)
      (hhyps y hy) hΓ (hmetas ▸ hΓ') (Eq.refl _)
  rw [checker?_of_hypContext? hΓ, checker?_of_hypContext? hΓ']
  -- The metavariables are added to both of them in the same way.
  cases hadd : st.addMetas? Γ with
  | none =>
    have hadd' : st'.addMetas? Γ' = none := by
      refine Option.eq_none_iff_forall_ne_some.mpr fun Γ₁' hΓ₁' => ?_
      obtain ⟨Γ₁, hΓ₁⟩ : ∃ Γ₁, st.addMetas? Γ = some Γ₁ :=
        exists_foldlM_push_iff.mpr (hmetas ▸ exists_foldlM_push_iff.mp ⟨Γ₁', hΓ₁'⟩)
      exact nomatch hadd.symm.trans hΓ₁
    rw [hadd']
    exact .none
  | some Γ₁ =>
    obtain ⟨Γ₁', hΓ₁'⟩ : ∃ Γ₁', st'.addMetas? Γ' = some Γ₁' :=
      exists_foldlM_push_iff.mpr (hmetas ▸ exists_foldlM_push_iff.mp ⟨Γ₁, hadd⟩)
    rw [hΓ₁']
    refine .some ⟨henv.symm, Eq.refl _, fun y hy => ?_⟩
    have hsame : List.Forall₂ (fun a a' : MetaId × Metavariable =>
        a' = a ∨ a.1.toFVar ≠ y ∧ a'.1.toFVar ≠ y) st.metas.toList st.metas.toList :=
      List.forall₂_same.mpr fun _ _ => .inl (Eq.refl _)
    exact find?_foldlM_push (x := fun a : MetaId × Metavariable => a.1.toFVar)
      (f := fun a => st.metas.instantiate? a.2.type) hsame hadd (hmetas ▸ hΓ₁') (hfind y hy)

theorem mainChecker_run (fuel : Nat) (hg : st.currentGoal? = some g) :
    (st.mainChecker fuel).run = (st.checker? fuel g).map .ok := by
  unfold mainChecker
  rw [QueryM.run_bind_of_ok (mainGoal_eq_ok.mpr hg)]
  cases st.checker? fuel g <;> rfl

/-- Goals that have the same statement at a site, and the same hypotheses of what
it mentions, have the same equations to choose from. -/
theorem selectedEquation_congr (hg : st.currentGoal? = some g) (hg' : st'.currentGoal? = some g')
    (henv : st'.env = st.env)
    (htarget : (st'.statementAt site).run = (st.statementAt site).run)
    (hmentions : ∀ e, (st.statementAt site).run = some (.ok e) → e.FVarsIn p)
    (hchecker : Option.Rel (Checker.Agrees p) (st.checker? fuel g) (st'.checker? fuel g')) :
    (st'.selectedEquation fuel sel site).run = (st.selectedEquation fuel sel site).run := by
  have hmain := mainChecker_run fuel hg
  have hmain' := mainChecker_run fuel hg'
  unfold selectedEquation
  cases h : (st.statementAt site).run with
  | none => rw [QueryM.run_bind_of_none h, QueryM.run_bind_of_none (htarget.trans h)]
  | some r =>
    cases r with
    | error e => rw [QueryM.run_bind_of_error h, QueryM.run_bind_of_error (htarget.trans h)]
    | ok target =>
      rw [QueryM.run_bind_of_ok h, QueryM.run_bind_of_ok (htarget.trans h)]
      cases hscope : Scope.select target sel.side with
      | error e => rfl
      | ok scope =>
        have hhost := ((Expr.fvarsIn_hereditary p).select (hmentions target h) hscope).1
        rw [QueryM.run_bind_of_ok (QueryM.run_ofExcept _), QueryM.run_bind_of_ok (QueryM.run_ofExcept _)]
        generalize st.checker? fuel g = c at hmain hchecker
        generalize st'.checker? fuel g' = c' at hmain' hchecker
        cases hchecker with
        | none => rw [QueryM.run_bind_of_none hmain, QueryM.run_bind_of_none hmain']
        | some hagrees =>
          rw [QueryM.run_bind_of_ok hmain, QueryM.run_bind_of_ok hmain', henv,
            hagrees.findAll_eq hhost]

/-! ### Replacing the hypothesis at a place -/

section
variable {α : Type} {q : α → Bool} {l before after : List α} {a : α}

/-- The first element of a kind, if there is none before it. -/
theorem find?_of_append_cons (ha : q a = true) (hbefore : ∀ b ∈ before, q b = false) :
    (before ++ a :: after).find? q = some a :=
  List.find?_eq_some_iff_append.mpr ⟨ha, before, after, Eq.refl _, fun b hb => by simp [hbefore b hb]⟩

theorem findIdx_of_append_cons (ha : q a = true) (hbefore : ∀ b ∈ before, q b = false) :
    (before ++ a :: after).findIdx q = before.length := by
  rw [List.findIdx_append, List.findIdx_cons, ha, if_neg]
  · exact Nat.zero_add _
  · rw [List.findIdx_lt_length]
    rintro ⟨b, hb, hq⟩
    exact absurd hq (by simp [hbefore b hb])

end

section
variable {before after : List Hypothesis} {h : Hypothesis} {eq : Equation} {type : Expr}
  (hg : st.currentGoal? = some g) (hhyps : g.hyps = before ++ h :: after)
  (hbefore : ∀ k ∈ before, k.fvar ≠ h.fvar)
include hg hhyps hbefore

omit hg in
theorem run_hypOf : (hypOf g h.fvar).run = some (.ok h) := by
  unfold hypOf
  rw [hhyps, find?_of_append_cons (by simp) (by simpa using hbefore)]
  rfl

theorem statementAt_hyp :
    (st.statementAt (.hyp h.fvar)).run = (st.metas.instantiate? h.type).map .ok := by
  unfold statementAt
  rw [QueryM.run_bind_of_ok (mainGoal_eq_ok.mpr hg), QueryM.run_bind_of_ok (run_hypOf hhyps hbefore)]
  cases st.metas.instantiate? h.type <;> rfl

/-- A hypothesis is replaced exactly if its type is the left side of the
equation, nothing else mentions it, and the cast can be built. -/
theorem replaceHyp_eq_ok_iff (htype : st.metas.instantiate? h.type = some type) :
    (st.replaceHyp h.fvar eq).run = some (.ok st') ↔
      eq.lhs.eqModMData type = true ∧
        ((before ++ after).any (mentions h.fvar) = false ∧ g.target.hasFVar h.fvar = false) ∧
        ∃ value, eq.castHyp st.env (.fvar h.fvar) = .ok value ∧
          st' = { st with
            goals := { g with hyps := before ++ ⟨⟨st.nextFVar⟩, h.name, eq.rhs, some value⟩ ::
              after } :: st.goals.tail
            nextFVar := st.nextFVar + 1
            hypValues := st.hypValues ++ [(⟨st.nextFVar⟩, value)] } := by
  have hidx : g.hyps.findIdx (fun k => k.fvar = h.fvar) = before.length := by
    rw [hhyps, findIdx_of_append_cons (by simp) (by simpa using hbefore)]
  have herase : g.hyps.eraseIdx before.length = before ++ after := by
    rw [hhyps, List.eraseIdx_append_of_length_le (Nat.le_refl _), Nat.sub_self]
    rfl
  have hset : ∀ k, g.hyps.set before.length k = before ++ k :: after := by
    intro k
    rw [hhyps, List.set_append_right _ _ (Nat.le_refl _), Nat.sub_self]
    rfl
  constructor
  · intro hreplace
    obtain ⟨g', old, type', value, hg', hold, htype', hlhs, ⟨hothers, htarget⟩, hcast, hst'⟩ :=
      replaceHyp_eq_ok hreplace
    obtain rfl := Option.some.inj (hg.symm.trans hg')
    rw [hhyps, find?_of_append_cons (by simp) (by simpa using hbefore)] at hold
    obtain rfl := Option.some.inj hold
    obtain rfl := Option.some.inj (htype.symm.trans htype')
    rw [hidx, hset] at hst'
    rw [hidx, herase] at hothers
    exact ⟨hlhs, ⟨List.any_eq_false.mpr (by simpa using hothers), htarget⟩, value, hcast, hst'⟩
  · rintro ⟨hlhs, ⟨hothers, htarget⟩, value, hcast, rfl⟩
    have hreplace := replaceHyp_of hg (run_hypOf hhyps hbefore) htype hlhs
      (by rw [hidx, herase, hothers, htarget]; rfl) hcast
    rwa [hidx, hset] at hreplace

end

/-- A target is replaced exactly if it is the left side of the equation, and the
cast can be built. -/
theorem replaceTarget_eq_ok_iff {eq : Equation} {target : Expr} (hg : st.currentGoal? = some g)
    (htarget : st.metas.instantiate? g.target = some target) :
    (st.replaceTarget eq).run = some (.ok st') ↔
      eq.lhs.eqModMData target = true ∧
        ∃ proof, eq.castGoal st.env st.metas.nextId.toExpr = .ok proof ∧
          st' = { st with
            goals := ⟨st.metas.nextId, eq.rhs, g.hyps⟩ :: st.goals.tail
            metas := (st.metas.push eq.rhs).assign g.metaId proof } := by
  constructor
  · intro hreplace
    obtain ⟨g', target', proof, hg', htarget', hlhs, hcast, hst'⟩ := replaceTarget_eq_ok hreplace
    obtain rfl := Option.some.inj (hg.symm.trans hg')
    obtain rfl := Option.some.inj (htarget.symm.trans htarget')
    exact ⟨hlhs, proof, hcast, hst'⟩
  · rintro ⟨hlhs, proof, hcast, rfl⟩
    exact replaceTarget_of hg htarget hlhs hcast

end ProofState

/-! ### States to begin with -/

/-- Whether a goal is in scope with its hypotheses numbered in order, and the
counter stands above them, with variables left for all of them. -/
structure ProofState.IsNumbered (st : ProofState) (g : Goal) : Prop
    extends BeginsInScope st.env g.target g.hyps where
  current : st.currentGoal? = some g
  next : g.hyps.length ≤ st.nextFVar.toNat
  room : st.nextFVar.toNat + g.hyps.length ≤ 2 ^ 40
  metas : st.metas.metas.length ≤ 2 ^ 40

/-- Whether a rule is about hypotheses of a goal, and about what the types of
those mention. -/
structure Goal.Supports (g : Goal) (rules : List Rule) : Prop where
  used : ∀ x, Uses rules x → IsHyp g.hyps x ∨ x.IsDrawn
  states : ∀ r ∈ rules, r.States fun _ => Expr.FVarsIn fun x => g.Reaches rules x ∨ x.IsDrawn

namespace ProofState.IsNumbered

variable {st : ProofState} {g : Goal} {before after : List Hypothesis} {h : Hypothesis}
  {x : FVarId} {e : Expr}

section
variable (hst : st.IsNumbered g)
include hst

theorem id_lt (hx : IsHyp g.hyps x) : x.id.toNat < g.hyps.length := by
  obtain ⟨h, hh, rfl⟩ := hx
  have hmem : h.fvar.id.toNat ∈ g.hyps.map fun h => h.fvar.id.toNat :=
    List.mem_map_of_mem (f := fun h => h.fvar.id.toNat) hh
  rwa [hst.ids, List.mem_range] at hmem

/-- No hypothesis and nothing that is drawn is a metavariable. -/
theorem not_has (hx : IsHyp g.hyps x ∨ x.IsDrawn) : ¬ st.metas.Has x := by
  have hmetas := hst.metas
  rw [MetaContext.has_iff (by omega)]
  rcases hx with hx | hx
  · have hlt := hst.id_lt hx
    have hroom := hst.room
    omega
  · have hle : 2 ^ 61 ≤ x.id.toNat := hx
    omega

theorem instantiate?_eq (he : e.FVarsIn fun x => IsHyp g.hyps x ∨ x.IsDrawn) :
    st.metas.instantiate? e = some e :=
  MetaContext.instantiateUpTo_eq_self
    (he.mono fun _ hx => MetaContext.valueOf?_eq_none_of_not_has (hst.not_has hx))

/-- The number of a hypothesis is its place. -/
theorem id_eq (hsplit : g.hyps = before ++ h :: after) : h.fvar.id.toNat = before.length := by
  have hids := congrArg (·[before.length]?) hst.ids
  simp only [hsplit, List.map_append, List.map_cons, List.length_append, List.length_cons] at hids
  rw [List.getElem?_append_right (by simp), List.length_map, Nat.sub_self, List.getElem?_cons_zero,
    List.getElem?_range (by omega)] at hids
  exact Option.some.inj hids

/-- A hypothesis mentions those before it. -/
theorem isHyp_of_mentions (hsplit : g.hyps = before ++ h :: after)
    (hx : ProofState.mentions x h = true) : IsHyp before x := by
  obtain ⟨htype, hvalue⟩ := hst.earlier _ _ _ hsplit
  rw [ProofState.mentions, Bool.or_eq_true] at hx
  rcases hx with hx | hx
  · exact Expr.fvarsIn_iff.mp htype x hx
  · obtain ⟨v, hv, hx⟩ := (Option.any_eq_true _ _).mp hx
    exact Expr.fvarsIn_iff.mp (hvalue v hv) x hx

/-- No two hypotheses have the same variable. -/
theorem not_isHyp_before (hsplit : g.hyps = before ++ h :: after) : ¬ IsHyp before h.fvar := by
  rintro ⟨k, hk, heq⟩
  obtain ⟨before₁, before₂, rfl⟩ := List.append_of_mem hk
  have hk := hst.id_eq (show g.hyps = before₁ ++ k :: (before₂ ++ h :: after) by simpa using hsplit)
  have hh := hst.id_eq hsplit
  rw [← heq, hk, List.length_append, List.length_cons] at hh
  omega

end

/-- What is elaborated for a goal is about it. -/
theorem supports (hst : st.IsNumbered g) {fuel : Nat} {specs : List RuleSpec} {rules : List Rule}
    (hspecs : ∀ spec ∈ specs, spec.FVarsIn (IsHyp g.hyps))
    (h : (st.elaborateRules fuel g specs).run = some (.ok rules)) : g.Supports rules := by
  have hused : ∀ r ∈ rules, r.proof.FVarsIn fun x => IsHyp g.hyps x ∨ x.IsDrawn := by
    intro r hr
    obtain ⟨spec, hspec, h⟩ := ProofState.elaborateRules_eq_ok h hr
    obtain ⟨reversed, -, -, hterm, -⟩ := ProofState.elaborateRule_eq_ok h
    exact ProofState.ruleTerm_fvarsIn (hst.env.mono fun _ => .inr) (fun x => hst.not_has)
      (fun h hh => ⟨.inl ⟨h, hh, Eq.refl _⟩, (hst.isHyp hh).1.mono fun _ => .inl⟩)
      ((hspecs spec hspec).mono fun _ => .inl) hterm
  have hreaches : ∀ x, g.Reaches rules x → IsHyp g.hyps x ∨ x.IsDrawn := by
    rintro x (⟨r, hr, hx⟩ | ⟨h, hh, -, hx⟩)
    · exact Expr.fvarsIn_iff.mp (hused r hr) x hx
    · exact .inl (Expr.fvarsIn_iff.mp (hst.isHyp hh).1 x hx)
  refine ⟨fun x ⟨r, hr, hx⟩ => Expr.fvarsIn_iff.mp (hused r hr) x hx, fun r hr => ?_⟩
  obtain ⟨spec, -, h⟩ := ProofState.elaborateRules_eq_ok h hr
  refine ProofState.states_elaborateRule (p := fun x => r.proof.hasFVar x)
    (hst.env.mono fun _ => .inr) (fun x hx => .inl (.inl ⟨r, hr, hx⟩))
    (fun x hx => hst.not_has (hx.elim (hreaches x) .inr)) (fun h hh hx => ?_)
    (Expr.fvarsIn_iff.mpr fun _ => id) h
  exact Expr.fvarsIn_iff.mpr fun y hy => .inl (.inr ⟨h, hh, ⟨r, hr, hx⟩, hy⟩)

end ProofState.IsNumbered

/-! ### On the way through the hypotheses -/

/-- Whether a hypothesis that has been passed is replaced by a new one: nothing
that is still to come mentions it, and the new one mentions hypotheses that have
been passed, and what the rules are about. -/
structure Goal.Supersedes (g : Goal) (rules : List Rule) (before after : List Hypothesis)
    (h h' : Hypothesis) : Prop where
  name : h'.name = h.name
  new : g.hyps.length ≤ h'.fvar.id.toNat
  unmentioned : ∀ k ∈ after, ProofState.mentions h.fvar k = false
  target : g.target.hasFVar h.fvar = false
  known : ∀ y, ProofState.mentions y h' = true → IsHyp before y ∨ y.IsDrawn ∨ g.Reaches rules y

/-- What is known of the state while the hypotheses are gone through: those
before are kept or replaced, and the others are as they were. -/
structure Selection.Amid (sel : Selection) (st₀ : ProofState) (g : Goal)
    (before before' after : List Hypothesis) (st : ProofState) : Prop where
  split : g.hyps = before ++ after
  env : st.env = st₀.env
  metas : st.metas = st₀.metas
  current : st.currentGoal? = some { g with hyps := before' ++ after }
  next : g.hyps.length ≤ st.nextFVar.toNat
  room : st.nextFVar.toNat + after.length ≤ 2 ^ 40
  passed : List.Forall₂ (fun h h' => h' = h ∨ g.Supersedes sel.rules before after h h')
    before before'

theorem exists_of_forall₂_of_mem {α β : Type} {R : α → β → Prop} {l : List α} {l' : List β}
    (h : List.Forall₂ R l l') {b : β} (hb : b ∈ l') : ∃ a ∈ l, R a b := by
  induction h with
  | nil => cases hb
  | cons hab _ ih =>
    rcases List.mem_cons.mp hb with rfl | hb
    · exact ⟨_, List.mem_cons_self, hab⟩
    · obtain ⟨a, ha, hab⟩ := ih hb
      exact ⟨a, List.mem_cons_of_mem _ ha, hab⟩

/-- What rules are about is a hypothesis, or drawn. -/
theorem Goal.Supports.isHyp {g : Goal} {rules : List Rule} {st : ProofState} {x : FVarId}
    (hrules : g.Supports rules) (hst : st.IsNumbered g) (hx : g.Reaches rules x) :
    IsHyp g.hyps x ∨ x.IsDrawn := by
  rcases hx with hx | ⟨k, hk, -, hx⟩
  · exact hrules.used x hx
  · exact .inl (Expr.fvarsIn_iff.mp (hst.isHyp hk).1 x hx)

namespace Selection.Amid

variable {fuel : Nat} {sel : Selection} {st₀ st : ProofState} {g : Goal}
  {before before' after : List Hypothesis} {h : Hypothesis}

/-- The state to begin with. -/
theorem self (sel : Selection) (hst₀ : st₀.IsNumbered g) (hsplit : g.hyps = before ++ after) :
    sel.Amid st₀ g before before after st₀ where
  split := hsplit
  env := rfl
  metas := rfl
  current := by rw [hst₀.current, ← hsplit]
  next := hst₀.next
  room := by
    have hroom := hst₀.room
    have hlen := congrArg List.length hsplit
    rw [List.length_append] at hlen
    omega
  passed := List.forall₂_same.mpr fun _ _ => .inl rfl

theorem isHyp_before (hst : sel.Amid st₀ g before before' after st) {y : FVarId}
    (hy : IsHyp before y) : IsHyp g.hyps y := by
  obtain ⟨k, hk, rfl⟩ := hy
  exact ⟨k, hst.split ▸ List.mem_append_left _ hk, rfl⟩

section
variable (hst₀ : st₀.IsNumbered g) (hrules : g.Supports sel.rules)
  (hst : sel.Amid st₀ g before before' after st)
include hst₀ hrules hst

/-- All types of hypotheses are without metavariables. -/
theorem instantiate?_eq {k : Hypothesis} (hk : k ∈ before' ++ after) :
    st₀.metas.instantiate? k.type = some k.type := by
  have hold : ∀ k ∈ g.hyps, st₀.metas.instantiate? k.type = some k.type := fun k hk =>
    hst₀.instantiate?_eq ((hst₀.isHyp hk).1.mono fun _ => .inl)
  rcases List.mem_append.mp hk with hk | hk
  · obtain ⟨k₀, hk₀, rfl | hsuper⟩ := exists_of_forall₂_of_mem hst.passed hk
    · exact hold k (hst.split ▸ List.mem_append_left _ hk₀)
    · refine hst₀.instantiate?_eq (Expr.fvarsIn_iff.mpr fun y hy => ?_)
      rcases hsuper.known y (by rw [ProofState.mentions, hy]; rfl) with hy | hy | hy
      · exact .inl (hst.isHyp_before hy)
      · exact .inr hy
      · exact hrules.isHyp hst₀ hy
  · exact hold k (hst.split ▸ List.mem_append_right _ hk)

/-- What is still to come looks the context up where it has not changed. -/
theorem checker?_agrees {p : FVarId → Prop} (hp : ∀ y, p y → IsHyp g.hyps y ∧
      (g.target.hasFVar y = true ∨ ∃ k ∈ after, ProofState.mentions y k = true)) :
    Option.Rel (Checker.Agrees p) (st₀.checker? fuel g)
      (st.checker? fuel { g with hyps := before' ++ after }) := by
  refine ProofState.checker?_agrees hst.env hst.metas
    (fun k hk => ⟨_, (self sel hst₀ hst.split).instantiate?_eq hst₀ hrules (hst.split ▸ hk)⟩)
    (fun k hk => ⟨_, hst.instantiate?_eq hst₀ hrules hk⟩) fun y hy => ?_
  obtain ⟨hyp, hmentioned⟩ := hp y hy
  rw [hst.split]
  refine List.rel_append (hst.passed.imp fun k k' hk => hk.imp_right fun hsuper => ⟨?_, ?_⟩)
    (List.forall₂_same.mpr fun _ _ => .inl rfl)
  · rintro rfl
    rcases hmentioned with htarget | ⟨k', hk', hmentions⟩
    · exact absurd htarget (by rw [hsuper.target]; decide)
    · exact absurd hmentions (by rw [hsuper.unmentioned k' hk']; decide)
  · rintro rfl
    exact absurd (hst₀.id_lt hyp) (Nat.not_lt.mpr hsuper.new)

end

/-! ### The next hypothesis -/

section
variable (hst₀ : st₀.IsNumbered g) (hrules : g.Supports sel.rules)
  (hst : sel.Amid st₀ g before before' (h :: after) st)
include hst₀ hst

theorem fvar_ne {k : Hypothesis} (hk : k ∈ before') : k.fvar ≠ h.fvar := by
  obtain ⟨k₀, hk₀, rfl | hsuper⟩ := exists_of_forall₂_of_mem hst.passed hk
  · exact fun heq => hst₀.not_isHyp_before hst.split ⟨k, hk₀, heq⟩
  · intro heq
    have hlt := hst₀.id_lt ⟨h, hst.split ▸ List.mem_append_right _ List.mem_cons_self, rfl⟩
    exact absurd hlt (Nat.not_lt.mpr (heq ▸ hsuper.new))

include hrules

theorem statementAt_eq : (st.statementAt (.hyp h.fvar)).run = some (.ok h.type) := by
  rw [ProofState.statementAt_hyp hst.current rfl fun k hk => hst.fvar_ne hst₀ hk, hst.metas,
    hst.instantiate?_eq hst₀ hrules (List.mem_append_right _ List.mem_cons_self)]
  rfl

/-- The same equation is selected as in the state to begin with. -/
theorem selectedEquation_eq :
    (st.selectedEquation fuel sel (.hyp h.fvar)).run =
      (st₀.selectedEquation fuel sel (.hyp h.fvar)).run := by
  have hbegin := (self sel hst₀ hst.split).statementAt_eq hst₀ hrules
  refine ProofState.selectedEquation_congr hst₀.current hst.current hst.env
    ((hst.statementAt_eq hst₀ hrules).trans hbegin.symm)
    (fun e he => ?_) (hst.checker?_agrees hst₀ hrules
      (p := fun y => ProofState.mentions y h = true) fun y hy =>
        ⟨hst.isHyp_before (hst₀.isHyp_of_mentions hst.split hy), .inr ⟨h, List.mem_cons_self, hy⟩⟩)
  rw [hbegin] at he
  obtain rfl := Except.ok.inj (Option.some.inj he)
  exact Expr.fvarsIn_iff.mpr fun y hy => by rw [ProofState.mentions, hy]; rfl

omit hrules in
/-- If a hypothesis that has been passed mentions the next one, which no rule
uses, so does one that is still to come. -/
theorem any_mentions_eq (hunused : ¬ Uses sel.rules h.fvar) :
    (before' ++ after).any (ProofState.mentions h.fvar) =
      after.any (ProofState.mentions h.fvar) := by
  have hnot := hst₀.not_isHyp_before hst.split
  -- hypotheses mention earlier ones only
  have hbefore : ∀ k ∈ before, ProofState.mentions h.fvar k = true → False := by
    intro k hk hmentions
    obtain ⟨before₁, before₂, rfl⟩ := List.append_of_mem hk
    have hsplit : g.hyps = before₁ ++ k :: (before₂ ++ h :: after) := by simpa using hst.split
    obtain ⟨k', hk', heq⟩ := hst₀.isHyp_of_mentions hsplit hmentions
    exact hnot ⟨k', List.mem_append_left _ hk', heq⟩
  rw [List.any_append, Bool.or_eq_right_iff_imp, List.any_eq_true]
  rintro ⟨k, hk, hmentions⟩
  obtain ⟨k₀, hk₀, rfl | hsuper⟩ := exists_of_forall₂_of_mem hst.passed hk
  · exact (hbefore k hk₀ hmentions).elim
  rcases hsuper.known _ hmentions with hknown | hknown | hknown | ⟨k', hk', hused, hknown⟩
  · exact absurd hknown hnot
  · have hlt := hst₀.id_lt ⟨h, hst.split ▸ List.mem_append_right _ List.mem_cons_self, rfl⟩
    have hroom := hst₀.room
    have hdrawn : 2 ^ 61 ≤ h.fvar.id.toNat := hknown
    omega
  · exact absurd hknown hunused
  · have hmentions' : ProofState.mentions h.fvar k' = true := by
      rw [ProofState.mentions, hknown]
      rfl
    rw [hst.split] at hk'
    rcases List.mem_append.mp hk' with hk' | hk'
    · exact (hbefore k' hk' hmentions').elim
    · rcases List.mem_cons.mp hk' with rfl | hk'
      · exact absurd hused hunused
      · exact List.any_eq_true.mpr ⟨k', hk', hmentions'⟩

/-- The next hypothesis, which no rule uses, can be replaced exactly if it can be
in the state to begin with. -/
theorem replaceHyp_ok_iff (hunused : ¬ Uses sel.rules h.fvar) (eq : Equation) :
    (∃ st₁, (st.replaceHyp h.fvar eq).run = some (.ok st₁)) ↔
      ∃ st₁, (st₀.replaceHyp h.fvar eq).run = some (.ok st₁) := by
  have hbegin := self sel hst₀ hst.split
  have htype := hst.instantiate?_eq hst₀ hrules (List.mem_append_right _ List.mem_cons_self)
  have hiff : ∀ {st : ProofState} {before' : List Hypothesis},
      sel.Amid st₀ g before before' (h :: after) st →
      ((∃ st₁, (st.replaceHyp h.fvar eq).run = some (.ok st₁)) ↔
        eq.lhs.eqModMData h.type = true ∧
          (after.any (ProofState.mentions h.fvar) = false ∧ g.target.hasFVar h.fvar = false) ∧
          ∃ value, eq.castHyp st₀.env (.fvar h.fvar) = .ok value) := by
    intro st before' hst
    have hiff : ∀ st₁, (st.replaceHyp h.fvar eq).run = some (.ok st₁) ↔ _ := fun _ =>
      ProofState.replaceHyp_eq_ok_iff hst.current rfl (fun k hk => hst.fvar_ne hst₀ hk)
        (hst.metas ▸ htype)
    simp only [hiff, hst.any_mentions_eq hst₀ hunused, hst.env]
    simp
  rw [hiff hst, hiff hbegin]

/-- What the equation mentions along which the next hypothesis is replaced. -/
theorem selectedEquation_fvarsIn {eq : Equation}
    (heq : (st₀.selectedEquation fuel sel (.hyp h.fvar)).run = some (.ok eq)) :
    (eq.States fun _ => Expr.FVarsIn fun y =>
        IsHyp before y ∨ y.IsDrawn ∨ g.Reaches sel.rules y) ∧
      eq.proof.FVarsIn fun y => IsHyp before y ∨ y.IsDrawn ∨ g.Reaches sel.rules y := by
  have hbegin := (self sel hst₀ hst.split).statementAt_eq hst₀ hrules
  have htarget : ∀ e, (st₀.statementAt (.hyp h.fvar)).run = some (.ok e) →
      e.FVarsIn fun y => IsHyp before y ∨ y.IsDrawn ∨ g.Reaches sel.rules y := by
    intro e he
    rw [hbegin] at he
    obtain rfl := Except.ok.inj (Option.some.inj he)
    exact (hst₀.earlier _ _ _ hst.split).1.mono fun _ => .inl
  obtain ⟨hstates, hproof⟩ := (Expr.fvarsIn_hereditary _).selectedEquation heq htarget
    fun r hr => (hrules.states r hr).mono fun _ _ he => he.mono fun y hy => .inr hy.symm
  exact ⟨hstates, hproof fun r hr => Expr.fvarsIn_iff.mpr fun y hy => .inr (.inr (.inl ⟨r, hr, hy⟩))⟩

end

/-- A hypothesis that has been passed stays so. -/
theorem passed_next (hst : sel.Amid st₀ g before before' (h :: after) st) :
    List.Forall₂ (fun k k' => k' = k ∨ g.Supersedes sel.rules (before ++ [h]) after k k')
      before before' := by
  refine hst.passed.imp fun k k' hk => hk.imp_right fun hsuper => ⟨hsuper.name, hsuper.new,
    fun j hj => hsuper.unmentioned j (List.mem_cons_of_mem _ hj), hsuper.target, fun y hy => ?_⟩
  refine (hsuper.known y hy).imp_left ?_
  rintro ⟨j, hj, hjy⟩
  exact ⟨j, List.mem_append_left _ hj, hjy⟩

/-- The next hypothesis is kept. -/
theorem keep (hst : sel.Amid st₀ g before before' (h :: after) st) :
    sel.Amid st₀ g (before ++ [h]) (before' ++ [h]) after st where
  split := by rw [hst.split, List.append_assoc, List.singleton_append]
  env := hst.env
  metas := hst.metas
  current := by rw [hst.current, List.append_assoc, List.singleton_append]
  next := hst.next
  room := Nat.le_trans (Nat.add_le_add_left (Nat.le_succ _) _) hst.room
  passed := List.rel_append hst.passed_next (.cons (.inl rfl) .nil)

/-- The next hypothesis is replaced. -/
theorem replace (hst₀ : st₀.IsNumbered g) (hrules : g.Supports sel.rules)
    (hst : sel.Amid st₀ g before before' (h :: after) st) {eq : Equation} {st₁ : ProofState}
    (heq : (st₀.selectedEquation fuel sel (.hyp h.fvar)).run = some (.ok eq))
    (hreplace : (st.replaceHyp h.fvar eq).run = some (.ok st₁)) :
    ∃ new, new.name = h.name ∧ new.type = eq.rhs ∧
      sel.Amid st₀ g (before ++ [h]) (before' ++ [new]) after st₁ := by
  have htype := hst.instantiate?_eq hst₀ hrules (List.mem_append_right _ List.mem_cons_self)
  obtain ⟨-, ⟨hothers, htarget⟩, value, hcast, rfl⟩ :=
    (ProofState.replaceHyp_eq_ok_iff hst.current rfl (fun k hk => hst.fvar_ne hst₀ hk)
      (hst.metas ▸ htype)).mp hreplace
  obtain ⟨hstates, hproof⟩ := hst.selectedEquation_fvarsIn hst₀ hrules heq
  have hroom := hst.room
  rw [List.length_cons] at hroom
  refine ⟨⟨⟨st.nextFVar⟩, h.name, eq.rhs, some value⟩, rfl, rfl, ?_⟩
  -- The new hypothesis is mentioned by nothing that is still to come, and mentions
  -- only what has been passed.
  have hsuper : g.Supersedes sel.rules (before ++ [h]) after h
      ⟨⟨st.nextFVar⟩, h.name, eq.rhs, some value⟩ := by
    refine ⟨rfl, hst.next, fun k hk => ?_, htarget, fun y hy => ?_⟩
    · rw [List.any_append, Bool.or_eq_false_iff] at hothers
      simpa using List.any_eq_false.mp hothers.2 k hk
    · obtain ⟨-, rfl⟩ := Equation.castHyp_eq_ok hcast
      have hold : ∀ y, IsHyp before y ∨ y.IsDrawn ∨ g.Reaches sel.rules y →
          IsHyp (before ++ [h]) y ∨ y.IsDrawn ∨ g.Reaches sel.rules y := by
        rintro y (⟨k, hk, rfl⟩ | hy)
        · exact .inl ⟨k, List.mem_append_left _ hk, rfl⟩
        · exact .inr hy
      rw [ProofState.mentions, Bool.or_eq_true] at hy
      rcases hy with hy | hy
      · exact hold y (Expr.fvarsIn_iff.mp hstates.rhs y hy)
      · have hvalue : (Expr.mkApp (.const Vocabulary.eqMp [.zero])
            [eq.lhs, eq.rhs, eq.proof, .fvar h.fvar]).FVarsIn fun y =>
              IsHyp (before ++ [h]) y ∨ y.IsDrawn ∨ g.Reaches sel.rules y := by
          refine Expr.FVarsIn.mkApp.mpr ⟨trivial, ?_⟩
          simpa using ⟨hstates.lhs.mono hold, hstates.rhs.mono hold, hproof.mono hold,
            .inl ⟨h, List.mem_append_right _ List.mem_cons_self, rfl⟩⟩
        exact Expr.fvarsIn_iff.mp hvalue y hy
  -- There is a number left for each hypothesis that is still to come.
  have hnext : (st.nextFVar + 1).toNat = st.nextFVar.toNat + 1 :=
    Supply.toNat_add_one (by omega)
  exact {
    split := by rw [hst.split, List.append_assoc, List.singleton_append]
    env := hst.env
    metas := hst.metas
    current := by
      show some _ = some _
      rw [List.append_assoc, List.singleton_append]
    next := by
      show _ ≤ (st.nextFVar + 1).toNat
      rw [hnext]
      exact Nat.le_succ_of_le hst.next
    room := by
      show (st.nextFVar + 1).toNat + _ ≤ _
      omega
    passed := List.rel_append hst.passed_next (.cons (.inr hsuper) .nil) }

end Selection.Amid

/-! ### One site after the other -/

/-- Whether a rewrite at one site alone succeeds. -/
def ProofState.rewritesAt (fuel : Nat) (sel : Selection) (st : ProofState) (site : Site) : Bool :=
  match (st.rewriteAt fuel sel site).run with
  | some (.ok _) => true
  | _ => false

/-- Whether no rule uses a hypothesis, and a rewrite at it alone succeeds. -/
def Selection.takes (fuel : Nat) (sel : Selection) (st : ProofState) (h : Hypothesis) : Bool :=
  !(sel.rules.any fun r => r.proof.hasFVar h.fvar) && st.rewritesAt fuel sel (.hyp h.fvar)

theorem ProofState.rewritesAt_iff {fuel : Nat} {sel : Selection} {st : ProofState} {site : Site} :
    st.rewritesAt fuel sel site = true ↔ ∃ eq st₁,
      (st.selectedEquation fuel sel site).run = some (.ok eq) ∧
        (st.replace site eq).run = some (.ok st₁) := by
  have hiff : st.rewritesAt fuel sel site = true ↔
      ∃ st₁, (st.rewriteAt fuel sel site).run = some (.ok st₁) := by
    unfold rewritesAt
    rcases (st.rewriteAt fuel sel site).run with _ | _ | st₁ <;> simp
  rw [hiff]
  constructor
  · rintro ⟨st₁, h⟩
    obtain ⟨eq, heq, h⟩ := rewriteAt_eq_ok.mp h
    exact ⟨eq, st₁, heq, h⟩
  · rintro ⟨eq, st₁, heq, h⟩
    exact ⟨st₁, rewriteAt_eq_ok.mpr ⟨eq, heq, h⟩⟩

namespace Selection

variable {fuel : Nat} {sel : Selection} {st₀ st st' : ProofState} {g : Goal}
  {before before' after : List Hypothesis} {o : RewriteOutcome}

theorem takes_eq_false_of_uses {h : Hypothesis} (hused : Uses sel.rules h.fvar) :
    sel.takes fuel st h = false := by
  unfold takes
  rw [List.any_eq_true.mpr hused]
  rfl

theorem takes_eq_of_not_uses {h : Hypothesis} (hunused : ¬ Uses sel.rules h.fvar) :
    sel.takes fuel st h = st.rewritesAt fuel sel (.hyp h.fvar) := by
  unfold takes
  rw [show (sel.rules.any fun r => r.proof.hasFVar h.fvar) = false from
    Bool.eq_false_iff.mpr fun hany => hunused (List.any_eq_true.mp hany)]
  rfl

/-- Whether a hypothesis comes out as a rewrite at it alone leaves it. -/
def Settles (fuel : Nat) (sel : Selection) (st : ProofState) (h h' : Hypothesis) : Prop :=
  h'.name = h.name ∧
    if sel.takes fuel st h then
      ∃ eq, (st.selectedEquation fuel sel (.hyp h.fvar)).run = some (.ok eq) ∧ h'.type = eq.rhs
    else h' = h

/-- Every hypothesis comes out as a rewrite at it alone leaves it, and is
reported accordingly. -/
theorem Amid.sweeps (hst₀ : st₀.IsNumbered g) (hrules : g.Supports sel.rules)
    (hst : sel.Amid st₀ g before before' after st)
    (h : sel.Sweeps fuel st (after.map fun h => (h.name, h.fvar)) o st') :
    ∃ after', sel.Amid st₀ g (before ++ after) (before' ++ after') [] st' ∧
      List.Forall₂ (sel.Settles fuel st₀) after after' ∧
      o.rewritten = (after.filter (sel.takes fuel st₀)).map (fun h => .hyp h.name) ∧
      o.skipped.map Skipped.location =
        (after.filter fun h => !sel.takes fuel st₀ h).map (fun h => .hyp h.name) := by
  induction after generalizing before before' st o with
  | nil =>
    cases h with
    | nil => exact ⟨[], by simpa using hst, .nil, rfl, rfl⟩
  | cons hyp after ih =>
    -- A hypothesis that is not rewritten stays as it is and is reported as skipped.
    have hkeep : ∀ {reason : String} {o : RewriteOutcome}, sel.takes fuel st₀ hyp = false →
        sel.Sweeps fuel st (after.map fun h => (h.name, h.fvar)) o st' →
        ∃ after', sel.Amid st₀ g (before ++ hyp :: after) (before' ++ after') [] st' ∧
          List.Forall₂ (sel.Settles fuel st₀) (hyp :: after) after' ∧
          o.rewritten = ((hyp :: after).filter (sel.takes fuel st₀)).map (fun h => .hyp h.name) ∧
          (⟨.hyp hyp.name, reason⟩ :: o.skipped).map Skipped.location =
            ((hyp :: after).filter fun h => !sel.takes fuel st₀ h).map (fun h => .hyp h.name) := by
      intro reason o htakes hrest
      obtain ⟨after', hamid, hsettles, hrewritten, hskipped⟩ := ih hst.keep hrest
      refine ⟨hyp :: after', by simpa using hamid, .cons ⟨rfl, ?_⟩ hsettles, ?_, ?_⟩
      · rw [htakes]
        exact rfl
      · rw [List.filter_cons, htakes]
        exact hrewritten
      · rw [List.filter_cons, htakes]
        exact congrArg (_ :: ·) hskipped
    cases h with
    | used hused hrest => exact hkeep (takes_eq_false_of_uses hused) hrest
    | failed hunused hat hrest =>
      -- What failed here fails in the first state, which selects the same equation.
      refine hkeep ?_ hrest
      rw [takes_eq_of_not_uses hunused, Bool.eq_false_iff]
      intro htakes
      obtain ⟨eq, st₁, heq, hreplace⟩ := ProofState.rewritesAt_iff.mp htakes
      obtain ⟨st₂, hreplace⟩ := (hst.replaceHyp_ok_iff hst₀ hrules hunused eq).mpr ⟨st₁, hreplace⟩
      rw [← hst.selectedEquation_eq hst₀ hrules] at heq
      have hok := ProofState.rewriteAt_eq_ok.mpr ⟨eq, heq, hreplace⟩
      cases hat.symm.trans hok
    | rewritten hunused hat hrest =>
      obtain ⟨eq, heq, hreplace⟩ := ProofState.rewriteAt_eq_ok.mp hat
      rw [hst.selectedEquation_eq hst₀ hrules] at heq
      -- What is made here is made in the first state, and the new hypothesis takes the
      -- place of the old one.
      have htakes : sel.takes fuel st₀ hyp = true := by
        obtain ⟨st₁, hreplace⟩ := (hst.replaceHyp_ok_iff hst₀ hrules hunused eq).mp ⟨_, hreplace⟩
        rw [takes_eq_of_not_uses hunused]
        exact ProofState.rewritesAt_iff.mpr ⟨eq, st₁, heq, hreplace⟩
      obtain ⟨new, hname, htype, hamid⟩ := hst.replace hst₀ hrules heq hreplace
      obtain ⟨after', hamid, hsettles, hrewritten, hskipped⟩ := ih hamid hrest
      refine ⟨new :: after', by simpa using hamid, .cons ⟨hname, ?_⟩ hsettles, ?_, ?_⟩
      · rw [htakes]
        exact ⟨eq, heq, htype⟩
      · rw [List.filter_cons, htakes]
        exact congrArg (_ :: ·) hrewritten
      · rw [List.filter_cons, htakes]
        exact hskipped

/-- The target is looked at as in the state to begin with. -/
theorem Amid.selectedEquation_goal_eq (hst₀ : st₀.IsNumbered g) (hrules : g.Supports sel.rules)
    (hst : sel.Amid st₀ g before before' [] st) :
    (st.selectedEquation fuel sel .goal).run = (st₀.selectedEquation fuel sel .goal).run := by
  have hself : ∀ {before' : List Hypothesis} {st : ProofState},
      sel.Amid st₀ g before before' [] st →
      (st.statementAt .goal).run = some (.ok g.target) := by
    intro before' st hst
    unfold ProofState.statementAt
    rw [QueryM.run_bind_of_ok (ProofState.mainGoal_eq_ok.mpr hst.current), hst.metas,
      hst₀.instantiate?_eq (hst₀.target.mono fun _ => .inl)]
    rfl
  have hbegin := hself (Amid.self sel hst₀ hst.split)
  refine ProofState.selectedEquation_congr hst₀.current hst.current hst.env
    ((hself hst).trans hbegin.symm) (fun e he => ?_) (hst.checker?_agrees hst₀ hrules
      (p := fun y => g.target.hasFVar y = true) fun y hy =>
        ⟨Expr.fvarsIn_iff.mp hst₀.target y hy, .inl hy⟩)
  rw [hbegin] at he
  obtain rfl := Except.ok.inj (Option.some.inj he)
  exact Expr.fvarsIn_iff.mpr fun _ => id

theorem Amid.replaceTarget_ok_iff (hst₀ : st₀.IsNumbered g)
    (hst : sel.Amid st₀ g before before' [] st) (eq : Equation) :
    (∃ st₁, (st.replaceTarget eq).run = some (.ok st₁)) ↔
      ∃ st₁, (st₀.replaceTarget eq).run = some (.ok st₁) := by
  have htarget := hst₀.instantiate?_eq (hst₀.target.mono fun _ => .inl)
  have hiff : ∀ st₁, (st.replaceTarget eq).run = some (.ok st₁) ↔ _ := fun _ =>
    ProofState.replaceTarget_eq_ok_iff hst.current (by rw [hst.metas]; exact htarget)
  have hiff₀ : ∀ st₁, (st₀.replaceTarget eq).run = some (.ok st₁) ↔ _ := fun _ =>
    ProofState.replaceTarget_eq_ok_iff hst₀.current htarget
  simp only [hiff, hiff₀, hst.env, hst.metas]
  simp

end Selection

/-- The hypothesis at a place of the current goal. -/
def ProofState.hypAt? (st : ProofState) (i : Nat) : Option Hypothesis :=
  st.currentGoal?.bind fun g => g.hyps[i]?

/-- A hypothesis that is rewritten alone. -/
theorem ProofState.IsNumbered.hypAt?_of_settles {fuel : Nat} {sel : Selection} {st : ProofState}
    {g : Goal} {before after : List Hypothesis} {h h' : Hypothesis} (hst : st.IsNumbered g)
    (hrules : g.Supports sel.rules) (hsplit : g.hyps = before ++ h :: after)
    (htakes : sel.takes fuel st h = true) (hsettles : sel.Settles fuel st h h') :
    ∃ st₁ h₁, (st.rewriteAt fuel sel (.hyp h.fvar)).run = some (.ok st₁) ∧
      st₁.hypAt? before.length = some h₁ ∧ h'.name = h₁.name ∧ h'.type = h₁.type := by
  have hunused : ¬ Uses sel.rules h.fvar := by
    intro hused
    rw [Selection.takes_eq_false_of_uses hused] at htakes
    cases htakes
  obtain ⟨hname, heq⟩ := hsettles
  rw [if_pos htakes] at heq
  obtain ⟨eq, heq, htype⟩ := heq
  rw [Selection.takes_eq_of_not_uses hunused] at htakes
  obtain ⟨eq', st₁, heq', hreplace⟩ := ProofState.rewritesAt_iff.mp htakes
  rw [heq] at heq'
  obtain rfl := Except.ok.inj (Option.some.inj heq')
  obtain ⟨new, hname', htype', hamid⟩ :=
    (Selection.Amid.self sel hst hsplit).replace hst hrules heq hreplace
  refine ⟨st₁, new, ProofState.rewriteAt_eq_ok.mpr ⟨eq, heq, hreplace⟩, ?_, hname.trans hname'.symm,
    htype.trans htype'.symm⟩
  rw [ProofState.hypAt?, hamid.current]
  simp

/-- Hypotheses that all come out as rewrites at them alone leave them. -/
theorem ProofState.IsNumbered.getElem?_of_settles {fuel : Nat} {sel : Selection} {st : ProofState}
    {g : Goal} {hyps' : List Hypothesis} (hst : st.IsNumbered g) (hrules : g.Supports sel.rules)
    (hsettles : List.Forall₂ (sel.Settles fuel st) g.hyps hyps') {i : Nat} {h : Hypothesis}
    (hi : g.hyps[i]? = some h) : ∃ h', hyps'[i]? = some h' ∧
      if sel.takes fuel st h then
        ∃ st₁ h₁, (st.rewriteAt fuel sel (.hyp h.fvar)).run = some (.ok st₁) ∧
          st₁.hypAt? i = some h₁ ∧ h'.name = h₁.name ∧ h'.type = h₁.type
      else h' = h := by
  obtain ⟨hlt, rfl⟩ := List.getElem?_eq_some_iff.mp hi
  have hlt' : i < hyps'.length := hsettles.length_eq ▸ hlt
  have hsettles : sel.Settles fuel st g.hyps[i] hyps'[i] := hsettles.get hlt hlt'
  refine ⟨hyps'[i], List.getElem?_eq_getElem hlt', ?_⟩
  by_cases htakes : sel.takes fuel st g.hyps[i]
  · rw [if_pos htakes]
    have hsplit : g.hyps = g.hyps.take i ++ g.hyps[i] :: g.hyps.drop (i + 1) := by simp
    have hlen : (g.hyps.take i).length = i := List.length_take_of_le (Nat.le_of_lt hlt)
    simpa only [hlen] using hst.hypAt?_of_settles hrules hsplit htakes hsettles
  · have heq := hsettles.2
    rw [if_neg htakes] at heq ⊢
    exact heq

/-- A rewrite everywhere is made of the rewrites at each hypothesis and at the
target alone: a hypothesis is rewritten exactly if no rule uses it and the
rewrite at it alone succeeds, and comes out with the type which that gives it;
the others are kept; and the target is rewritten exactly if the rewrite at it
alone succeeds, and comes out as that leaves it. -/
theorem rewriteEverywhere_eq_union {fuel fuel' : Nat} {sel : Selection} {st st' : ProofState}
    {g : Goal} {specs : List RuleSpec} {o : RewriteOutcome} (hst : st.IsNumbered g)
    (hspecs : ∀ spec ∈ specs, spec.FVarsIn (IsHyp g.hyps))
    (hrules : (st.rulesFor fuel' specs).run = some (.ok sel.rules))
    (h : (sel.rewrite fuel .everywhere).answer st = some (.ok o, st')) :
    o.rewritten = (g.hyps.filter (sel.takes fuel st)).map (fun h => .hyp h.name) ++
        (if st.rewritesAt fuel sel .goal then [.goal] else []) ∧
      o.skipped.map Skipped.location =
        (g.hyps.filter fun h => !sel.takes fuel st h).map (fun h => .hyp h.name) ++
          (if st.rewritesAt fuel sel .goal then [] else [.goal]) ∧
      (∃ hyps', st'.currentGoal?.map Goal.hyps = some hyps' ∧ hyps'.length = g.hyps.length ∧
        ∀ i h, g.hyps[i]? = some h → ∃ h', hyps'[i]? = some h' ∧
          if sel.takes fuel st h then
            ∃ st₁ h₁, (st.rewriteAt fuel sel (.hyp h.fvar)).run = some (.ok st₁) ∧
              st₁.hypAt? i = some h₁ ∧ h'.name = h₁.name ∧ h'.type = h₁.type
          else h' = h) ∧
      if st.rewritesAt fuel sel .goal then
        ∃ st₁, (st.rewriteAt fuel sel .goal).run = some (.ok st₁) ∧
          st'.storedAt? .goal = st₁.storedAt? .goal
      else st'.storedAt? .goal = some g.target := by
  obtain ⟨g', hg', hrules⟩ := QueryM.run_bind_eq_ok.mp hrules
  obtain rfl := Option.some.inj (hst.current.symm.trans (ProofState.mainGoal_eq_ok.mp hg'))
  have hsupports := hst.supports hspecs hrules
  obtain ⟨o', st₁, hsweeps, hgoal⟩ := Selection.rewriteEverywhere_answer h
  have hhyps : st.hypotheses = g.hyps.map fun h => (h.name, h.fvar) := by
    obtain ⟨rest, hgoals⟩ := List.head?_eq_some_iff.mp hst.current
    rw [ProofState.hypotheses, hgoals]
  rw [hhyps] at hsweeps
  -- The hypotheses come out one after the other, each as a rewrite at it alone leaves it.
  obtain ⟨hyps', hamid, hsettles, hrewritten, hskipped⟩ :=
    (Selection.Amid.self sel hst (List.nil_append g.hyps).symm).sweeps hst hsupports hsweeps
  rw [List.nil_append, List.nil_append] at hamid
  have hlen : hyps'.length = g.hyps.length := hsettles.length_eq.symm
  have hat : ∀ i h, g.hyps[i]? = some h → _ :=
    fun i h => hst.getElem?_of_settles hsupports hsettles (i := i) (h := h)
  rcases hgoal with ⟨hok, hr⟩ | ⟨e, herror, rfl, hr⟩
  · -- The target is rewritten last; the state in which that is done and the first one
    -- accept the same equation.
    obtain rfl := Except.ok.inj hr
    obtain ⟨eq, heq, hreplace⟩ := ProofState.rewriteAt_eq_ok.mp hok
    rw [hamid.selectedEquation_goal_eq hst hsupports] at heq
    obtain ⟨st₂, hreplace₂⟩ := (hamid.replaceTarget_ok_iff hst eq).mp ⟨st', hreplace⟩
    have hrewrites : st.rewritesAt fuel sel .goal = true :=
      ProofState.rewritesAt_iff.mpr ⟨eq, st₂, heq, hreplace₂⟩
    obtain ⟨g₁, -, proof, hg₁, -, -, -, rfl⟩ := ProofState.replaceTarget_eq_ok hreplace
    obtain ⟨_, _, _, -, -, -, -, rfl⟩ := ProofState.replaceTarget_eq_ok hreplace₂
    obtain rfl := Option.some.inj (hamid.current.symm.trans hg₁)
    simp only [hrewrites, if_true]
    refine ⟨by rw [hrewritten], by rw [hskipped, List.append_nil], ⟨hyps', ?_, hlen, hat⟩, _,
      ProofState.rewriteAt_eq_ok.mpr ⟨eq, heq, hreplace₂⟩, rfl⟩
    show some (hyps' ++ []) = _
    rw [List.append_nil]
  · -- A rewrite that is not made here is not made in the first state either.
    have hrewrites : st.rewritesAt fuel sel .goal = false := by
      rw [Bool.eq_false_iff]
      intro hrewrites
      obtain ⟨eq, st₂, heq, hreplace⟩ := ProofState.rewritesAt_iff.mp hrewrites
      obtain ⟨st₃, hreplace⟩ := (hamid.replaceTarget_ok_iff hst eq).mpr ⟨st₂, hreplace⟩
      rw [← hamid.selectedEquation_goal_eq hst hsupports] at heq
      cases herror.symm.trans (ProofState.rewriteAt_eq_ok.mpr ⟨eq, heq, hreplace⟩)
    simp only [hrewrites, Bool.false_eq_true, if_false]
    split at hr
    · split at hr
      · cases hr
      · obtain rfl := Except.ok.inj hr
        refine ⟨by rw [hrewritten, List.append_nil], by rw [List.map_append, hskipped]; rfl,
          ⟨hyps', ?_, hlen, hat⟩, ?_⟩
        · rw [hamid.current, Option.map_some, List.append_nil]
        · rw [ProofState.storedAt?, hamid.current]
          rfl
    · cases hr

/-! ### Two hypotheses of one name -/

namespace Independence

def nat : Expr := .const Vocabulary.nat []

def a : Expr := .const (.simple "a") []

def b : Expr := .const (.simple "b") []

/-- A property of numbers. -/
def holds (e : Expr) : Expr := .app (.const (.simple "P") []) e

/-- Two numbers, and a property of proofs that one of them has the property. -/
def constants : List Constant :=
  [⟨.simple "a", [], nat, none⟩, ⟨.simple "b", [], nat, none⟩,
    ⟨.simple "P", [], .pi .default nat .prop, none⟩,
    ⟨.simple "T", [], .pi .default (holds a) .prop, none⟩]

def env : Environment := ⟨Prelude.constants ++ constants⟩

/-- Two proofs, of which the last hypothesis mentions the first one. -/
def hyps : List Hypothesis :=
  [⟨⟨0⟩, "e", .mkEq .one nat a b, none⟩, ⟨⟨1⟩, "h", holds a, none⟩, ⟨⟨2⟩, "h", holds a, none⟩,
    ⟨⟨3⟩, "q", .app (.const (.simple "T") []) (.fvar ⟨1⟩), none⟩]

def start : ProofState := .start env (holds a) hyps

def goal : Goal := ⟨⟨0⟩, holds a, hyps⟩

/-- The equation as a rule. -/
def sel : Selection := ⟨none, 0, [⟨.fvar ⟨0⟩, [], ⟨.eq, .one, nat, a, b⟩, false, "e"⟩], none⟩

theorem rulesFor_start : (start.rulesFor 20 [.ofText "e"]).run = some (.ok sel.rules) :=
  QueryM.run_eq_ok_of_toOption (by decide +kernel)

theorem isNumbered : start.IsNumbered goal where
  env := (Environment.fvarFree_prelude_append (by decide)).fvarsIn
  ids := by decide
  earlier := forall_append_cons_of_take (by decide)
  target := by decide
  current := rfl
  next := by decide
  room := by decide
  metas := by decide

end Independence

open Independence in
/-- The later of two hypotheses of one name is rewritten as it is alone, and so
is the target; the earlier one is kept, for another hypothesis mentions it. -/
theorem later_hypothesis_rewritten_alone :
    ∃ o st', (sel.rewrite 20 .everywhere).answer start = some (.ok o, st') ∧
      o.rewritten = [.hyp "h", .goal] ∧
      o.skipped.map Skipped.location = [.hyp "e", .hyp "h", .hyp "q"] ∧
      ∃ st₁ h₁ h', (start.rewriteAt 20 sel (.hyp ⟨2⟩)).run = some (.ok st₁) ∧
        st₁.hypAt? 2 = some h₁ ∧ (st'.currentGoal?.bind fun g => g.hyps[2]?) = some h' ∧
        h'.type = h₁.type := by
  have hok : ((sel.rewrite 20 .everywhere).answer start).map (fun p => p.1.isOk) = some true := by
    decide +kernel
  obtain ⟨⟨_ | o, st'⟩, hanswer, hr⟩ := Option.map_eq_some_iff.mp hok
  · cases hr
  have hgoal : start.rewritesAt 20 sel .goal = true := by decide +kernel
  have htaken : hyps.filter (sel.takes 20 start) = [⟨⟨2⟩, "h", holds a, none⟩] := by
    decide +kernel
  have hleft : (hyps.filter fun h => !sel.takes 20 start h).map (fun h => Location.hyp h.name) =
      [.hyp "e", .hyp "h", .hyp "q"] := by
    decide +kernel
  obtain ⟨hrewritten, hskipped, ⟨hyps', hhyps', -, hat⟩, -⟩ :=
    rewriteEverywhere_eq_union isNumbered (by simp [RuleSpec.FVarsIn, RuleSpec.ofText])
      rulesFor_start hanswer
  obtain ⟨h', hh', hsettled⟩ := hat 2 ⟨⟨2⟩, "h", holds a, none⟩ rfl
  have htakes : sel.takes 20 start ⟨⟨2⟩, "h", holds a, none⟩ = true :=
    (List.mem_filter.mp (htaken ▸ List.mem_singleton_self _)).2
  rw [if_pos htakes] at hsettled
  obtain ⟨st₁, h₁, hat, hh₁, -, htype⟩ := hsettled
  refine ⟨o, st', hanswer, ?_, ?_, st₁, h₁, h', hat, hh₁, ?_, htype⟩
  · rw [hrewritten, show goal.hyps = hyps from rfl, htaken, hgoal]
    rfl
  · rw [hskipped, show goal.hyps = hyps from rfl, hgoal, hleft]
    rfl
  · obtain ⟨g', hg', rfl⟩ := Option.map_eq_some_iff.mp hhyps'
    rw [hg']
    exact hh'

end Pinpoint
