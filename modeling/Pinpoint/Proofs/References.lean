/-
What a goal mentions.

A hypothesis that is rewritten gets a new free variable, so nothing of the goal
may mention the old one any more.  The target and the other hypotheses are
looked at when it is replaced, but its own new type is not.  That type is made
of the old one and of what the rule states, and a rule may state something about
the very hypothesis at which it rewrites.

* `Goal.InScope` — a goal mentions its own hypotheses only;
* `Goal.Irreflexive.replaceHyp` — replacing a hypothesis keeps a goal in scope, if
  the new type does not mention the old one;
* `Tracks` — what is known of a state while the rules of a call are used;
* `inScope_of_run` — goals stay in scope as long as no rule states something
  about the hypothesis at which it rewrites;
* `dangling_of_own_hypothesis` — a rule that does so leaves a reference to the
  hypothesis that is gone.
-/
import Pinpoint.Proofs.Linear
import Pinpoint.Proofs.Prelude

namespace Pinpoint

/-- Whether the target and the types of the hypotheses mention hypotheses of the
goal only. -/
structure Goal.InScope (g : Goal) : Prop where
  target : g.target.FVarsIn (IsHyp g.hyps)
  hyps : ∀ h ∈ g.hyps, h.type.FVarsIn (IsHyp g.hyps)

instance Goal.InScope.decidable (g : Goal) : Decidable g.InScope :=
  decidable_of_iff (g.target.FVarsIn (IsHyp g.hyps) ∧ ∀ h ∈ g.hyps, h.type.FVarsIn (IsHyp g.hyps))
    ⟨fun h => ⟨h.1, h.2⟩, fun h => ⟨h.target, h.hyps⟩⟩

/-- Whether, besides, no hypothesis mentions itself. -/
structure Goal.Irreflexive (g : Goal) : Prop extends g.InScope where
  others : ∀ h ∈ g.hyps, h.type.FVarsIn (· ≠ h.fvar)

theorem Expr.fvarsIn_ne {e : Expr} {x : FVarId} : e.FVarsIn (· ≠ x) ↔ e.hasFVar x = false := by
  rw [fvarsIn_iff, Bool.eq_false_iff]
  exact ⟨fun h hx => h x hx rfl, fun h y hy hyx => h (hyx ▸ hy)⟩

/-! ### Replacing a hypothesis -/

/-- What is in a list with an element replaced. -/
theorem mem_set_iff_mem_eraseIdx {α : Type} {l : List α} {i : Nat} {a b : α} (hi : i < l.length) :
    a ∈ l.set i b ↔ a = b ∨ a ∈ l.eraseIdx i := by
  constructor
  · intro h
    obtain ⟨j, hj⟩ := List.mem_iff_getElem?.mp h
    by_cases hij : i = j
    · subst hij
      rw [List.getElem?_set_self hi] at hj
      exact .inl (Option.some.inj hj).symm
    · rw [List.getElem?_set_ne hij] at hj
      exact .inr (List.mem_eraseIdx_iff_getElem?.mpr ⟨j, Ne.symm hij, hj⟩)
  · rintro (rfl | h)
    · exact List.mem_set hi a
    · obtain ⟨j, hji, hj⟩ := List.mem_eraseIdx_iff_getElem?.mp h
      exact List.mem_iff_getElem?.mpr ⟨j, by rw [List.getElem?_set_ne hji.symm, hj]⟩

section
variable {g : Goal} {old new h : Hypothesis} {x y : FVarId}

/-- The hypotheses of other variables are kept when one is replaced. -/
theorem mem_eraseIdx_of_fvar_ne (hold : g.hyps.find? (fun h => h.fvar = x) = some old)
    (hh : h ∈ g.hyps) (hne : h.fvar ≠ x) :
    h ∈ g.hyps.eraseIdx (g.hyps.findIdx fun h => h.fvar = x) := by
  obtain ⟨j, hj⟩ := List.mem_iff_getElem?.mp hh
  refine List.mem_eraseIdx_iff_getElem?.mpr ⟨j, fun heq => hne ?_, hj⟩
  have hx : old.fvar = x := by simpa using List.find?_some hold
  rw [List.find?_eq_getElem?_findIdx, ← heq, hj] at hold
  exact (Option.some.inj hold) ▸ hx

variable (hold : g.hyps.find? (fun h => h.fvar = x) = some old)
  (hothers : ∀ h ∈ g.hyps.eraseIdx (g.hyps.findIdx fun h => h.fvar = x), ProofState.mentions x h = false)
include hold

theorem mem_set_of_fvar_ne (hh : h ∈ g.hyps) (hne : h.fvar ≠ x) :
    h ∈ g.hyps.set (g.hyps.findIdx fun h => h.fvar = x) new := by
  have hlt : g.hyps.findIdx (fun h => h.fvar = x) < g.hyps.length :=
    List.findIdx_lt_length_of_exists
      ⟨old, List.mem_of_find?_eq_some hold, by simpa using List.find?_some hold⟩
  exact (mem_set_iff_mem_eraseIdx hlt).mpr (.inr (mem_eraseIdx_of_fvar_ne hold hh hne))

include hothers

/-- A hypothesis that is replaced leaves a goal in scope, if neither the target
nor another hypothesis mentions it, and the new type does not either. -/
theorem Goal.Irreflexive.replaceHyp (hg : g.Irreflexive) (htarget : g.target.hasFVar x = false)
    (hnew : new.type.FVarsIn fun y => IsHyp g.hyps y ∧ y ≠ x) (hfresh : ¬ IsHyp g.hyps new.fvar) :
    Goal.Irreflexive { g with
      hyps := g.hyps.set (g.hyps.findIdx fun h => h.fvar = x) new } := by
  have hlt : g.hyps.findIdx (fun h => h.fvar = x) < g.hyps.length :=
    List.findIdx_lt_length_of_exists
      ⟨old, List.mem_of_find?_eq_some hold, by simpa using List.find?_some hold⟩
  have hkept : ∀ y, IsHyp g.hyps y ∧ y ≠ x →
      IsHyp (g.hyps.set (g.hyps.findIdx fun h => h.fvar = x) new) y := by
    rintro y ⟨⟨h, hh, rfl⟩, hne⟩
    exact ⟨h, mem_set_of_fvar_ne hold hh hne, rfl⟩
  have hold' : ∀ h ∈ g.hyps.eraseIdx (g.hyps.findIdx fun h => h.fvar = x),
      h ∈ g.hyps ∧ h.type.FVarsIn (· ≠ x) := by
    intro h hh
    have hmentions := hothers h hh
    rw [ProofState.mentions] at hmentions
    exact ⟨List.mem_of_mem_eraseIdx hh,
      Expr.fvarsIn_ne.mpr (Bool.or_eq_false_iff.mp hmentions).1⟩
  refine ⟨⟨(hg.target.and (Expr.fvarsIn_ne.mpr htarget)).mono hkept, fun h hh => ?_⟩,
    fun h hh => ?_⟩
  · rcases (mem_set_iff_mem_eraseIdx hlt).mp hh with rfl | hh
    · exact hnew.mono hkept
    · obtain ⟨hmem, hne⟩ := hold' h hh
      exact ((hg.hyps h hmem).and hne).mono hkept
  · rcases (mem_set_iff_mem_eraseIdx hlt).mp hh with rfl | hh
    · exact hnew.mono fun y hy heq => hfresh (heq ▸ hy.1)
    · exact hg.others h (hold' h hh).1

end

/-! ### The rules of a call -/

/-- Whether the proof of a rule mentions a free variable. -/
def Uses (rules : List Rule) (x : FVarId) : Prop := ∃ r ∈ rules, r.proof.hasFVar x

/-- The variables that rules use, and those that the types of these mention. -/
def Goal.Reaches (g : Goal) (rules : List Rule) (x : FVarId) : Prop :=
  Uses rules x ∨ ∃ h ∈ g.hyps, Uses rules h.fvar ∧ h.type.hasFVar x

/-- What is known of a state while rules are used whose hypotheses it still
has. -/
structure Tracks (n : Nat) (rules : List Rule) (st : ProofState) : Prop where
  linear : Linear n (fun k x => x.id.toNat < n + k) st
  free : st.env.FVarFree
  goal : ∀ g, st.currentGoal? = some g → g.Irreflexive
  used : ∀ g, st.currentGoal? = some g → ∀ x, Uses rules x → IsHyp g.hyps x
  states : ∀ g, st.currentGoal? = some g → ∀ r ∈ rules,
    r.States fun _ => Expr.FVarsIn (g.Reaches rules)

theorem growing_lt (n : Nat) : Growing n fun k x => x.id.toNat < n + k where
  mono hx := Nat.lt_succ_of_lt hx
  rewritten {k} hk := by
    rw [UInt64.toNat_ofNat_of_lt' (show n + k < 2 ^ 64 by omega)]
    omega
  plain hk hx := .inl (by omega)

theorem Rule.States.and {P Q : Nat → Expr → Prop} {r : Rule} (hP : r.States P) (hQ : r.States Q) :
    r.States fun n e => P n e ∧ Q n e :=
  ⟨⟨hP.carrier, hQ.carrier⟩, ⟨hP.lhs, hQ.lhs⟩, ⟨hP.rhs, hQ.rhs⟩⟩

theorem Rule.States.mono {P Q : Nat → Expr → Prop} {r : Rule} (h : r.States P)
    (hPQ : ∀ n e, P n e → Q n e) : r.States Q :=
  ⟨hPQ _ _ h.carrier, hPQ _ _ h.lhs, hPQ _ _ h.rhs⟩

/-- Whether a free variable is not that of the hypothesis at a site. -/
def Site.IsApart (site : Site) (x : FVarId) : Prop :=
  match site with
  | .goal => True
  | .hyp y => x ≠ y

theorem states_isApart_goal (r : Rule) : r.States fun _ => Expr.FVarsIn Site.goal.IsApart :=
  ⟨Expr.fvarsIn_of_forall (fun _ => trivial) _, Expr.fvarsIn_of_forall (fun _ => trivial) _,
    Expr.fvarsIn_of_forall (fun _ => trivial) _⟩

namespace Tracks

variable {n fuel : Nat} {rules : List Rule} {sel : Selection} {st st' : ProofState} {g : Goal}
  {site : Site} {eq : Equation} {x : FVarId}

theorem isHyp (hst : Tracks n rules st) (hg : st.currentGoal? = some g) (hx : g.Reaches rules x) :
    IsHyp g.hyps x := by
  rcases hx with hx | ⟨h, hh, -, hx⟩
  · exact hst.used g hg x hx
  · exact Expr.fvarsIn_iff.mp ((hst.goal g hg).hyps h hh) x hx

theorem states_isHyp (hst : Tracks n rules st) (hg : st.currentGoal? = some g) {r : Rule}
    (hr : r ∈ rules) : r.States fun _ => Expr.FVarsIn (IsHyp g.hyps) :=
  (hst.states g hg r hr).mono fun _ _ h => h.mono fun _ => hst.isHyp hg

/-- A selected equation mentions hypotheses other than the one at which it is
used, if the rules do. -/
theorem states_selected (hst : Tracks n sel.rules st) (hroom : st.HasRoom n)
    (hapart : ∀ r ∈ sel.rules, r.States fun _ => Expr.FVarsIn site.IsApart)
    (heq : (st.selectedEquation fuel sel site).run = some (.ok eq)) :
    ∃ g, st.currentGoal? = some g ∧
      eq.States fun _ => Expr.FVarsIn fun y => IsHyp g.hyps y ∧ site.IsApart y := by
  obtain ⟨target, _, _, _, _, hchoice, -⟩ := ProofState.selectedEquation_eq_ok_iff.mp heq
  obtain ⟨g, hg, htarget⟩ := hst.linear.statementAt_eq (growing_lt n) hroom hchoice.target_eq
  refine ⟨g, hg, ((Expr.fvarsIn_hereditary _).selectedEquation heq (fun e he => ?_)
    fun r hr => ((hst.states_isHyp hg hr).and (hapart r hr)).mono fun _ _ h => h.1.and h.2).1⟩
  rw [hchoice.target_eq] at he
  obtain rfl := Except.ok.inj (Option.some.inj he)
  cases site with
  | goal =>
    subst htarget
    exact (hst.goal g hg).target.mono fun y hy => ⟨hy, trivial⟩
  | hyp x =>
    obtain ⟨h, hh, rfl, rfl⟩ := htarget
    exact ((hst.goal g hg).hyps h hh).and ((hst.goal g hg).others h hh)

/-- A selected equation keeps the goal in scope, if no rule states something
about the hypothesis at which it rewrites. -/
theorem replace (hst : Tracks n sel.rules st) (hroom : st'.HasRoom n)
    (hapart : ∀ r ∈ sel.rules, r.States fun _ => Expr.FVarsIn site.IsApart)
    (heq : (st.selectedEquation fuel sel site).run = some (.ok eq))
    (h : (st.replace site eq).run = some (.ok st')) : Tracks n [] st' := by
  have hlen := ProofState.length_le_of_replace h
  have hroom₁ := hroom.of_le hlen.1 hlen.2
  obtain ⟨g, hg, hstates⟩ := hst.states_selected hroom₁ hapart heq
  have hbelow : ∀ x, IsHyp g.hyps x → x.id.toNat < n + st.hypValues.length := by
    rintro x ⟨h, hh, rfl⟩
    exact (hst.linear.hyps g hg h hh).1
  -- The equation mentions hypotheses of the goal only, and each of these is older than
  -- the next one.
  have hlinear : Linear n (fun k x => x.id.toNat < n + k) st' :=
    hst.linear.replace (growing_lt n) hroom (fun r hr =>
      ⟨(hst.states_isHyp hg hr).mono fun _ _ h => h.mono hbelow,
        Expr.fvarsIn_iff.mpr fun x hx => hbelow x (hst.used g hg x ⟨r, hr, hx⟩)⟩) heq h
  refine ⟨hlinear, ?_, ?_, fun _ _ _ ⟨_, hr, _⟩ => absurd hr List.not_mem_nil,
    fun _ _ _ hr => absurd hr List.not_mem_nil⟩
  · rw [ProofState.env_of_replace h]
    exact hst.free
  · intro g' hg'
    cases site with
    | goal =>
      obtain ⟨g₀, target, proof, hg₀, -, -, -, rfl⟩ := ProofState.replaceTarget_eq_ok h
      obtain rfl := Option.some.inj (hg.symm.trans hg₀)
      obtain rfl := Option.some.inj hg'
      exact ⟨⟨hstates.rhs.mono fun _ => And.left, (hst.goal g hg).hyps⟩, (hst.goal g hg).others⟩
    | hyp x =>
      obtain ⟨g₀, old, type, value, hg₀, hold, -, -, ⟨hothers, htarget⟩, -, rfl⟩ :=
        ProofState.replaceHyp_eq_ok h
      obtain rfl := Option.some.inj (hg.symm.trans hg₀)
      obtain rfl := Option.some.inj hg'
      refine (hst.goal g hg).replaceHyp hold hothers htarget hstates.rhs fun hnew => ?_
      have hlt : st.nextFVar.toNat < n + st.hypValues.length := hbelow _ hnew
      have hle := hroom₁.hyps
      rw [hst.linear.toNat_nextFVar (by omega)] at hlt
      -- The number of the new hypothesis would be one of those that are in use.
      exact absurd hlt (Nat.lt_irrefl _)

/-- A rule that does not use the hypothesis at which it rewrites states nothing
about it: the other hypotheses, which are those that it uses, do not mention it
either. -/
theorem isApart_of_not_uses (hst : Tracks n rules st) (hx : ¬ Uses rules x)
    (h : (st.replaceHyp x eq).run = some (.ok st')) {r : Rule} (hr : r ∈ rules) :
    r.States fun _ => Expr.FVarsIn (Site.hyp x).IsApart := by
  obtain ⟨g, old, -, -, hg, hold, -, -, ⟨hothers, -⟩, -, -⟩ := ProofState.replaceHyp_eq_ok h
  refine (hst.states g hg r hr).mono fun _ _ hreach => hreach.mono fun y hy heq => ?_
  rw [heq] at hy
  rcases hy with hy | ⟨h, hh, hused, hy⟩
  · exact hx hy
  · have hne : h.fvar ≠ x := fun heq => hx (heq ▸ hused)
    have hmentions := hothers h (mem_eraseIdx_of_fvar_ne hold hh hne)
    rw [ProofState.mentions, hy] at hmentions
    cases hmentions

/-- Rules are known as long as no hypothesis that they use is replaced. -/
theorem keep (hst : Tracks n rules st) (hst' : Tracks n [] st')
    (hunused : ∀ x, site = .hyp x → ¬ Uses rules x)
    (h : (st.replace site eq).run = some (.ok st')) : Tracks n rules st' := by
  have hkept : ∀ g, st.currentGoal? = some g → ∀ g', st'.currentGoal? = some g' →
      ∀ h ∈ g.hyps, Uses rules h.fvar → h ∈ g'.hyps := by
    intro g hg g' hg' h' hh' hused
    cases site with
    | goal =>
      obtain ⟨g₀, _, _, hg₀, -, -, -, rfl⟩ := ProofState.replaceTarget_eq_ok h
      obtain rfl := Option.some.inj (hg.symm.trans hg₀)
      obtain rfl := Option.some.inj hg'
      exact hh'
    | hyp x =>
      obtain ⟨g₀, old, _, _, hg₀, hold, -, -, -, -, rfl⟩ := ProofState.replaceHyp_eq_ok h
      obtain rfl := Option.some.inj (hg.symm.trans hg₀)
      obtain rfl := Option.some.inj hg'
      exact mem_set_of_fvar_ne hold hh' fun heq => hunused x rfl (heq ▸ hused)
  obtain ⟨g, hg⟩ : ∃ g, st.currentGoal? = some g := by
    cases site with
    | goal =>
      obtain ⟨g, -, -, hg, -⟩ := ProofState.replaceTarget_eq_ok h
      exact ⟨g, hg⟩
    | hyp x =>
      obtain ⟨g, -, -, -, hg, -⟩ := ProofState.replaceHyp_eq_ok h
      exact ⟨g, hg⟩
  refine ⟨hst'.linear, hst'.free, hst'.goal, fun g' hg' x hx => ?_, fun g' hg' r hr => ?_⟩
  · obtain ⟨h', hh', rfl⟩ := hst.used g hg x hx
    exact ⟨h', hkept g hg g' hg' h' hh' hx, rfl⟩
  · refine (hst.states g hg r hr).mono fun _ _ hreach => hreach.mono fun y hy => ?_
    refine hy.imp_right ?_
    rintro ⟨h', hh', hused, hy⟩
    exact ⟨h', hkept g hg g' hg' h' hh' hused, hused, hy⟩

/-- Where rules are elaborated, they use hypotheses, and state something about
those and about what their types mention. -/
theorem elaborate (hst : Tracks n [] st) (hroom : st.HasRoom n) (hg : st.currentGoal? = some g)
    {specs : List RuleSpec} (hspecs : ∀ spec ∈ specs, spec.FVarsIn fun _ => False)
    (h : (st.elaborateRules fuel g specs).run = some (.ok rules)) : Tracks n rules st := by
  have hinscope := hst.goal g hg
  have hhas : ∀ x, IsHyp g.hyps x → ¬ st.metas.Has x := by
    rintro x ⟨h, hh, rfl⟩
    exact Linear.not_has (growing_lt n) hroom (hst.linear.hyps g hg h hh).1
  have hused : ∀ x, Uses rules x → IsHyp g.hyps x := by
    rintro x ⟨r, hr, hx⟩
    obtain ⟨spec, hspec, h⟩ := ProofState.elaborateRules_eq_ok h hr
    obtain ⟨reversed, -, -, hterm, -⟩ := ProofState.elaborateRule_eq_ok h
    have hproof := ProofState.ruleTerm_fvarsIn hst.free.fvarsIn hhas
      (fun h hh => ⟨⟨h, hh, rfl⟩, hinscope.hyps h hh⟩)
      ((hspecs spec hspec).mono fun _ => False.elim) hterm
    exact Expr.fvarsIn_iff.mp hproof x hx
  have hreach : ∀ x, g.Reaches rules x → IsHyp g.hyps x := by
    rintro x (hx | ⟨h, hh, -, hx⟩)
    · exact hused x hx
    · exact Expr.fvarsIn_iff.mp (hinscope.hyps h hh) x hx
  refine ⟨hst.linear, hst.free, hst.goal, fun g' hg' x hx => ?_, fun g' hg' r hr => ?_⟩
  · obtain rfl := Option.some.inj (hg.symm.trans hg')
    exact hused x hx
  · obtain rfl := Option.some.inj (hg.symm.trans hg')
    obtain ⟨spec, hspec, h⟩ := ProofState.elaborateRules_eq_ok h hr
    refine ProofState.states_elaborateRule (p := fun x => r.proof.hasFVar x) hst.free.fvarsIn
      (fun x hx => .inl ⟨r, hr, hx⟩) (fun x hx => hhas x (hreach x hx)) (fun h hh hx => ?_)
      (Expr.fvarsIn_iff.mpr fun _ => id) h
    exact Expr.fvarsIn_iff.mpr fun y hy => .inr ⟨h, hh, ⟨r, hr, hx⟩, hy⟩

theorem forget (hst : Tracks n rules st) : Tracks n [] st :=
  ⟨hst.linear, hst.free, hst.goal, fun _ _ _ ⟨_, hr, _⟩ => absurd hr List.not_mem_nil,
    fun _ _ _ hr => absurd hr List.not_mem_nil⟩

/-- A goal that is closed leaves none. -/
theorem close (hst : Tracks n [] st) (hroom : st.HasRoom n)
    (h : (st.rfl fuel).run = some (.ok st')) : Tracks n [] st' := by
  have hnone : ∀ g', st'.currentGoal? ≠ some g' := by
    intro g' hg'
    rw [ProofState.currentGoal?, hst.linear.goals_of_rfl h] at hg'
    cases hg'
  refine ⟨hst.linear.close (growing_lt n) hroom h, ?_, fun g' hg' => absurd hg' (hnone g'),
    fun g' hg' => absurd hg' (hnone g'), fun g' hg' => absurd hg' (hnone g')⟩
  obtain ⟨g, -, s, refl, -, -, -, -, -, rfl⟩ := ProofState.rfl_eq_ok h
  exact hst.free

end Tracks

/-! ### Runs -/

/-- Whether no rule of a rewrite at a single hypothesis states something about
that hypothesis. -/
def Call.RulesApart (st : ProofState) : Call → Prop
  | .rewrite fuel _ _ specs loc _ => ∀ g rules x, st.currentGoal? = some g →
      (st.elaborateRules fuel g specs).run = some (.ok rules) →
      (st.resolve loc).run = some (.ok (.hyp x)) →
      ∀ r ∈ rules, r.States fun _ => Expr.FVarsIn (· ≠ x)
  | .reflexivity _ => True

namespace Tracks

variable {n : Nat} {st st' : ProofState}

/-- A call keeps the goal in scope. -/
theorem leadsTo {c : Call} (hc : c.LeadsTo st st') (hrules : c.RulesIn fun _ => False)
    (hapart : c.RulesApart st) (hst : st.HasRoom n → Tracks n [] st) :
    st'.HasRoom n → Tracks n [] st' := by
  -- Reflexivity closes the goal that is in scope.
  have hclose : ∀ {fuel st₁ st₂}, (st₁.HasRoom n → Tracks n [] st₁) →
      (ProofState.rfl fuel st₁).run = some (.ok st₂) → st₂.HasRoom n → Tracks n [] st₂ := by
    intro fuel st₁ st₂ hst₁ hrfl hroom
    have hroom₁ := hroom.of_rfl hrfl
    exact (hst₁ hroom₁).close hroom₁ hrfl
  cases hc with
  | closed hrfl => exact hclose hst hrfl
  | refused _ => exact hst
  | @rewrite fuel index side specs loc options answer _ _ h =>
    refine nthRewrite_keeps (J := fun st => st.HasRoom n → Tracks n [] st) h hst
      (fun g rules hg helab r st₁ h₁ => ?_) (fun _ _ => hclose)
    have hbegin : st.HasRoom n → Tracks n rules st :=
      fun hroom => (hst hroom).elaborate hroom hg hrules helab
    by_cases hloc : loc = .everywhere
    · -- Every hypothesis that is replaced is one that the rules do not use.
      subst hloc
      suffices hkeep : st₁.HasRoom n → Tracks n rules st₁ from fun hroom => (hkeep hroom).forget
      refine Selection.rewrite_keeps (J := fun st => st.HasRoom n → Tracks n rules st) ?_ h₁ hbegin
      intro st₂ site eq st₃ hst₂ hsite heq hreplace hroom
      have hlen := ProofState.length_le_of_replace hreplace
      have hst₂ := hst₂ (hroom.of_le hlen.1 hlen.2)
      have hunused : ∀ x, site = .hyp x → ¬ Uses rules x := by
        rintro x rfl ⟨r, hr, hx⟩
        rw [hsite r hr] at hx
        cases hx
      refine hst₂.keep (replace hst₂ hroom (fun r hr => ?_) heq hreplace) hunused hreplace
      cases site with
      | goal => exact states_isApart_goal r
      | hyp x => exact hst₂.isApart_of_not_uses (hunused x rfl) hreplace hr
    · intro hroom
      -- At a single location one statement is replaced, and the rules are apart from it.
      have hone : (Selection.rewriteOne fuel ⟨side, index, rules, options.maxDepth⟩ loc).answer st =
          some (r, st₁) := by
        cases loc with
        | everywhere => exact absurd rfl hloc
        | goal | hyp name => exact h₁
      rcases Selection.rewriteOne_answer hone with rfl | ⟨site, eq, hsite, heq, hreplace⟩
      · exact (hbegin hroom).forget
      · have hlen := ProofState.length_le_of_replace hreplace
        refine replace (hbegin (hroom.of_le hlen.1 hlen.2)) hroom (fun r hr => ?_) heq hreplace
        cases site with
        | goal => exact states_isApart_goal r
        | hyp x => exact hapart g rules x hg helab hsite r hr

/-- A run keeps the goal in scope. -/
theorem run (hst : Tracks n [] st)
    (hrun : st.Run (fun st c => c.RulesIn (fun _ => False) ∧ c.RulesApart st) st')
    (hroom : st'.HasRoom n) : Tracks n [] st' :=
  hrun.keeps (J := fun st => st.HasRoom n → Tracks n [] st)
    (fun _ _ _ hst hc hleads => leadsTo hleads hc.1 hc.2 hst) (fun _ => hst) hroom

end Tracks

/-- In every state that a run leads to the goal mentions its own hypotheses only,
if that is so where it begins and no rule of a rewrite at a single hypothesis
states something about that hypothesis. -/
theorem inScope_of_run {env : Environment} {target : Expr} {hyps : List Hypothesis} {st : ProofState}
    (hfree : env.FVarFree) (hids : ∀ h ∈ hyps, h.fvar.id.toNat < 2 ^ 40)
    (hnodup : (hyps.map Hypothesis.fvar).Nodup)
    (hhyps : ∀ before h after, hyps = before ++ h :: after → h.type.FVarsIn (IsHyp before))
    (htarget : target.FVarsIn (IsHyp hyps))
    (hrun : (ProofState.start env target hyps).Run
      (fun st c => c.RulesIn (fun _ => False) ∧ c.RulesApart st) st)
    (hroom : st.HasRoom (ProofState.start env target hyps).nextFVar.toNat) :
    ∀ g, st.currentGoal? = some g → g.InScope := by
  have hearlier : ∀ h ∈ hyps, h.type.FVarsIn fun y => IsHyp hyps y ∧ y ≠ h.fvar := by
    intro h hh
    obtain ⟨before, after, rfl⟩ := List.append_of_mem hh
    rw [List.map_append, List.map_cons, List.nodup_append] at hnodup
    refine (hhyps before h after rfl).mono ?_
    rintro y ⟨h', hh', rfl⟩
    exact ⟨⟨h', List.mem_append_left _ hh', rfl⟩,
      hnodup.2.2 _ (List.mem_map_of_mem hh') _ List.mem_cons_self⟩
  have hbelow : ∀ y, IsHyp hyps y → y.id.toNat < (ProofState.start env target hyps).nextFVar.toNat := by
    rintro y ⟨h, hh, rfl⟩
    exact ProofState.lt_nextFVar_start hh (hids h hh)
  have hstart : Tracks (ProofState.start env target hyps).nextFVar.toNat []
      (.start env target hyps) := by
    refine ⟨.start hfree.fvarsIn (htarget.mono hbelow) fun h hh =>
      ⟨hbelow _ ⟨h, hh, rfl⟩, (hearlier h hh).mono fun y hy => hbelow y hy.1⟩, hfree, fun g hg => ?_,
      fun _ _ _ ⟨_, hr, _⟩ => absurd hr List.not_mem_nil, fun _ _ _ hr => absurd hr List.not_mem_nil⟩
    obtain rfl := Option.some.inj hg
    exact ⟨⟨htarget, fun h hh => (hearlier h hh).mono fun _ => And.left⟩,
      fun h hh => (hearlier h hh).mono fun _ => And.right⟩
  exact fun g hg => ((hstart.run hrun hroom).goal g hg).toInScope

/-! ### A rule about a hypothesis -/

namespace References

def nat : Expr := .const Vocabulary.nat []

/-- A number. -/
def c : Expr := .const (.simple "c") []

/-- A property of numbers. -/
def holds (e : Expr) : Expr := .app (.const (.simple "Q") []) e

/-- A number for each proof of the property, which is always the same. -/
def constants : List Constant :=
  [⟨.simple "c", [], nat, none⟩,
    ⟨.simple "Q", [], .pi .default nat .prop, none⟩,
    ⟨.simple "f", [], .pi .default (holds c) nat, none⟩,
    ⟨.simple "k", [], .pi .default (holds c)
      (.mkEq .one nat c (.app (.const (.simple "f") []) (.bvar 0))), none⟩]

def env : Environment := ⟨Prelude.constants ++ constants⟩

/-- Two proofs that the number has the property. -/
def hyps : List Hypothesis := [⟨⟨0⟩, "h", holds c, none⟩, ⟨⟨1⟩, "p", holds c, none⟩]

def start : ProofState := .start env (holds c) hyps

/-- The equation that comes with the first proof, as a rule. -/
def rule : Rule :=
  ⟨.app (.const (.simple "k") []) (.fvar ⟨0⟩), [],
    ⟨.eq, .one, nat, c, .app (.const (.simple "f") []) (.fvar ⟨0⟩)⟩, false, "k h"⟩

/-- One of the proofs is rewritten with the rule. -/
def rewrittenAt (name : String) : Option (Except RewriteError RewriteOutcome × ProofState) :=
  (nthRewrite 20 none 0 [.ofText "k h"] (.hyp name) ⟨false, none⟩).answer start

end References

open References in
/-- A rule about the first proof rewrites the second one, which then mentions the
first. -/
theorem mentions_of_other_hypothesis :
    ∃ st g, rewrittenAt "p" = some (.ok ⟨[.hyp "p"], []⟩, st) ∧ st.currentGoal? = some g ∧
      (∃ h ∈ g.hyps, h.name = "p" ∧ h.type.hasFVar ⟨0⟩) ∧ g.InScope := by
  obtain ⟨st, hst, heq⟩ : ∃ st, rewrittenAt "p" = some (.ok ⟨[.hyp "p"], []⟩, st) ∧
      (st.hypValues.length, st.metas.metas.length, st.currentGoal?.map fun g =>
        g.hyps.any fun h => h.name = "p" ∧ h.type.hasFVar ⟨0⟩) = (1, 1, some true) :=
    ChangeM.answer_eq_ok (by decide +kernel)
  simp only [Prod.mk.injEq] at heq
  obtain ⟨hvalues, hmetas, hgoal⟩ := heq
  obtain ⟨g, hg, hmentions⟩ := Option.map_eq_some_iff.mp hgoal
  have hrules : (Call.rewrite 20 none 0 [.ofText "k h"] (.hyp "p") ⟨false, none⟩).RulesIn
      fun _ => False := by
    simp [Call.RulesIn, RuleSpec.FVarsIn, RuleSpec.ofText]
  -- The rule states something about the first proof, and the rewrite is at the second.
  have hapart : (Call.rewrite 20 none 0 [.ofText "k h"] (.hyp "p") ⟨false, none⟩).RulesApart
      start := by
    intro g rules x hg helab hsite r hr
    obtain rfl := Option.some.inj hg
    have helab' : ((start.elaborateRules 20 ⟨MetaContext.empty.nextId, holds c, hyps⟩
        [.ofText "k h"]).run.map Except.toOption) = some (some [rule]) := by
      decide +kernel
    have hsite' : (start.resolve (.hyp "p")).run = some (.ok (.hyp ⟨1⟩)) := by rfl
    rw [show (start.elaborateRules 20 _ _).run = _ from helab] at helab'
    obtain rfl := Option.some.inj (Option.some.inj helab')
    obtain rfl := Site.hyp.inj (Except.ok.inj (Option.some.inj (hsite.symm.trans hsite')))
    obtain rfl := List.mem_singleton.mp hr
    exact ⟨by decide, by decide, by decide⟩
  -- The types of the hypotheses mention no variable at all.
  have hearlier : ∀ before h after, hyps = before ++ h :: after →
      h.type.FVarsIn (IsHyp before) := by
    intro before h after heq
    have hh : h ∈ hyps := heq ▸ List.mem_append_right _ List.mem_cons_self
    have hclosed : ∀ h ∈ hyps, h.type.FVarsIn fun _ => False := by decide
    exact (hclosed h hh).mono fun _ => False.elim
  have hrun : start.Run (fun st c => c.RulesIn (fun _ => False) ∧ c.RulesApart st) st :=
    .cons ⟨hrules, hapart⟩ (.rewrite hst) (.nil st)
  have hinscope := inScope_of_run (Environment.fvarFree_prelude_append (by decide)) (by decide)
    (by decide) hearlier (by decide) hrun ⟨by rw [hvalues]; decide, by rw [hmetas]; decide⟩
  exact ⟨st, g, hst, hg, by simpa using hmentions, hinscope g hg⟩

open References in
/-- A rule about the first proof rewrites that very proof, which then mentions
the hypothesis that it was. -/
theorem dangling_of_own_hypothesis :
    ∃ st g, rewrittenAt "h" = some (.ok ⟨[.hyp "h"], []⟩, st) ∧ st.currentGoal? = some g ∧
      ¬ g.InScope := by
  obtain ⟨st, hst, hgoal⟩ : ∃ st, rewrittenAt "h" = some (.ok ⟨[.hyp "h"], []⟩, st) ∧
      st.currentGoal?.map (fun g => decide g.InScope) = some false :=
    ChangeM.answer_eq_ok (by decide +kernel)
  obtain ⟨g, hg, hscope⟩ := Option.map_eq_some_iff.mp hgoal
  exact ⟨st, g, hst, hg, of_decide_eq_false hscope⟩

end Pinpoint
