/-
A rewrite everywhere.

It goes through the hypotheses that the goal has when it begins, one after the
other, and then to the target.  A failure at a hypothesis is passed over, and so
is a target in which nothing is found; but a target at which the rewrite goes
wrong makes the whole of it fail, and what was done to hypotheses before is not
undone.

* `Selection.Sweeps` — the way through the hypotheses, step by step;
* `Sweeps.hypsReplaced` — what it does to a proof state;
* `rewriteEverywhere_answer` — how a rewrite everywhere ends;
* `nthRewrite_everywhere_fails` — what a failure leaves of the proof state;
* `hypothesis_kept_rewritten` — a failure that leaves a hypothesis rewritten.
-/
import Mathlib.Data.List.Forall2
import Pinpoint.Proofs.References

namespace Pinpoint

/-! ### Hypotheses replaced -/

/-- Whether a hypothesis takes the place of another one: it is that one, or has
its name, and then no rule uses that one. -/
def Hypothesis.Replaces (rules : List Rule) (h h' : Hypothesis) : Prop :=
  h' = h ∨ h'.name = h.name ∧ ¬ Uses rules h.fvar

/-- Whether a goal is another one with hypotheses replaced that no rule uses. -/
structure Goal.HypsReplaced (rules : List Rule) (g g' : Goal) : Prop where
  metaId : g'.metaId = g.metaId
  target : g'.target = g.target
  hyps : List.Forall₂ (Hypothesis.Replaces rules) g.hyps g'.hyps

/-- Whether a proof state is another one with hypotheses replaced that no rule
uses. -/
structure ProofState.HypsReplaced (rules : List Rule) (st st' : ProofState) : Prop where
  env : st'.env = st.env
  metas : st'.metas = st.metas
  goals : List.Forall₂ (Goal.HypsReplaced rules) st.goals st'.goals

section
variable {rules : List Rule} {h h' h'' : Hypothesis} {hyps : List Hypothesis} {g g' g'' : Goal}
  {st st' st'' : ProofState} {x : FVarId} {eq : Equation}

theorem Hypothesis.Replaces.trans (hh' : h.Replaces rules h') (hh'' : h'.Replaces rules h'') :
    h.Replaces rules h'' := by
  rcases hh' with rfl | ⟨hname, hunused⟩
  · exact hh''
  · rcases hh'' with rfl | ⟨hname', -⟩
    · exact .inr ⟨hname, hunused⟩
    · exact .inr ⟨hname'.trans hname, hunused⟩

theorem forall₂_replaces_refl (rules : List Rule) (hyps : List Hypothesis) :
    List.Forall₂ (Hypothesis.Replaces rules) hyps hyps :=
  List.forall₂_same.mpr fun _ _ => .inl rfl

theorem forall₂_replaces_set {i : Nat} (hi : hyps[i]? = some h) (hh' : h.Replaces rules h') :
    List.Forall₂ (Hypothesis.Replaces rules) hyps (hyps.set i h') := by
  induction hyps generalizing i with
  | nil => cases hi
  | cons h₀ hyps ih =>
    rcases i with _ | i
    · obtain rfl := Option.some.inj hi
      exact .cons hh' (forall₂_replaces_refl rules hyps)
    · exact .cons (.inl rfl) (ih hi)

theorem forall₂_trans {α : Type} {R : α → α → Prop} (hR : ∀ a b c, R a b → R b c → R a c)
    {l l' l'' : List α} (h : List.Forall₂ R l l') (h' : List.Forall₂ R l' l'') :
    List.Forall₂ R l l'' := by
  induction h generalizing l'' with
  | nil => exact h'
  | cons hab _ ih =>
    cases h' with
    | cons hbc hrest => exact .cons (hR _ _ _ hab hbc) (ih hrest)

theorem Goal.HypsReplaced.refl (rules : List Rule) (g : Goal) : g.HypsReplaced rules g :=
  ⟨rfl, rfl, forall₂_replaces_refl rules g.hyps⟩

theorem Goal.HypsReplaced.trans (h : g.HypsReplaced rules g') (h' : g'.HypsReplaced rules g'') :
    g.HypsReplaced rules g'' :=
  ⟨h'.metaId.trans h.metaId, h'.target.trans h.target,
    forall₂_trans (R := Hypothesis.Replaces rules) (fun _ _ _ => .trans) h.hyps h'.hyps⟩

namespace ProofState

theorem HypsReplaced.refl (rules : List Rule) (st : ProofState) : st.HypsReplaced rules st :=
  ⟨Eq.refl _, Eq.refl _, List.forall₂_same.mpr fun g _ => .refl rules g⟩

theorem HypsReplaced.trans (h : st.HypsReplaced rules st') (h' : st'.HypsReplaced rules st'') :
    st.HypsReplaced rules st'' :=
  ⟨h'.env.trans h.env, h'.metas.trans h.metas,
    forall₂_trans (R := Goal.HypsReplaced rules) (fun _ _ _ => .trans) h.goals h'.goals⟩

/-- One hypothesis replaced. -/
theorem hypsReplaced_replaceHyp (hx : ¬ Uses rules x)
    (h : (st.replaceHyp x eq).run = some (.ok st')) : st.HypsReplaced rules st' := by
  obtain ⟨g, old, type, value, hg, hold, -, -, -, -, rfl⟩ := replaceHyp_eq_ok h
  refine ⟨Eq.refl _, Eq.refl _, ?_⟩
  obtain ⟨rest, hgoals⟩ : ∃ rest, st.goals = g :: rest := List.head?_eq_some_iff.mp hg
  rw [hgoals]
  refine .cons ⟨Eq.refl _, Eq.refl _, ?_⟩ (List.forall₂_same.mpr fun g _ => .refl rules g)
  have hfvar : old.fvar = x := by simpa using List.find?_some hold
  rw [List.find?_eq_getElem?_findIdx] at hold
  exact forall₂_replaces_set hold (.inr ⟨Eq.refl _, hfvar ▸ hx⟩)

end ProofState

end

/-! ### The way through the hypotheses -/

namespace Selection

/-- What a rewrite does at hypotheses one after the other, and what is reported
of it: a hypothesis that a rule uses is passed over, and so is one at which the
rewrite fails. -/
inductive Sweeps (fuel : Nat) (sel : Selection) :
    ProofState → List (String × FVarId) → RewriteOutcome → ProofState → Prop
  | nil (st : ProofState) : Sweeps fuel sel st [] ⟨[], []⟩ st
  | used {st st' : ProofState} {name : String} {x : FVarId} {hyps : List (String × FVarId)}
    {o : RewriteOutcome} :
    Uses sel.rules x → Sweeps fuel sel st hyps o st' →
      Sweeps fuel sel st ((name, x) :: hyps)
        { o with skipped := ⟨.hyp name, "used by a rewrite rule"⟩ :: o.skipped } st'
  | failed {st st' : ProofState} {name : String} {x : FVarId} {hyps : List (String × FVarId)}
    {o : RewriteOutcome} {e : RewriteError} :
    ¬ Uses sel.rules x → (st.rewriteAt fuel sel (.hyp x)).run = some (.error e) →
      Sweeps fuel sel st hyps o st' →
      Sweeps fuel sel st ((name, x) :: hyps)
        { o with skipped := ⟨.hyp name, e.message⟩ :: o.skipped } st'
  | rewritten {st st₁ st' : ProofState} {name : String} {x : FVarId}
    {hyps : List (String × FVarId)} {o : RewriteOutcome} :
    ¬ Uses sel.rules x → (st.rewriteAt fuel sel (.hyp x)).run = some (.ok st₁) →
      Sweeps fuel sel st₁ hyps o st' →
      Sweeps fuel sel st ((name, x) :: hyps) { o with rewritten := .hyp name :: o.rewritten } st'

variable {fuel : Nat} {sel : Selection} {st st' : ProofState} {hyps : List (String × FVarId)}
  {o : RewriteOutcome}

/-- The answer of a rewrite at hypotheses, of which the first is passed over for
the given reason. -/
def passOver (name reason : String)
    (answer : Option (Except RewriteError RewriteOutcome × ProofState)) :
    Option (Except RewriteError RewriteOutcome × ProofState) :=
  answer.map fun p =>
    (p.1.map fun o => { o with skipped := ⟨.hyp name, reason⟩ :: o.skipped }, p.2)

/-- The rewrite at the first hypothesis, and those at the others after it. -/
theorem answer_rewriteHyps_cons (name : String) (x : FVarId) :
    (sel.rewriteHyps fuel ((name, x) :: hyps)).answer st =
      if sel.rules.any fun r => r.proof.hasFVar x then
        passOver name "used by a rewrite rule" ((sel.rewriteHyps fuel hyps).answer st)
      else (st.rewriteAt fuel sel (.hyp x)).run.bind fun r =>
        match r with
        | .error e => passOver name e.message ((sel.rewriteHyps fuel hyps).answer st)
        | .ok st₁ => ((sel.rewriteHyps fuel hyps).answer st₁).map fun p =>
          (p.1.map fun o => { o with rewritten := .hyp name :: o.rewritten }, p.2) := by
  -- A hypothesis is passed over in the same way for either reason.
  have hskip : ∀ (reason : String) (st : ProofState),
      ChangeM.answer (do
        let others ← sel.rewriteHyps fuel hyps
        return { others with skipped := ⟨.hyp name, reason⟩ :: others.skipped }) st =
      passOver name reason ((sel.rewriteHyps fuel hyps).answer st) := by
    intro reason st
    rw [ChangeM.answer_bind]
    unfold passOver
    rcases (sel.rewriteHyps fuel hyps).answer st with _ | ⟨_ | o, st'⟩ <;> rfl
  rw [rewriteHyps]
  split
  · rw [ChangeM.answer_bind]
    exact hskip _ st
  · rw [ChangeM.answer_bind, ChangeM.answer_tryCatch, ChangeM.answer_bind,
      (RewriteM.atomic_rewriteAt fuel sel (.hyp x)).answer_eq]
    show Option.bind (Option.bind (Option.bind
      (Option.map _ (st.rewriteAt fuel sel (.hyp x)).run) _) _) _ = _
    rcases (st.rewriteAt fuel sel (.hyp x)).run with _ | e | st₁
    · rfl
    · exact hskip _ st
    · show ChangeM.answer (_ >>= _) st₁ = Option.map _ ((sel.rewriteHyps fuel hyps).answer st₁)
      rw [ChangeM.answer_bind]
      rcases (sel.rewriteHyps fuel hyps).answer st₁ with _ | ⟨_ | o, st'⟩ <;> rfl

/-- Rewrites at hypotheses go through them, and do not fail. -/
theorem sweeps_of_answer {r : Except RewriteError RewriteOutcome}
    (h : (sel.rewriteHyps fuel hyps).answer st = some (r, st')) :
    ∃ o, r = .ok o ∧ sel.Sweeps fuel st hyps o st' := by
  induction hyps generalizing st r with
  | nil =>
    obtain ⟨rfl, rfl⟩ := Prod.mk.inj (Option.some.inj h)
    exact ⟨_, rfl, .nil _⟩
  | cons hyp hyps ih =>
    obtain ⟨name, x⟩ := hyp
    -- A hypothesis that is passed over leaves the sweep to the others.
    have hskip : ∀ {reason : String} {r : Except RewriteError RewriteOutcome},
        passOver name reason ((sel.rewriteHyps fuel hyps).answer st) = some (r, st') →
        ∃ o, r = .ok { o with skipped := ⟨.hyp name, reason⟩ :: o.skipped } ∧
          sel.Sweeps fuel st hyps o st' := by
      intro reason r h
      obtain ⟨⟨r', st''⟩, hrest, heq⟩ := Option.map_eq_some_iff.mp h
      obtain ⟨rfl, rfl⟩ := Prod.mk.inj heq
      obtain ⟨o, rfl, hsweeps⟩ := ih hrest
      exact ⟨o, rfl, hsweeps⟩
    rw [answer_rewriteHyps_cons] at h
    split at h
    · rename_i hused
      obtain ⟨o, rfl, hsweeps⟩ := hskip h
      exact ⟨_, rfl, .used (List.any_eq_true.mp hused) hsweeps⟩
    · rename_i hunused
      have hunused : ¬ Uses sel.rules x := fun hused => hunused (List.any_eq_true.mpr hused)
      obtain ⟨e | st₁, hat, h⟩ := Option.bind_eq_some_iff.mp h
      · obtain ⟨o, rfl, hsweeps⟩ := hskip h
        exact ⟨_, rfl, .failed hunused hat hsweeps⟩
      · obtain ⟨⟨r', st''⟩, hrest, heq⟩ := Option.map_eq_some_iff.mp h
        obtain ⟨rfl, rfl⟩ := Prod.mk.inj heq
        obtain ⟨o, rfl, hsweeps⟩ := ih hrest
        exact ⟨_, rfl, .rewritten hunused hat hsweeps⟩

namespace Sweeps

/-- The way through the hypotheses replaces some that no rule uses. -/
theorem hypsReplaced (h : sel.Sweeps fuel st hyps o st') :
    st.HypsReplaced sel.rules st' := by
  induction h with
  | nil st => exact .refl _ st
  | used _ _ ih => exact ih
  | failed _ _ _ ih => exact ih
  | rewritten hunused hat _ ih =>
    obtain ⟨eq, -, hreplace⟩ := ProofState.rewriteAt_eq_ok.mp hat
    exact (ProofState.hypsReplaced_replaceHyp hunused hreplace).trans ih

/-- Where no hypothesis is reported as rewritten, none was. -/
theorem eq_of_rewritten_eq_nil (h : sel.Sweeps fuel st hyps o st') (ho : o.rewritten = []) :
    st' = st := by
  induction h with
  | nil st => rfl
  | used _ _ ih => exact ih ho
  | failed _ _ _ ih => exact ih ho
  | rewritten => cases ho

end Sweeps

/-- What is reported at the end. -/
theorem answer_report (rewritten : List Location) (skipped : List Skipped) :
    ChangeM.answer (if rewritten.isEmpty then throw .nothingRewritten
      else return ⟨rewritten, skipped⟩ : RewriteM RewriteOutcome) st =
      some (if rewritten = [] then .error .nothingRewritten else .ok ⟨rewritten, skipped⟩, st) := by
  cases rewritten <;> rfl

/-- A rewrite everywhere goes through the hypotheses and then to the target. -/
theorem rewriteEverywhere_answer {r : Except RewriteError RewriteOutcome}
    (h : (sel.rewriteEverywhere fuel).answer st = some (r, st')) :
    ∃ o st₁, sel.Sweeps fuel st st.hypotheses o st₁ ∧
      (((st₁.rewriteAt fuel sel .goal).run = some (.ok st') ∧
          r = .ok ⟨o.rewritten ++ [.goal], o.skipped⟩) ∨
        ∃ e, (st₁.rewriteAt fuel sel .goal).run = some (.error e) ∧ st' = st₁ ∧
          r = if e.isNoMatch then
              if o.rewritten = [] then .error .nothingRewritten
              else .ok ⟨o.rewritten, o.skipped ++ [⟨.goal, e.message⟩]⟩
            else .error (.at .goal e)) := by
  unfold rewriteEverywhere at h
  have hget : ChangeM.answer (get : RewriteM ProofState) st = some (.ok st, st) := rfl
  rw [ChangeM.answer_bind, hget, Option.bind_some] at h
  dsimp only at h
  rw [ChangeM.answer_bind] at h
  obtain ⟨⟨r₁, st₁⟩, hhyps, h⟩ := Option.bind_eq_some_iff.mp h
  -- The hypotheses come first, and never fail as a whole.
  obtain ⟨o, rfl, hsweeps⟩ := sweeps_of_answer hhyps
  dsimp only at h
  rw [ChangeM.answer_bind, answer_rewriteGoal] at h
  obtain ⟨⟨r₂, st₂⟩, hgoal, h⟩ := Option.bind_eq_some_iff.mp h
  -- The target comes last; a failure there counts only if a match was found.
  obtain ⟨e | st₂', hat, heq⟩ := Option.map_eq_some_iff.mp hgoal
  · obtain ⟨rfl, rfl⟩ := Prod.mk.inj heq
    refine ⟨o, st₁, hsweeps, .inr ⟨e, hat, ?_⟩⟩
    by_cases he : e.isNoMatch
    · simp only [he, if_true] at h ⊢
      rw [answer_report, List.append_nil] at h
      obtain ⟨rfl, rfl⟩ := Prod.mk.inj (Option.some.inj h)
      exact ⟨rfl, rfl⟩
    · simp only [he, Bool.false_eq_true, if_false] at h ⊢
      obtain ⟨rfl, rfl⟩ := Prod.mk.inj (Option.some.inj h)
      exact ⟨rfl, rfl⟩
  · obtain ⟨rfl, rfl⟩ := Prod.mk.inj heq
    refine ⟨o, st₁, hsweeps, .inl ?_⟩
    dsimp only at h
    rw [answer_report] at h
    obtain ⟨rfl, rfl⟩ := Prod.mk.inj (Option.some.inj h)
    rw [if_neg (by simp), List.append_nil]
    exact ⟨hat, rfl⟩

theorem Sweeps.snoc {st₁ st₂ : ProofState} {before : List (String × FVarId)} {name : String}
    {x : FVarId} (h : sel.Sweeps fuel st before o st₁) {o₂ : RewriteOutcome}
    (hlast : sel.Sweeps fuel st₁ [(name, x)] o₂ st₂) :
    ∃ o', sel.Sweeps fuel st (before ++ [(name, x)]) o' st₂ := by
  induction h with
  | nil => exact ⟨_, hlast⟩
  | used hused _ ih =>
    obtain ⟨o', h⟩ := ih hlast
    exact ⟨_, .used hused h⟩
  | failed hunused he _ ih =>
    obtain ⟨o', h⟩ := ih hlast
    exact ⟨_, .failed hunused he h⟩
  | rewritten hunused hat _ ih =>
    obtain ⟨o', h⟩ := ih hlast
    exact ⟨_, .rewritten hunused hat h⟩

/-- Where a rewrite that begins in the state `st` comes to: at a single location it
is tried at the site that this means, in `st` itself; everywhere it is tried at the
hypotheses that no rule uses, each in the state that the sweep over those before it
leads to, and at the target after all of them. -/
inductive Tries (fuel : Nat) (sel : Selection) (st : ProofState) :
    Location → ProofState → Site → Prop
  | single {loc : Location} {site : Site} : (st.resolve loc).run = some (.ok site) →
    Tries fuel sel st loc st site
  | hyp {st₁ : ProofState} {before after : List (String × FVarId)} {name : String} {x : FVarId}
    {o : RewriteOutcome} : st.hypotheses = before ++ (name, x) :: after →
    sel.Sweeps fuel st before o st₁ → ¬ Uses sel.rules x → Tries fuel sel st .everywhere st₁ (.hyp x)
  | goal {st₁ : ProofState} {o : RewriteOutcome} : sel.Sweeps fuel st st.hypotheses o st₁ →
    Tries fuel sel st .everywhere st₁ .goal

/-- A rewrite keeps what is kept wherever it is tried. -/
theorem rewrite_keeps_tried {loc : Location} {J : ProofState → Prop}
    {r : Except RewriteError RewriteOutcome} (h : (sel.rewrite fuel loc).answer st = some (r, st'))
    (hst : J st)
    (hJ : ∀ st₁ site st₂, sel.Tries fuel st loc st₁ site → J st₁ →
      (st₁.rewriteAt fuel sel site).run = some (.ok st₂) → J st₂) : J st' := by
  have hone : ∀ {loc : Location}, (∀ st₁ site st₂, sel.Tries fuel st loc st₁ site → J st₁ →
      (st₁.rewriteAt fuel sel site).run = some (.ok st₂) → J st₂) →
      (sel.rewriteOne fuel loc).answer st = some (r, st') → J st' := by
    intro loc hJ h
    rcases rewriteOne_answer h with rfl | ⟨site, eq, hsite, heq, hreplace⟩
    · exact hst
    · exact hJ st site st' (.single hsite) hst (ProofState.rewriteAt_eq_ok.mpr ⟨eq, heq, hreplace⟩)
  cases loc with
  | goal => exact hone hJ h
  | hyp name => exact hone hJ h
  | everywhere =>
    obtain ⟨o, st₁, hsweeps, hgoal⟩ := rewriteEverywhere_answer h
    -- the sweep over the first hypotheses goes on with the others
    have hsweep : ∀ {rest st₀ o₀ st₁}, sel.Sweeps fuel st₀ rest o₀ st₁ → ∀ before o',
        st.hypotheses = before ++ rest → sel.Sweeps fuel st before o' st₀ → J st₀ → J st₁ := by
      intro rest st₀ o₀ st₁ hrest
      induction hrest with
      | nil => exact fun _ _ _ _ hst => hst
      | used hused _ ih =>
        intro before o' heq hbefore hst₀
        obtain ⟨o'', hnext⟩ := hbefore.snoc (.used hused (.nil _))
        exact ih _ o'' (by rw [heq, List.append_assoc]; rfl) hnext hst₀
      | failed hunused he _ ih =>
        intro before o' heq hbefore hst₀
        obtain ⟨o'', hnext⟩ := hbefore.snoc (.failed hunused he (.nil _))
        exact ih _ o'' (by rw [heq, List.append_assoc]; rfl) hnext hst₀
      | rewritten hunused hat _ ih =>
        intro before o' heq hbefore hst₀
        obtain ⟨o'', hnext⟩ := hbefore.snoc (.rewritten hunused hat (.nil _))
        exact ih _ o'' (by rw [heq, List.append_assoc]; rfl) hnext
          (hJ _ _ _ (.hyp heq hbefore hunused) hst₀ hat)
    have hst₁ : J st₁ := hsweep hsweeps [] ⟨[], []⟩ rfl (.nil st) hst
    rcases hgoal with ⟨hat, -⟩ | ⟨e, -, rfl, -⟩
    · exact hJ st₁ .goal st' (.goal hsweeps) hst₁ hat
    · exact hst₁

/-- A rewrite everywhere that fails leaves the state as it was, or fails at the
target with what it did to hypotheses before. -/
theorem rewriteEverywhere_fails {e : RewriteError}
    (h : (sel.rewriteEverywhere fuel).answer st = some (.error e, st')) :
    st' = st ∨ ∃ o cause, sel.Sweeps fuel st st.hypotheses o st' ∧ o.rewritten ≠ [] ∧
      (st'.rewriteAt fuel sel .goal).run = some (.error cause) ∧ ¬ cause.isNoMatch ∧
      e = .at .goal cause := by
  obtain ⟨o, st₁, hsweeps, ⟨-, hr⟩ | ⟨cause, hat, rfl, hr⟩⟩ := rewriteEverywhere_answer h
  · cases hr
  by_cases ho : o.rewritten = []
  · exact .inl (hsweeps.eq_of_rewritten_eq_nil ho)
  · rw [if_neg ho] at hr
    split at hr
    · cases hr
    · rename_i hcause
      exact .inr ⟨o, cause, hsweeps, ho, hat, hcause, Except.error.inj hr⟩

end Selection

/-- A rewrite that fails does so in the elaboration of its rules, or after it. -/
theorem nthRewrite_error {fuel : Nat} {side : Option Side} {index : Nat}
    {specs : List RuleSpec} {loc : Location} {options : RewriteOptions} {st st' : ProofState}
    {e : RewriteError}
    (h : (nthRewrite fuel side index specs loc options).answer st = some (.error e, st')) :
    st' = st ∨ ∃ rules, (st.rulesFor fuel specs).run = some (.ok rules) ∧
      (Selection.rewrite fuel ⟨side, index, rules, options.maxDepth⟩ loc).answer st =
        some (.error e, st') := by
  unfold nthRewrite at h
  rw [ChangeM.answer_bind, ChangeM.answer_ofQuery] at h
  change Option.bind (Option.map _ (st.rulesFor fuel specs).run) _ = _ at h
  obtain ⟨p, hrules, h⟩ := Option.bind_eq_some_iff.mp h
  obtain ⟨_ | rules, hfor, rfl⟩ := Option.map_eq_some_iff.mp hrules
  · obtain ⟨-, rfl⟩ := Prod.mk.inj (Option.some.inj h)
    exact .inl rfl
  · dsimp only at h
    rw [ChangeM.answer_bind] at h
    obtain ⟨⟨_ | o, st₁⟩, hst₁, h⟩ := Option.bind_eq_some_iff.mp h
    · obtain ⟨he, rfl⟩ := Prod.mk.inj (Option.some.inj h)
      obtain rfl := Except.error.inj he
      exact .inr ⟨rules, hfor, hst₁⟩
    · -- Reflexivity, which is tried then, does not fail.
      dsimp only at h
      split at h
      · rw [ChangeM.answer_bind, answer_tryReflexivity] at h
        obtain ⟨p, hp, h⟩ := Option.bind_eq_some_iff.mp h
        obtain ⟨_ | _, -, rfl⟩ := Option.map_eq_some_iff.mp hp
        · cases (Prod.mk.inj (Option.some.inj h)).1
        · cases (Prod.mk.inj (Option.some.inj h)).1
      · cases (Prod.mk.inj (Option.some.inj h)).1

/-- A rewrite everywhere that fails leaves the state as it was, unless the
rewrite at the target goes wrong; then the target, the goals, the metavariables
and the hypotheses that a rule uses are still as they were, and the others are
as the rewrites at one hypothesis after the other left them. -/
theorem nthRewrite_everywhere_fails {fuel : Nat} {side : Option Side} {index : Nat}
    {specs : List RuleSpec} {options : RewriteOptions} {st st' : ProofState} {e : RewriteError}
    (h : (nthRewrite fuel side index specs .everywhere options).answer st =
      some (.error e, st')) :
    st' = st ∨ ∃ rules o cause, (st.rulesFor fuel specs).run = some (.ok rules) ∧
      Selection.Sweeps fuel ⟨side, index, rules, options.maxDepth⟩ st st.hypotheses o st' ∧
      o.rewritten ≠ [] ∧ st.HypsReplaced rules st' ∧
      (st'.rewriteAt fuel ⟨side, index, rules, options.maxDepth⟩ .goal).run =
        some (.error cause) ∧
      ¬ cause.isNoMatch ∧ e = .at .goal cause := by
  obtain hst | ⟨rules, hrules, h⟩ := nthRewrite_error h
  · exact .inl hst
  obtain hst | ⟨o, cause, hsweeps, ho, hat, hcause, he⟩ := Selection.rewriteEverywhere_fails h
  · exact .inl hst
  · exact .inr ⟨rules, o, cause, hrules, hsweeps, ho, hsweeps.hypsReplaced, hat, hcause, he⟩

/-! ### A failure at the target -/

namespace Everywhere

def nat : Expr := .const Vocabulary.nat []

def a : Expr := .const (.simple "a") []

def b : Expr := .const (.simple "b") []

def c : Expr := .const (.simple "c") []

/-- A property of numbers. -/
def holds (e : Expr) : Expr := .app (.const (.simple "P") []) e

/-- A function with one value, which its argument cannot be read off from. -/
def constants : List Constant :=
  [⟨.simple "a", [], nat, none⟩, ⟨.simple "b", [], nat, none⟩, ⟨.simple "c", [], nat, none⟩,
    ⟨.simple "f", [], .pi .default nat nat, none⟩, ⟨.simple "P", [], .pi .default nat .prop, none⟩,
    ⟨.simple "k", [], .pi .default nat
      (.mkEq .one nat c (.app (.const (.simple "f") []) (.bvar 0))), none⟩]

def env : Environment := ⟨Prelude.constants ++ constants⟩

/-- An equation between two numbers, and that one of them has the property. -/
def hyps : List Hypothesis :=
  [⟨⟨0⟩, "e", .mkEq .one nat a b, none⟩, ⟨⟨1⟩, "h", holds a, none⟩]

def start : ProofState := .start env (holds c) hyps

/-- A rewrite everywhere with the hypothesis and then the constant.  At the
target it is the constant that matches. -/
def failed : Option (Except RewriteError RewriteOutcome × ProofState) :=
  (nthRewrite 20 none 0 [.ofText "e", .ofText "k"] .everywhere ⟨false, none⟩).answer start

/-- The types of the hypotheses. -/
def typesOf (st : ProofState) : Option (List Expr) :=
  st.currentGoal?.map fun g => g.hyps.map Hypothesis.type

/-- The failure, and the types of the hypotheses after it. -/
theorem failed_eq : ∃ e st', failed = some (.error e, st') ∧
    typesOf st' = some [.mkEq .one nat a b, holds b] := by
  have h : failed.map (fun p => (p.1.isOk, typesOf p.2)) =
      some (false, some [.mkEq .one nat a b, holds b]) := by
    decide +kernel
  obtain ⟨⟨e | o, st'⟩, hfailed, hp⟩ := Option.map_eq_some_iff.mp h
  · exact ⟨e, st', hfailed, (Prod.mk.inj hp).2⟩
  · cases (Prod.mk.inj hp).1

theorem typesOf_start : typesOf start = some [.mkEq .one nat a b, holds a] := by rfl

theorem ne_start {st : ProofState} (h : typesOf st = some [.mkEq .one nat a b, holds b]) :
    st ≠ start := by
  rintro rfl
  exact absurd (typesOf_start.symm.trans h) (by decide)

end Everywhere

open Everywhere in
/-- The rewrite goes wrong at the target, with the equation kept, which is a
rule. -/
theorem rule_kept_by_failed_rewrite :
    ∃ st' rules o cause, failed = some (.error (.at .goal cause), st') ∧
      (start.rulesFor 20 [.ofText "e", .ofText "k"]).run = some (.ok rules) ∧
      start.HypsReplaced rules st' ∧
      Selection.Sweeps 20 ⟨none, 0, rules, none⟩ start start.hypotheses o st' ∧
      o.rewritten ≠ [] ∧
      (st'.rewriteAt 20 ⟨none, 0, rules, none⟩ .goal).run = some (.error cause) := by
  obtain ⟨e, st', hfailed, htypes⟩ := failed_eq
  obtain hst | ⟨rules, o, cause, hrules, hsweeps, ho, hreplaced, hat, -, rfl⟩ :=
    nthRewrite_everywhere_fails hfailed
  · exact absurd hst (ne_start htypes)
  · exact ⟨st', rules, o, cause, hfailed, hrules, hreplaced, hsweeps, ho, hat⟩

open Everywhere in
/-- The hypothesis that is no rule has been rewritten when the rewrite at the
target goes wrong, and stays so. -/
theorem hypothesis_kept_rewritten :
    ∃ e st', failed = some (.error e, st') ∧ st' ≠ start ∧
      typesOf start = some [.mkEq .one nat a b, holds a] ∧
      typesOf st' = some [.mkEq .one nat a b, holds b] := by
  obtain ⟨e, st', hfailed, htypes⟩ := failed_eq
  exact ⟨e, st', hfailed, ne_start htypes, typesOf_start, htypes⟩

end Pinpoint
