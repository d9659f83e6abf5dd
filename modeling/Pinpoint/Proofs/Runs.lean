/-
Runs of rewrites.

A run is any number of calls one after the other, rewrites with rules, a
location and options of their own and attempts at reflexivity, also those that
fail.  Whatever a call does to the proof state, it does by changes of two kinds:
a statement is replaced along the equation that was selected for it, or the
goal is closed by reflexivity.

* `Selection.rewrite_keeps`, `nthRewrite_keeps` — a rewrite keeps what each of
  its changes keeps, at every location and with every option;
* `Run.keeps` — a run keeps what each of its calls keeps.
-/
import Pinpoint.Proofs.Rewrites

namespace Pinpoint

/-! ### Rewrites -/

open ChangeM

namespace Selection

variable {fuel : Nat} {sel : Selection} {loc : Location} {J : ProofState → Prop}

/-- Whether a rewrite at a location may replace the statement at a site:
everywhere this is every hypothesis that no rule uses, and the target. -/
def MayReplace (sel : Selection) (loc : Location) (st : ProofState) (site : Site) : Prop :=
  match loc, site with
  | .everywhere, .goal => True
  | .everywhere, .hyp x => ∀ r ∈ sel.rules, r.proof.hasFVar x = false
  | loc, site => (st.resolve loc).run = some (.ok site)

/-- A rewrite at one statement replaces it, or keeps the state. -/
theorem rewriteOne_answer {r : Except RewriteError RewriteOutcome} {st st' : ProofState}
    (h : (sel.rewriteOne fuel loc).answer st = some (r, st')) :
    st' = st ∨ ∃ site eq, (st.resolve loc).run = some (.ok site) ∧
      (st.selectedEquation fuel sel site).run = some (.ok eq) ∧
      (st.replace site eq).run = some (.ok st') := by
  rw [answer_rewriteOne] at h
  obtain ⟨result, hresult, h⟩ := Option.map_eq_some_iff.mp h
  unfold ProofState.rewriteAtLocation at hresult
  rw [QueryM.run_adapt] at hresult
  obtain ⟨_ | st₂, hst₂, rfl⟩ := Option.map_eq_some_iff.mp hresult
  · obtain ⟨-, rfl⟩ := Prod.mk.inj h
    exact .inl rfl
  · obtain ⟨-, rfl⟩ := Prod.mk.inj h
    obtain ⟨site, hsite, hst₂⟩ := QueryM.run_bind_eq_ok.mp hst₂
    obtain ⟨eq, heq, hst₂⟩ := ProofState.rewriteAt_eq_ok.mp hst₂
    exact .inr ⟨site, eq, hsite, heq, hst₂⟩

theorem rewriteOne_keeps
    (hJ : ∀ st site eq st', J st → (st.resolve loc).run = some (.ok site) →
      (st.selectedEquation fuel sel site).run = some (.ok eq) →
      (st.replace site eq).run = some (.ok st') → J st') :
    (sel.rewriteOne fuel loc).Keeps J := by
  intro st r st' h hst
  rcases rewriteOne_answer h with rfl | ⟨site, eq, hsite, heq, hreplace⟩
  · exact hst
  · exact hJ st site eq st' hst hsite heq hreplace

/-- Rewrites at hypotheses pass over those that a rule uses. -/
theorem rewriteHyps_keeps (hyps : List (String × FVarId))
    (hJ : ∀ st x eq st', J st → (∀ r ∈ sel.rules, r.proof.hasFVar x = false) →
      (st.selectedEquation fuel sel (.hyp x)).run = some (.ok eq) →
      (st.replaceHyp x eq).run = some (.ok st') → J st') :
    (sel.rewriteHyps fuel hyps).Keeps J := by
  induction hyps with
  | nil => exact (asks_pure _).keeps
  | cons hyp hyps ih =>
    obtain ⟨name, x⟩ := hyp
    unfold rewriteHyps
    show Keeps J (if _ then _ else _)
    split
    · refine (asks_pure _).keeps.bind fun skipReason => ih.bind fun others => ?_
      cases skipReason <;> exact (asks_pure _).keeps
    · rename_i hused
      refine Keeps.bind ?_ fun skipReason => ih.bind fun others => ?_
      · refine Keeps.tryCatch (Keeps.bind ?_ fun _ => (asks_pure _).keeps) fun e =>
          (asks_pure _).keeps
        refine (RewriteM.atomic_rewriteAt fuel sel (.hyp x)).keeps fun st st' hst h => ?_
        obtain ⟨eq, heq, h⟩ := ProofState.rewriteAt_eq_ok.mp h
        exact hJ st x eq st' hst (by simpa using hused) heq h
      · cases skipReason <;> exact (asks_pure _).keeps

/-- The rewrite at the target succeeds, or is passed over, or fails, and keeps
the state unless it succeeds. -/
theorem answer_rewriteGoal (fuel : Nat) (sel : Selection) (st : ProofState) :
    (sel.rewriteGoal fuel).answer st = (st.rewriteAt fuel sel .goal).run.map fun r =>
      match r with
      | .ok st' => (.ok ⟨[.goal], []⟩, st')
      | .error e =>
        (if e.isNoMatch then .ok ⟨[], [⟨.goal, e.message⟩]⟩ else .error (.at .goal e), st) := by
  have hanswer := (RewriteM.atomic_rewriteAt fuel sel .goal).answer_eq st
  unfold rewriteGoal ProofState.rewriteAt
  generalize RewriteM.rewriteAt fuel sel .goal = m at hanswer ⊢
  show Option.bind (Option.bind (Option.bind (m.answer st) _) _) _ = _
  rw [hanswer]
  rcases (m.outcome st).run with _ | e | st'
  · rfl
  · have hpure : ∀ {β : Type} (x : β), (pure x : StateT ProofState Option β) st = some (x, st) :=
      fun _ => rfl
    simp only [Option.map_some, Option.bind_some, ExceptT.bindCont, hpure]
    by_cases he : e.isNoMatch
    · rw [if_pos he, if_pos he]
      rfl
    · rw [if_neg he, if_neg he]
      rfl
  · rfl

theorem rewriteGoal_keeps
    (hJ : ∀ st eq st', J st → (st.selectedEquation fuel sel .goal).run = some (.ok eq) →
      (st.replaceTarget eq).run = some (.ok st') → J st') : (sel.rewriteGoal fuel).Keeps J := by
  intro st r st' h hst
  rw [answer_rewriteGoal] at h
  obtain ⟨_ | st'', h', heq⟩ := Option.map_eq_some_iff.mp h
  · obtain ⟨-, rfl⟩ := Prod.mk.inj heq
    exact hst
  · obtain ⟨-, rfl⟩ := Prod.mk.inj heq
    obtain ⟨eq, heq, h'⟩ := ProofState.rewriteAt_eq_ok.mp h'
    exact hJ st eq st'' hst heq h'

/-- A rewrite keeps what is kept by the replacement of each statement that it
may replace. -/
theorem rewrite_keeps
    (hJ : ∀ st site eq st', J st → sel.MayReplace loc st site →
      (st.selectedEquation fuel sel site).run = some (.ok eq) →
      (st.replace site eq).run = some (.ok st') → J st') : (sel.rewrite fuel loc).Keeps J := by
  cases loc with
  | everywhere =>
    refine asks_get.keeps.bind fun st => Keeps.bind ?_ fun atHyps => Keeps.bind ?_ fun atGoal => ?_
    · exact rewriteHyps_keeps _ fun st x => hJ st (.hyp x)
    · exact rewriteGoal_keeps fun st eq st' hst => hJ st .goal eq st' hst trivial
    · show Keeps J (if _ then _ else _)
      split
      · exact (asks_throw _).keeps
      · exact (asks_pure _).keeps
  | goal => exact rewriteOne_keeps hJ
  | hyp n => exact rewriteOne_keeps hJ

end Selection

theorem answer_tryReflexivity (fuel : Nat) (st : ProofState) :
    (tryReflexivity fuel).answer st = (st.rfl fuel).run.map fun r =>
      match r with
      | .ok st' => (.ok (), st')
      | .error _ => (.ok (), st) := by
  unfold tryReflexivity ProofState.rfl
  rw [answer_bind, answer_attempt, (atomic_closeByReflexivity fuel).answer_eq]
  rcases ((closeByReflexivity fuel).outcome st).run with _ | _ | st' <;> rfl

section
variable {fuel index : Nat} {side : Option Side} {specs : List RuleSpec} {loc : Location}
  {options : RewriteOptions} {st st' : ProofState} {r : Except RewriteError RewriteOutcome}
  {J : ProofState → Prop}

/-- A rewrite elaborates its rules, rewrites with them, and then tries
reflexivity if it is asked to; it goes no further than the first of these that
fails. -/
theorem nthRewrite_cases
    (h : (nthRewrite fuel side index specs loc options).answer st = some (r, st')) :
    st' = st ∨ ∃ g rules r₁ st₁, st.currentGoal? = some g ∧
      (st.elaborateRules fuel g specs).run = some (.ok rules) ∧
      (Selection.rewrite fuel ⟨side, index, rules, options.maxDepth⟩ loc).answer st =
        some (r₁, st₁) ∧
      (st' = st₁ ∨ options.tryRfl = true ∧ (st₁.rfl fuel).run = some (.ok st')) := by
  unfold nthRewrite at h
  rw [answer_bind, answer_ofQuery] at h
  -- The rules are elaborated by a question, which leaves the state as it is.
  obtain ⟨⟨_ | rules, st₀⟩, hrules, h⟩ := Option.bind_eq_some_iff.mp h
  · obtain ⟨_, -, hrules⟩ := Option.map_eq_some_iff.mp hrules
    obtain ⟨-, rfl⟩ := Prod.mk.inj hrules
    obtain ⟨-, rfl⟩ := Prod.mk.inj (Option.some.inj h)
    exact .inl rfl
  · obtain ⟨rules', hrules', heq⟩ := Option.map_eq_some_iff.mp hrules
    obtain ⟨rfl, rfl⟩ := Prod.mk.inj heq
    obtain ⟨g, hg, hrules⟩ := QueryM.run_bind_eq_ok.mp hrules'
    have hg := ProofState.mainGoal_eq_ok.mp hg
    dsimp only at h
    rw [answer_bind] at h
    obtain ⟨⟨answer, st₁⟩, hst₁, h⟩ := Option.bind_eq_some_iff.mp h
    refine .inr ⟨g, rules, answer, st₁, hg, hrules, hst₁, ?_⟩
    -- Only a rewrite that succeeds can be followed by reflexivity.
    cases answer with
    | error e =>
      obtain ⟨-, rfl⟩ := Prod.mk.inj (Option.some.inj h)
      exact .inl rfl
    | ok outcome =>
      dsimp only at h
      split at h
      · rename_i htry
        rw [answer_bind, answer_tryReflexivity] at h
        obtain ⟨p, hp, h⟩ := Option.bind_eq_some_iff.mp h
        obtain ⟨_ | st₂, hst₂, rfl⟩ := Option.map_eq_some_iff.mp hp
        · obtain ⟨-, rfl⟩ := Prod.mk.inj (Option.some.inj h)
          exact .inl rfl
        · obtain ⟨-, rfl⟩ := Prod.mk.inj (Option.some.inj h)
          exact .inr ⟨htry, hst₂⟩
      · obtain ⟨-, rfl⟩ := Prod.mk.inj (Option.some.inj h)
        exact .inl rfl

/-- A rewrite keeps what the rewrite with its elaborated rules keeps, and
reflexivity after it. -/
theorem nthRewrite_keeps
    (h : (nthRewrite fuel side index specs loc options).answer st = some (r, st')) (hst : J st)
    (hrewrite : ∀ g rules, st.currentGoal? = some g →
      (st.elaborateRules fuel g specs).run = some (.ok rules) → ∀ r st₁,
      (Selection.rewrite fuel ⟨side, index, rules, options.maxDepth⟩ loc).answer st = some (r, st₁) →
      J st₁)
    (hrfl : ∀ st₁ st₂, J st₁ → (st₁.rfl fuel).run = some (.ok st₂) → J st₂) : J st' := by
  rcases nthRewrite_cases h with rfl | ⟨g, rules, r₁, st₁, hg, hrules, hst₁, rfl | ⟨-, hst'⟩⟩
  · exact hst
  · exact hrewrite g rules hg hrules r₁ _ hst₁
  · exact hrfl st₁ st' (hrewrite g rules hg hrules r₁ st₁ hst₁) hst'

end

/-! ### Runs -/

/-- One use of the prover. -/
inductive Call where
  /-- A rewrite, with the fuel for each question. -/
  | rewrite (fuel : Nat) (side : Option Side) (index : Nat) (specs : List RuleSpec)
    (loc : Location) (options : RewriteOptions)
  /-- An attempt to close the goal by reflexivity. -/
  | reflexivity (fuel : Nat)

/-- Whether a call, successful or not, leads from a proof state to another
one. -/
inductive Call.LeadsTo : Call → ProofState → ProofState → Prop
  | rewrite {fuel index : Nat} {side : Option Side} {specs : List RuleSpec} {loc : Location}
    {options : RewriteOptions} {answer : Except RewriteError RewriteOutcome}
    {st st' : ProofState} :
    (nthRewrite fuel side index specs loc options).answer st = some (answer, st') →
      LeadsTo (.rewrite fuel side index specs loc options) st st'
  | closed {fuel : Nat} {st st' : ProofState} :
    (st.rfl fuel).run = some (.ok st') → LeadsTo (.reflexivity fuel) st st'
  | refused {fuel : Nat} {st : ProofState} {e : ReflexivityError} :
    (st.rfl fuel).run = some (.error e) → LeadsTo (.reflexivity fuel) st st

/-- Proof states that a run of calls leads to, each call being allowed in the
state that it is made in. -/
inductive ProofState.Run (allowed : ProofState → Call → Prop) : ProofState → ProofState → Prop
  | nil (st : ProofState) : Run allowed st st
  | cons {st st' st'' : ProofState} {c : Call} : allowed st c → c.LeadsTo st st' →
      Run allowed st' st'' → Run allowed st st''

theorem ProofState.Run.mono {allowed allowed' : ProofState → Call → Prop} {st st' : ProofState}
    (h : Run allowed st st') (hallowed : ∀ st c, allowed st c → allowed' st c) :
    Run allowed' st st' := by
  induction h with
  | nil st => exact .nil st
  | cons hc hleads _ ih => exact .cons (hallowed _ _ hc) hleads ih

/-- A run keeps what its calls keep. -/
theorem ProofState.Run.keeps {allowed : ProofState → Call → Prop} {J : ProofState → Prop}
    (hJ : ∀ st c st', J st → allowed st c → c.LeadsTo st st' → J st') {st st' : ProofState}
    (h : Run allowed st st') (hst : J st) : J st' := by
  induction h with
  | nil _ => exact hst
  | cons hallowed hc _ ih => exact ih (hJ _ _ _ hst hallowed hc)

end Pinpoint
