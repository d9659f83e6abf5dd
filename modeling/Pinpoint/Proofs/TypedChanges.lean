/-
Changes of typed proof states.

A change along an equation that has a type leaves a proof state with types: the
casts of the equation prove the old target from the new one, and the new
hypothesis from the old one.

* `Typed.replaceTarget`, `Typed.replaceHyp`, `Typed.close` — each change keeps a
  proof state typed;
* `Call.Verified` — what is asked of a call: that the motives that it uses are
  accepted, and that all is within the widths of the machine;
* `Typed.run` — so a run keeps a proof state typed.
-/
import Pinpoint.Proofs.Everywhere
import Pinpoint.Proofs.TypedStates

namespace Pinpoint

namespace ProofState

variable {env : Environment} {henv : env.Ground} {n fuel : Nat} {p : Nat → FVarId → Prop}
  {L Γ : Locals} {first target : Expr} {st st' : ProofState} {g : Goal} {x : FVarId}
  {eq : Equation}

/-- Whether reflexivity compares the sides of the target within the widths of the
machine. -/
structure ReflWithin (fuel : Nat) (st : ProofState) : Prop where
  narrow : ∀ g, st.currentGoal? = some g → g.target.Narrow
  within : ∀ g s, st.currentGoal? = some g → g.target.statement? = some s →
    st.env.isDefEqWithin .reducible fuel s.lhs s.rhs

namespace Typed

/-- A proof state stays typed if its metavariables keep what they prove, and those
that are new or have a new value have types. -/
theorem solve (hst : st.Typed henv p L first Γ) {goals : List Goal} {ms : MetaContext}
    (hhyps : ∀ g, goals.head? = some g → ∀ h ∈ g.hyps, Γ.type h.fvar = some h.type.term)
    (hkept : ∀ {m w}, st.metas.get? m = some w → ∃ w', ms.get? m = some w' ∧ w'.type = w.type)
    (hnew : ∀ {m w}, ms.get? m = some w → st.metas.get? m = some w ∨
      HasType henv.signature Γ [] w.type.term (.sort .zero) ∧
        ∀ v, w.value = some v → ∀ Γ' : Locals,
          (∀ {y A}, Γ.type y = some A → Γ'.type y = some A) →
          (∀ m' w', ms.get? m' = some w' → Γ'.type m'.toFVar = some w'.type.term) →
          HasType henv.signature Γ' [] v.term w.type.term) :
    ProofState.Typed henv p L first Γ { st with goals := goals, metas := ms } := by
  constructor
  case env_eq => exact hst.env_eq
  case wellTyped => exact hst.wellTyped
  case fvars => exact hst.fvars
  case unfolds => exact hst.unfolds
  case hyps => exact hhyps
  case first =>
    obtain ⟨w, hw, htype⟩ := hst.first
    obtain ⟨w', hw', htype'⟩ := hkept hw
    exact ⟨w', hw', htype'.trans htype⟩
  case types =>
    intro m w hw
    rcases hnew hw with hw | ⟨htype, -⟩
    · exact hst.types m w hw
    · exact htype
  case values =>
    intro m w v hw hv Γ' hΓ' htypes
    rcases hnew hw with hw | ⟨-, hvalue⟩
    · -- Where the metavariables have their new types, they have their old ones.
      refine hst.values m w v hw hv Γ' hΓ' fun m' w' hw' => ?_
      obtain ⟨w'', hw'', htype⟩ := hkept hw'
      exact htype ▸ htypes m' w'' hw''
    · exact hvalue v hv Γ' hΓ' htypes

/-- A target that is replaced leaves a proof state typed. -/
theorem replaceTarget (hst : st.Typed henv p L first Γ) (hprelude : env.ExtendsPrelude)
    (hp : Numbered n p) (hroom : st'.HasRoom n) (hlin : Linear n p st)
    (heq : eq.Typed henv.signature Γ) (hlhs : eq.lhs.term = target.term)
    (htarget : (st.statementAt .goal).run = some (.ok target))
    (h : (st.replaceTarget eq).run = some (.ok st')) : st'.Typed henv p L first Γ := by
  have hreplace : (st.replace .goal eq).run = some (.ok st') := h
  have hlen := length_le_of_replace hreplace
  obtain ⟨g₀, hg₀, rfl⟩ :=
    hlin.statementAt_eq hp.toGrowing (hroom.of_le hlen.1 hlen.2) htarget
  obtain ⟨g, -, proof, hg, -, -, hcast, rfl⟩ := replaceTarget_eq_ok h
  obtain rfl := Option.some.inj (hg₀.symm.trans hg)
  obtain ⟨hprop, rfl⟩ := Equation.castGoal_eq_ok hcast
  obtain ⟨-, hrhs, -⟩ := heq.of_isProp hprop
  have hmetas : st.metas.metas.length ≤ 2 ^ 40 := (hroom.of_le hlen.1 hlen.2).metas
  have hhole := hlin.hole g₀ hg
  have hholeType := hst.types _ _ hhole
  refine hst.solve (fun g' hg' => ?_) (fun hw => MetaContext.exists_get?_push_assign hw _ _ _)
    fun hw => ?_
  · obtain rfl := Option.some.inj hg'
    exact hst.hyps g₀ hg
  · rcases MetaContext.get?_push_assign_cases hhole hw with
      ⟨-, rfl⟩ | ⟨-, hw | ⟨-, rfl⟩⟩
    · -- The metavariable of the goal is given the cast of the new one.
      refine .inr ⟨hholeType, fun v hv Γ' hΓ' htypes => ?_⟩
      obtain rfl := Option.some.inj hv
      exact hlhs ▸ heq.castGoal hprelude hprop hΓ'
        (.fvar (htypes _ _ (MetaContext.get?_push_assign_nextId (by omega) hhole _ _)))
    · exact .inl hw
    · exact .inr ⟨hrhs, fun _ hv => nomatch hv⟩

/-- A hypothesis that is replaced leaves a proof state typed; the variable of the
new one has its new type. -/
theorem replaceHyp (hst : st.Typed henv p L first Γ) (hprelude : env.ExtendsPrelude)
    (hp : Numbered n p) (hroom : st'.HasRoom n) (hlin : Linear n p st) (hclosed : st.Closed)
    (heq : eq.Typed henv.signature Γ) (hlhs : eq.lhs.term = target.term)
    (htarget : (st.statementAt (.hyp x)).run = some (.ok target))
    (h : (st.replaceHyp x eq).run = some (.ok st')) :
    ∃ Γ', (∀ {y A}, Γ.type y = some A → Γ'.type y = some A) ∧ st'.Typed henv p L first Γ' := by
  have hreplace : (st.replace (.hyp x) eq).run = some (.ok st') := h
  have hlen := length_le_of_replace hreplace
  obtain ⟨g₀, hg₀, old, hold, rfl, rfl⟩ :=
    hlin.statementAt_eq hp.toGrowing (hroom.of_le hlen.1 hlen.2) htarget
  obtain ⟨g, old', type, value, hg, -, -, -, -, hcast, rfl⟩ := replaceHyp_eq_ok h
  obtain rfl := Option.some.inj (hg₀.symm.trans hg)
  obtain ⟨hprop, rfl⟩ := Equation.castHyp_eq_ok hcast
  obtain ⟨-, hrhs, -⟩ := heq.of_isProp hprop
  have holdType : HasType henv.signature Γ [] (Expr.fvar old.fvar).term eq.lhs.term :=
    hlhs ▸ .fvar (hst.hyps g₀ hg old hold)
  have hvalue := heq.castHyp hprelude hprop holdType
  -- The variable of the new hypothesis is none of those that have a type.
  have hhyps : n + (st.hypValues.length + 1) ≤ 2 ^ 40 := by simpa using hroom.hyps
  have hnextNat : st.nextFVar.toNat = n + st.hypValues.length := hlin.toNat_nextFVar (by omega)
  have hfresh : ∀ {y}, p st.hypValues.length y → y ≠ ⟨st.nextFVar⟩ := by
    rintro y hy rfl
    have := hp.below hy
    rw [hnextNat] at this
    omega
  have hnone : Γ.type ⟨st.nextFVar⟩ = none := by
    by_contra hsome
    obtain ⟨A, hA⟩ := Option.ne_none_iff_exists'.mp hsome
    exact hfresh (hst.fvars hA) (Eq.refl _)
  have hkeep : ∀ {y A}, Γ.type y = some A →
      (Γ.insert ⟨st.nextFVar⟩ eq.rhs.term hrhs.closed).type y = some A := fun hA =>
    (Locals.type_insert_of_ne _ (hfresh (hst.fvars hA))).trans hA
  -- It is given the right side as its type, and unfolds to the cast of the old one.
  refine ⟨Γ.insert ⟨st.nextFVar⟩ eq.rhs.term hrhs.closed, hkeep, ?_⟩
  have hlength : ∀ v : Expr, (st.hypValues ++ [((⟨st.nextFVar⟩ : FVarId), v)]).length =
    st.hypValues.length + 1 := fun _ => by simp
  constructor
  case env_eq => exact hst.env_eq
  case wellTyped => exact Locals.WellTyped.insert hst.wellTyped hnone hrhs
  case fvars =>
    intro y A hA
    show p (List.length _) y
    rw [hlength]
    by_cases hy : y = ⟨st.nextFVar⟩
    · rw [hy, hlin.next]
      exact hp.rewritten (by omega)
    · rw [Locals.type_insert_of_ne _ hy] at hA
      exact hp.mono (hst.fvars hA)
  case unfolds =>
    refine hst.unfolds.insert hst.wellTyped hnone hvalue hrhs ?_ fun y hy => ?_
    · exact (congrArg Expr.term (unfoldHyps_of_push_self (Eq.refl _))).trans (hclosed.term_unfoldHyps _)
    · refine congrArg Expr.term ((unfoldHyps_of_push (Eq.refl _) _).trans (congrArg _ ?_))
      exact if_neg hy
  case hyps =>
    intro g' hg' h' hh'
    obtain rfl := Option.some.inj hg'
    rcases List.mem_or_eq_of_mem_set hh' with hh' | rfl
    · exact hkeep (hst.hyps g₀ hg h' hh')
    · exact Locals.type_insert_self _ _ _
  case first => exact hst.first
  case types => exact fun m w hw => (hst.types m w hw).weaken hkeep
  case values =>
    intro m w v hw hv Γ' hΓ' htypes
    exact hst.values m w v hw hv Γ' (fun hA => hΓ' (hkeep hA)) htypes

/-- A goal that is closed by reflexivity leaves a proof state typed. -/
theorem close (hst : st.Typed henv p L first Γ) (hprelude : env.ExtendsPrelude)
    (hp : Numbered n p) (hroom : st.HasRoom n) (hlin : Linear n p st)
    (hwithin : st.ReflWithin fuel) (h : (st.rfl fuel).run = some (.ok st')) :
    st'.Typed henv p L first Γ := by
  have hnil := hlin.goals_of_rfl h
  obtain ⟨g, target, s, refl, hg, hinst, hs, hrefl, hequal, rfl⟩ := rfl_eq_ok h
  have hhas : ∀ x, p st.hypValues.length x → ¬ st.metas.Has x :=
    fun _ => Linear.not_has hp.toGrowing hroom
  have htarget := hlin.target_fvarsIn hg
  obtain rfl := MetaContext.eq_of_instantiate? (htarget.mono hhas) hinst
  have hhole := hlin.hole g hg
  have hholeType := hst.types _ _ hhole
  obtain ⟨hsides, hstatement⟩ := Statement.typed hprelude hs (hwithin.narrow g hg) hholeType
  -- The sides have no holes, so they are compared as they are.
  obtain ⟨a, ha, hequal⟩ := Option.bind_eq_some_iff.mp hequal
  obtain ⟨b, hb, hequal⟩ := Option.bind_eq_some_iff.mp hequal
  obtain ⟨-, hl, hr⟩ := (Expr.fvarsIn_hereditary (p st.hypValues.length)).statement? (n := 0) htarget hs
  obtain rfl := MetaContext.eq_of_instantiate? (hl.mono hhas) ha
  obtain rfl := MetaContext.eq_of_instantiate? (hr.mono hhas) hb
  obtain rfl := hst.env_eq
  have hconv := henv.converts_all
    (Environment.isDefEq_converts henv hequal (hwithin.within g s hg hs))
  have hproof := hsides.reflProof hprelude hconv hrefl
  rw [← hstatement] at hproof
  refine hst.solve (fun g' hg' => ?_)
    (fun hw => MetaContext.exists_get?_assign hw _) fun hw => ?_
  · rw [show st.goals.tail = [] from hnil] at hg'
    cases hg'
  · rcases MetaContext.get?_assign_cases hhole hw with ⟨-, rfl⟩ | ⟨-, hw⟩
    · refine .inr ⟨hholeType, fun v hv Γ' hΓ' _ => ?_⟩
      obtain rfl := Option.some.inj hv
      exact hproof.weaken hΓ'
    · exact .inl hw

end Typed

/-- What is known of a proof state while the given rules are used: that its terms
and those of the rules have types, and which variables they mention. -/
structure Sound (henv : env.Ground) (n : Nat) (p : Nat → FVarId → Prop) (L : Locals) (first : Expr)
    (rules : List Rule) (st : ProofState) : Prop where
  linear : Linear n p st
  closed : st.Closed
  typed : ∃ Γ, st.Typed henv p L first Γ ∧ ∀ r ∈ rules, ∃ T, r.TypedBy henv.signature Γ T
  fvars : ∀ r ∈ rules, (r.States fun _ => Expr.FVarsIn (p st.hypValues.length)) ∧
    r.proof.FVarsIn (p st.hypValues.length)
  isScoped : ∀ r ∈ rules, r.States Expr.Scoped ∧ r.proof.Scoped 0

namespace Sound

variable {sel : Selection} {site : Site} {rules : List Rule}

theorem forget (hst : st.Sound henv n p L first rules) : st.Sound henv n p L first [] := by
  obtain ⟨Γ, hΓ, -⟩ := hst.typed
  exact ⟨hst.linear, hst.closed, ⟨Γ, hΓ, nofun⟩, nofun, nofun⟩

/-- A rewrite whose motive is accepted keeps a proof state sound. -/
theorem rewriteAt (hst : st.Sound henv n p L first sel.rules) (hprelude : env.ExtendsPrelude)
    (hp : Numbered n p) (hroom : st'.HasRoom n)
    (hverified : ∀ target scope r m eq₀ eq checker, st.Makes fuel sel site target scope r m eq₀ eq →
      (st.mainChecker fuel).run = some (.ok checker) →
      m.Within checker sel target scope r eq₀ ∧ m.MotiveAccepted checker scope r)
    (h : (st.rewriteAt fuel sel site).run = some (.ok st')) :
    st'.Sound henv n p L first sel.rules := by
  obtain ⟨eq, heq, hreplace⟩ := ProofState.rewriteAt_eq_ok.mp h
  obtain ⟨target, scope, r, m, eq₀, hchoice, heval, hjust⟩ := selectedEquation_eq_ok_iff.mp heq
  have hmakes : st.Makes fuel sel site target scope r m eq₀ eq :=
    ⟨hchoice, heval, hjust, st', hreplace⟩
  obtain ⟨checker, _, _, hchecker, -, -, hr⟩ := hchoice.found
  have hr := List.mem_of_getElem? hr
  obtain ⟨hwithin, hmotive⟩ := hverified target scope r m eq₀ eq checker hmakes hchecker
  -- The equation of the rewrite has a type, as its rule has one and its motive is
  -- accepted.
  have hlen := length_le_of_replace hreplace
  have hroom₀ : st.HasRoom n := hroom.of_le hlen.1 hlen.2
  obtain ⟨Γ, htyped, hrules⟩ := hst.typed
  obtain ⟨T, hT⟩ := hrules r hr
  obtain ⟨heqT, hlhs⟩ := htyped.equation hp hroom₀ hst.linear hprelude hT
    (hst.fvars r hr).1 hmakes hchecker hwithin hmotive
  -- The other parts of soundness are kept by every change along such an equation.
  have hlinear := hst.linear.replace hp.toGrowing hroom hst.fvars heq hreplace
  obtain ⟨hstates, hproof⟩ := Expr.scoped_hereditary.selectedEquation heq
    (fun e => hst.closed.scoped_statementAt) fun r hr => (hst.isScoped r hr).1
  have hclosed := hst.closed.replace hstates (hproof fun r hr => (hst.isScoped r hr).2) hreplace
  have hfvars : ∀ r ∈ sel.rules, (r.States fun _ => Expr.FVarsIn (p st'.hypValues.length)) ∧
      r.proof.FVarsIn (p st'.hypValues.length) := by
    have hmono : ∀ x, p st.hypValues.length x → p st'.hypValues.length x := fun _ => hp.le hlen.1
    intro r hr
    obtain ⟨⟨hc, hl, hrhs⟩, hproof⟩ := hst.fvars r hr
    exact ⟨⟨hc.mono hmono, hl.mono hmono, hrhs.mono hmono⟩, hproof.mono hmono⟩
  refine ⟨hlinear, hclosed, ?_, hfvars, hst.isScoped⟩
  -- The rules keep their types, also where a new hypothesis has come in.
  cases site with
  | goal =>
    exact ⟨Γ, htyped.replaceTarget hprelude hp hroom hst.linear heqT hlhs hchoice.target_eq hreplace,
      hrules⟩
  | hyp x =>
    obtain ⟨Γ', hle, htyped'⟩ := htyped.replaceHyp hprelude hp hroom hst.linear hst.closed heqT hlhs
      hchoice.target_eq hreplace
    refine ⟨Γ', htyped', fun r hr => ?_⟩
    obtain ⟨T, hT⟩ := hrules r hr
    exact ⟨T, hT.weaken hle⟩

/-- Reflexivity keeps a proof state sound. -/
theorem close (hst : st.Sound henv n p L first []) (hprelude : env.ExtendsPrelude)
    (hp : Numbered n p) (hroom : st'.HasRoom n) (hwithin : st.ReflWithin fuel)
    (h : (st.rfl fuel).run = some (.ok st')) : st'.Sound henv n p L first [] := by
  have hroom₀ := hroom.of_rfl h
  obtain ⟨Γ, htyped, -⟩ := hst.typed
  exact ⟨hst.linear.close hp.toGrowing hroom₀ h, hst.closed.close h,
    ⟨Γ, htyped.close hprelude hp hroom₀ hst.linear hwithin h, nofun⟩, nofun, nofun⟩

/-- Rules that are elaborated have types. -/
theorem elaborate (hst : st.Sound henv n p L first []) (hS : henv.signature.WellTyped)
    (hp : Numbered n p) (hroom : st.HasRoom n) (hg : st.currentGoal? = some g)
    {specs : List RuleSpec} (hspecs : ∀ spec ∈ specs, spec.FVarsIn (p 0))
    (h : (st.elaborateRules fuel g specs).run = some (.ok rules))
    (hwithin : ∀ r ∈ rules, ∀ checker, st.checker? fuel g = some checker →
      checker.InfersWithin r.proof) : st.Sound henv n p L first rules := by
  obtain ⟨Γ, htyped, -⟩ := hst.typed
  refine ⟨hst.linear, hst.closed, ⟨Γ, htyped, fun r hr => ?_⟩,
    fun r hr => hst.linear.rules_fvarsIn hp.toGrowing hroom hg hspecs h hr,
    fun r hr => hst.closed.scoped_rules hg h hr⟩
  obtain ⟨spec, hspec, hr'⟩ := elaborateRules_eq_ok h hr
  exact htyped.rule hp hroom hst.linear hg hS (hspecs spec hspec) hr' (hwithin r hr)

end Sound

end ProofState

/-! ### Runs -/

/-- Whether the motives of a rewrite are accepted wherever it is tried with
success, within the widths and the ranges of the machine. -/
def Selection.Verified (fuel : Nat) (sel : Selection) (st : ProofState) (loc : Location) : Prop :=
  ∀ st₁ site target scope r m eq₀ eq checker, sel.Tries fuel st loc st₁ site →
    st₁.Makes fuel sel site target scope r m eq₀ eq →
    (st₁.mainChecker fuel).run = some (.ok checker) →
    m.Within checker sel target scope r eq₀ ∧ m.MotiveAccepted checker scope r

/-- Whether the motives of a call are accepted, and its rules are elaborated, its
rewrites made and reflexivity tried within the widths and the ranges of the
machine. -/
def Call.Verified (st : ProofState) : Call → Prop
  | .rewrite fuel side index specs loc options => ∀ g rules, st.currentGoal? = some g →
    (st.elaborateRules fuel g specs).run = some (.ok rules) →
    (∀ r ∈ rules, ∀ checker, st.checker? fuel g = some checker → checker.InfersWithin r.proof) ∧
    Selection.Verified fuel ⟨side, index, rules, options.maxDepth⟩ st loc ∧
    (options.tryRfl → ∀ answer st₁,
      (Selection.rewrite fuel ⟨side, index, rules, options.maxDepth⟩ loc).answer st =
        some (answer, st₁) → st₁.ReflWithin fuel)
  | .reflexivity fuel => st.ReflWithin fuel

namespace ProofState.Sound

variable {env : Environment} {henv : env.Ground} {n : Nat} {p : Nat → FVarId → Prop}
  {L : Locals} {first : Expr} {st st' : ProofState}

/-- A verified call keeps a proof state sound. -/
theorem leadsTo (hS : henv.signature.WellTyped) (hprelude : env.ExtendsPrelude) (hp : Numbered n p)
    {c : Call} (hc : c.LeadsTo st st') (hrules : c.RulesIn (p 0)) (hverified : c.Verified st)
    (hst : st.HasRoom n → st.Sound henv n p L first []) :
    st'.HasRoom n → st'.Sound henv n p L first [] := by
  cases hc with
  | closed hrfl =>
    intro hroom
    exact (hst (hroom.of_rfl hrfl)).close hprelude hp hroom hverified hrfl
  | refused _ => exact hst
  | rewrite h =>
    rcases nthRewrite_cases h with rfl | ⟨g, rules, answer, st₁, hg, helab, hrewrite, hlast⟩
    · exact hst
    obtain ⟨hinfers, hmotives, hrefl⟩ := hverified g rules hg helab
    -- while the statements are replaced, the rules are those that were elaborated before
    have hrewritten : st₁.HasRoom n → st₁.Sound henv n p L first rules := by
      refine Selection.rewrite_keeps_tried
        (J := fun st => st.HasRoom n → st.Sound henv n p L first rules) hrewrite
        (fun hroom => (hst hroom).elaborate hS hp hroom hg hrules helab hinfers) ?_
      intro st₂ site st₃ htries hst₂ hat hroom
      obtain ⟨eq, -, hreplace⟩ := ProofState.rewriteAt_eq_ok.mp hat
      have hlen := length_le_of_replace hreplace
      exact (hst₂ (hroom.of_le hlen.1 hlen.2)).rewriteAt hprelude hp hroom
        (fun target scope r m eq₀ eq checker => hmotives st₂ site target scope r m eq₀ eq checker htries)
        hat
    rcases hlast with rfl | ⟨htry, hrfl⟩
    · exact fun hroom => (hrewritten hroom).forget
    · intro hroom
      exact (hrewritten (hroom.of_rfl hrfl)).forget.close hprelude hp hroom
        (hrefl htry answer st₁ hrewrite) hrfl

/-- A run of verified calls keeps a proof state sound. -/
theorem run (hS : henv.signature.WellTyped) (hprelude : env.ExtendsPrelude) (hp : Numbered n p)
    (hst : st.Sound henv n p L first [])
    (hrun : st.Run (fun st c => c.RulesIn (p 0) ∧ c.Verified st) st') (hroom : st'.HasRoom n) :
    st'.Sound henv n p L first [] :=
  hrun.keeps (J := fun st => st.HasRoom n → st.Sound henv n p L first [])
    (fun _ _ _ hst hallowed hc => leadsTo hS hprelude hp hc hallowed.1 hallowed.2 hst)
    (fun _ => hst) hroom

end ProofState.Sound

end Pinpoint
