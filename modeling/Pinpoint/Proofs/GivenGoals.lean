/-
Goals that are about given variables.

Metavariables and the variables that a checker draws have ranges of their own.
If a goal mentions no variable of these ranges, then what is asked about it does
not depend on the metavariables: its context is that of its hypotheses, and a
rule means the same before and after the target is replaced.

* `ProofState.IsAt` — a state that works on such a goal;
* `IsAt.agrees` — its checker is one over the hypotheses;
* `IsAt.elaborateRule_reverse` — a rule is elaborated in another state of the
  same hypotheses as it was, and in the other direction if it is reversed.
-/
import Pinpoint.Proofs.Independence

namespace Pinpoint

/-! ### Given variables -/

/-- Whether a free variable lies outside the ranges of the metavariables and of
the variables that a checker draws. -/
def FVarId.IsGiven (x : FVarId) : Prop := x.IsPlain ∧ x.IsOuter

instance FVarId.IsGiven.decidable : DecidablePred FVarId.IsGiven :=
  fun x => inferInstanceAs (Decidable (x.IsPlain ∧ x.IsOuter))

theorem FVarId.IsGiven.not_has {x : FVarId} (hx : x.IsGiven) {ms : MetaContext}
    (hms : ms.metas.length ≤ 2 ^ 40) : ¬ ms.Has x :=
  hx.1.not_has hms

/-- Terms about given variables have no holes. -/
theorem MetaContext.instantiate?_of_isGiven {ms : MetaContext} (hms : ms.metas.length ≤ 2 ^ 40)
    {e : Expr} (he : e.FVarsIn FVarId.IsGiven) : ms.instantiate? e = some e :=
  instantiateUpTo_eq_self (he.mono fun _ hx => valueOf?_eq_none_of_not_has (hx.not_has hms))

/-! ### Holes that can still be filled -/

/-- Holes that can be filled still can, one value deeper, once there are values
without holes for others. -/
theorem MetaContext.instantiateUpTo_isSome {ms ms' : MetaContext}
    (h : ∀ x v, ms'.valueOf? x = some v →
      ms.valueOf? x = some v ∨ v.FVarsIn fun y => ms'.valueOf? y = none)
    {depth : Nat} {e : Expr} (he : (ms.instantiateUpTo depth e).isSome) :
    (ms'.instantiateUpTo (depth + 1) e).isSome := by
  induction depth generalizing e with
  | zero =>
    refine Expr.bindFVars?_isSome_iff.mpr ((Expr.bindFVars?_isSome_iff.mp he).mono fun x hx => ?_)
    cases hv : ms'.valueOf? x with
    | none => rfl
    | some v =>
      rcases h x v hv with hold | hnew
      · simp [hold] at hx
      · dsimp only
        rw [instantiateUpTo_eq_self hnew]
        rfl
  | succ depth ih =>
    refine Expr.bindFVars?_isSome_iff.mpr ((Expr.bindFVars?_isSome_iff.mp he).mono fun x hx => ?_)
    cases hv : ms'.valueOf? x with
    | none => rfl
    | some v =>
      rcases h x v hv with hold | hnew
      · rw [hold] at hx
        exact ih hx
      · dsimp only
        rw [instantiateUpTo_eq_self hnew]
        rfl

/-- A metavariable that is given a value whose only hole is the next metavariable:
its value has no holes that can be filled, and the other values are as before. -/
theorem MetaContext.valueOf?_push_assign {ms : MetaContext} {m : MetaId} {type v : Expr}
    (hm : m.index.toNat < ms.metas.length) (hroom : ms.metas.length < 2 ^ 40)
    (hv : v.FVarsIn fun x => x.IsGiven ∨ x = ms.nextId.toFVar) {x : FVarId} {w : Expr}
    (hw : ((ms.push type).assign m v).valueOf? x = some w) :
    ms.valueOf? x = some w ∨ w.FVarsIn fun y => ((ms.push type).assign m v).valueOf? y = none := by
  obtain ⟨m', hm', hw⟩ := Option.bind_eq_some_iff.mp hw
  obtain ⟨entry, hentry, hw⟩ := Option.bind_eq_some_iff.mp hw
  rcases get?_assign_eq_some hentry with ⟨-, hvalue⟩ | ⟨-, hentry⟩
  · obtain rfl := Option.some.inj (hvalue.symm.trans hw)
    refine .inr (hv.mono ?_)
    rintro y (hy | rfl)
    · refine valueOf?_eq_none_of_not_has (hy.not_has ?_)
      simp only [assign, push, List.length_modify, List.length_append, List.length_singleton]
      omega
    · have hnext : ms.nextId.index.toNat = ms.metas.length := toNat_nextId (by omega)
      rw [valueOf?_toFVar (by omega), value?, get?_assign_of_ne (by omega),
        get?_push_nextId (by omega)]
      rfl
  · rcases get?_push_eq_some hentry with hentry | ⟨-, rfl⟩
    · refine .inl ?_
      rw [valueOf?, hm', Option.bind_some, value?, hentry]
      exact hw
    · cases hw

/-! ### Contexts -/

section
variable {α : Type} {x : α → FVarId} {n : α → Name} {f : α → Option Expr}

/-- A context says of a variable what it did before entries about other variables
were added. -/
theorem find?_foldlM_push_of_ne {l : List α} {y : FVarId} {Γ Γ' : LocalContext}
    (h : l.foldlM (fun Γ a => do return Γ.push (x a) (n a) (← f a)) Γ = some Γ')
    (hl : ∀ a ∈ l, x a ≠ y) : Γ'.find? y = Γ.find? y := by
  induction l generalizing Γ with
  | nil =>
    obtain rfl : Γ = Γ' := by simpa using h
    rfl
  | cons a l ih =>
    obtain ⟨type, -, h⟩ := foldlM_push_cons.mp h
    rw [ih h fun b hb => hl b (List.mem_cons_of_mem a hb), LocalContext.find?_push,
      if_neg (hl a List.mem_cons_self)]

end

/-- What is asked of all entries of the context of hypotheses. -/
theorem LocalContext.fvarsIn_ofHyps {hyps : List Hypothesis} {p : FVarId → Prop}
    (h : ∀ k ∈ hyps, p k.fvar ∧ k.type.FVarsIn p) : (ofHyps hyps).FVarsIn p := by
  intro entry hentry
  rw [entries_ofHyps] at hentry
  obtain ⟨k, hk, rfl⟩ := List.mem_map.mp (List.mem_reverse.mp hentry)
  exact h k hk

/-- The rule in the other direction, as it is written then. -/
def Rule.flip (r : Rule) (source : String) : Rule := { r with reversed := !r.reversed, source }

/-- Whether a state works on a goal that has a metavariable and is about given
variables, and the range of the metavariables has lasted. -/
structure ProofState.IsAt (st : ProofState) (g : Goal) : Prop where
  current : st.currentGoal? = some g
  hole : g.metaId.index.toNat < st.metas.metas.length
  room : st.metas.metas.length ≤ 2 ^ 40
  hyps : ∀ h ∈ g.hyps, h.fvar.IsGiven ∧ h.type.FVarsIn FVarId.IsGiven
  target : g.target.FVarsIn FVarId.IsGiven

namespace ProofState

variable {fuel : Nat} {st st' : ProofState} {g g' : Goal} {Γ : LocalContext}

/-- The context of the hypotheses, if no metavariable occurs in them. -/
theorem hypContext?_eq_ofHyps (hmetas : st.metas.metas.length ≤ 2 ^ 40)
    (hhyps : ∀ h ∈ g.hyps, h.type.FVarsIn FVarId.IsGiven) :
    st.hypContext? g = some (.ofHyps g.hyps) := by
  unfold hypContext? LocalContext.ofHyps
  generalize LocalContext.empty = Γ
  generalize g.hyps = hyps at hhyps
  induction hyps generalizing Γ with
  | nil => exact Eq.refl _
  | cons h hyps ih =>
    rw [List.foldlM_cons, MetaContext.instantiate?_of_isGiven hmetas (hhyps h List.mem_cons_self)]
    exact ih _ fun k hk => hhyps k (List.mem_cons_of_mem h hk)

/-- Metavariables say nothing of other variables. -/
theorem find?_of_addMetas? {Γ₀ : LocalContext} (hΓ : st.addMetas? Γ₀ = some Γ) {x : FVarId}
    (hx : ¬ st.metas.Has x) : Γ.find? x = Γ₀.find? x := by
  refine find?_foldlM_push_of_ne (x := fun a : MetaId × Metavariable => a.1.toFVar) hΓ ?_
  rintro ⟨m, v⟩ hmem rfl
  obtain ⟨⟨v', i⟩, hi, heq⟩ := List.mem_map.mp hmem
  obtain ⟨rfl, rfl⟩ := Prod.mk.inj heq
  exact hx ⟨i, (List.mem_zipIdx' hi).1, Eq.refl _⟩

/-- The metavariables can be added to a context exactly if the holes of their types
can be filled. -/
theorem exists_addMetas?_iff : (∃ Γ', st.addMetas? Γ = some Γ') ↔
    ∀ v ∈ st.metas.metas, (st.metas.instantiate? v.type).isSome := by
  refine exists_foldlM_push_iff.trans ?_
  simp only [Option.isSome_iff_exists]
  constructor
  · intro h v hv
    obtain ⟨i, hi⟩ := List.mem_iff_getElem?.mp hv
    exact h (⟨.ofNat i⟩, v) <| List.mem_map.mpr
      ⟨(v, i), List.mem_zipIdx_iff_getElem?.mpr hi, Eq.refl _⟩
  · rintro h ⟨m, v⟩ hmem
    obtain ⟨⟨v', i⟩, hi, heq⟩ := List.mem_map.mp hmem
    obtain ⟨-, rfl⟩ := Prod.mk.inj heq
    exact h v' (List.mem_of_getElem? (List.mem_zipIdx_iff_getElem?.mp hi))

/-- A checker over the hypotheses of a goal. -/
def givenChecker (fuel : Nat) (st : ProofState) (g : Goal) : Checker :=
  ⟨st.env, .ofHyps g.hyps, fuel⟩

namespace IsAt

theorem hypContext?_eq (h : st.IsAt g) : st.hypContext? g = some (.ofHyps g.hyps) :=
  hypContext?_eq_ofHyps h.room fun k hk => (h.hyps k hk).2

/-- The checker of the goal looks up at given variables what the hypotheses are. -/
theorem agrees (h : st.IsAt g) {checker : Checker} (hchecker : st.checker? fuel g = some checker) :
    Checker.Agrees FVarId.IsGiven checker (st.givenChecker fuel g) := by
  obtain ⟨Γ, hΓ, heq⟩ := Option.bind_eq_some_iff.mp hchecker
  obtain rfl := Option.some.inj heq
  obtain ⟨Γ₀, hΓ₀, hΓ⟩ := Option.bind_eq_some_iff.mp hΓ
  obtain rfl := Option.some.inj (h.hypContext?_eq.symm.trans hΓ₀)
  exact ⟨Eq.refl _, Eq.refl _, fun x hx =>
    find?_of_addMetas? hΓ (hx.not_has h.room)⟩

theorem statementAt_eq (h : st.IsAt g) : (st.statementAt .goal).run = some (.ok g.target) := by
  unfold statementAt
  rw [QueryM.run_bind_of_ok (mainGoal_eq_ok.mpr h.current)]
  exact QueryM.run_lift_eq_ok.mpr
    (MetaContext.instantiate?_of_isGiven h.room h.target)

section
variable {eq : Equation} (heq : eq.States fun _ => Expr.FVarsIn FVarId.IsGiven)
  (hproof : eq.proof.FVarsIn FVarId.IsGiven) (hroom : st.metas.metas.length < 2 ^ 40)
  (hreplace : (st.replaceTarget eq).run = some (.ok st'))
include heq hroom hreplace

/-- With the target replaced along an equation about given variables, the state
is at the new goal. -/
theorem replaceTarget (h : st.IsAt g) : st'.IsAt ⟨st.metas.nextId, eq.rhs, g.hyps⟩ := by
  obtain ⟨g', target, proof, hg', -, -, hcast, rfl⟩ := replaceTarget_eq_ok hreplace
  obtain rfl := Option.some.inj (h.current.symm.trans hg')
  have hnext : st.metas.nextId.index.toNat = st.metas.metas.length :=
    MetaContext.toNat_nextId (by omega)
  have hlen : ((st.metas.push eq.rhs).assign g.metaId proof).metas.length =
      st.metas.metas.length + 1 := st.metas.length_push_assign _ _ _
  refine ⟨Eq.refl _, ?_, ?_, h.hyps, heq.rhs⟩
  · show st.metas.nextId.index.toNat < ((st.metas.push eq.rhs).assign g.metaId proof).metas.length
    omega
  · show ((st.metas.push eq.rhs).assign g.metaId proof).metas.length ≤ _
    omega

include hproof

/-- A checker can still be made. -/
theorem checker?_isSome (h : st.IsAt g) (hchecker : (st.checker? fuel g).isSome) :
    (st'.checker? fuel ⟨st.metas.nextId, eq.rhs, g.hyps⟩).isSome := by
  have hat := h.replaceTarget heq hroom hreplace
  obtain ⟨checker, hchecker⟩ := Option.isSome_iff_exists.mp hchecker
  obtain ⟨Γ, hΓ, -⟩ := Option.bind_eq_some_iff.mp hchecker
  obtain ⟨Γ₀, -, hΓ⟩ := Option.bind_eq_some_iff.mp hΓ
  have htypes := exists_addMetas?_iff.mp ⟨Γ, hΓ⟩
  -- What is left is that the type of every metavariable can be read in the new state.
  have hmetas : ∀ v ∈ st'.metas.metas, (st'.metas.instantiate? v.type).isSome := by
    obtain ⟨g', target, proof, hg', -, -, hcast, rfl⟩ := replaceTarget_eq_ok hreplace
    obtain rfl := Option.some.inj (h.current.symm.trans hg')
    have hcastFVars : proof.FVarsIn fun x => x.IsGiven ∨ x = st.metas.nextId.toFVar := by
      obtain ⟨-, rfl⟩ := Equation.castGoal_eq_ok hcast
      refine Expr.FVarsIn.mkApp.mpr ⟨trivial, ?_⟩
      simp only [List.mem_cons, List.not_mem_nil, or_false, forall_eq_or_imp, forall_eq]
      exact ⟨heq.lhs.mono fun _ => .inl, heq.rhs.mono fun _ => .inl, hproof.mono fun _ => .inl,
        .inr (Eq.refl _)⟩
    intro v hv
    obtain ⟨w, hw, htype⟩ := MetaContext.type_of_mem_assign hv
    rw [htype]
    rcases List.mem_append.mp hw with hw | hw
    · -- An older type is read as before, with one more hole to go through.
      have hdeeper : (((st.metas.push eq.rhs).assign g.metaId proof).instantiateUpTo
          (st.metas.metas.length + 1) w.type).isSome :=
        MetaContext.instantiateUpTo_isSome
          (fun _ _ => MetaContext.valueOf?_push_assign h.hole hroom hcastFVars) (htypes w hw)
      have hlen : ((st.metas.push eq.rhs).assign g.metaId proof).metas.length =
          st.metas.metas.length + 1 := by
        simp [MetaContext.assign, MetaContext.push]
      dsimp only
      rw [MetaContext.instantiate?, hlen]
      exact hdeeper
    · obtain rfl := List.mem_singleton.mp hw
      exact Option.isSome_of_mem (MetaContext.instantiate?_of_isGiven hat.room heq.rhs)
  obtain ⟨Γ', hΓ'⟩ := exists_addMetas?_iff.mpr hmetas
  show (Option.bind (Option.bind (st'.hypContext? _) st'.addMetas?) _).isSome
  rw [hat.hypContext?_eq, Option.bind_some, hΓ']
  exact Eq.refl _

end

/-! ### Rules in another state -/

section
variable {spec : RuleSpec} {r : Rule} (h : st.IsAt g) (h' : st'.IsAt g') (henv : st'.env = st.env)
  (hhyps : g'.hyps = g.hyps)
include h h' henv hhyps

/-- A term is read as before. -/
theorem elaborateIn_eq (t : Surface.Term) :
    st'.elaborateIn fuel g' t = st.elaborateIn fuel g t := by
  unfold elaborateIn
  rw [h'.hypContext?_eq, h.hypContext?_eq, hhyps, henv]

/-- The term of a rule is as before, and the direction is turned. -/
theorem ruleTerm_reverse {proof : Expr} {reversed : Bool}
    (hterm : (st.ruleTerm fuel g spec).run = some (.ok (proof, reversed))) :
    (st'.ruleTerm fuel g' spec.reverse).run = some (.ok (proof, !reversed)) := by
  -- Terms are elaborated alike in both states, so only the direction differs.
  have hin : ∀ t, st'.elaborateIn fuel g' t = st.elaborateIn fuel g t :=
    h.elaborateIn_eq h' henv hhyps
  have hspec : spec.reverse.term = spec.term := Eq.refl _
  unfold ruleTerm at hterm ⊢
  rw [hspec]
  cases hcase : spec.term with
  | text s =>
    simp only [hcase] at hterm ⊢
    cases hparse : Surface.Rule.parse s with
    | error e =>
      rw [hparse] at hterm
      exact absurd hterm QueryM.not_run_throw_eq_ok
    | ok rule =>
      simp only [hparse] at hterm ⊢
      obtain ⟨answer, hanswer, hterm⟩ := QueryM.run_bind_eq_ok.mp hterm
      rw [hin, QueryM.run_bind_of_ok hanswer]
      cases answer with
      | error e => exact absurd hterm QueryM.not_run_throw_eq_ok
      | ok e =>
        obtain ⟨rfl, rfl⟩ := Prod.mk.inj (QueryM.run_pure_eq_ok.mp hterm)
        refine QueryM.run_pure_eq_ok.mpr ?_
        simp [RuleSpec.reverse, Bool.not_bne]
  | written t =>
    simp only [hcase] at hterm ⊢
    obtain ⟨answer, hanswer, hterm⟩ := QueryM.run_bind_eq_ok.mp hterm
    rw [hin, QueryM.run_bind_of_ok hanswer]
    cases answer with
    | error e => exact absurd hterm QueryM.not_run_throw_eq_ok
    | ok e =>
      obtain ⟨rfl, rfl⟩ := Prod.mk.inj (QueryM.run_pure_eq_ok.mp hterm)
      exact Eq.refl _
  | expr e =>
    simp only [hcase] at hterm ⊢
    obtain ⟨rfl, rfl⟩ := Prod.mk.inj (QueryM.run_pure_eq_ok.mp hterm)
    exact Eq.refl _

/-- A term about given variables has the type that it had. -/
theorem inferType_eq (hfree : st.env.FVarFree) (hchecker' : (st'.checker? fuel g').isSome)
    {e type : Expr} (he : e.FVarsIn FVarId.IsGiven)
    (htype : st.inferType fuel g e = some (.ok type)) :
    st'.inferType fuel g' e = some (.ok type) := by
  obtain ⟨Γ, e', T, s, hΓ, hinst, hT, hinstT⟩ := inferType_eq_ok htype
  obtain rfl := Option.some.inj ((MetaContext.instantiate?_of_isGiven h.room he).symm.trans hinst)
  obtain ⟨checker', hchecker'⟩ := Option.isSome_iff_exists.mp hchecker'
  have hchecker : st.checker? fuel g = some ⟨st.env, Γ, fuel⟩ := by
    rw [checker?, hΓ]
    exact Eq.refl _
  have hagrees := h.agrees hchecker
  -- the type mentions given variables as well, so it has no holes
  have hTgiven : T.FVarsIn FVarId.IsGiven := by
    refine hfree.fvarsIn.inferType (fun _ => id) (fun x entry hx hentry => ?_) he hT
    have hentry : (LocalContext.ofHyps g.hyps).find? x = some entry :=
      (hagrees.find?_eq x hx).symm.trans hentry
    exact (LocalContext.fvarsIn_ofHyps h.hyps entry (List.mem_of_find?_eq_some hentry)).2
  obtain rfl := Option.some.inj ((MetaContext.instantiate?_of_isGiven h.room hTgiven).symm.trans hinstT)
  have hgiven : st'.givenChecker fuel g' = st.givenChecker fuel g := by
    rw [givenChecker, givenChecker, henv, hhyps]
  have hresult : (checker'.inferType e).runFresh = some (.ok T) := by
    rw [(h'.agrees hchecker').inferType_eq he, hgiven, ← hagrees.inferType_eq he]
    exact CheckM.runFresh_eq_ok.mpr ⟨s, hT⟩
  rw [ProofState.inferType, hchecker', MetaContext.instantiate?_of_isGiven h'.room he]
  show Option.bind (checker'.inferType e).runFresh _ = _
  rw [hresult]
  show Option.bind (st'.metas.instantiate? T) _ = _
  rw [MetaContext.instantiate?_of_isGiven h'.room hTgiven]
  exact Eq.refl _

/-- A rule is elaborated as before, and in the other direction. -/
theorem elaborateRule_reverse (hfree : st.env.FVarFree) (hspec : spec.FVarsIn FVarId.IsGiven)
    (hchecker' : (st'.checker? fuel g').isSome)
    (hr : (st.elaborateRule fuel g spec).run = some (.ok r)) :
    (st'.elaborateRule fuel g' spec.reverse).run = some (.ok (r.flip spec.reverse.describe)) := by
  obtain ⟨reversed, type, statement, hterm, htype, hstatement, hreq⟩ := elaborateRule_eq_ok hr
  have hproof : r.proof.FVarsIn FVarId.IsGiven :=
    ruleTerm_fvarsIn hfree.fvarsIn (fun x hx => hx.not_has h.room) h.hyps hspec hterm
  unfold elaborateRule
  rw [QueryM.run_bind_of_ok (h.ruleTerm_reverse h' henv hhyps hterm),
    QueryM.run_bind_of_ok (QueryM.run_lift_eq_ok.mpr
      (h.inferType_eq h' henv hhyps hfree hchecker' hproof htype))]
  dsimp only
  have hrule : Rule.ofProof? r.proof type (!reversed) spec.reverse.describe =
      some (r.flip spec.reverse.describe) := by
    show Option.map _ type.telescope.2.statement? = _
    rw [hstatement, hreq]
    exact Eq.refl _
  rw [hrule]
  exact Eq.refl _

end

end IsAt

end ProofState

end Pinpoint
