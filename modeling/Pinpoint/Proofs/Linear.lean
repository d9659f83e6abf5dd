/-
Proof states with one goal at most.

A rewrite at the target gives the metavariable of the goal a value with one
hole, the metavariable of the new goal; reflexivity gives it a value without
holes.  So the metavariables are a chain in the order of creation, and only the
last one may be without a value.  A rewritten hypothesis stands for a proof from
variables that are older than its own.

What the terms of a proof state mention grows with the number of rewritten
hypotheses, so `Linear` is told the variables that they may mention after each
number of them (`Growing`).

* `Linear.replaceTarget`, `Linear.replaceHyp`, `Linear.close` — each change
  keeps a proof state linear;
* `Linear.run` — so does a run, as long as the ranges of the variables last;
* `Linear.forward` — the values of metavariables mention later metavariables
  only, so the proof so far can be read off (`Linear.partialProof?`).
-/
import Pinpoint.Proofs.Replacement
import Pinpoint.Proofs.Runs

namespace Pinpoint

/-- Whether a free variable lies outside the range of the metavariables, which
begins at `2 ^ 40` and has as many. -/
def FVarId.IsPlain (x : FVarId) : Prop := x.id.toNat < 2 ^ 40 ∨ 2 ^ 41 ≤ x.id.toNat

instance FVarId.IsPlain.decidable : DecidablePred FVarId.IsPlain :=
  fun x => inferInstanceAs (Decidable (x.id.toNat < 2 ^ 40 ∨ 2 ^ 41 ≤ x.id.toNat))

theorem FVarId.IsPlain.not_has {x : FVarId} (hx : x.IsPlain) {ms : MetaContext}
    (hms : ms.metas.length ≤ 2 ^ 40) : ¬ ms.Has x := by
  rw [MetaContext.has_iff (by omega)]
  rcases hx with hx | hx <;> omega

theorem FVarId.IsPlain.le_index {x : FVarId} (hx : x.IsPlain) {m : MetaId}
    (hm : MetaId.ofFVar? x = some m) : 2 ^ 40 ≤ m.index.toNat := by
  unfold MetaId.ofFVar? at hm
  split at hm
  · rename_i hbase
    obtain rfl := Option.some.inj hm
    have hsub : (x.id - MetaId.base).toNat = x.id.toNat - 2 ^ 40 := UInt64.toNat_sub_of_le _ _ hbase
    rw [UInt64.le_iff_toNat_le, show MetaId.base.toNat = 2 ^ 40 from rfl] at hbase
    rcases hx with hx | hx
    · omega
    · show 2 ^ 40 ≤ (x.id - MetaId.base).toNat
      omega
  · cases hm

/-- Variables that terms may mention after each number of rewritten hypotheses,
the first of which has the number `n`: the rewritten hypotheses are among them,
and no metavariables. -/
structure Growing (n : Nat) (p : Nat → FVarId → Prop) : Prop where
  mono : ∀ {k x}, p k x → p (k + 1) x
  rewritten : ∀ {k}, n + k < 2 ^ 40 → p (k + 1) ⟨.ofNat (n + k)⟩
  plain : ∀ {k x}, n + k ≤ 2 ^ 40 → p k x → x.IsPlain

theorem Growing.le {n : Nat} {p : Nat → FVarId → Prop} (hp : Growing n p) {j k : Nat} (hjk : j ≤ k)
    {x : FVarId} (hx : p j x) : p k x := by
  induction hjk with
  | refl => exact hx
  | step _ ih => exact hp.mono ih

/-- Whether a goal holds a statement at a site. -/
def Goal.Holds (g : Goal) (e : Expr) : Site → Prop
  | .goal => g.target = e
  | .hyp x => ∃ h ∈ g.hyps, h.fvar = x ∧ h.type = e

/-- Whether the ranges of the variables of rewritten hypotheses, the first of
which has the number `n`, and of the metavariables have lasted. -/
structure ProofState.HasRoom (n : Nat) (st : ProofState) : Prop where
  hyps : n + st.hypValues.length ≤ 2 ^ 40
  metas : st.metas.metas.length ≤ 2 ^ 40

/-- Whether a proof state has one goal at most, and what its terms mention. -/
structure Linear (n : Nat) (p : Nat → FVarId → Prop) (st : ProofState) : Prop where
  env : st.env.FVarsIn (p 0)
  next : st.nextFVar = .ofNat (n + st.hypValues.length)
  goals : st.goals = [] ∨ ∃ g, st.goals = [g]
  begun : 0 < st.metas.metas.length
  /-- The metavariable of the goal is the latest, and without a value. -/
  latest : ∀ g, st.currentGoal? = some g → g.metaId.index.toNat + 1 = st.metas.metas.length
  hole : ∀ g, st.currentGoal? = some g → st.metas.get? g.metaId = some ⟨g.target, none⟩
  /-- All other metavariables have a value. -/
  filled : ∀ m w, st.metas.get? m = some w → w.value = none →
    ∃ g, st.currentGoal? = some g ∧ g.metaId = m
  hyps : ∀ g, st.currentGoal? = some g → ∀ h ∈ g.hyps,
    p st.hypValues.length h.fvar ∧ h.type.FVarsIn (p st.hypValues.length)
  types : ∀ m ∈ st.metas.metas, m.type.FVarsIn (p st.hypValues.length)
  values : ∀ m v, st.metas.value? m = some v → v.FVarsIn fun x =>
    p st.hypValues.length x ∨ ∃ m' : MetaId, x = m'.toFVar ∧ m.index.toNat < m'.index.toNat ∧
      m'.index.toNat < st.metas.metas.length
  rewritten : ∀ (j : Nat) (x : FVarId) (v : Expr), st.hypValues[j]? = some (x, v) →
    x = ⟨.ofNat (n + j)⟩ ∧ v.FVarsIn (p j)

namespace Linear

variable {n : Nat} {p : Nat → FVarId → Prop} {st st' : ProofState} {g : Goal} {eq : Equation}
  {x : FVarId} {e : Expr}

theorem not_has (hp : Growing n p) (hroom : st.HasRoom n) (hx : p st.hypValues.length x) :
    ¬ st.metas.Has x :=
  (hp.plain hroom.hyps hx).not_has hroom.metas

/-- While numbers last, the next one is that behind the rewritten hypotheses. -/
theorem toNat_nextFVar (hst : Linear n p st) (hroom : n + st.hypValues.length < 2 ^ 64) :
    st.nextFVar.toNat = n + st.hypValues.length := by
  rw [hst.next]
  exact UInt64.toNat_ofNat_of_lt' hroom

theorem target_fvarsIn (hst : Linear n p st) (hg : st.currentGoal? = some g) :
    g.target.FVarsIn (p st.hypValues.length) :=
  hst.types _ (List.mem_of_getElem? (hst.hole g hg))

/-- Behind the first goal there is none. -/
theorem tail_goals (hst : Linear n p st) : st.goals.tail = [] := by
  rcases hst.goals with hnil | ⟨g, hone⟩
  · rw [hnil]
    rfl
  · rw [hone]
    rfl

section
variable (hp : Growing n p) (hst : Linear n p st)
include hp hst

/-- Values mention later metavariables only. -/
theorem forward (hroom : st.HasRoom n) : st.metas.Forward := by
  intro m v hv
  have hmetas := hroom.metas
  have hm := MetaContext.lt_of_value? hv
  refine (hst.values m v hv).mono fun x hx m' hm' => ?_
  rcases hx with hx | ⟨m'', rfl, hlt, hlen⟩
  · have := (hp.plain hroom.hyps hx).le_index hm'
    omega
  · rw [MetaContext.ofFVar?_toFVar (by omega)] at hm'
    exact Option.some.inj hm' ▸ hlt

/-- The statement at a site is the one that the goal holds there. -/
theorem statementAt_eq (hroom : st.HasRoom n) {site : Site}
    (he : (st.statementAt site).run = some (.ok e)) :
    ∃ g, st.currentGoal? = some g ∧ g.Holds e site := by
  obtain ⟨g, hg, he⟩ := QueryM.run_bind_eq_ok.mp he
  have hg := ProofState.mainGoal_eq_ok.mp hg
  have hself : ∀ {t : Expr}, t.FVarsIn (p st.hypValues.length) → st.metas.instantiate? t = some e →
      t = e :=
    fun ht hinst => MetaContext.eq_of_instantiate? (ht.mono fun _ => not_has hp hroom) hinst
  refine ⟨g, hg, ?_⟩
  cases site with
  | goal => exact hself (hst.target_fvarsIn hg) (QueryM.run_lift_eq_ok.mp he)
  | hyp x =>
    obtain ⟨h, hh, he⟩ := QueryM.run_bind_eq_ok.mp he
    obtain ⟨hmem, hx⟩ := ProofState.mem_of_hypOf hh
    exact ⟨h, hmem, hx, hself (hst.hyps g hg h hmem).2 (QueryM.run_lift_eq_ok.mp he)⟩

/-- The statement at a site mentions what all terms may mention. -/
theorem statementAt_fvarsIn (hroom : st.HasRoom n) {site : Site}
    (he : (st.statementAt site).run = some (.ok e)) : e.FVarsIn (p st.hypValues.length) := by
  obtain ⟨g, hg, he⟩ := statementAt_eq hp hst hroom he
  cases site with
  | goal => exact he ▸ hst.target_fvarsIn hg
  | hyp x =>
    obtain ⟨h, hh, -, rfl⟩ := he
    exact (hst.hyps g hg h hh).2

/-! ### Changes -/

section
variable (hroom : st'.HasRoom n) (heq : eq.States fun _ => Expr.FVarsIn (p st.hypValues.length))
  (hproof : eq.proof.FVarsIn (p st.hypValues.length))
include hroom heq hproof

omit hp in
/-- A target that is replaced leaves the metavariable of the new goal as the
only one without a value. -/
theorem replaceTarget (h : (st.replaceTarget eq).run = some (.ok st')) : Linear n p st' := by
  obtain ⟨g, target, proof, hg, -, -, hcast, rfl⟩ := ProofState.replaceTarget_eq_ok h
  obtain ⟨-, rfl⟩ := Equation.castGoal_eq_ok hcast
  have hhole := hst.hole g hg
  have hlatest := hst.latest g hg
  have hlen : ((st.metas.push eq.rhs).assign g.metaId (Expr.mkApp (.const Vocabulary.eqMpr [.zero])
      [eq.lhs, eq.rhs, eq.proof, st.metas.nextId.toExpr])).metas.length =
        st.metas.metas.length + 1 :=
    st.metas.length_push_assign _ _ _
  have hmetas := hroom.metas
  rw [hlen] at hmetas
  have hnext : st.metas.nextId.index.toNat = st.metas.metas.length :=
    MetaContext.toNat_nextId (by omega)
  constructor
  case env => exact hst.env
  case next => exact hst.next
  case goals => exact .inr ⟨⟨st.metas.nextId, eq.rhs, g.hyps⟩, congrArg (_ :: ·) hst.tail_goals⟩
  case begun =>
    rw [hlen]
    exact Nat.succ_pos _
  case latest =>
    intro g' hg'
    obtain rfl := Option.some.inj hg'
    rw [hlen, hnext]
  case hole =>
    intro g' hg'
    obtain rfl := Option.some.inj hg'
    exact MetaContext.get?_push_assign_nextId (by omega) hhole _ _
  case filled =>
    intro m w hw hnone
    rcases MetaContext.get?_push_assign_cases hhole hw with ⟨-, rfl⟩ | ⟨hne, hw | ⟨hm, -⟩⟩
    · cases hnone
    · -- The metavariable of the old goal was the only one without a value.
      obtain ⟨g', hg', hm⟩ := hst.filled m w hw hnone
      obtain rfl := Option.some.inj (hg.symm.trans hg')
      exact absurd hm hne
    · exact ⟨_, rfl, MetaContext.eq_of_toNat_index (hnext.trans hm.symm)⟩
  case hyps =>
    intro g' hg'
    obtain rfl := Option.some.inj hg'
    exact hst.hyps g hg
  case types =>
    intro m hm
    obtain ⟨m', hm', htype⟩ := MetaContext.type_of_mem_assign hm
    rw [htype]
    rcases List.mem_append.mp hm' with hm' | hm'
    · exact hst.types m' hm'
    · obtain rfl := List.mem_singleton.mp hm'
      exact heq.rhs
  case values =>
    intro m v hv
    rw [hlen]
    obtain ⟨w, hw, hwv⟩ := Option.bind_eq_some_iff.mp hv
    rcases MetaContext.get?_push_assign_cases hhole hw with ⟨rfl, rfl⟩ | ⟨-, hw | ⟨-, rfl⟩⟩
    · -- The cast mentions the new metavariable, which is later than that of the old goal.
      obtain rfl := Option.some.inj hwv
      refine Expr.FVarsIn.mkApp.mpr ⟨trivial, ?_⟩
      simpa using ⟨heq.lhs.mono fun _ => .inl, heq.rhs.mono fun _ => .inl,
        hproof.mono fun _ => .inl, .inr ⟨st.metas.nextId, rfl, by omega, by omega⟩⟩
    · refine (hst.values m v (Option.bind_eq_some_iff.mpr ⟨w, hw, hwv⟩)).mono fun x hx => ?_
      exact hx.imp_right fun ⟨m', hx, hlt, hm'⟩ => ⟨m', hx, hlt, by omega⟩
    · cases hwv
  case rewritten => exact hst.rewritten

/-- The value of a hypothesis that is replaced mentions older variables. -/
theorem replaceHyp (h : (st.replaceHyp x eq).run = some (.ok st')) : Linear n p st' := by
  obtain ⟨g, old, type, value, hg, hold, -, -, -, hcast, rfl⟩ := ProofState.replaceHyp_eq_ok h
  obtain ⟨-, rfl⟩ := Equation.castHyp_eq_ok hcast
  have hlen : (st.hypValues ++ [((⟨st.nextFVar⟩ : FVarId), Expr.mkApp
      (.const Vocabulary.eqMp [.zero]) [eq.lhs, eq.rhs, eq.proof, .fvar x])]).length =
        st.hypValues.length + 1 := by
    simp
  have hhyps := hroom.hyps
  rw [hlen] at hhyps
  have hmono : ∀ {x}, p st.hypValues.length x → p (st.hypValues.length + 1) x := hp.mono
  constructor
  case env => exact hst.env
  case next =>
    show st.nextFVar + 1 = _
    rw [hlen, hst.next, ← Nat.add_assoc, UInt64.ofNat_add (_ + _) 1]
    rfl
  case goals => exact .inr ⟨_, congrArg (_ :: ·) hst.tail_goals⟩
  case begun => exact hst.begun
  case latest =>
    intro g' hg'
    obtain rfl := Option.some.inj hg'
    exact hst.latest g hg
  case hole =>
    intro g' hg'
    obtain rfl := Option.some.inj hg'
    exact hst.hole g hg
  case filled =>
    intro m w hw hnone
    obtain ⟨g', hg', hm⟩ := hst.filled m w hw hnone
    obtain rfl := Option.some.inj (hg.symm.trans hg')
    exact ⟨_, rfl, hm⟩
  case hyps =>
    intro g' hg' h' hh'
    obtain rfl := Option.some.inj hg'
    show p (List.length _) _ ∧ Expr.FVarsIn (p (List.length _)) _
    rw [hlen]
    -- The other hypotheses are older; the new one has the next number.
    rcases List.mem_or_eq_of_mem_set hh' with hh' | rfl
    · obtain ⟨hx, htype⟩ := hst.hyps g hg h' hh'
      exact ⟨hmono hx, htype.mono fun _ => hmono⟩
    · refine ⟨?_, heq.rhs.mono fun _ => hmono⟩
      show p _ ⟨st.nextFVar⟩
      rw [hst.next]
      exact hp.rewritten (by omega)
  case types =>
    intro m hm
    rw [hlen]
    exact (hst.types m hm).mono fun _ => hmono
  case values =>
    intro m v hv
    rw [hlen]
    exact (hst.values m v hv).mono fun y hy => hy.imp_left hmono
  case rewritten =>
    intro j y v hy
    rcases Nat.lt_or_ge j st.hypValues.length with hlt | hge
    · rw [List.getElem?_append_left hlt] at hy
      exact hst.rewritten j y v hy
    · -- The new value is the cast of the old hypothesis.
      rw [List.getElem?_append_right hge, List.getElem?_singleton] at hy
      split at hy
      · obtain ⟨rfl, rfl⟩ := Prod.mk.inj (Option.some.inj hy)
        obtain rfl : st.hypValues.length = j := by omega
        have hx : p st.hypValues.length x := by
          have := (hst.hyps g hg old (List.mem_of_find?_eq_some hold)).1
          rwa [show old.fvar = x by simpa using List.find?_some hold] at this
        refine ⟨congrArg FVarId.mk hst.next, Expr.FVarsIn.mkApp.mpr ⟨trivial, ?_⟩⟩
        simpa using ⟨heq.lhs, heq.rhs, hproof, hx⟩
      · cases hy

end

omit hp in
/-- A goal that is closed was the only one. -/
theorem goals_of_rfl {fuel : Nat} (h : (st.rfl fuel).run = some (.ok st')) : st'.goals = [] := by
  obtain ⟨g, -, s, refl, -, -, -, -, -, rfl⟩ := ProofState.rfl_eq_ok h
  exact hst.tail_goals

/-- A goal that is closed leaves no metavariable without a value. -/
theorem close (hroom : st.HasRoom n) {fuel : Nat} (h : (st.rfl fuel).run = some (.ok st')) :
    Linear n p st' := by
  have hnil := hst.goals_of_rfl h
  obtain ⟨g, target, s, refl, hg, hinst, hs, -, -, rfl⟩ := ProofState.rfl_eq_ok h
  have htarget := hst.target_fvarsIn hg
  obtain rfl := MetaContext.eq_of_instantiate?
    (htarget.mono fun _ => not_has hp hroom) hinst
  have hlen : (st.metas.assign g.metaId (s.reflProof refl)).metas.length =
      st.metas.metas.length := List.length_modify _ _ _
  -- No goal is left, so that what is said of the current one holds of none.
  have hnone : ∀ g', (st.close g (s.reflProof refl)).currentGoal? ≠ some g' := by
    intro g' hg'
    rw [ProofState.currentGoal?, hnil] at hg'
    cases hg'
  constructor
  case env => exact hst.env
  case next => exact hst.next
  case goals => exact .inl hnil
  case begun =>
    rw [show (st.close g (s.reflProof refl)).metas.metas.length = _ from hlen]
    exact hst.begun
  case latest => exact fun g' hg' => absurd hg' (hnone g')
  case hole => exact fun g' hg' => absurd hg' (hnone g')
  case hyps => exact fun g' hg' => absurd hg' (hnone g')
  case filled =>
    intro m w hw hvalue
    rcases MetaContext.get?_assign_cases (hst.hole g hg) hw with ⟨-, rfl⟩ | ⟨hne, hw⟩
    · cases hvalue
    · obtain ⟨g', hg', hm⟩ := hst.filled m w hw hvalue
      obtain rfl := Option.some.inj (hg.symm.trans hg')
      exact absurd hm hne
  case types =>
    intro m hm
    obtain ⟨m', hm', htype⟩ := MetaContext.type_of_mem_assign hm
    rw [htype]
    exact hst.types m' hm'
  case values =>
    intro m v hv
    rw [show (st.close g (s.reflProof refl)).metas.metas.length = _ from hlen]
    obtain ⟨w, hw, hwv⟩ := Option.bind_eq_some_iff.mp hv
    rcases MetaContext.get?_assign_cases (hst.hole g hg) hw with ⟨-, rfl⟩ | ⟨-, hw⟩
    · obtain rfl := Option.some.inj hwv
      exact ((Expr.fvarsIn_hereditary _).reflProof (n := 0) htarget hs refl).mono fun _ => .inl
    · exact hst.values m v (Option.bind_eq_some_iff.mpr ⟨w, hw, hwv⟩)
  case rewritten => exact hst.rewritten

end

end Linear

/-! ### Runs -/

/-- Whether the rules of a call that are given as terms have free variables as
asked. -/
def Call.RulesIn (p : FVarId → Prop) : Call → Prop
  | .rewrite _ _ _ specs _ _ => ∀ spec ∈ specs, spec.FVarsIn p
  | .reflexivity _ => True

theorem Call.RulesIn.mono {p q : FVarId → Prop} {c : Call} (h : c.RulesIn p)
    (hpq : ∀ x, p x → q x) : c.RulesIn q := by
  cases c with
  | rewrite => exact fun spec hspec => (h spec hspec).mono hpq
  | reflexivity => trivial

/-- The largest of numbers is at least each of them. -/
theorem le_foldl_max {l : List UInt64} {a b : UInt64} (ha : a = b ∨ a ∈ l) : a ≤ l.foldl max b := by
  have hmax : ∀ b c : UInt64, b ≤ max b c ∧ c ≤ max b c := by
    intro b c
    show b ≤ (if b ≤ c then c else b) ∧ c ≤ (if b ≤ c then c else b)
    split
    · exact ⟨‹_›, UInt64.le_refl c⟩
    · exact ⟨UInt64.le_refl b, (UInt64.le_total b c).resolve_left ‹_›⟩
  induction l generalizing a b with
  | nil => exact (ha.resolve_right List.not_mem_nil) ▸ UInt64.le_refl a
  | cons c l ih =>
    rw [List.foldl_cons]
    rcases ha with rfl | ha
    · exact UInt64.le_trans (hmax a c).1 (ih (.inl rfl))
    · rcases List.mem_cons.mp ha with rfl | ha
      · exact UInt64.le_trans (hmax b a).2 (ih (.inl rfl))
      · exact ih (.inr ha)

namespace ProofState

variable {n : Nat} {st st' : ProofState}

/-- The variables of hypotheses come before the first one of a rewritten
hypothesis. -/
theorem lt_nextFVar_start {env : Environment} {target : Expr} {hyps : List Hypothesis}
    {h : Hypothesis} (hh : h ∈ hyps) (hid : h.fvar.id.toNat < 2 ^ 40) :
    h.fvar.id.toNat < (start env target hyps).nextFVar.toNat := by
  have hle : h.fvar.id + 1 ≤ (start env target hyps).nextFVar :=
    le_foldl_max (.inr (List.mem_map_of_mem hh))
  rw [UInt64.le_iff_toNat_le, UInt64.toNat_add, UInt64.toNat_one] at hle
  omega

/-- A replacement takes no variables back. -/
theorem length_le_of_replace {site : Site} {eq : Equation}
    (h : (st.replace site eq).run = some (.ok st')) :
    st.hypValues.length ≤ st'.hypValues.length ∧
      st.metas.metas.length ≤ st'.metas.metas.length := by
  cases site with
  | goal =>
    obtain ⟨-, -, -, -, -, -, -, rfl⟩ := replaceTarget_eq_ok h
    simp [MetaContext.assign, MetaContext.push]
  | hyp x =>
    obtain ⟨-, -, -, -, -, -, -, -, -, -, rfl⟩ := replaceHyp_eq_ok h
    simp

theorem HasRoom.of_le (hroom : st'.HasRoom n) (hhyps : st.hypValues.length ≤ st'.hypValues.length)
    (hmetas : st.metas.metas.length ≤ st'.metas.metas.length) : st.HasRoom n :=
  ⟨Nat.le_trans (Nat.add_le_add_left hhyps n) hroom.hyps, Nat.le_trans hmetas hroom.metas⟩

theorem HasRoom.of_rfl {fuel : Nat} (hroom : st'.HasRoom n)
    (h : (st.rfl fuel).run = some (.ok st')) : st.HasRoom n := by
  obtain ⟨g, -, s, refl, -, -, -, -, -, rfl⟩ := rfl_eq_ok h
  refine hroom.of_le (Nat.le_refl _) (Nat.le_of_eq ?_)
  exact (List.length_modify _ _ _).symm

end ProofState

namespace Linear

variable {n : Nat} {p : Nat → FVarId → Prop} {st st' : ProofState}

/-- The rules of a call mention what all terms may mention. -/
theorem rules_fvarsIn (hp : Growing n p) (hst : Linear n p st) (hroom : st.HasRoom n) {g : Goal}
    (hg : st.currentGoal? = some g) {fuel : Nat} {specs : List RuleSpec} {rules : List Rule}
    (hspecs : ∀ spec ∈ specs, spec.FVarsIn (p 0))
    (h : (st.elaborateRules fuel g specs).run = some (.ok rules)) {r : Rule} (hr : r ∈ rules) :
    (r.States fun _ => Expr.FVarsIn (p st.hypValues.length)) ∧
      r.proof.FVarsIn (p st.hypValues.length) := by
  have hle : ∀ x, p 0 x → p st.hypValues.length x := fun _ => hp.le (Nat.zero_le _)
  have henv := hst.env.mono hle
  have hhas : ∀ x, p st.hypValues.length x → ¬ st.metas.Has x := fun _ => not_has hp hroom
  obtain ⟨spec, hspec, h⟩ := ProofState.elaborateRules_eq_ok h hr
  obtain ⟨reversed, -, -, hterm, -⟩ := ProofState.elaborateRule_eq_ok h
  have hproof := ProofState.ruleTerm_fvarsIn henv hhas (hst.hyps g hg)
    ((hspecs spec hspec).mono hle) hterm
  exact ⟨ProofState.states_elaborateRule henv (fun _ => id) hhas
    (fun h hh _ => (hst.hyps g hg h hh).2) hproof h, hproof⟩

/-- A selected equation keeps a proof state linear. -/
theorem replace (hp : Growing n p) (hst : Linear n p st) (hroom : st'.HasRoom n) {fuel : Nat}
    {sel : Selection} {site : Site} {eq : Equation}
    (hrules : ∀ r ∈ sel.rules, (r.States fun _ => Expr.FVarsIn (p st.hypValues.length)) ∧
      r.proof.FVarsIn (p st.hypValues.length))
    (heq : (st.selectedEquation fuel sel site).run = some (.ok eq))
    (h : (st.replace site eq).run = some (.ok st')) : Linear n p st' := by
  have hlen := ProofState.length_le_of_replace h
  obtain ⟨hstates, hproof⟩ := (Expr.fvarsIn_hereditary _).selectedEquation heq
    (fun e => hst.statementAt_fvarsIn hp (hroom.of_le hlen.1 hlen.2)) fun r hr => (hrules r hr).1
  have hproof := hproof fun r hr => (hrules r hr).2
  cases site with
  | goal => exact hst.replaceTarget hroom hstates hproof h
  | hyp x => exact hst.replaceHyp hp hroom hstates hproof h

/-- A call keeps a proof state linear. -/
theorem leadsTo (hp : Growing n p) {c : Call} (hc : c.LeadsTo st st') (hrules : c.RulesIn (p 0))
    (hst : st.HasRoom n → Linear n p st) : st'.HasRoom n → Linear n p st' := by
  have hclose : ∀ {fuel st₁ st₂}, (st₁.HasRoom n → Linear n p st₁) →
      (ProofState.rfl fuel st₁).run = some (.ok st₂) → st₂.HasRoom n → Linear n p st₂ := by
    intro fuel st₁ st₂ hst₁ hrfl hroom
    have hroom₁ := hroom.of_rfl hrfl
    exact (hst₁ hroom₁).close hp hroom₁ hrfl
  cases hc with
  | closed hrfl => exact hclose hst hrfl
  | refused _ => exact hst
  | rewrite h =>
    refine nthRewrite_keeps (J := fun st => st.HasRoom n → Linear n p st) h hst
      (fun g rules hg helab r st₁ h₁ hroom => ?_) (fun _ _ => hclose)
    -- while the statements are replaced, the rules are those that were elaborated before
    refine (Selection.rewrite_keeps (J := fun st => st.HasRoom n → Linear n p st ∧ ∀ r ∈ rules,
      (r.States fun _ => Expr.FVarsIn (p st.hypValues.length)) ∧
        r.proof.FVarsIn (p st.hypValues.length)) ?_ h₁
      (fun hroom => ⟨hst hroom, fun r => (hst hroom).rules_fvarsIn hp hroom hg hrules helab⟩)
      hroom).1
    rintro st₁ site eq st₂ hst₁ - heq hreplace hroom
    have hlen := ProofState.length_le_of_replace hreplace
    obtain ⟨hlinear, hrules⟩ := hst₁ (hroom.of_le hlen.1 hlen.2)
    have hmono : ∀ x, p st₁.hypValues.length x → p st₂.hypValues.length x :=
      fun _ => hp.le hlen.1
    refine ⟨hlinear.replace hp hroom hrules heq hreplace, fun r hr => ?_⟩
    obtain ⟨⟨hc, hl, hrhs⟩, hproof⟩ := hrules r hr
    exact ⟨⟨hc.mono hmono, hl.mono hmono, hrhs.mono hmono⟩, hproof.mono hmono⟩

/-- A run keeps a proof state linear. -/
theorem run (hst : Linear n p st) (hp : Growing n p)
    (hrun : st.Run (fun _ c => c.RulesIn (p 0)) st') (hroom : st'.HasRoom n) : Linear n p st' :=
  hrun.keeps (J := fun st => st.HasRoom n → Linear n p st)
    (fun _ _ _ hst hrules hc => leadsTo hp hc hrules hst) (fun _ => hst) hroom

/-- Where a proof begins, its only metavariable is that of its goal. -/
theorem start {env : Environment} {target : Expr} {hyps : List Hypothesis} (henv : env.FVarsIn (p 0))
    (htarget : target.FVarsIn (p 0)) (hhyps : ∀ h ∈ hyps, p 0 h.fvar ∧ h.type.FVarsIn (p 0)) :
    Linear (ProofState.start env target hyps).nextFVar.toNat p (.start env target hyps) where
  env := henv
  next := UInt64.ofNat_toNat.symm
  goals := .inr ⟨_, rfl⟩
  begun := Nat.zero_lt_one
  latest g hg := by
    obtain rfl := Option.some.inj hg
    rfl
  hole g hg := by
    obtain rfl := Option.some.inj hg
    rfl
  filled m w hw _ := by
    obtain ⟨hlt, -⟩ := List.getElem?_eq_some_iff.mp hw
    exact ⟨_, rfl, MetaContext.eq_of_toNat_index (Nat.lt_one_iff.mp hlt).symm⟩
  hyps g hg h hh := by
    obtain rfl := Option.some.inj hg
    exact hhyps h hh
  types m hm := by
    obtain rfl := List.mem_singleton.mp hm
    exact htarget
  values m v hv := by
    obtain ⟨w, hw, hwv⟩ := Option.bind_eq_some_iff.mp hv
    obtain rfl := List.mem_singleton.mp (List.mem_of_getElem? hw)
    cases hwv
  rewritten j x v h := by cases h

/-- The proof so far can always be read off, and there is one once no goal is
left. -/
theorem partialProof? (hp : Growing n p) (hst : Linear n p st) (hroom : st.HasRoom n) :
    (∃ t, st.partialProof? = some t) ∧
      (st.isComplete → ∃ t, st.instantiatedProof? = some (some t)) := by
  have hfill := (hst.forward hp hroom).instantiate?_isSome
  have hpartial : ∀ v, st.root? = some v → ∃ t, st.partialProof? = some (some t) := by
    intro v hv
    obtain ⟨t, ht⟩ := Option.isSome_iff_exists.mp (hfill v)
    exact ⟨_, by rw [ProofState.partialProof?, hv]; exact congrArg (Option.map _) ht⟩
  constructor
  · cases hroot : st.root? with
    | none => exact ⟨none, by rw [ProofState.partialProof?, hroot]⟩
    | some v =>
      obtain ⟨t, ht⟩ := hpartial v hroot
      exact ⟨some t, ht⟩
  · intro hcomplete
    have hnil : st.goals = [] := List.isEmpty_iff.mp hcomplete
    obtain ⟨v, hv⟩ : ∃ v, st.root? = some v := by
      obtain ⟨w, hget⟩ : ∃ w, st.metas.get? ⟨0⟩ = some w := ⟨_, List.getElem?_eq_getElem hst.begun⟩
      cases hvalue : w.value with
      | none =>
        obtain ⟨g, hg, -⟩ := hst.filled ⟨0⟩ _ hget hvalue
        rw [ProofState.currentGoal?, hnil] at hg
        cases hg
      | some v => exact ⟨v, Option.bind_eq_some_iff.mpr ⟨_, hget, hvalue⟩⟩
    obtain ⟨t, ht⟩ := hpartial v hv
    exact ⟨t, by rw [ProofState.instantiatedProof?, if_pos hcomplete, ht]⟩

end Linear

end Pinpoint
