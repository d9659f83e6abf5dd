/-
Proofs that a checker confirms.

The proof so far is a proof of the first target, and a rewritten hypothesis is a
proof of its type, from the hypotheses that the proof began with and the goal that
is left; in terms of these hypotheses, that is, with the rewritten ones unfolded.
So a checker that knows them takes each for what it should be.

* `Typed.instantiate` — filling holes keeps types;
* `Environment.Confirms` — a checker that ends infers the type that it should;
* `Sound.confirmed` — what a sound proof state has is confirmed;
* `confirmed_of_run` — so it is after a run of verified rewrites.
-/
import Pinpoint.Proofs.TypedEnvironments
import Pinpoint.Proofs.TypedStarts

namespace Pinpoint

/-! ### Holes -/

/-- The types of variables, and those of metavariables. -/
def Locals.withMetas (Γ : Locals) (ms : MetaContext)
    (h : ∀ m w, ms.get? m = some w → w.type.term.Closed) : Locals where
  type x :=
    match (MetaId.ofFVar? x).bind ms.get? with
    | some w => some w.type.term
    | none => Γ.type x
  closed {x A} hA := by
    cases hw : (MetaId.ofFVar? x).bind ms.get? with
    | none =>
      simp only [hw] at hA
      exact Γ.closed hA
    | some w =>
      simp only [hw, Option.some.injEq] at hA
      obtain ⟨m, -, hm⟩ := MetaContext.has_of_get? hw
      exact hA ▸ h m w hm

section
variable {Γ : Locals} {ms : MetaContext} {h : ∀ m w, ms.get? m = some w → w.type.term.Closed}
  {x : FVarId}

theorem Locals.type_withMetas_toFVar {m : MetaId} {w : Metavariable} (hw : ms.get? m = some w)
    (hroom : ms.metas.length ≤ 2 ^ 40) : (Γ.withMetas ms h).type m.toFVar = some w.type.term := by
  have hlt := MetaContext.lt_of_get? hw
  have hget : (MetaId.ofFVar? m.toFVar).bind ms.get? = some w := by
    rw [MetaContext.ofFVar?_toFVar (by omega)]
    exact hw
  simp only [withMetas, hget]

theorem Locals.type_withMetas_of_not_has (hx : ¬ ms.Has x) :
    (Γ.withMetas ms h).type x = Γ.type x := by
  have hget : (MetaId.ofFVar? x).bind ms.get? = none := by
    refine Option.eq_none_iff_forall_ne_some.mpr fun w hw => hx ?_
    obtain ⟨m, rfl, hm⟩ := MetaContext.has_of_get? hw
    exact MetaContext.has_toFVar hm
  simp only [withMetas, hget]

end

namespace ProofState

variable {env : Environment} {henv : env.Ground} {n : Nat} {p : Nat → FVarId → Prop}
  {L Γ : Locals} {first : Expr} {st : ProofState} {g : Goal} {hyps : List Hypothesis}

namespace Typed

variable (hst : st.Typed henv p L first Γ)
include hst

theorem closed_types (m : MetaId) (w : Metavariable) (hw : st.metas.get? m = some w) :
    w.type.term.Closed :=
  (hst.types m w hw).closed

/-- What is put for variables keeps the type of a term, if that mentions no holes: other
variables stay, and a hole gets a closed term of its type. -/
theorem bindFVars? (hroom : st.metas.metas.length ≤ 2 ^ 40)
    (hhas : ∀ x A, Γ.type x = some A → ¬ st.metas.Has x) {f : FVarId → Option Expr}
    (hkeep : ∀ x, ¬ st.metas.Has x → f x = some (.fvar x))
    (hscoped : ∀ x v, f x = some v → v.Scoped 0)
    (hvalue : ∀ m w v, st.metas.get? m = some w → f m.toFVar = some v →
      HasType henv.signature (Γ.withMetas st.metas hst.closed_types) [] v.term w.type.term)
    {e e' : Expr} {T X : Term} (hT : HasType henv.signature Γ [] T X)
    (he : HasType henv.signature (Γ.withMetas st.metas hst.closed_types) [] e.term T)
    (h : e.bindFVars? f = some e') :
    HasType henv.signature (Γ.withMetas st.metas hst.closed_types) [] e'.term T := by
  -- A type that mentions no holes stays.
  have hfixed : ∀ {A X : Term}, HasType henv.signature Γ [] A X →
      A.subst (.ofFree fun x => ((f x).map Expr.term).getD (.fvar x)) = A := by
    refine fun hA => Term.subst_eq_self hA.uses (fun _ hi => absurd hi (Nat.not_lt_zero _)) ?_
    intro x hx
    obtain ⟨A, hA⟩ := Option.isSome_iff_exists.mp hx
    show ((f x).map Expr.term).getD (.fvar x) = _
    rw [hkeep x (hhas x A hA)]
    exact Eq.refl _
  -- Every variable gets a term of its type: a hole that is filled its value, and any
  -- other variable itself.
  have hσ : Substitutes henv.signature (.ofFree fun x => ((f x).map Expr.term).getD (.fvar x))
      (Γ.withMetas st.metas hst.closed_types) [] (Γ.withMetas st.metas hst.closed_types) [] := by
    constructor
    case bound => exact nofun
    case free =>
      intro x A hA
      show HasType _ _ _ (((f x).map Expr.term).getD (.fvar x)) _
      by_cases hx : st.metas.Has x
      · obtain ⟨m, w, rfl, hw⟩ := hx.exists_get? (by omega)
        obtain rfl : w.type.term = A :=
          Option.some.inj ((Locals.type_withMetas_toFVar hw hroom).symm.trans hA)
        rw [hfixed (hst.types _ w hw)]
        cases hf : f m.toFVar with
        | none => exact .fvar hA
        | some v => exact hvalue _ w v hw hf
      · have hA' := Locals.type_withMetas_of_not_has (Γ := Γ) (h := hst.closed_types) hx
        obtain ⟨l, hl⟩ := hst.wellTyped (hA'.symm.trans hA)
        rw [hfixed hl, hkeep x hx]
        exact .fvar hA
  have he := he.subst hσ
  rw [hfixed hT] at he
  rwa [Expr.term_bindFVars? (τ := fun x => ((f x).map Expr.term).getD (.fvar x))
    (fun x v hv => ⟨by rw [hv]; exact Eq.refl _, hscoped x v hv⟩) h]

/-- The value of a hole has its type. -/
theorem valueOf? (hroom : st.metas.metas.length ≤ 2 ^ 40)
    (hhas : ∀ x A, Γ.type x = some A → ¬ st.metas.Has x) {m : MetaId} {w : Metavariable} {v : Expr}
    (hw : st.metas.get? m = some w) (hv : st.metas.valueOf? m.toFVar = some v) :
    HasType henv.signature (Γ.withMetas st.metas hst.closed_types) [] v.term w.type.term := by
  have hlt := MetaContext.lt_of_get? hw
  rw [MetaContext.valueOf?_toFVar (by omega), MetaContext.value?, hw] at hv
  refine hst.values m w v hw hv _ (fun {x A} hA => ?_) fun m' w' hw' =>
    Locals.type_withMetas_toFVar hw' hroom
  rwa [Locals.type_withMetas_of_not_has (hhas x A hA)]

/-- Filling holes keeps the type of a term, if that mentions no holes itself. -/
theorem instantiate (hclosed : st.Closed) (hroom : st.metas.metas.length ≤ 2 ^ 40)
    (hhas : ∀ x A, Γ.type x = some A → ¬ st.metas.Has x) {depth : Nat} {e e' : Expr} {T X : Term}
    (hT : HasType henv.signature Γ [] T X)
    (he : HasType henv.signature (Γ.withMetas st.metas hst.closed_types) [] e.term T)
    (h : st.metas.instantiateUpTo depth e = some e') :
    HasType henv.signature (Γ.withMetas st.metas hst.closed_types) [] e'.term T := by
  induction depth generalizing e e' T X with
  | zero =>
    -- With no depth left every hole stays as it is.
    refine hst.bindFVars? hroom hhas (fun x hx => ?_) (fun x v hv => ?_) (fun m w v hw hv => ?_)
      hT he h
    · rw [MetaContext.valueOf?_eq_none_of_not_has hx]
      exact Eq.refl _
    · split at hv
      · cases hv
      · obtain rfl := Option.some.inj hv
        trivial
    · split at hv
      · cases hv
      · obtain rfl := Option.some.inj hv
        exact .fvar (Locals.type_withMetas_toFVar hw hroom)
  | succ depth ih =>
    -- A hole that has a value gets it filled in turn, to a depth that is smaller.
    refine hst.bindFVars? hroom hhas (fun x hx => ?_) (fun x v hv => ?_) (fun m w v hw hv => ?_)
      hT he h
    · rw [MetaContext.valueOf?_eq_none_of_not_has hx]
    · split at hv
      · next v₀ hv₀ =>
        obtain ⟨w, hw, hv₀⟩ := MetaContext.mem_of_valueOf? hv₀
        exact MetaContext.scoped_instantiateUpTo hclosed.values hv (hclosed.values w hw v₀ hv₀)
      · obtain rfl := Option.some.inj hv
        trivial
    · split at hv
      · next v₀ hv₀ => exact ih (hst.types m w hw) (hst.valueOf? hroom hhas hw hv₀) hv
      · obtain rfl := Option.some.inj hv
        exact .fvar (Locals.type_withMetas_toFVar hw hroom)

end Typed

end ProofState

/-! ### Confirmation -/

/-- Whether a checker that ends, within the widths and the ranges of the machine,
infers for a term a type that is equal to the given one. -/
def Environment.Confirms (env : Environment) (Γ : LocalContext) (e type : Expr) : Prop :=
  ∀ fuel r, ((Checker.mk env Γ fuel).inferType e).runFresh = some r →
    env.inferTypeWithin fuel Γ e Checker.firstFresh →
    Checker.firstFresh.toNat + e.openings fuel < 2 ^ 64 →
    ∃ T, r = .ok T ∧ ∀ fuel' b, env.isDefEq .all fuel' T type = some b →
      env.isDefEqWithin .all fuel' T type → b = true

theorem Environment.confirms_of_hasType {env : Environment} (henv : env.Ground) {Γ : LocalContext}
    {Δ : Locals} {e type : Expr} (hΔ : Δ.Below Checker.firstFresh.toNat)
    (he : e.FVarsIn (Given Γ Δ Checker.firstFresh))
    (h : HasType henv.signature Δ [] e.term type.term) : env.Confirms Γ e type := by
  intro fuel r hr hwithin hroom
  obtain ⟨s, hs⟩ := Supply.runFresh_eq_some.mp hr
  have hp : env.Prepared fuel Γ Δ e Checker.firstFresh :=
    ⟨hΔ, he.mono fun x hx => hx.1, hwithin, hroom⟩
  cases r with
  | error err => exact absurd hs (inferType_neverFails henv hp (he.mono fun x hx => hx.2) h err s)
  | ok T =>
    refine ⟨T, rfl, fun fuel' b hb hequal => ?_⟩
    have hT := inferType_hasType henv hp hs
    exact isDefEq_of_converts (t := .all) henv (hT.unique h) hb hequal

namespace ProofState

/-- The hypotheses that a proof began with, and all metavariables with what they
are to prove in terms of these hypotheses. -/
def checkingContext (st : ProofState) (hyps : List Hypothesis) : LocalContext :=
  ⟨(st.metas.toList.map fun (m, w) =>
    ⟨m.toFVar, .ofString ("?m" ++ toString m.index.toNat), st.unfoldHyps w.type⟩).reverse ++
      (LocalContext.ofHyps hyps).entries⟩

/-- Whether a checker that knows the hypotheses that a proof began with, and the
metavariables, confirms the proof so far, the hypotheses and the target of the
goal that is left; and one that knows the hypotheses of that goal confirms its
target, if that mentions no others. -/
structure Confirmed (env : Environment) (initial : List Hypothesis) (first : Expr)
    (st : ProofState) : Prop where
  proof : ∀ t, st.partialProof? = some (some t) → env.Confirms (st.checkingContext initial) t first
  hyps : ∀ g, st.currentGoal? = some g → ∀ h ∈ g.hyps, env.Confirms (st.checkingContext initial)
    (st.unfoldHyps (.fvar h.fvar)) (st.unfoldHyps h.type)
  target : ∀ g, st.currentGoal? = some g →
    env.Confirms (st.checkingContext initial) (st.unfoldHyps g.target) .prop
  inGoal : ∀ g Γ, st.currentGoal? = some g → st.localContext? g = some Γ →
    g.target.FVarsIn (fun x => ∃ h ∈ g.hyps, h.fvar = x) → env.Confirms Γ g.target .prop

section
variable {env : Environment} {hyps : List Hypothesis} {n : Nat} {st : ProofState} {x : FVarId}

/-- Terms without rewritten hypotheses stay as they are. -/
theorem unfoldHyps_eq_self {e : Expr} (hlin : Linear n (IsHypOrRewritten hyps n) st)
    (hroom : st.HasRoom n) (he : e.FVarsIn fun x => x.id.toNat < n ∨ 2 ^ 40 ≤ x.id.toNat) :
    st.unfoldHyps e = e := by
  have hhyps := hroom.hyps
  rw [unfoldHyps_eq]
  refine Expr.substFVars_eq_self (he.mono fun x hx hmem => ?_)
  obtain ⟨⟨y, v⟩, hv, rfl⟩ := List.mem_map.mp hmem
  obtain ⟨j, hj⟩ := List.mem_iff_getElem?.mp (List.mem_reverse.mp hv)
  obtain ⟨hlt, -⟩ := List.getElem?_eq_some_iff.mp hj
  obtain ⟨rfl, -⟩ := hlin.rewritten j y v hj
  have hid : (UInt64.ofNat (n + j)).toNat = n + j :=
    UInt64.toNat_ofNat_of_lt' (show n + j < 2 ^ 64 by omega)
  have hx : (UInt64.ofNat (n + j)).toNat < n ∨ 2 ^ 40 ≤ (UInt64.ofNat (n + j)).toNat := hx
  omega

theorem mem_checkingContext {entry : LocalEntry} (hroom : st.HasRoom n) :
    entry ∈ (st.checkingContext hyps).entries ↔
      (∃ m w, st.metas.get? m = some w ∧
        entry = ⟨m.toFVar, .ofString ("?m" ++ toString m.index.toNat), st.unfoldHyps w.type⟩) ∨
      ∃ h ∈ hyps, entry = LocalContext.entryOf h := by
  have hmetas := hroom.metas
  rw [checkingContext, List.mem_append, List.mem_reverse, LocalContext.mem_ofHyps]
  refine or_congr ⟨fun hentry => ?_, ?_⟩ Iff.rfl
  · obtain ⟨⟨m, w⟩, hw, rfl⟩ := List.mem_map.mp hentry
    exact ⟨m, w, (MetaContext.mem_toList (by omega)).mp hw, Eq.refl _⟩
  · rintro ⟨m, w, hw, rfl⟩
    exact List.mem_map.mpr ⟨(m, w), (MetaContext.mem_toList (by omega)).mpr hw, Eq.refl _⟩

theorem closed_checkingContext (hclosed : st.Closed) (hroom : st.HasRoom n)
    (hscoped : ∀ h ∈ hyps, h.type.Scoped 0) : (st.checkingContext hyps).Closed := by
  intro entry hentry
  rcases (mem_checkingContext hroom).mp hentry with ⟨m, w, hw, rfl⟩ | ⟨h, hh, rfl⟩
  · show (st.unfoldHyps w.type).Scoped 0
    rw [unfoldHyps_eq]
    exact (hclosed.types w (List.mem_of_getElem? hw)).substFVars fun x u hx =>
      hclosed.hypValues x u (List.mem_reverse.mp hx)
  · exact hscoped h hh

theorem toNat_toFVar_of_get? {m : MetaId} {w : Metavariable} (hroom : st.HasRoom n)
    (hw : st.metas.get? m = some w) : m.toFVar.id.toNat = 2 ^ 40 + m.index.toNat ∧
      m.index.toNat < 2 ^ 40 := by
  have hlt := MetaContext.lt_of_get? hw
  have hmetas := hroom.metas
  exact ⟨MetaContext.toNat_toFVar (by omega), by omega⟩

/-- Hypotheses have variables of their own. -/
theorem find?_checkingContext_hyp {h : Hypothesis} (hroom : st.HasRoom n)
    (hids : ∀ h ∈ hyps, h.fvar.id.toNat < 2 ^ 40) (hdistinct : (hyps.map Hypothesis.fvar).Nodup)
    (hh : h ∈ hyps) :
    (st.checkingContext hyps).find? h.fvar = some (LocalContext.entryOf h) := by
  refine LocalContext.find?_of_unique
    ((mem_checkingContext hroom).mpr (.inr ⟨h, hh, Eq.refl _⟩)) (Eq.refl _) fun entry hentry hfvar => ?_
  rcases (mem_checkingContext hroom).mp hentry with ⟨m, w, hw, rfl⟩ | ⟨h', hh', rfl⟩
  · have hid := hids h hh
    have hfvar : m.toFVar = h.fvar := hfvar
    rw [← hfvar, (toNat_toFVar_of_get? hroom hw).1] at hid
    omega
  · rw [List.inj_on_of_nodup_map hdistinct hh' hh hfvar]

/-- So have metavariables. -/
theorem find?_checkingContext_meta {m : MetaId} {w : Metavariable} (hroom : st.HasRoom n)
    (hids : ∀ h ∈ hyps, h.fvar.id.toNat < 2 ^ 40) (hw : st.metas.get? m = some w) :
    (st.checkingContext hyps).find? m.toFVar =
      some ⟨m.toFVar, .ofString ("?m" ++ toString m.index.toNat), st.unfoldHyps w.type⟩ := by
  refine LocalContext.find?_of_unique
    ((mem_checkingContext hroom).mpr (.inl ⟨m, w, hw, Eq.refl _⟩)) (Eq.refl _) fun entry hentry hfvar => ?_
  rcases (mem_checkingContext hroom).mp hentry with ⟨m', w', hw', rfl⟩ | ⟨h, hh, rfl⟩
  · have hfvar : m'.toFVar = m.toFVar := hfvar
    have hm := toNat_toFVar_of_get? hroom hw
    have hm' := toNat_toFVar_of_get? hroom hw'
    rw [hfvar, hm.1] at hm'
    obtain rfl : m = m' := MetaContext.eq_of_toNat_index (by omega)
    obtain rfl := Option.some.inj (hw.symm.trans hw')
    exact Eq.refl _
  · have hid := hids h hh
    have hfvar : h.fvar = m.toFVar := hfvar
    rw [hfvar, (toNat_toFVar_of_get? hroom hw).1] at hid
    omega

end

section
variable {env : Environment} {henv : env.Ground} {hyps : List Hypothesis} {n : Nat}
  {p : Nat → FVarId → Prop} {L Γ : Locals} {first : Expr} {st : ProofState} {g : Goal} {x : FVarId}
  (hids : ∀ h ∈ hyps, h.fvar.id.toNat < 2 ^ 40) (hdistinct : (hyps.map Hypothesis.fvar).Nodup)
  (hlt : ∀ h ∈ hyps, h.fvar.id.toNat < n) (hgives : Gives L henv.signature hyps)
  (hroom : st.HasRoom n) (hclosed : (st.checkingContext hyps).Closed)

include hids hdistinct hgives hroom in
/-- The first hypotheses keep their types. -/
theorem type_checkingContext_hyp {A : Term} (hA : L.type x = some A) :
    ((st.checkingContext hyps).locals hclosed).type x = some A := by
  obtain ⟨h, hh, rfl⟩ := hgives.isHyp x A hA
  show Option.map _ _ = _
  rw [find?_checkingContext_hyp hroom hids hdistinct hh]
  exact (hgives.type h hh).symm.trans hA

include hids hroom in
/-- Metavariables have their types in terms of the first hypotheses. -/
theorem type_checkingContext_meta (hst : st.Closed) {m : MetaId} {w : Metavariable}
    (hw : st.metas.get? m = some w) : ((st.checkingContext hyps).locals hclosed).type m.toFVar =
      some (w.type.term.subst st.unfolding) := by
  show Option.map _ _ = _
  rw [find?_checkingContext_meta hroom hids hw, ← hst.term_unfoldHyps]
  exact Eq.refl _

include hids hroom in
/-- The first hypotheses and the metavariables are in the context. -/
theorem given_checkingContext (hx : IsHyp hyps x ∨ ∃ m w, st.metas.get? m = some w ∧ x = m.toFVar) :
    Environment.Given (st.checkingContext hyps) ((st.checkingContext hyps).locals hclosed)
      Checker.firstFresh x := by
  refine ⟨⟨?_, fun entry hentry => ?_⟩, ?_⟩
  · rw [Environment.toNat_firstFresh]
    rcases hx with ⟨h, hh, rfl⟩ | ⟨m, w, hw, rfl⟩
    · have := hids h hh
      omega
    · have := toNat_toFVar_of_get? hroom hw
      omega
  · show Option.map _ _ = _
    rw [hentry]
    exact Eq.refl _
  · rw [LocalContext.find?, List.find?_isSome]
    rcases hx with ⟨h, hh, rfl⟩ | ⟨m, w, hw, rfl⟩
    · exact ⟨_, (mem_checkingContext hroom).mpr (.inr ⟨h, hh, Eq.refl _⟩),
        by simp [LocalContext.entryOf]⟩
    · exact ⟨_, (mem_checkingContext hroom).mpr (.inl ⟨m, w, hw, Eq.refl _⟩), by simp⟩

include hroom in
theorem domain_checkingContext {A : Term}
    (hA : ((st.checkingContext hyps).locals hclosed).type x = some A) :
    IsHyp hyps x ∨ ∃ m w, st.metas.get? m = some w ∧ x = m.toFVar := by
  obtain ⟨entry, hentry, rfl⟩ := Option.map_eq_some_iff.mp hA
  have hfvar := LocalContext.fvar_of_find? hentry
  rcases (mem_checkingContext hroom).mp (List.mem_of_find?_eq_some hentry) with
    ⟨m, w, hw, rfl⟩ | ⟨h, hh, rfl⟩
  · exact .inr ⟨m, w, hw, hfvar.symm⟩
  · exact .inl ⟨h, hh, hfvar⟩

include hids hdistinct hgives hroom in
/-- Unfolding leads to the context. -/
theorem substitutes_checkingContext (htyped : st.Typed henv p L first Γ) :
    Substitutes henv.signature st.unfolding Γ [] ((st.checkingContext hyps).locals hclosed) [] :=
  ⟨nofun, fun hA => (htyped.unfolds.free hA).weaken
    fun hA => type_checkingContext_hyp hids hdistinct hgives hroom hclosed hA⟩

include hids hdistinct hgives hroom in
/-- It does so too from terms that mention metavariables. -/
theorem substitutes_withMetas (hlin : Linear n (IsHypOrRewritten hyps n) st) (hst : st.Closed)
    (htyped : st.Typed henv p L first Γ) :
    Substitutes henv.signature st.unfolding (Γ.withMetas st.metas htyped.closed_types) []
      ((st.checkingContext hyps).locals hclosed) [] := by
  constructor
  case bound => exact nofun
  case free =>
    intro x A hA
    by_cases hx : st.metas.Has x
    · have hmetas := hroom.metas
      obtain ⟨m, w, rfl, hw⟩ := hx.exists_get? (by omega)
      obtain rfl : w.type.term = A :=
        Option.some.inj ((Locals.type_withMetas_toFVar hw (by omega)).symm.trans hA)
      have hself : st.unfolding.free m.toFVar = .fvar m.toFVar :=
        congrArg Expr.term (unfoldHyps_eq_self (e := .fvar m.toFVar) hlin hroom
          (.inr (by rw [(toNat_toFVar_of_get? hroom hw).1]; omega)))
      rw [hself]
      exact .fvar (type_checkingContext_meta hids hroom hclosed hst hw)
    · exact (substitutes_checkingContext hids hdistinct hgives hroom hclosed htyped).free
        ((Locals.type_withMetas_of_not_has hx).symm.trans hA)

include hids hdistinct hgives hroom in
/-- The context is one that a checker can begin with. -/
theorem below_checkingContext (hst : st.Closed) (htyped : st.Typed henv p L first Γ) :
    ((st.checkingContext hyps).locals hclosed).Below Checker.firstFresh.toNat := by
  have hkeep : ∀ {x A}, L.type x = some A →
      ((st.checkingContext hyps).locals hclosed).type x = some A :=
    fun hA => type_checkingContext_hyp hids hdistinct hgives hroom hclosed hA
  refine Locals.WellTyped.below (S := henv.signature) (fun {x A} hA => ?_) fun x A hA => ?_
  · rcases domain_checkingContext hroom hclosed hA with ⟨h, hh, rfl⟩ | ⟨m, w, hw, rfl⟩
    · have hlocal := hgives.type h hh
      obtain rfl := Option.some.inj ((hkeep hlocal).symm.trans hA)
      obtain ⟨l, hl⟩ := hgives.wellTyped hlocal
      exact ⟨l, hl.weaken hkeep⟩
    · obtain rfl := Option.some.inj
        ((type_checkingContext_meta hids hroom hclosed hst hw).symm.trans hA)
      exact ⟨.zero, (htyped.types m w hw).subst
        (substitutes_checkingContext hids hdistinct hgives hroom hclosed htyped)⟩
  · exact (given_checkingContext hids hroom hclosed (domain_checkingContext hroom hclosed hA)).1.1

include hids hdistinct hlt hgives hroom hclosed in
/-- The proof so far has the type of the first target in the context. -/
theorem hasType_partialProof (hst : st.Closed) (hp : Numbered n (IsHypOrRewritten hyps n))
    (hlin : Linear n (IsHypOrRewritten hyps n) st)
    (htyped : st.Typed henv (IsHypOrRewritten hyps n) L first Γ) (hscope : first.FVarsIn (IsHyp hyps))
    {t : Expr} (ht : st.partialProof? = some (some t)) :
    HasType henv.signature ((st.checkingContext hyps).locals hclosed) [] t.term first.term := by
  have hplain : st.unfoldHyps first = first :=
    unfoldHyps_eq_self hlin hroom (hscope.mono fun x ⟨h, hh, hx⟩ => .inl (hx ▸ hlt h hh))
  obtain ⟨w, hw, rfl⟩ := htyped.first
  obtain ⟨v, e, hv, he, rfl⟩ := partialProof?_eq_some ht
  have hv : w.value = some v := by
    rw [root?, MetaContext.value?, hw] at hv
    exact hv
  have hmetas : st.metas.metas.length ≤ 2 ^ 40 := by
    have := hroom.metas
    omega
  have hhas : ∀ x A, Γ.type x = some A → ¬ st.metas.Has x :=
    fun x A hA => Linear.not_has hp.toGrowing hroom (htyped.fvars hA)
  -- The value of the first metavariable has its type where all metavariables have theirs.
  have hvalue := htyped.values _ w v hw hv (Γ.withMetas st.metas htyped.closed_types)
    (fun hA => (Locals.type_withMetas_of_not_has (hhas _ _ hA)).trans hA)
    fun m' w' hw' => Locals.type_withMetas_toFVar hw' hmetas
  -- It keeps that type when its holes are filled and the hypotheses are unfolded.
  have hproof := (htyped.instantiate hst hmetas hhas (htyped.types _ w hw) hvalue he).subst
    (substitutes_withMetas hids hdistinct hgives hroom hclosed hlin hst htyped)
  rwa [← hst.term_unfoldHyps, ← hst.term_unfoldHyps, hplain] at hproof

include hids hdistinct hlt hgives hroom in
/-- What a sound proof state has is confirmed. -/
theorem Sound.confirmed (hst : st.Sound henv n (IsHypOrRewritten hyps n) L first [])
    (hp : Numbered n (IsHypOrRewritten hyps n)) (hscope : first.FVarsIn (IsHyp hyps))
    (hscoped : ∀ h ∈ hyps, h.type.Scoped 0) : st.Confirmed env hyps first := by
  obtain ⟨hlin, hstclosed, ⟨Γ, htyped, -⟩, -, -⟩ := hst
  have hclosed := closed_checkingContext hstclosed hroom hscoped
  have hunfolds := substitutes_checkingContext hids hdistinct hgives hroom hclosed htyped
  have hbelow := below_checkingContext hids hdistinct hgives hroom hclosed hstclosed htyped
  have hgiven := fun x => given_checkingContext (x := x) hids hroom hclosed
  -- What is unfolded mentions variables of the context only.
  have hunfolded : ∀ {e : Expr}, e.FVarsIn (IsHypOrRewritten hyps n st.hypValues.length) →
      (st.unfoldHyps e).FVarsIn (Environment.Given (st.checkingContext hyps)
        ((st.checkingContext hyps).locals hclosed) Checker.firstFresh) :=
    fun he => (hlin.fvarsIn_unfoldHyps (he.mono fun x hx => Or.inl (b := False) hx)).mono
      fun x hx => hgiven x (.inl (hx.resolve_right id))
  constructor
  case proof =>
    intro t ht
    have hfvars := (hlin.fvarsIn_partialProof hroom ht).mono fun x hx => hgiven x <|
      hx.imp_right fun ⟨g, hg, hx⟩ => ⟨_, _, hlin.hole g hg, hx⟩
    exact Environment.confirms_of_hasType henv hbelow hfvars
      (hasType_partialProof hids hdistinct hlt hgives hroom hclosed hstclosed hp hlin htyped hscope ht)
  case hyps =>
    intro g hg h hh
    have htype := htyped.unfolds.free (htyped.hyps g hg h hh)
    refine Environment.confirms_of_hasType henv hbelow
      (hunfolded (e := .fvar h.fvar) (hlin.hyps g hg h hh).1) ?_
    rw [hstclosed.term_unfoldHyps h.type]
    exact htype.weaken fun hA => type_checkingContext_hyp hids hdistinct hgives hroom hclosed hA
  case target =>
    intro g hg
    refine Environment.confirms_of_hasType henv hbelow (hunfolded (hlin.target_fvarsIn hg)) ?_
    rw [hstclosed.term_unfoldHyps]
    exact (htyped.types _ _ (hlin.hole g hg)).subst hunfolds
  case inGoal =>
    intro g Γ' hg hΓ' hin
    refine Environment.confirms_of_hasType henv (htyped.below hp hroom) ?_
      (htyped.types _ _ (hlin.hole g hg))
    refine hin.mono ?_
    rintro x ⟨h, hh, rfl⟩
    obtain ⟨hx, htype⟩ := hlin.hyps g hg h hh
    refine ⟨htyped.known hp hroom hlin hg hΓ' hx, ?_⟩
    -- The types of hypotheses have no holes, so the context of the goal has them as they are.
    have hinst : st.metas.instantiate? h.type = some h.type :=
      MetaContext.instantiateUpTo_eq_self (htype.mono fun x hx =>
        MetaContext.valueOf?_eq_none_of_not_has (Linear.not_has hp.toGrowing hroom hx))
    rw [LocalContext.find?, List.find?_isSome]
    exact ⟨_, mem_localContext_of_mem_hyps hΓ' hh hinst, by simp⟩

end

end ProofState

open ProofState in
/-- After a run of verified calls a checker confirms the proof so far, and the
hypotheses and the target of the goal that is left. -/
theorem confirmed_of_run {env : Environment} {target : Expr} {hyps : List Hypothesis}
    {st : ProofState} (hdeclared : env.DeclaredWithin) (hprelude : env.ExtendsPrelude)
    (hfree : env.FVarFree) (hparams : env.OwnParams) (hbegins : BeginsTyped env target hyps)
    (hrun : (start env target hyps).Run (fun st c => c.RulesIn (IsHyp hyps) ∧ c.Verified st) st)
    (hroom : st.HasRoom (start env target hyps).nextFVar.toNat) : st.Confirmed env hyps target := by
  have henv : env.Ground := ⟨hprelude.checked.closed, hfree⟩
  have hp := numbered_isHypOrRewritten env target hbegins.ids
  obtain ⟨L, hstart, hgives, hscoped⟩ := hbegins.sound henv
  have hallowed : (start env target hyps).Run (fun st c => c.RulesIn
      (IsHypOrRewritten hyps (start env target hyps).nextFVar.toNat 0) ∧ c.Verified st) st :=
    hrun.mono fun st c hc => ⟨hc.1.mono fun x => .inl, hc.2⟩
  have hst := hstart.run (hdeclared.wellTyped henv hparams hprelude) hprelude hp hallowed hroom
  exact hst.confirmed hbegins.ids hbegins.distinct
    (fun h hh => lt_nextFVar_start hh (hbegins.ids h hh)) hgives hroom hp hbegins.scope hscoped

/-! ### A target that is rewritten -/

namespace Environment

theorem declaredWithin_prelude : DeclaredWithin ⟨Prelude.constants⟩ := by
  have hdeclare : empty.declareAll 50 Prelude.constants = some (⟨Prelude.constants⟩, .ok ()) := by
    rfl
  exact .of_declareAll .empty hdeclare (forall_append_cons_of_take (by decide +kernel))

theorem ownParams_prelude : OwnParams ⟨Prelude.constants⟩ := by
  have h : ∀ c ∈ Prelude.constants, c.type.paramsIn c.levelParams ∧ c.value = none := by decide
  intro c hc
  obtain ⟨htype, hvalue⟩ := h c hc
  refine ⟨htype, fun v hv => ?_⟩
  rw [hvalue] at hv
  cases hv

end Environment

namespace Confirmation

open PartialProofs (nat hyps target)

/-- A proof of an equation between numbers, two equations being given. -/
def start : ProofState := .start ⟨Prelude.constants⟩ target hyps

def goal : Goal := ⟨⟨0⟩, target, hyps⟩

/-- The left side of the target is rewritten with the second equation. -/
def call : Call := .rewrite 20 none 0 [.ofText "k"] .goal ⟨false, none⟩

/-- The second equation as a rule. -/
def rule : Rule where
  proof := .fvar ⟨4⟩
  varTypes := []
  statement := ⟨.eq, .one, nat, .fvar ⟨2⟩, .fvar ⟨0⟩⟩
  reversed := false
  source := "k"

def checker : Checker := ⟨⟨Prelude.constants⟩, (start.localContext? goal).getD .empty, 20⟩

/-- Where the left side is. -/
def found : Match := ⟨[.appFn, .appArg], .fvar ⟨2⟩, []⟩

/-- What the target states of a number. -/
def states (n : Expr) : Expr := .mkEq .one nat n (.fvar ⟨1⟩)

/-- The equation between the old and the new target. -/
def equation : Equation where
  level := .one
  carrier := .prop
  lhs := target
  rhs := states (.fvar ⟨0⟩)
  proof := .mkApp (.const Vocabulary.congrArg [.one, .one])
    [nat, .prop, .fvar ⟨2⟩, .fvar ⟨0⟩, .lam .default nat (states (.bvar 0)), .fvar ⟨4⟩]

theorem beginsTyped : ProofState.BeginsTyped ⟨Prelude.constants⟩ target hyps where
  ids := by decide
  distinct := by decide
  checked := .of_take 20 (fun i => if i < 3 then .one else .zero) (by decide +kernel)
  scope := by decide
  accepted := ⟨20, by decide +kernel⟩

/-- What the rewrite elaborates, finds and makes. -/
theorem computed :
    (start.elaborateRules 20 goal [.ofText "k"]).run = some (.ok [rule]) ∧
    (start.statementAt .goal).run = some (.ok target) ∧
    (findAll checker none [rule] target).runFresh = some [(0, found)] ∧
    (Scope.whole target).evaluate start.env rule found = .ok equation := by
  decide +kernel

theorem mainChecker_eq : (start.mainChecker 20).run = some (.ok checker) := by rfl

/-- The motive of the rewrite is accepted. -/
theorem verified : call.Verified start := by
  obtain ⟨helaborated, hstatement, hfindAll, hevaluate⟩ := computed
  intro g rules hg helab
  obtain rfl : goal = g := Option.some.inj hg
  obtain rfl := Except.ok.inj (Option.some.inj (helaborated.symm.trans helab))
  refine ⟨fun r hr checker' hchecker => ?_, ?_, nofun⟩
  · obtain rfl := List.mem_singleton.mp hr
    obtain rfl : checker = checker' := Option.some.inj hchecker
    decide +kernel
  · intro st₁ site target' scope r m eq₀ eq checker' htries hmakes hchecker
    cases htries with
    | single hsite =>
      obtain rfl := ProofState.resolve_goal hsite
      obtain ⟨⟨htarget, hscope, checker₁, found, i, hchecker₁, hfound, hi, hr⟩, heval, -, -⟩ := hmakes
      -- each step of the search has one result
      obtain rfl := Except.ok.inj (Option.some.inj (hstatement.symm.trans htarget))
      obtain rfl : Scope.whole target = scope := Except.ok.inj hscope
      obtain rfl := Except.ok.inj (Option.some.inj (mainChecker_eq.symm.trans hchecker))
      obtain rfl := Except.ok.inj (Option.some.inj (mainChecker_eq.symm.trans hchecker₁))
      obtain rfl := Option.some.inj (hfindAll.symm.trans hfound)
      obtain ⟨rfl, rfl⟩ := Prod.mk.inj (Option.some.inj hi)
      obtain rfl := Option.some.inj hr
      obtain rfl := Except.ok.inj (hevaluate.symm.trans heval)
      refine ⟨⟨by decide, by decide +kernel, by decide +kernel, by decide, by decide⟩,
        fun body _ hbody => ⟨20, ?_⟩⟩
      obtain rfl : states (.bvar 0) = body := Option.some.inj hbody
      decide +kernel

end Confirmation

open Confirmation in
open PartialProofs (hyps target) in
/-- The proof of the target from that with its left side rewritten is confirmed. -/
theorem confirmed_of_rewritten_target : ∃ st,
    (nthRewrite 20 none 0 [.ofText "k"] .goal ⟨false, none⟩).answer start =
      some (.ok ⟨[.goal], []⟩, st) ∧
    st.currentGoal?.map Goal.target = some (states (.fvar ⟨0⟩)) ∧
    st.Confirmed ⟨Prelude.constants⟩ hyps target := by
  obtain ⟨st, hst, hfacts⟩ : ∃ st,
      (nthRewrite 20 none 0 [.ofText "k"] .goal ⟨false, none⟩).answer start =
        some (.ok ⟨[.goal], []⟩, st) ∧
      (st.currentGoal?.map Goal.target, st.hypValues.length, st.metas.metas.length) =
        (some (states (.fvar ⟨0⟩)), 0, 2) :=
    ChangeM.answer_eq_ok (by decide +kernel)
  obtain ⟨htarget, hlengths⟩ := Prod.mk.inj hfacts
  obtain ⟨hvalues, hmetas⟩ := Prod.mk.inj hlengths
  have hrules : call.RulesIn (IsHyp hyps) := by
    simp [call, Call.RulesIn, RuleSpec.FVarsIn, RuleSpec.ofText]
  refine ⟨st, hst, htarget, confirmed_of_run Environment.declaredWithin_prelude
    Environment.extendsPrelude_prelude Environment.fvarFree_prelude Environment.ownParams_prelude
    beginsTyped (.cons ⟨hrules, verified⟩ (.rewrite hst) (.nil st)) ?_⟩
  exact ⟨by rw [hvalues]; decide, by rw [hmetas]; decide⟩

/-! ### A target whose motive has no type -/

namespace DependentTarget

open PartialProofs (nat)

def a : Expr := .const (.simple "a") []

def b : Expr := .const (.simple "b") []

/-- Types that depend on numbers. -/
def family (n : Expr) : Expr := .app (.const (.simple "T") []) n

/-- These types, a statement about their elements, two numbers, and an element of
the type for the first of them. -/
def constants : List Constant :=
  [⟨.simple "T", [], .arrow nat (.sort .one), none⟩,
    ⟨.simple "Q", [], .pi .default nat (.pi .default (family (.bvar 0)) .prop), none⟩,
    ⟨.simple "a", [], nat, none⟩, ⟨.simple "b", [], nat, none⟩,
    ⟨.simple "x", [], family a, none⟩]

def environment : Environment := ⟨Prelude.constants ++ constants⟩

/-- The numbers are equal. -/
def hyps : List Hypothesis := [⟨⟨0⟩, "h", .mkEq .one nat a b, none⟩]

/-- The statement about the element, with a number for the one that its type
depends on. -/
def states (n : Expr) : Expr := .mkApp (.const (.simple "Q") []) [n, .const (.simple "x") []]

/-- The number is rewritten. -/
def rewritten : Option (Except RewriteError RewriteOutcome × ProofState) :=
  (nthRewrite 20 none 0 [.ofText "h"] .goal ⟨false, none⟩).answer
    (.start environment (states a) hyps)

/-- The element is not of the type for the second number. -/
def mismatch : CheckError := .typeMismatch (family b) (family a)

theorem beginsTyped : ProofState.BeginsTyped environment (states a) hyps where
  ids := by decide
  distinct := by decide
  checked := .of_take 20 (fun _ => .zero) (by decide +kernel)
  scope := by decide
  accepted := ⟨20, by decide +kernel⟩

end DependentTarget

open DependentTarget in
/-- A number that the type of another part depends on is rewritten, although the
motive has no type: the new target is no proposition, and the proof is none of the
first target. -/
theorem mismatch_of_dependent_target : environment.ExtendsPrelude ∧
    ProofState.BeginsTyped environment (states a) hyps ∧
    ∃ st g t, rewritten = some (.ok ⟨[.goal], []⟩, st) ∧
      st.currentGoal? = some g ∧ g.target = states b ∧
      st.inferType 20 g g.target = some (.error mismatch) ∧
      st.partialProof? = some (some t) ∧
      ((Checker.mk environment (st.checkingContext hyps) 20).inferType t).runFresh =
        some (.error mismatch) := by
  have hdeclared : Environment.declareAll ⟨Prelude.constants⟩ 50 constants =
      some (environment, .ok ()) := by
    rfl
  refine ⟨Environment.of_declareAll .declare Environment.extendsPrelude_prelude hdeclared,
    beginsTyped, ?_⟩
  obtain ⟨st, hst, h⟩ : ∃ st, rewritten = some (.ok ⟨[.goal], []⟩, st) ∧
      decide (∃ g ∈ st.currentGoal?, ∃ t ∈ st.partialProof?.join, g.target = states b ∧
        st.inferType 20 g g.target = some (.error mismatch) ∧
        ((Checker.mk environment (st.checkingContext hyps) 20).inferType t).runFresh =
          some (.error mismatch)) = true :=
    ChangeM.answer_eq_ok (by decide +kernel)
  obtain ⟨g, hg, t, ht, htarget, hinfer, hproof⟩ := of_decide_eq_true h
  exact ⟨st, g, t, hst, hg, htarget, hinfer, Option.join_eq_some_iff.mp ht, hproof⟩

end Pinpoint
