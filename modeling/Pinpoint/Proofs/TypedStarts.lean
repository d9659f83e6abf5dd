/-
Proofs that begin with checked hypotheses.

A checker has accepted the types of the hypotheses, each among those before it,
and the target among all of them.  So the hypotheses are well typed, and a proof
begins soundly.

* `LocalContext.locals` — the types of the variables of a context;
* `BeginsTyped` — a checker has accepted the hypotheses and the target;
* `wellTyped_ofHyps` — such hypotheses are well typed;
* `BeginsTyped.sound` — what is known of a proof that begins with them.
-/
import Mathlib.Data.List.Nodup
import Pinpoint.Proofs.Locality
import Pinpoint.Proofs.PartialProofs
import Pinpoint.Proofs.TypedChanges

namespace Pinpoint

/-! ### Contexts -/

theorem Locals.eq_of_type {Γ Γ' : Locals} (h : ∀ x, Γ.type x = Γ'.type x) : Γ = Γ' := by
  obtain ⟨_, _⟩ := Γ
  obtain ⟨_, _⟩ := Γ'
  obtain rfl := funext h
  rfl

/-- Well-typed variables that come before a number do so together with those that
their types mention. -/
theorem Locals.WellTyped.below {S : Signature} {Γ : Locals} {k : Nat} (hΓ : Γ.WellTyped S)
    (hlt : ∀ x A, Γ.type x = some A → x.id.toNat < k) : Γ.Below k := by
  intro x A hA
  obtain ⟨l, hl⟩ := hΓ hA
  refine ⟨hlt x A hA, hl.uses.mono (Nat.le_refl 0) fun y hy => ?_⟩
  obtain ⟨B, hB⟩ := Option.isSome_iff_exists.mp hy
  exact hlt y B hB

namespace LocalContext

/-- The types of the variables of a context. -/
def locals (Γ : LocalContext) (h : Γ.Closed) : Locals where
  type x := (Γ.find? x).map fun entry => entry.type.term
  closed hA := by
    obtain ⟨entry, hentry, rfl⟩ := Option.map_eq_some_iff.mp hA
    exact Expr.closed_term (h.find? hentry)

variable {Γ : LocalContext} {entry : LocalEntry} {x : FVarId}

theorem fvar_of_find? (h : Γ.find? x = some entry) : entry.fvar = x := by
  simpa using List.find?_some h

/-- An entry is found that is the only one for its variable. -/
theorem find?_of_unique (hentry : entry ∈ Γ.entries) (hx : entry.fvar = x)
    (hunique : ∀ entry' ∈ Γ.entries, entry'.fvar = x → entry' = entry) :
    Γ.find? x = some entry := by
  cases hfind : Γ.find? x with
  | none => exact absurd (by simpa using hx) (List.find?_eq_none.mp hfind entry hentry)
  | some entry' =>
    rw [hunique entry' (List.mem_of_find?_eq_some hfind) (fvar_of_find? hfind)]

end LocalContext

namespace ProofState

/-! ### Where a proof begins -/

/-- Whether a checker has accepted the types of hypotheses, each among the
hypotheses before it, within the widths of the machine. -/
def HypsChecked (env : Environment) (hyps : List Hypothesis) : Prop :=
  ∀ before h after, hyps = before ++ h :: after → h.type.FVarsIn (IsHyp before) ∧
    ∃ fuel l, (Checker.mk env (.ofHyps before) fuel).InfersWithin h.type ∧
      ((Checker.mk env (.ofHyps before) fuel).ensureSort h.type).runFresh = some (.ok l) ∧
      ((Checker.mk env (.ofHyps before) fuel).inferType h.type).resultPasses Checker.firstFresh
        fun T _ => env.whnfWithin .all fuel T

/-- Each hypothesis is checked in turn. -/
theorem HypsChecked.of_take {env : Environment} {hyps : List Hypothesis} (fuel : Nat)
    (l : Nat → Level)
    (h : ∀ i (hi : i < hyps.length), hyps[i].type.FVarsIn (IsHyp (hyps.take i)) ∧
      (Checker.mk env (.ofHyps (hyps.take i)) fuel).InfersWithin hyps[i].type ∧
      ((Checker.mk env (.ofHyps (hyps.take i)) fuel).ensureSort hyps[i].type).runFresh =
        some (.ok (l i)) ∧
      ((Checker.mk env (.ofHyps (hyps.take i)) fuel).inferType hyps[i].type).resultPasses
        Checker.firstFresh fun T _ => env.whnfWithin .all fuel T) : HypsChecked env hyps := by
  refine forall_append_cons_of_take fun i hi => ?_
  obtain ⟨hfvars, hinfers, hsort, hwhnf⟩ := h i hi
  exact ⟨hfvars, fuel, _, hinfers, hsort, hwhnf⟩

/-- Whether a proof begins with hypotheses that have different variables, below
those of the metavariables, and have been accepted, and with a target that has been
accepted as a proposition. -/
structure BeginsTyped (env : Environment) (target : Expr) (hyps : List Hypothesis) : Prop where
  ids : ∀ h ∈ hyps, h.fvar.id.toNat < 2 ^ 40
  distinct : (hyps.map Hypothesis.fvar).Nodup
  checked : HypsChecked env hyps
  scope : target.FVarsIn (IsHyp hyps)
  accepted : ∃ fuel, (Checker.mk env (.ofHyps hyps) fuel).AcceptsWithin target .prop

section
variable {env : Environment} {hyps : List Hypothesis} {h : Hypothesis}

theorem type_locals_ofHyps (hdistinct : (hyps.map Hypothesis.fvar).Nodup)
    (hclosed : (LocalContext.ofHyps hyps).Closed) (hh : h ∈ hyps) :
    ((LocalContext.ofHyps hyps).locals hclosed).type h.fvar = some h.type.term := by
  have hfind := LocalContext.find?_ofHyps hdistinct hh
  exact congrArg (Option.map fun entry => entry.type.term) hfind

theorem known_ofHyps (hids : ∀ h ∈ hyps, h.fvar.id.toNat < 2 ^ 40)
    (hclosed : (LocalContext.ofHyps hyps).Closed) {x : FVarId} (hx : IsHyp hyps x) :
    Environment.Known (.ofHyps hyps) ((LocalContext.ofHyps hyps).locals hclosed)
      Checker.firstFresh x := by
  obtain ⟨h, hh, rfl⟩ := hx
  have := hids h hh
  refine ⟨?_, fun entry hentry => ?_⟩
  · rw [Environment.toNat_firstFresh]
    omega
  · show Option.map _ _ = _
    rw [hentry]
    exact Eq.refl _

theorem below_ofHyps {S : Signature} (hids : ∀ h ∈ hyps, h.fvar.id.toNat < 2 ^ 40)
    (hclosed : (LocalContext.ofHyps hyps).Closed)
    (hwell : ((LocalContext.ofHyps hyps).locals hclosed).WellTyped S) :
    ((LocalContext.ofHyps hyps).locals hclosed).Below Checker.firstFresh.toNat := by
  refine Locals.WellTyped.below hwell fun x A hA => ?_
  obtain ⟨entry, hentry, -⟩ := Option.map_eq_some_iff.mp hA
  obtain ⟨h, hh, rfl⟩ := LocalContext.mem_ofHyps.mp (List.mem_of_find?_eq_some hentry)
  have hx : h.fvar = x := LocalContext.fvar_of_find? hentry
  have := hids h hh
  rw [← hx, Environment.toNat_firstFresh]
  omega

/-- The last hypothesis has a variable of its own. -/
theorem type_locals_ofHyps_eq_none (hdistinct : ((hyps ++ [h]).map Hypothesis.fvar).Nodup)
    (hclosed : (LocalContext.ofHyps hyps).Closed) :
    ((LocalContext.ofHyps hyps).locals hclosed).type h.fvar = none := by
  rw [List.map_append, List.nodup_append] at hdistinct
  refine Option.map_eq_none_iff.mpr (List.find?_eq_none.mpr fun entry hentry => ?_)
  obtain ⟨h', hh', rfl⟩ := LocalContext.mem_ofHyps.mp hentry
  have hne := hdistinct.2.2 _ (List.mem_map_of_mem hh') _ (List.mem_singleton.mpr (Eq.refl _))
  exact fun heq => hne (of_decide_eq_true heq)

theorem locals_ofHyps_snoc (hclosed : (LocalContext.ofHyps hyps).Closed)
    (hclosed' : (LocalContext.ofHyps (hyps ++ [h])).Closed) (htype : h.type.term.Closed) :
    (LocalContext.ofHyps (hyps ++ [h])).locals hclosed' =
      ((LocalContext.ofHyps hyps).locals hclosed).insert h.fvar h.type.term htype := by
  refine Locals.eq_of_type fun x => ?_
  show Option.map _ ((LocalContext.ofHyps (hyps ++ [h])).find? x) = _
  rw [LocalContext.ofHyps_snoc, LocalContext.find?_push]
  by_cases hx : x = h.fvar
  · rw [if_pos hx.symm, hx, Locals.type_insert_self]
    exact Eq.refl _
  · rw [if_neg (Ne.symm hx), Locals.type_insert_of_ne _ hx]
    exact Eq.refl _

/-- Accepted hypotheses are well typed. -/
theorem wellTyped_ofHyps (henv : env.Ground) (hids : ∀ h ∈ hyps, h.fvar.id.toNat < 2 ^ 40)
    (hdistinct : (hyps.map Hypothesis.fvar).Nodup) (hhyps : HypsChecked env hyps) :
    ∃ hclosed : (LocalContext.ofHyps hyps).Closed,
      ((LocalContext.ofHyps hyps).locals hclosed).WellTyped henv.signature := by
  induction hyps using List.reverseRecOn with
  | nil =>
    refine ⟨nofun, fun hA => ?_⟩
    cases hA
  | append_singleton hyps h ih =>
    have hids : ∀ h ∈ hyps, h.fvar.id.toNat < 2 ^ 40 :=
      fun h hh => hids h (List.mem_append_left _ hh)
    have hearlier : (hyps.map Hypothesis.fvar).Nodup := by
      rw [List.map_append, List.nodup_append] at hdistinct
      exact hdistinct.1
    obtain ⟨hclosed, hwell⟩ := ih hids hearlier fun before h' after heq =>
      hhyps before h' (after ++ [h]) (by rw [heq, List.append_assoc]; exact Eq.refl _)
    -- The checker finds a universe for the type of the last hypothesis among the others.
    obtain ⟨hfvars, fuel, l, hinfers, hsort, hwhnf⟩ := hhyps hyps h [] (Eq.refl _)
    obtain ⟨s, hsort⟩ := CheckM.runFresh_eq_ok.mp hsort
    obtain ⟨T, t, hT, hl⟩ := CheckM.returns_bind.mp hsort
    obtain ⟨hl, -⟩ := Environment.sortOfType_returns_iff.mp hl
    have htype := (hasType_of_infersWithin henv hinfers (below_ofHyps hids hclosed hwell)
      (hfvars.mono fun x => known_ofHyps hids hclosed) hT).1.conv
        (.of_reduct (Environment.whnf_reduct henv hl (hT.passes hwhnf)).1)
    have hclosed' : (LocalContext.ofHyps (hyps ++ [h])).Closed := by
      rw [LocalContext.ofHyps_snoc]
      exact hclosed.push _ _ (Environment.scoped_of_inferType hT)
    refine ⟨hclosed', ?_⟩
    have hnone := type_locals_ofHyps_eq_none hdistinct hclosed
    rw [locals_ofHyps_snoc hclosed hclosed' htype.closed]
    intro x A hA
    exact Locals.WellTyped.insert hwell hnone htype hA

/-- Whether the variables of hypotheses, and no others, are given their types. -/
structure Gives (L : Locals) (S : Signature) (hyps : List Hypothesis) : Prop where
  wellTyped : L.WellTyped S
  isHyp : ∀ x A, L.type x = some A → IsHyp hyps x
  type : ∀ h ∈ hyps, L.type h.fvar = some h.type.term

/-- The variables of hypotheses and rewritten hypotheses are numbered. -/
theorem numbered_isHypOrRewritten (env : Environment) (target : Expr)
    (hids : ∀ h ∈ hyps, h.fvar.id.toNat < 2 ^ 40) :
    Numbered (start env target hyps).nextFVar.toNat
      (IsHypOrRewritten hyps (start env target hyps).nextFVar.toNat) where
  toGrowing := growing_isHypOrRewritten (fun h hh => .inl (hids h hh)) _
  below := by
    rintro k x (⟨h, hh, rfl⟩ | ⟨-, hlt⟩)
    · exact Nat.lt_add_right k (lt_nextFVar_start hh (hids h hh))
    · exact hlt

/-- A proof state is typed at its start, in the context of its hypotheses. -/
theorem typed_start {henv : env.Ground} {target : Expr} {p : Nat → FVarId → Prop} {L : Locals}
    (hwell : L.WellTyped henv.signature) (hfvars : ∀ {x A}, L.type x = some A → p 0 x)
    (hhyps : ∀ h ∈ hyps, L.type h.fvar = some h.type.term)
    (htarget : HasType henv.signature L [] target.term (.sort .zero)) :
    (start env target hyps).Typed henv p L target L := by
  have hget : ∀ {m w}, (start env target hyps).metas.get? m = some w → w = ⟨target, none⟩ :=
    fun hw => List.mem_singleton.mp (List.mem_of_getElem? hw)
  constructor
  case env_eq => exact Eq.refl _
  case wellTyped => exact hwell
  case fvars => exact hfvars
  case unfolds =>
    -- No hypothesis has been rewritten yet, so unfolding changes nothing.
    have hid : (start env target hyps).unfolding = Subst.id := Eq.refl _
    constructor
    case bound => exact nofun
    case free =>
      intro x A hA
      rw [hid, Term.subst_id]
      exact .fvar hA
  case hyps =>
    intro g hg
    obtain rfl := Option.some.inj hg
    exact hhyps
  case first => exact ⟨_, Eq.refl _, Eq.refl _⟩
  case types =>
    intro m w hw
    obtain rfl := hget hw
    exact htarget
  case values =>
    intro m w v hw hv
    obtain rfl := hget hw
    cases hv

/-- A proof that begins with accepted hypotheses and an accepted target is sound. -/
theorem BeginsTyped.sound {target : Expr} (h : BeginsTyped env target hyps) (henv : env.Ground) :
    ∃ L, (start env target hyps).Sound henv (start env target hyps).nextFVar.toNat
        (IsHypOrRewritten hyps (start env target hyps).nextFVar.toNat) L target [] ∧
      Gives L henv.signature hyps ∧ ∀ h ∈ hyps, h.type.Scoped 0 := by
  obtain ⟨hclosed, hwell⟩ := wellTyped_ofHyps henv h.ids h.distinct h.checked
  have hbelow := below_ofHyps h.ids hclosed hwell
  obtain ⟨fuel, haccepts⟩ := h.accepted
  -- The accepted target has a type, and so it is closed.
  have htarget := (hasType_of_acceptsWithin henv haccepts hbelow
    (h.scope.mono fun x => known_ofHyps h.ids hclosed)).1
  have hscoped : target.Scoped 0 := by
    obtain ⟨T, hT, -⟩ := haccepts.accepts
    obtain ⟨s, hT⟩ := CheckM.runFresh_eq_ok.mp hT
    exact Environment.scoped_of_inferType hT
  -- The context holds the hypotheses, and nothing else.
  have htypes : ∀ h ∈ hyps, ((LocalContext.ofHyps hyps).locals hclosed).type h.fvar =
      some h.type.term := fun h' => type_locals_ofHyps h.distinct hclosed
  have hdomain : ∀ x A, ((LocalContext.ofHyps hyps).locals hclosed).type x = some A →
      IsHyp hyps x := by
    intro x A hA
    obtain ⟨entry, hentry, -⟩ := Option.map_eq_some_iff.mp hA
    obtain ⟨h', hh', rfl⟩ := LocalContext.mem_ofHyps.mp (List.mem_of_find?_eq_some hentry)
    exact ⟨h', hh', LocalContext.fvar_of_find? hentry⟩
  -- A hypothesis mentions earlier ones only, which are hypotheses.
  have hearlier : ∀ h' ∈ hyps, h'.type.Scoped 0 ∧ h'.type.FVarsIn (IsHyp hyps) := by
    intro h' hh'
    obtain ⟨before, after, heq⟩ := List.append_of_mem hh'
    refine ⟨hclosed _ (LocalContext.mem_ofHyps.mpr ⟨h', hh', Eq.refl _⟩),
      (h.checked before h' after heq).1.mono ?_⟩
    rintro x ⟨h'', hh'', rfl⟩
    exact ⟨h'', heq ▸ List.mem_append_left _ hh'', Eq.refl _⟩
  refine ⟨(LocalContext.ofHyps hyps).locals hclosed,
    ⟨?_, ?_, ⟨(LocalContext.ofHyps hyps).locals hclosed, ?_, nofun⟩, nofun, nofun⟩,
    ⟨hwell, hdomain, htypes⟩, fun h' hh' => (hearlier h' hh').1⟩
  · exact .start henv.fvarFree.fvarsIn (h.scope.mono fun _ => .inl)
      fun h' hh' => ⟨.inl ⟨h', hh', Eq.refl _⟩, (hearlier h' hh').2.mono fun _ => .inl⟩
  · exact .start henv.closed hscoped fun h' hh' => (hearlier h' hh').1
  · exact typed_start hwell (fun hA => .inl (hdomain _ _ hA)) htypes htarget

end

end ProofState

end Pinpoint
