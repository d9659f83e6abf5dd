/-
Well-typed environments.

A constant is checked when it is declared, among the constants before it.  Its
type and its value keep their types when more constants are declared, and when
its universe parameters are replaced, if no constant mentions parameters that
are not its own.

* `Environment.DeclaredWithin` — environments whose constants were checked
  within the widths of the machine;
* `DeclaredWithin.constants` — every constant has the type and the value that
  it says;
* `DeclaredWithin.wellTyped` — so it has at all levels.
-/
import Pinpoint.Proofs.Prelude
import Pinpoint.Proofs.TypedInference

namespace Pinpoint

/-! ### Universe parameters -/

/-- Whether the parameters of a level are among the given ones. -/
def Level.paramsIn (ps : List Name) : Level → Bool
  | .zero => true
  | .succ l => l.paramsIn ps
  | .max a b | .imax a b => a.paramsIn ps && b.paramsIn ps
  | .param p => decide (p ∈ ps)

/-- Whether the universe parameters of a term are among the given ones. -/
def Expr.paramsIn (ps : List Name) : Expr → Bool
  | .sort l => l.paramsIn ps
  | .const _ ls => ls.all (Level.paramsIn ps)
  | .app f a => f.paramsIn ps && a.paramsIn ps
  | .lam _ t b | .pi _ t b => t.paramsIn ps && b.paramsIn ps
  | .letE t v b => t.paramsIn ps && v.paramsIn ps && b.paramsIn ps
  | .mdata _ e => e.paramsIn ps
  | _ => true

section
variable {ps : List Name} {ls : List Level} {s : List (Name × Level)} {l : Level} {e : Expr}

/-- Levels put for parameters one after the other are put for them at once. -/
theorem Level.instantiate_zip (hlen : ls.length = ps.length) (hl : l.paramsIn ps) :
    (l.instantiate (ps.zip ls)).instantiate s = l.instantiate (ps.zip (ls.map (instantiate s))) := by
  induction l with
  | zero => rfl
  | succ l ih => exact congrArg Level.succ (ih hl)
  | max a b iha ihb =>
    rw [paramsIn, Bool.and_eq_true] at hl
    exact congrArg₂ Level.max (iha hl.1) (ihb hl.2)
  | imax a b iha ihb =>
    rw [paramsIn, Bool.and_eq_true] at hl
    exact congrArg₂ Level.imax (iha hl.1) (ihb hl.2)
  | param p =>
    have hp : p ∈ ps := of_decide_eq_true hl
    clear hl
    simp only [instantiate]
    induction ps generalizing ls with
    | nil => cases hp
    | cons q ps ih =>
      obtain _ | ⟨k, ls⟩ := ls
      · cases hlen
      · simp only [List.zip_cons_cons, List.map_cons, List.lookup_cons]
        by_cases hpq : p = q
        · simp [hpq]
        · simp only [beq_eq_false_iff_ne.mpr hpq]
          exact ih (Nat.succ.inj hlen) ((List.mem_cons.mp hp).resolve_left hpq)

theorem Expr.instantiateLevels_zip (hlen : ls.length = ps.length) (he : e.paramsIn ps) :
    (e.instantiateLevels (ps.zip ls)).instantiateLevels s =
      e.instantiateLevels (ps.zip (ls.map (Level.instantiate s))) := by
  induction e with
  | sort l => exact congrArg Expr.sort (Level.instantiate_zip hlen he)
  | const n ks =>
    simp only [instantiateLevels, List.map_map, const.injEq, true_and]
    exact List.map_congr_left fun l hl => Level.instantiate_zip hlen (List.all_eq_true.mp he l hl)
  | app f a ihf iha =>
    rw [paramsIn, Bool.and_eq_true] at he
    exact congrArg₂ Expr.app (ihf he.1) (iha he.2)
  | lam i t b iht ihb =>
    rw [paramsIn, Bool.and_eq_true] at he
    exact congrArg₂ (Expr.lam i) (iht he.1) (ihb he.2)
  | pi i t b iht ihb =>
    rw [paramsIn, Bool.and_eq_true] at he
    exact congrArg₂ (Expr.pi i) (iht he.1) (ihb he.2)
  | letE t v b iht ihv ihb =>
    rw [paramsIn, Bool.and_eq_true, Bool.and_eq_true] at he
    simp only [instantiateLevels, iht he.1.1, ihv he.1.2, ihb he.2]
  | mdata m e ih => exact congrArg (Expr.mdata m) (ih he)
  | _ => rfl

theorem Term.instLevels_zip (hlen : ls.length = ps.length) (he : e.paramsIn ps) :
    (e.term.instLevels (ps.zip ls)).instLevels s =
      e.term.instLevels (ps.zip (ls.map fun l => (l.instantiate s).simplify)) := by
  rw [← Expr.term_instantiateLevels, ← Expr.term_instantiateLevels,
    Expr.instantiateLevels_zip hlen he, Expr.term_instantiateLevels,
    ← Environment.instLevels_zip_simplify, List.map_map]
  rfl

end

namespace Environment

/-- Whether the types and the values of constants mention only universe
parameters of their own. -/
def OwnParams (env : Environment) : Prop :=
  ∀ c ∈ env.constants, c.type.paramsIn c.levelParams ∧
    ∀ v, c.value = some v → v.paramsIn c.levelParams

variable {env env' : Environment} {fuel : Nat} {c : Constant}

/-- A use of a constant can have its levels replaced. -/
theorem OwnParams.polymorphic (h : env.OwnParams) (henv : env.Ground) :
    henv.signature.Polymorphic where
  type := by
    intro n ls T s hT
    obtain ⟨info, hinfo, hlen, rfl⟩ := typeTerm?_eq_some.mp hT
    refine typeTerm?_eq_some.mpr ⟨info, hinfo, by rwa [List.length_map], ?_⟩
    exact (Term.instLevels_zip hlen (h info (List.mem_of_find?_eq_some hinfo)).1).symm
  value := by
    intro n ls v s hv
    obtain ⟨info, w, hinfo, hlen, hw, rfl⟩ := valueTerm?_eq_some.mp hv
    refine valueTerm?_eq_some.mpr ⟨info, w, hinfo, by rwa [List.length_map], hw, ?_⟩
    exact (Term.instLevels_zip hlen ((h info (List.mem_of_find?_eq_some hinfo)).2 w hw)).symm

/-! ### Declarations -/

/-- Whether the check of a constant comes across narrow terms only, and the
range of the checker lasts for it. -/
def constantWithin (env : Environment) (fuel : Nat) (c : Constant) : Bool :=
  decide (Checker.firstFresh.toNat + c.type.openings fuel +
    (c.value.map (Expr.openings fuel)).getD 0 < 2 ^ 64) &&
  env.inferTypeWithin fuel .empty c.type Checker.firstFresh &&
  (env.inferType fuel .empty c.type).resultPasses Checker.firstFresh fun T s =>
    env.whnfWithin .all fuel T && c.value.all fun v =>
      env.inferTypeWithin fuel .empty v s && (env.inferType fuel .empty v).resultPasses s
        fun V _ => env.isDefEqWithin .all fuel V c.type

/-- Environments in which every constant was checked when it was declared, and
the checks came across narrow terms only. -/
inductive DeclaredWithin : Environment → Prop
  | empty : DeclaredWithin .empty
  | declare {env env' : Environment} {fuel : Nat} {c : Constant} : DeclaredWithin env →
    env.declare fuel c = some (.ok env') → env.constantWithin fuel c → DeclaredWithin env'

theorem DeclaredWithin.checked (h : env.DeclaredWithin) : env.Checked := by
  induction h with
  | empty => exact .empty
  | declare _ hdeclare _ ih => exact .declare ih hdeclare

/-- Constants that are declared in order, each within the widths. -/
theorem DeclaredWithin.of_declareAll {cs : List Constant} (h : env.DeclaredWithin)
    (hdeclare : env.declareAll fuel cs = some (env', .ok ()))
    (hwithin : ∀ before c after, cs = before ++ c :: after →
      constantWithin ⟨env.constants ++ before⟩ fuel c) : env'.DeclaredWithin := by
  induction cs generalizing env with
  | nil =>
    obtain rfl : env = env' := by simpa [declareAll] using hdeclare
    exact h
  | cons c cs ih =>
    obtain ⟨r, hr, hdeclare⟩ := Option.bind_eq_some_iff.mp hdeclare
    cases r with
    | error e => simp at hdeclare
    | ok env₁ =>
      have hone : env.constantWithin fuel c := by simpa using hwithin [] c cs rfl
      refine ih (h.declare hr hone) hdeclare fun before c' after heq => ?_
      obtain ⟨-, rfl, -⟩ := declare_eq_ok hr
      have hrest := hwithin (c :: before) c' after (by rw [heq]; rfl)
      simpa [List.append_assoc] using hrest

/-- Whether a constant has the type and the value that it says. -/
structure Holds (henv : env.Ground) (c : Constant) : Prop where
  type : ∃ l, HasType henv.signature .empty [] c.type.term (.sort l)
  value : ∀ v, c.value = some v → HasType henv.signature .empty [] v.term c.type.term

theorem Locals.below_empty (k : Nat) : Locals.empty.Below k := nofun

/-- A constant that is checked within the widths has the type and the value
that it says. -/
theorem holds_of_checkConstant (henv : env.Ground) {s : UInt64}
    (htype : c.type.FVarsIn fun _ => False) (hvalue : ∀ v, c.value = some v → v.FVarsIn fun _ => False)
    (h : (env.checkConstant fuel c).Returns Checker.firstFresh () s)
    (hwithin : env.constantWithin fuel c) : Holds henv c := by
  have hknown : ∀ {e : Expr} {s : UInt64}, e.FVarsIn (fun _ => False) →
      e.FVarsIn (Known .empty .empty s) := fun h => h.mono fun _ => False.elim
  obtain ⟨T, l, t, hT, hl, hvalueT⟩ := checkConstant_returns h
  rw [constantWithin, Bool.and_eq_true, Bool.and_eq_true, decide_eq_true_eq] at hwithin
  obtain ⟨⟨hroom, hwT⟩, hwithin⟩ := hwithin
  have hwithin := hT.passes hwithin
  rw [Bool.and_eq_true] at hwithin
  have hsort := (inferType_hasType henv ⟨Locals.below_empty _, hknown htype, hwT, by omega⟩ hT).conv
    (.of_reduct (whnf_reduct henv hl hwithin.1).1)
  refine ⟨⟨_, hsort⟩, fun v hv => ?_⟩
  obtain ⟨V, t', hV, hr⟩ := hvalueT v hv
  rw [hv] at hwithin hroom
  simp only [Option.all_some, Bool.and_eq_true] at hwithin
  simp only [Option.map_some, Option.getD_some] at hroom
  have ht := toNat_supply hT (by omega)
  have htv := inferType_hasType henv
    ⟨Locals.below_empty _, hknown (hvalue v hv), hwithin.2.1, by omega⟩ hV
  exact htv.conv (isDefEq_converts henv hr (hV.passes hwithin.2.2))

/-- A constant that is declared changes nothing about those before it. -/
theorem signature_le_push {henv : env.Ground} {henv' : (env.push c).Ground} :
    henv.signature.Le henv'.signature := by
  have hfind : ∀ {n : Name} {info : Constant}, env.find? n = some info →
      (env.push c).find? n = some info := by
    intro n info hinfo
    unfold find? at hinfo ⊢
    rw [constants_push, List.find?_append, hinfo]
    rfl
  constructor
  · intro n ls v hv
    obtain ⟨info, w, hinfo, h⟩ := valueTerm?_eq_some.mp hv
    exact valueTerm?_eq_some.mpr ⟨info, w, hfind hinfo, h⟩
  · intro n ls T hT
    obtain ⟨info, hinfo, h⟩ := typeTerm?_eq_some.mp hT
    exact typeTerm?_eq_some.mpr ⟨info, hfind hinfo, h⟩

theorem Holds.push {henv : env.Ground} {henv' : (env.push c).Ground} {info : Constant}
    (h : Holds henv info) : Holds henv' info where
  type := by
    obtain ⟨l, hl⟩ := h.type
    exact ⟨l, hl.of_le signature_le_push⟩
  value v hv := (h.value v hv).of_le signature_le_push

namespace DeclaredWithin

/-- Every constant has the type and the value that it says. -/
theorem holds (h : env.DeclaredWithin) (henv : env.Ground) :
    ∀ info ∈ env.constants, Holds henv info := by
  induction h with
  | empty => exact nofun
  | @declare env env' fuel c h hdeclare hwithin ih =>
    obtain ⟨-, rfl, s, hcheck⟩ := declare_eq_ok hdeclare
    have hfree : env.FVarFree := fun info hinfo => henv.fvarFree info (List.mem_append_left _ hinfo)
    have hground : env.Ground := ⟨h.checked.closed, hfree⟩
    intro info hinfo
    rcases List.mem_append.mp hinfo with hinfo | hinfo
    · exact (ih hground info hinfo).push
    · obtain rfl := List.mem_singleton.mp hinfo
      obtain ⟨htype, hvalue⟩ := henv.fvarFree info (List.mem_append_right _ List.mem_cons_self)
      exact (holds_of_checkConstant hground htype hvalue hcheck hwithin).push

/-- The constants are well typed at all levels. -/
theorem wellTyped (h : env.DeclaredWithin) (henv : env.Ground) (hparams : env.OwnParams)
    (hprelude : env.ExtendsPrelude) : henv.signature.WellTyped where
  type := by
    intro n ls T hT
    obtain ⟨info, hinfo, -, rfl⟩ := typeTerm?_eq_some.mp hT
    obtain ⟨l, hl⟩ := (h.holds henv info (List.mem_of_find?_eq_some hinfo)).type
    exact ⟨_, hl.instLevels (hparams.polymorphic henv) (info.levelParams.zip ls)⟩
  value := by
    intro n ls v hv
    obtain ⟨info, w, hinfo, hlen, hw, rfl⟩ := valueTerm?_eq_some.mp hv
    have hvalue := (h.holds henv info (List.mem_of_find?_eq_some hinfo)).value w hw
    exact ⟨_, typeTerm?_eq_some.mpr ⟨info, hinfo, hlen, rfl⟩,
      hvalue.instLevels (hparams.polymorphic henv) (info.levelParams.zip ls)⟩
  literal v := by
    have hname : ∃ c, find? ⟨Prelude.constants⟩ v.typeName = some c ∧ c.levelParams = [] ∧
        c.type = .type := by
      cases v <;> exact ⟨_, rfl, rfl, rfl⟩
    obtain ⟨c, hc, hparams, htype⟩ := hname
    refine ⟨.one, typeTerm?_eq_some.mpr ⟨c, hprelude.find?_eq hc, by rw [hparams]; rfl, ?_⟩⟩
    rw [htype]
    rfl

end DeclaredWithin

end Environment

end Pinpoint
