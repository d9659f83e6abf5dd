/-
The constants that a term mentions.

`e.ConstsIn p` says that `p` holds of the name and the number of levels of every
constant in `e`.  Operations on terms move constants about and bring in none,
and reduction brings in those of the values that it unfolds.

* `ConstsIn.of_instantiate` — the constants below a binder are there once it is
  opened;
* `HeadFVarsIn` — which variables a term applies, so that their types are looked
  at for its own;
* `Environment.ConstsIn.inferType` — the type of a term mentions what the term
  does, and what the types of these variables mention;
* `constsIn_of_inferType` — a term that has a type mentions declared constants
  only, each at as many levels as it has parameters;
* `Environment.SelfContained` — environments whose constants mention only
  constants of their own; in them reduction stays among these
  (`SelfContained.whnf`), and so do the checked ones (`Checked.selfContained`).
-/
import Pinpoint.Proofs.ScopedInference

namespace Pinpoint

namespace Expr

/-- Whether all constants are as asked; `p` is told the name and the number of
levels. -/
def ConstsIn (p : Name → Nat → Prop) : Expr → Prop
  | .const n ls => p n ls.length
  | .app f a => f.ConstsIn p ∧ a.ConstsIn p
  | .lam _ t b => t.ConstsIn p ∧ b.ConstsIn p
  | .pi _ t b => t.ConstsIn p ∧ b.ConstsIn p
  | .letE t v b => t.ConstsIn p ∧ v.ConstsIn p ∧ b.ConstsIn p
  | .mdata _ e => e.ConstsIn p
  | _ => True

variable {p q : Name → Nat → Prop} {f : UInt32 → UInt32 → Expr} {g : UInt32 → FVarId → Expr}
  {e v : Expr}

theorem ConstsIn.mono (h : e.ConstsIn p) (hpq : ∀ n k, p n k → q n k) : e.ConstsIn q := by
  induction e with
  | const n ls => exact hpq n ls.length h
  | app _ _ ihf iha => exact ⟨ihf h.1, iha h.2⟩
  | lam _ _ _ iht ihb | pi _ _ _ iht ihb => exact ⟨iht h.1, ihb h.2⟩
  | letE _ _ _ iht ihv ihb => exact ⟨iht h.1, ihv h.2.1, ihb h.2.2⟩
  | mdata _ _ ih => exact ih h
  | _ => trivial

theorem ConstsIn.mapVars (hf : ∀ d i, (f d i).ConstsIn p) (hg : ∀ d x, (g d x).ConstsIn p)
    (h : e.ConstsIn p) (d : UInt32) : (Expr.mapVars f g d e).ConstsIn p := by
  induction e generalizing d with
  | bvar i => exact hf d i
  | fvar x => exact hg d x
  | app _ _ ihf iha => exact ⟨ihf h.1 d, iha h.2 d⟩
  | lam _ _ _ iht ihb | pi _ _ _ iht ihb => exact ⟨iht h.1 d, ihb h.2 (d + 1)⟩
  | letE _ _ _ iht ihv ihb => exact ⟨iht h.1 d, ihv h.2.1 d, ihb h.2.2 (d + 1)⟩
  | mdata _ _ ih => exact ih h d
  | _ => exact h

/-- A traversal leaves every constant where it is. -/
theorem ConstsIn.of_mapVars {d : UInt32} (h : (Expr.mapVars f g d e).ConstsIn p) :
    e.ConstsIn p := by
  induction e generalizing d with
  | app _ _ ihf iha => exact ⟨ihf h.1, iha h.2⟩
  | lam _ _ _ iht ihb | pi _ _ _ iht ihb => exact ⟨iht h.1, ihb h.2⟩
  | letE _ _ _ iht ihv ihb => exact ⟨iht h.1, ihv h.2.1, ihb h.2.2⟩
  | mdata _ _ ih => exact ih h
  | bvar _ | fvar _ => trivial
  | _ => exact h

theorem ConstsIn.lift (h : e.ConstsIn p) (amount : UInt32) : (e.lift amount).ConstsIn p := by
  refine ConstsIn.mapVars (g := fun _ x => .fvar x) (fun d i => ?_) (fun _ _ => trivial) h 0
  split <;> trivial

theorem ConstsIn.instantiate (h : e.ConstsIn p) (hv : v.ConstsIn p) :
    (e.instantiate v).ConstsIn p := by
  refine ConstsIn.mapVars (g := fun _ x => .fvar x) (fun d i => ?_) (fun _ _ => trivial) h 0
  split
  · exact hv.lift d
  · split <;> trivial

theorem ConstsIn.of_instantiate (h : (e.instantiate v).ConstsIn p) : e.ConstsIn p :=
  of_mapVars h

theorem ConstsIn.abstractFVar (h : e.ConstsIn p) (x : FVarId) : (e.abstractFVar x).ConstsIn p := by
  refine ConstsIn.mapVars (fun d i => ?_) (fun d y => ?_) h 0
  · split <;> trivial
  · split <;> trivial

theorem constsIn_instantiateLevels {subst : List (Name × Level)} :
    (e.instantiateLevels subst).ConstsIn p ↔ e.ConstsIn p := by
  induction e with
  | const n ls => simp only [instantiateLevels, ConstsIn, List.length_map]
  | app _ _ ihf iha => exact and_congr ihf iha
  | lam _ _ _ iht ihb | pi _ _ _ iht ihb => exact and_congr iht ihb
  | letE _ _ _ iht ihv ihb => exact and_congr iht (and_congr ihv ihb)
  | mdata _ _ ih => exact ih
  | _ => exact Iff.rfl

/-! ### Variables at heads -/

/-- Whether the variables at the heads of a term, below abstractions and in the
values of local definitions, are as asked.  The type of a term is made of the
types of these. -/
def HeadFVarsIn (p : FVarId → Prop) : Expr → Prop
  | .fvar x => p x
  | .app f _ => f.HeadFVarsIn p
  | .lam _ _ b => b.HeadFVarsIn p
  | .letE _ v b => v.HeadFVarsIn p ∧ b.HeadFVarsIn p
  | .mdata _ e => e.HeadFVarsIn p
  | _ => True

section
variable {p q : FVarId → Prop} {x : FVarId}

theorem HeadFVarsIn.mono (h : e.HeadFVarsIn p) (hpq : ∀ x, p x → q x) : e.HeadFVarsIn q := by
  induction e with
  | fvar x => exact hpq x h
  | app _ _ ihf _ => exact ihf h
  | lam _ _ _ _ ihb => exact ihb h
  | letE _ _ _ _ ihv ihb => exact ⟨ihv h.1, ihb h.2⟩
  | mdata _ _ ih => exact ih h
  | _ => trivial

theorem HeadFVarsIn.mapVars (hf : ∀ d i, (f d i).HeadFVarsIn q)
    (hg : ∀ d x, p x → (g d x).HeadFVarsIn q) (h : e.HeadFVarsIn p) (d : UInt32) :
    (Expr.mapVars f g d e).HeadFVarsIn q := by
  induction e generalizing d with
  | bvar i => exact hf d i
  | fvar x => exact hg d x h
  | app _ _ ihf _ => exact ihf h d
  | lam _ _ _ _ ihb => exact ihb h (d + 1)
  | letE _ _ _ _ ihv ihb => exact ⟨ihv h.1 d, ihb h.2 (d + 1)⟩
  | mdata _ _ ih => exact ih h d
  | _ => trivial

theorem HeadFVarsIn.instantiate (h : e.HeadFVarsIn p) (hv : v.HeadFVarsIn p) :
    (e.instantiate v).HeadFVarsIn p := by
  refine HeadFVarsIn.mapVars (g := fun _ x => .fvar x) (fun d i => ?_) (fun _ _ => id) h 0
  split
  · refine HeadFVarsIn.mapVars (g := fun _ x => .fvar x) (fun c j => ?_) (fun _ _ => id) hv 0
    split <;> trivial
  · split <;> trivial

theorem HeadFVarsIn.abstractFVar (h : e.HeadFVarsIn fun y => y = x ∨ p y) :
    (e.abstractFVar x).HeadFVarsIn p := by
  refine HeadFVarsIn.mapVars (fun d i => ?_) (fun d y hy => ?_) h 0
  · split <;> trivial
  · by_cases hyx : y = x
    · rw [if_pos hyx]
      trivial
    · rw [if_neg hyx]
      exact hy.resolve_left hyx

theorem headFVarsIn_mkApp {args : List Expr} : (mkApp e args).HeadFVarsIn p ↔ e.HeadFVarsIn p := by
  induction args generalizing e with
  | nil => exact Iff.rfl
  | cons a args ih => rw [mkApp_cons, ih, HeadFVarsIn]

end

end Expr

namespace Environment

/-- Whether a constant is declared with the given number of universe
parameters. -/
def Declares (env : Environment) (n : Name) (arity : Nat) : Prop :=
  ∃ info, env.find? n = some info ∧ info.levelParams.length = arity

/-- Whether all constants in the types and the values of constants are as
asked. -/
def ConstsIn (env : Environment) (p : Name → Nat → Prop) : Prop :=
  ∀ c ∈ env.constants, c.type.ConstsIn p ∧ ∀ v, c.value = some v → v.ConstsIn p

/-- Environments whose constants mention only constants of their own. -/
def SelfContained (env : Environment) : Prop :=
  ∀ c ∈ env.constants, c.type.ConstsIn env.Declares ∧
    ∀ v, c.value = some v → v.ConstsIn env.Declares

variable {env env' : Environment} {t : Transparency} {n : Nat} {Γ : LocalContext} {e e' T : Expr}
  {s s' : UInt64} {p : Name → Nat → Prop}

/-- Unfolding brings in what the values of constants mention. -/
theorem ConstsIn.valueAt? (henv : env.ConstsIn p) {c : Name} {ls : List Level} {v : Expr}
    (hv : env.valueAt? t c ls = some v) : v.ConstsIn p := by
  cases t with
  | reducible => cases hv
  | all =>
    obtain ⟨info, subst, w, hinfo, -, hw, rfl⟩ := value?_eq_some hv
    exact Expr.constsIn_instantiateLevels.mpr ((henv info (List.mem_of_find?_eq_some hinfo)).2 w hw)

/-- So does reduction. -/
theorem ConstsIn.whnf (henv : env.ConstsIn p) (h : env.whnf t n e = some e')
    (he : e.ConstsIn p) : e'.ConstsIn p :=
  whnf_preserves (fun _ _ he => he) (fun _ _ _ he => he.2.2.instantiate he.2.1)
    (fun _ _ _ _ hf ha => hf.2.instantiate ha) (fun _ _ => Iff.rfl)
    (fun _ _ _ => henv.valueAt?) h he

/-- The type of a term mentions what the term does, and what the types of the
variables at its heads, of constants and of literals mention. -/
theorem ConstsIn.inferType (henv : env.ConstsIn p) (hnat : p Vocabulary.nat 0)
    (hstring : p Vocabulary.string 0)
    (hvars : e.HeadFVarsIn fun x => ∀ entry, Γ.find? x = some entry → entry.type.ConstsIn p)
    (he : e.ConstsIn p) (h : (env.inferType n Γ e).Returns s T s') : T.ConstsIn p := by
  induction n generalizing Γ e T s s' with
  | zero => exact absurd h not_inferType_zero_returns
  | succ n ih =>
    cases e with
    | bvar i => exact absurd h not_inferType_bvar_returns
    | fvar x =>
      obtain ⟨⟨entry, hentry, rfl⟩, -⟩ := inferType_fvar_returns_iff.mp h
      exact hvars entry hentry
    | sort l =>
      obtain ⟨rfl, -⟩ := inferType_sort_returns_iff.mp h
      trivial
    | const c ls =>
      obtain ⟨⟨info, hinfo, hT⟩, -⟩ := inferType_const_returns_iff.mp h
      obtain ⟨subst, -, rfl⟩ := instantiateType_eq_ok hT
      exact Expr.constsIn_instantiateLevels.mpr (henv info (List.mem_of_find?_eq_some hinfo)).1
    | lit v =>
      obtain ⟨rfl, -⟩ := inferType_lit_returns_iff.mp h
      cases v
      · exact hnat
      · exact hstring
    | mdata m e => exact ih (e := e) hvars he (inferType_mdata_returns_iff.mp h)
    | app f a =>
      obtain ⟨F, A, info, dom, body, t, hF, hpi, -, -, rfl⟩ := inferType_app_returns_iff.mp h
      exact (henv.whnf hpi (ih (e := f) hvars he.1 hF)).2.instantiate he.2
    | lam info dom body =>
      obtain ⟨D, l, B, t, -, -, hB, rfl⟩ := inferType_lam_returns_iff.mp h
      -- the variable of the binder has the domain as its type, also where it hides
      -- another one
      have hpush : ∀ x, (x = ⟨t⟩ ∨ ∀ entry, Γ.find? x = some entry → entry.type.ConstsIn p) →
          ∀ entry, (Γ.push ⟨t⟩ (.simple "x") dom).find? x = some entry →
            entry.type.ConstsIn p := by
        intro x hx entry hentry
        rw [LocalContext.find?_push] at hentry
        split at hentry
        · obtain rfl := Option.some.inj hentry
          exact he.1
        · rename_i htx
          exact hx.resolve_left (fun hxt => htx hxt.symm) entry hentry
      have hheads := Expr.HeadFVarsIn.mono (e := body) hvars fun x hx => hpush x (.inr hx)
      have hheads := hheads.instantiate (v := .fvar ⟨t⟩) (hpush ⟨t⟩ (.inl rfl))
      have hbody := he.2.instantiate (v := .fvar ⟨t⟩) trivial
      exact ⟨he.1, (ih hheads hbody hB).abstractFVar _⟩
    | pi info dom body =>
      obtain ⟨D, l₁, B, l₂, t, -, -, -, -, rfl⟩ := inferType_pi_returns_iff.mp h
      trivial
    | letE type value body =>
      obtain ⟨D, l, A, t, t', -, -, -, -, hB⟩ := inferType_letE_returns_iff.mp h
      exact ih (hvars.2.instantiate hvars.1) (he.2.2.instantiate he.2.1) hB

/-- Unfolding brings in declared constants only. -/
theorem SelfContained.valueAt? (henv : env.SelfContained) {c : Name} {ls : List Level} {v : Expr}
    (hv : env.valueAt? t c ls = some v) : v.ConstsIn env.Declares :=
  ConstsIn.valueAt? henv hv

/-- Reduction stays among the declared constants. -/
theorem SelfContained.whnf (henv : env.SelfContained) (h : env.whnf t n e = some e')
    (he : e.ConstsIn env.Declares) : e'.ConstsIn env.Declares :=
  ConstsIn.whnf henv h he

/-- Inference comes across every constant of a term. -/
theorem constsIn_of_inferType (h : (env.inferType n Γ e).Returns s T s') :
    e.ConstsIn env.Declares := by
  induction n generalizing Γ e T s s' with
  | zero => exact absurd h not_inferType_zero_returns
  | succ n ih =>
    cases e with
    | const c ls =>
      obtain ⟨⟨info, hinfo, hT⟩, -⟩ := inferType_const_returns_iff.mp h
      obtain ⟨subst, hsubst, -⟩ := instantiateType_eq_ok hT
      exact ⟨info, hinfo, (levelSubst_eq_ok.mp hsubst).1.symm⟩
    | mdata m e =>
      have he := ih (inferType_mdata_returns_iff.mp h)
      exact he
    | app f a =>
      obtain ⟨F, A, info, dom, body, t, hF, -, hA, -, -⟩ := inferType_app_returns_iff.mp h
      exact ⟨ih hF, ih hA⟩
    | lam info dom body =>
      obtain ⟨D, l, B, t, hD, -, hB, -⟩ := inferType_lam_returns_iff.mp h
      exact ⟨ih hD, (ih hB).of_instantiate⟩
    | pi info dom body =>
      obtain ⟨D, l₁, B, l₂, t, hD, -, hB, -, -⟩ := inferType_pi_returns_iff.mp h
      exact ⟨ih hD, (ih hB).of_instantiate⟩
    | letE type value body =>
      obtain ⟨D, l, A, t, t', hD, -, hA, -, hB⟩ := inferType_letE_returns_iff.mp h
      exact ⟨ih hD, ih hA, (ih hB).of_instantiate⟩
    | _ => trivial

/-! ### Checked environments -/

variable {c : Constant} {name : Name}

/-- Constants that are declared later hide none. -/
theorem find?_of_isPrefix (h : env.constants <+: env'.constants) (hc : env.find? name = some c) :
    env'.find? name = some c := by
  obtain ⟨cs, hcs⟩ := h
  unfold find? at hc ⊢
  rw [← hcs, List.find?_append, hc]
  rfl

/-- Every constant was checked among constants that were checked before it. -/
theorem Checked.accepted (h : env.Checked) (hc : c ∈ env.constants) :
    ∃ (env₀ : Environment) (fuel : Nat), env₀.Checked ∧ (env₀.push c).constants <+: env.constants ∧
      env₀.declare fuel c = some (.ok (env₀.push c)) := by
  induction h with
  | empty => cases hc
  | @declare env env' fuel d henv hdeclare ih =>
    obtain ⟨-, rfl, -⟩ := declare_eq_ok hdeclare
    rcases List.mem_append.mp hc with hc | hc
    · obtain ⟨env₀, fuel₀, h₀, hle, hdeclare₀⟩ := ih hc
      exact ⟨env₀, fuel₀, h₀, hle.trans (List.prefix_append _ _), hdeclare₀⟩
    · obtain rfl := List.mem_singleton.mp hc
      exact ⟨env, fuel, henv, List.prefix_rfl, hdeclare⟩

/-- Every constant is found under its name. -/
theorem Checked.find?_eq_some (h : env.Checked) (hc : c ∈ env.constants) :
    env.find? c.name = some c := by
  obtain ⟨env₀, fuel, -, hle, hdeclare⟩ := h.accepted hc
  have hname : env₀.find? c.name = none := by
    simpa [contains] using (declare_eq_ok hdeclare).1
  refine find?_of_isPrefix hle ?_
  unfold find? at hname ⊢
  rw [constants_push, List.find?_append, hname]
  simp

theorem Declares.of_isPrefix {k : Nat} (hle : env.constants <+: env'.constants)
    (h : env.Declares name k) : env'.Declares name k := by
  obtain ⟨info, hinfo, hk⟩ := h
  exact ⟨info, find?_of_isPrefix hle hinfo, hk⟩

/-- Checked constants mention constants that were declared before them. -/
theorem Checked.selfContained (h : env.Checked) : env.SelfContained := by
  intro c hc
  obtain ⟨env₀, fuel, -, hle, hdeclare⟩ := h.accepted hc
  have hle := (List.prefix_append _ _).trans hle
  obtain ⟨-, -, s, hs⟩ := declare_eq_ok hdeclare
  obtain ⟨T, l, t, hT, -, hvalue⟩ := checkConstant_returns hs
  refine ⟨(constsIn_of_inferType hT).mono fun _ _ => .of_isPrefix hle, fun v hv => ?_⟩
  obtain ⟨V, t', hV, -⟩ := hvalue v hv
  exact (constsIn_of_inferType hV).mono fun _ _ => .of_isPrefix hle

end Environment

end Pinpoint
