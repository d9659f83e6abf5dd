/-
Types of terms, by rules.

`HasType S Γ Δ e T` is what the checker decides as far as it ends: `Γ` gives
types to free variables and `Δ` to bound ones, and a type may be exchanged for
any convertible one.

* `HasType.subst` — typed terms can be put for variables, bound and free ones
  at once; weakening and the opening and closing of binders are cases of it;
* `HasType.generation`, `HasType.unique` — what a type says about the parts of
  a term; types are unique up to conversion;
* `HasType.par` — a reduct has the types of the term;
* `HasType.instLevels` — universe parameters can be replaced.
-/
import Pinpoint.Proofs.Conversion
import Pinpoint.Proofs.Levels

namespace Pinpoint

/-- The constant that is the type of a literal. -/
def Literal.typeName : Literal → Name
  | .nat _ => Vocabulary.nat
  | .str _ => Vocabulary.string

/-- The types and the values of constants at levels. -/
structure Signature extends Definitions where
  type : Name → List Level → Option Term
  type_ground : ∀ {n ls T}, type n ls = some T → T.Ground

/-- Types of free variables. -/
structure Locals where
  type : FVarId → Option Term
  closed : ∀ {x A}, type x = some A → A.Closed

/-- No free variable has a type. -/
def Locals.empty : Locals := ⟨fun _ => none, nofun⟩

/-- The terms that have types, with all their types. -/
inductive HasType (S : Signature) (Γ : Locals) : List Term → Term → Term → Prop
  | bvar {Δ : List Term} {i : Nat} {A : Term} : Δ[i]? = some A →
      HasType S Γ Δ (.bvar i) (A.lift (i + 1))
  | fvar {Δ : List Term} {x : FVarId} {A : Term} : Γ.type x = some A →
      HasType S Γ Δ (.fvar x) A
  | sort (Δ : List Term) (l : Level) : HasType S Γ Δ (.sort l) (.sort (.succ l))
  | const {Δ : List Term} {n : Name} {ls : List Level} {T : Term} : S.type n ls = some T →
      HasType S Γ Δ (.const n ls) T
  | lit (Δ : List Term) (v : Literal) : HasType S Γ Δ (.lit v) (.const v.typeName [])
  | app {Δ : List Term} {f a A B : Term} : HasType S Γ Δ f (.pi A B) → HasType S Γ Δ a A →
      HasType S Γ Δ (.app f a) (B.inst a)
  | lam {Δ : List Term} {A b B : Term} {l : Level} : HasType S Γ Δ A (.sort l) →
      HasType S Γ (A :: Δ) b B → HasType S Γ Δ (.lam A b) (.pi A B)
  | pi {Δ : List Term} {A B : Term} {l l' : Level} : HasType S Γ Δ A (.sort l) →
      HasType S Γ (A :: Δ) B (.sort l') →
      HasType S Γ Δ (.pi A B) (.sort (Level.imax l l').simplify)
  | letE {Δ : List Term} {A v b B : Term} {l : Level} : HasType S Γ Δ A (.sort l) →
      HasType S Γ Δ v A → HasType S Γ Δ (b.inst v) B → HasType S Γ Δ (.letE A v b) B
  | conv {Δ : List Term} {e T T' : Term} : HasType S Γ Δ e T →
      Converts S.toDefinitions T T' → HasType S Γ Δ e T'

section
variable {S S' : Signature} {Γ Γ' : Locals} {Δ Δ' : List Term} {a b e e' f v A B T T' : Term}
  {l : Level} {ρ : Nat → Nat} {σ : Subst}

/-! ### Renaming and substitution -/

theorem Term.lift_lift (m n : Nat) (e : Term) : (e.lift m).lift n = e.lift (m + n) := by
  rw [lift, lift, rename_rename, lift]
  congr 1
  funext i
  exact Nat.add_assoc i m n

/-- Whether a change of bound variables leads from one list of types to
another one. -/
def Renames (ρ : Nat → Nat) (Δ Δ' : List Term) : Prop :=
  ∀ {i : Nat} {A : Term}, Δ[i]? = some A → ∃ A', Δ'[ρ i]? = some A' ∧
    A'.lift (ρ i + 1) = (A.lift (i + 1)).rename ρ

theorem Renames.under (h : Renames ρ Δ Δ') (A : Term) :
    Renames (Term.under ρ) (A :: Δ) (A.rename ρ :: Δ') := by
  intro i A₀ hA₀
  cases i with
  | zero =>
    obtain rfl := Option.some.inj hA₀
    exact ⟨_, rfl, (Term.lift_rename ρ A).symm⟩
  | succ i =>
    obtain ⟨A', hA', heq⟩ := h hA₀
    refine ⟨A', hA', ?_⟩
    calc A'.lift (ρ i + 1 + 1) = (A'.lift (ρ i + 1)).lift 1 := (Term.lift_lift _ _ _).symm
      _ = ((A₀.lift (i + 1)).lift 1).rename (Term.under ρ) := by rw [heq, Term.lift_rename]
      _ = (A₀.lift (i + 1 + 1)).rename (Term.under ρ) := by rw [Term.lift_lift]

theorem Renames.succ (A : Term) (Δ : List Term) : Renames (· + 1) Δ (A :: Δ) := by
  intro i A' hA'
  exact ⟨A', hA', (Term.lift_lift _ _ _).symm⟩

theorem HasType.rename (h : HasType S Γ Δ e T) (hρ : Renames ρ Δ Δ') :
    HasType S Γ Δ' (e.rename ρ) (T.rename ρ) := by
  induction h generalizing ρ Δ' with
  | bvar hA =>
    obtain ⟨A', hA', heq⟩ := hρ hA
    rw [← heq]
    exact .bvar hA'
  | fvar hA =>
    rw [(Γ.closed hA).rename ρ]
    exact .fvar hA
  | sort Δ l => exact .sort Δ' l
  | const hT =>
    rw [(S.type_ground hT).closed.rename ρ]
    exact .const hT
  | lit Δ v => exact .lit Δ' v
  | app _ _ ihf iha =>
    rw [Term.rename_inst]
    exact .app (ihf hρ) (iha hρ)
  | lam _ _ ihA ihb => exact .lam (ihA hρ) (ihb (hρ.under _))
  | pi _ _ ihA ihB => exact .pi (ihA hρ) (ihB (hρ.under _))
  | letE _ _ _ ihA ihv ihb =>
    have hb := ihb hρ
    rw [Term.rename_inst] at hb
    exact .letE (ihA hρ) (ihv hρ) hb
  | conv _ hconv ih => exact (ih hρ).conv (hconv.rename ρ)

theorem HasType.lift (h : HasType S Γ Δ e T) (A : Term) :
    HasType S Γ (A :: Δ) (e.lift 1) (T.lift 1) :=
  h.rename (Renames.succ A Δ)

/-- Whether a substitution puts terms of the right types for the variables of
`Γ` and `Δ`. -/
structure Substitutes (S : Signature) (σ : Subst) (Γ : Locals) (Δ : List Term) (Γ' : Locals)
    (Δ' : List Term) : Prop where
  bound {i : Nat} {A : Term} : Δ[i]? = some A →
    HasType S Γ' Δ' (σ.bound i) ((A.lift (i + 1)).subst σ)
  free {x : FVarId} {A : Term} : Γ.type x = some A → HasType S Γ' Δ' (σ.free x) (A.subst σ)

theorem Substitutes.up (h : Substitutes S σ Γ Δ Γ' Δ') (A : Term) :
    Substitutes S σ.up Γ (A :: Δ) Γ' (A.subst σ :: Δ') where
  bound := by
    intro i A₀ hA₀
    cases i with
    | zero =>
      obtain rfl := Option.some.inj hA₀
      rw [Term.lift_subst_up]
      exact .bvar rfl
    | succ i =>
      have hlift := (h.bound hA₀).lift (A.subst σ)
      rw [← Term.lift_subst_up, Term.lift_lift] at hlift
      exact hlift
  free := by
    intro x A₀ hA₀
    rw [(Γ.closed hA₀).subst_up]
    exact (h.free hA₀).lift (A.subst σ)

/-- Typed terms can be put for variables. -/
theorem HasType.subst (h : HasType S Γ Δ e T) (hσ : Substitutes S σ Γ Δ Γ' Δ') :
    HasType S Γ' Δ' (e.subst σ) (T.subst σ) := by
  induction h generalizing σ Δ' with
  | bvar hA => exact hσ.bound hA
  | fvar hA => exact hσ.free hA
  | sort Δ l => exact .sort Δ' l
  | const hT =>
    rw [(S.type_ground hT).subst]
    exact .const hT
  | lit Δ v => exact .lit Δ' v
  | app _ _ ihf iha =>
    rw [Term.subst_inst]
    exact .app (ihf hσ) (iha hσ)
  | lam _ _ ihA ihb => exact .lam (ihA hσ) (ihb (hσ.up _))
  | pi _ _ ihA ihB => exact .pi (ihA hσ) (ihB (hσ.up _))
  | letE _ _ _ ihA ihv ihb =>
    have hb := ihb hσ
    rw [Term.subst_inst] at hb
    exact .letE (ihA hσ) (ihv hσ) hb
  | conv _ hconv ih => exact (ih hσ).conv (hconv.subst σ)

theorem Substitutes.single (ha : HasType S Γ Δ a A) :
    Substitutes S (.single a) Γ (A :: Δ) Γ Δ where
  bound := by
    intro i A' hA'
    cases i with
    | zero =>
      obtain rfl := Option.some.inj hA'
      have heq : (A.lift 1).subst (.single a) = A := Term.inst_lift A a
      rw [heq]
      exact ha
    | succ i =>
      have heq : (A'.lift (i + 1 + 1)).subst (.single a) = A'.lift (i + 1) := by
        rw [← Term.lift_lift]
        exact Term.inst_lift _ a
      rw [heq]
      exact .bvar hA'
  free := by
    intro x A' hA'
    rw [(Γ.closed hA').subst_eq_self fun _ => rfl]
    exact .fvar hA'

/-- The variable of a binder can be replaced by a term of its type. -/
theorem HasType.inst (hb : HasType S Γ (A :: Δ) b B) (ha : HasType S Γ Δ a A) :
    HasType S Γ Δ (b.inst a) (B.inst a) :=
  hb.subst (.single ha)

/-- A term without outer binders keeps its types when more variables have
types. -/
theorem HasType.weaken (h : HasType S Γ [] e T)
    (hΓ : ∀ {x A}, Γ.type x = some A → Γ'.type x = some A) : HasType S Γ' Δ e T := by
  have hσ : Substitutes S .id Γ [] Γ' Δ :=
    { bound := fun hA => by cases hA
      free := fun hA => by
        rw [Term.subst_id]
        exact .fvar (hΓ hA) }
  have hsubst := h.subst hσ
  rwa [Term.subst_id, Term.subst_id] at hsubst

/-- A term that has a type without variables has it everywhere. -/
theorem HasType.of_empty (h : HasType S .empty [] e T) : HasType S Γ Δ e T :=
  h.weaken fun hA => by cases hA

/-- Whether bound variables have types in `Δ'` that are convertible with those
in `Δ`. -/
def Context (S : Signature) (Δ Δ' : List Term) : Prop :=
  ∀ {i : Nat} {A : Term}, Δ[i]? = some A →
    ∃ A', Δ'[i]? = some A' ∧ Converts S.toDefinitions A' A

theorem Context.cons (h : Context S Δ Δ') (A : Term) : Context S (A :: Δ) (A :: Δ') := by
  intro i B hB
  cases i with
  | zero => exact ⟨B, hB, .refl B⟩
  | succ i => exact h hB

/-- Convertible types of bound variables are as good. -/
theorem HasType.context (h : HasType S Γ Δ e T)
    (hΔ : Context S Δ Δ') : HasType S Γ Δ' e T := by
  induction h generalizing Δ' with
  | bvar hA =>
    obtain ⟨A', hA', hconv⟩ := hΔ hA
    exact (HasType.bvar hA').conv (hconv.rename _)
  | fvar hA => exact .fvar hA
  | sort Δ l => exact .sort Δ' l
  | const hT => exact .const hT
  | lit Δ v => exact .lit Δ' v
  | app _ _ ihf iha => exact .app (ihf hΔ) (iha hΔ)
  | lam _ _ ihA ihb => exact .lam (ihA hΔ) (ihb (hΔ.cons _))
  | pi _ _ ihA ihB => exact .pi (ihA hΔ) (ihB (hΔ.cons _))
  | letE _ _ _ ihA ihv ihb => exact .letE (ihA hΔ) (ihv hΔ) (ihb hΔ)
  | conv _ hconv ih => exact (ih hΔ).conv hconv

/-- The type of the innermost bound variable can be exchanged. -/
theorem HasType.context_head (h : HasType S Γ (A :: Δ) e T)
    (hA : Converts S.toDefinitions B A) : HasType S Γ (B :: Δ) e T := by
  refine h.context fun {i A'} hA' => ?_
  cases i with
  | zero =>
    obtain rfl := Option.some.inj hA'
    exact ⟨B, rfl, hA⟩
  | succ i => exact ⟨A', hA', .refl A'⟩

/-! ### What a type says about the parts -/

/-- What it takes for a term to have a type, by the shape of the term. -/
def Generates (S : Signature) (Γ : Locals) (Δ : List Term) : Term → Term → Prop
  | .bvar i, T => ∃ A, Δ[i]? = some A ∧ Converts S.toDefinitions (A.lift (i + 1)) T
  | .fvar x, T => ∃ A, Γ.type x = some A ∧ Converts S.toDefinitions A T
  | .sort l, T => Converts S.toDefinitions (.sort (.succ l)) T
  | .const n ls, T => ∃ A, S.type n ls = some A ∧ Converts S.toDefinitions A T
  | .lit v, T => Converts S.toDefinitions (.const v.typeName []) T
  | .app f a, T => ∃ A B, HasType S Γ Δ f (.pi A B) ∧ HasType S Γ Δ a A ∧
      Converts S.toDefinitions (B.inst a) T
  | .lam A b, T => ∃ l B, HasType S Γ Δ A (.sort l) ∧ HasType S Γ (A :: Δ) b B ∧
      Converts S.toDefinitions (.pi A B) T
  | .pi A B, T => ∃ l l', HasType S Γ Δ A (.sort l) ∧ HasType S Γ (A :: Δ) B (.sort l') ∧
      Converts S.toDefinitions (.sort (Level.imax l l').simplify) T
  | .letE A v b, T => ∃ l, HasType S Γ Δ A (.sort l) ∧ HasType S Γ Δ v A ∧
      HasType S Γ Δ (b.inst v) T

theorem HasType.generation (h : HasType S Γ Δ e T) : Generates S Γ Δ e T := by
  induction h with
  | bvar hA => exact ⟨_, hA, .refl _⟩
  | fvar hA => exact ⟨_, hA, .refl _⟩
  | sort Δ l => exact .refl _
  | const hT => exact ⟨_, hT, .refl _⟩
  | lit Δ v => exact .refl _
  | app hf ha _ _ => exact ⟨_, _, hf, ha, .refl _⟩
  | lam hA hb _ _ => exact ⟨_, _, hA, hb, .refl _⟩
  | pi hA hB _ _ => exact ⟨_, _, hA, hB, .refl _⟩
  | letE hA hv hb _ _ _ => exact ⟨_, hA, hv, hb⟩
  | @conv Δ e T T' _ hconv ih =>
    cases e with
    | bvar i | fvar x | const n ls =>
      obtain ⟨A, hA, h⟩ := ih
      exact ⟨A, hA, h.trans hconv⟩
    | sort l | lit v => exact ih.trans hconv
    | app f a =>
      obtain ⟨A, B, hf, ha, h⟩ := ih
      exact ⟨A, B, hf, ha, h.trans hconv⟩
    | lam A b =>
      obtain ⟨l, B, hA, hb, h⟩ := ih
      exact ⟨l, B, hA, hb, h.trans hconv⟩
    | pi A B =>
      obtain ⟨l, l', hA, hB, h⟩ := ih
      exact ⟨l, l', hA, hB, h.trans hconv⟩
    | letE A v b =>
      obtain ⟨l, hA, hv, h⟩ := ih
      exact ⟨l, hA, hv, h.conv hconv⟩

/-- The types of a term are convertible. -/
theorem HasType.unique (h : HasType S Γ Δ e T) (h' : HasType S Γ Δ e T') :
    Converts S.toDefinitions T T' := by
  induction h generalizing T' with
  | bvar hA | fvar hA | const hA =>
    obtain ⟨A', hA', hconv⟩ := h'.generation
    obtain rfl := Option.some.inj (hA.symm.trans hA')
    exact hconv
  | sort Δ l | lit Δ v => exact h'.generation
  | app _ _ ihf _ =>
    obtain ⟨A', B', hf', -, hconv⟩ := h'.generation
    exact ((ihf hf').pi_inj.2.inst (.refl _)).trans hconv
  | lam _ _ _ ihb =>
    obtain ⟨l', B', -, hb', hconv⟩ := h'.generation
    exact (Converts.pi (.refl _) (ihb hb')).trans hconv
  | pi _ _ ihA ihB =>
    obtain ⟨l₁, l₂, hA', hB', hconv⟩ := h'.generation
    rw [(ihA hA').sort_inj, (ihB hB').sort_inj]
    exact hconv
  | letE _ _ _ _ _ ihb =>
    obtain ⟨l', -, -, hb'⟩ := h'.generation
    exact ihb hb'
  | conv _ hconv ih => exact hconv.symm.trans (ih h')

/-! ### Reduction and universes -/

/-- Whether the types of constants have universes and their values have their
types, and the literals have types. -/
structure Signature.WellTyped (S : Signature) : Prop where
  type {n : Name} {ls : List Level} {T : Term} : S.type n ls = some T →
    ∃ l, HasType S .empty [] T (.sort l)
  value {n : Name} {ls : List Level} {v : Term} : S.value n ls = some v →
    ∃ T, S.type n ls = some T ∧ HasType S .empty [] v T
  literal (v : Literal) : ∃ l, S.type v.typeName [] = some (.sort l)

/-- Whether the types of free variables have universes. -/
def Locals.WellTyped (S : Signature) (Γ : Locals) : Prop :=
  ∀ {x A}, Γ.type x = some A → ∃ l, HasType S Γ [] A (.sort l)

/-- A reduct has the types of the term. -/
theorem HasType.par (hS : S.WellTyped) (h : HasType S Γ Δ e T)
    (hpar : Par S.toDefinitions e e') : HasType S Γ Δ e' T := by
  induction h generalizing e' with
  | bvar hA =>
    cases hpar
    exact .bvar hA
  | fvar hA =>
    cases hpar
    exact .fvar hA
  | sort Δ l =>
    cases hpar
    exact .sort Δ l
  | lit Δ v =>
    cases hpar
    exact .lit Δ v
  | const hT =>
    cases hpar with
    | const _ _ => exact .const hT
    | delta hv =>
      obtain ⟨T', hT', hvalue⟩ := hS.value hv
      obtain rfl := Option.some.inj (hT.symm.trans hT')
      exact hvalue.of_empty
  | @app Δ f a A B _ _ ihf iha =>
    cases hpar with
    | app hf ha =>
      exact (HasType.app (ihf hf) (iha ha)).conv ((Converts.refl B).inst (.of_par ha)).symm
    | @beta t b b' a a' hb ha =>
      -- The function has a quantified type, the parts of which are convertible with those
      -- that the application has used.
      obtain ⟨l, B', -, hb', hconv⟩ := (ihf (.lam (.refl t) hb)).generation
      obtain ⟨hdom, hcod⟩ := hconv.pi_inj
      exact (hb'.inst ((iha ha).conv hdom.symm)).conv (hcod.inst (Converts.of_par ha).symm)
  | lam _ _ ihA ihb =>
    cases hpar with
    | lam hA hb =>
      -- The body keeps its type where the variable has the reduced one.
      have hconv := Converts.of_par hA
      exact (HasType.lam (ihA hA) ((ihb hb).context_head hconv.symm)).conv
        (hconv.symm.pi (.refl _))
  | pi _ _ ihA ihB =>
    cases hpar with
    | pi hA hB => exact .pi (ihA hA) ((ihB hB).context_head (Converts.of_par hA).symm)
  | letE _ _ _ ihA ihv ihb =>
    cases hpar with
    | letE hA hv hb => exact .letE (ihA hA) ((ihv hv).conv (.of_par hA)) (ihb (hb.inst hv))
    | zeta hv hb => exact ihb (hb.inst hv)
  | conv _ hconv ih => exact (ih hpar).conv hconv

theorem HasType.reduct (hS : S.WellTyped) (h : HasType S Γ Δ e T)
    (hred : Reduct S.toDefinitions e e') : HasType S Γ Δ e' T := by
  induction hred with
  | refl => exact h
  | tail _ hpar ih => exact ih.par hS hpar

/-! ### Universe parameters -/

/-- Whether the types and the values at other levels are those with the levels
replaced. -/
structure Signature.Polymorphic (S : Signature) : Prop where
  type {n : Name} {ls : List Level} {T : Term} (s : List (Name × Level)) : S.type n ls = some T →
    S.type n (ls.map fun l => (l.instantiate s).simplify) = some (T.instLevels s)
  value {n : Name} {ls : List Level} {v : Term} (s : List (Name × Level)) :
    S.value n ls = some v →
    S.value n (ls.map fun l => (l.instantiate s).simplify) = some (v.instLevels s)

theorem Par.instLevels (hS : S.Polymorphic) (s : List (Name × Level))
    (h : Par S.toDefinitions e e') :
    Par S.toDefinitions (e.instLevels s) (e'.instLevels s) := by
  induction h with
  | app _ _ ihf iha => exact .app ihf iha
  | lam _ _ iht ihb => exact .lam iht ihb
  | pi _ _ iht ihb => exact .pi iht ihb
  | letE _ _ _ iht ihv ihb => exact .letE iht ihv ihb
  | beta _ _ ihb iha =>
    rw [Term.instLevels_inst]
    exact .beta ihb iha
  | zeta _ _ ihv ihb =>
    rw [Term.instLevels_inst]
    exact .zeta ihv ihb
  | delta hv => exact .delta (hS.value s hv)
  | _ => exact .refl _

theorem Converts.instLevels (hS : S.Polymorphic) (s : List (Name × Level))
    (h : Converts S.toDefinitions T T') :
    Converts S.toDefinitions (T.instLevels s) (T'.instLevels s) := by
  have hmap : ∀ {a b}, Reduct S.toDefinitions a b →
      Reduct S.toDefinitions (a.instLevels s) (b.instLevels s) :=
    fun h => h.map fun h => h.instLevels hS s
  obtain ⟨c, hT, hT'⟩ := h
  exact ⟨c.instLevels s, hmap hT, hmap hT'⟩

theorem Term.instLevels_lift (s : List (Name × Level)) (n : Nat) (e : Term) :
    (e.lift n).instLevels s = (e.instLevels s).lift n :=
  instLevels_rename s _ e

/-- Universe parameters can be replaced in terms, types and contexts. -/
theorem HasType.instLevels (hS : S.Polymorphic) (s : List (Name × Level))
    (h : HasType S .empty Δ e T) :
    HasType S .empty (Δ.map (Term.instLevels s)) (e.instLevels s) (T.instLevels s) := by
  induction h with
  | bvar hA =>
    rw [Term.instLevels_lift]
    refine .bvar ?_
    rw [List.getElem?_map, hA]
    rfl
  | fvar hA => cases hA
  | sort Δ l => exact .sort _ _
  | const hT => exact .const (hS.type s hT)
  | lit Δ v => exact .lit _ v
  | app _ _ ihf iha =>
    rw [Term.instLevels_inst]
    exact .app ihf iha
  | lam _ _ ihA ihb => exact .lam ihA ihb
  | @pi Δ A B l l' _ _ ihA ihB =>
    have hlevel : (((Level.imax l l').simplify).instantiate s).simplify =
        (Level.imax (l.instantiate s).simplify (l'.instantiate s).simplify).simplify := by
      rw [Level.simplify_instantiate, Level.instantiate, Level.simplify, Level.simplify,
        Level.simplify_idem, Level.simplify_idem]
    have hpi := HasType.pi ihA ihB
    rw [← hlevel] at hpi
    exact hpi
  | letE _ _ _ ihA ihv ihb =>
    rw [Term.instLevels_inst] at ihb
    exact .letE ihA ihv ihb
  | conv _ hconv ih => exact ih.conv (hconv.instLevels hS s)

/-! ### More constants -/

/-- Whether the constants have the same types and values in `S'`. -/
structure Signature.Le (S S' : Signature) : Prop where
  value : S.toDefinitions.Le S'.toDefinitions
  type : ∀ {n ls T}, S.type n ls = some T → S'.type n ls = some T

theorem HasType.of_le (hS : S.Le S') (h : HasType S Γ Δ e T) : HasType S' Γ Δ e T := by
  induction h with
  | bvar hA => exact .bvar hA
  | fvar hA => exact .fvar hA
  | sort Δ l => exact .sort Δ l
  | const hT => exact .const (hS.type hT)
  | lit Δ v => exact .lit Δ v
  | app _ _ ihf iha => exact .app ihf iha
  | lam _ _ ihA ihb => exact .lam ihA ihb
  | pi _ _ ihA ihB => exact .pi ihA ihB
  | letE _ _ _ ihA ihv ihb => exact .letE ihA ihv ihb
  | conv _ hconv ih => exact ih.conv (hconv.mono hS.value)

end

end Pinpoint
