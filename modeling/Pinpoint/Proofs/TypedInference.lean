/-
Inference within the widths of the machine.

`inferTypeWithin` says of an inference that all terms it comes across are
narrow, as `whnfWithin` and `isDefEqWithin` do of reduction and comparison.
Inference opens binders with variables that it draws, where the calculus keeps
them bound; a variable that is drawn comes after all that are in use, so a
binder can be opened and closed again (`HasType.openBinder`,
`HasType.closeBinder`).

* `Environment.Prepared` — such an inference, of a term whose variables are known;
* `inferType_hasType` — what inference gives a term is a type of it;
* `inferType_hasUniverse` — and that type has a universe;
* `inferType_neverFails` — a term that has a type is given one, if inference
  ends.
-/
import Pinpoint.Proofs.Freshness
import Pinpoint.Proofs.Inference
import Pinpoint.Proofs.Widths

namespace Pinpoint

/-! ### The variables of typed terms -/

namespace Term

variable {p q : FVarId → Prop} {m n : Nat} {ρ : Nat → Nat} {σ : Subst} {e v : Term}

theorem Uses.of_rename (h : (e.rename ρ).Uses p n) (hρ : ∀ i, ρ i < n → i < m) : e.Uses p m := by
  have hunder : ∀ {m n : Nat} {ρ : Nat → Nat}, (∀ i, ρ i < n → i < m) →
      ∀ i, under ρ i < n + 1 → i < m + 1 := by
    intro m n ρ hρ i hi
    cases i with
    | zero => exact Nat.succ_pos m
    | succ i => exact Nat.succ_lt_succ (hρ i (Nat.lt_of_succ_lt_succ hi))
  induction e generalizing m n ρ with
  | bvar i => exact hρ i h
  | app _ _ ihf iha => exact ⟨ihf h.1 hρ, iha h.2 hρ⟩
  | lam _ _ iht ihb | pi _ _ iht ihb => exact ⟨iht h.1 hρ, ihb h.2 (hunder hρ)⟩
  | letE _ _ _ iht ihv ihb => exact ⟨iht h.1 hρ, ihv h.2.1 hρ, ihb h.2.2 (hunder hρ)⟩
  | _ => exact h

theorem Uses.of_lift (h : (e.lift 1).Uses p (n + 1)) : e.Uses p n :=
  h.of_rename fun _ => Nat.lt_of_succ_lt_succ

/-- A variable that a substitution turns into a term is found where the term
is. -/
theorem Uses.of_subst (h : (e.subst σ).Uses q n) (hbound : ∀ i, (σ.bound i).Uses q n → i < m)
    (hfree : ∀ x, (σ.free x).Uses q n → p x) : e.Uses p m := by
  have hup : ∀ {m n : Nat} {σ : Subst}, (∀ i, (σ.bound i).Uses q n → i < m) →
      ∀ i, (σ.up.bound i).Uses q (n + 1) → i < m + 1 := by
    intro m n σ hbound i hi
    cases i with
    | zero => exact Nat.succ_pos m
    | succ i => exact Nat.succ_lt_succ (hbound i hi.of_lift)
  induction e generalizing m n σ with
  | bvar i => exact hbound i h
  | fvar x => exact hfree x h
  | app _ _ ihf iha => exact ⟨ihf h.1 hbound hfree, iha h.2 hbound hfree⟩
  | lam _ _ iht ihb | pi _ _ iht ihb =>
    exact ⟨iht h.1 hbound hfree, ihb h.2 (hup hbound) fun x hx => hfree x hx.of_lift⟩
  | letE _ _ _ iht ihv ihb =>
    exact ⟨iht h.1 hbound hfree, ihv h.2.1 hbound hfree,
      ihb h.2.2 (hup hbound) fun x hx => hfree x hx.of_lift⟩
  | _ => trivial

theorem Uses.of_inst (h : (e.inst v).Uses p n) : e.Uses p (n + 1) := by
  refine h.of_subst (fun i hi => ?_) fun x hx => hx
  cases i with
  | zero => exact Nat.succ_pos n
  | succ i => exact Nat.succ_lt_succ hi

end Term

section
variable {S : Signature} {Γ : Locals} {Δ : List Term} {A B T b e : Term} {x : FVarId} {k m : Nat}

/-- The variables of a typed term are those that have types. -/
theorem HasType.uses (h : HasType S Γ Δ e T) :
    e.Uses (fun x => (Γ.type x).isSome) Δ.length := by
  induction h with
  | bvar hA => exact (List.getElem?_eq_some_iff.mp hA).1
  | fvar hA => exact Option.isSome_iff_exists.mpr ⟨_, hA⟩
  | app _ _ ihf iha => exact ⟨ihf, iha⟩
  | lam _ _ ihA ihb | pi _ _ ihA ihb => exact ⟨ihA, ihb⟩
  | letE _ _ _ ihA ihv ihb => exact ⟨ihA, ihv, ihb.of_inst⟩
  | conv _ _ ih => exact ih
  | _ => trivial

theorem HasType.closed (h : HasType S Γ [] e T) : e.Closed :=
  h.uses.mono (Nat.le_refl 0) fun _ _ => trivial

/-! ### Binders opened and closed -/

/-- The types of free variables with one more. -/
def Locals.insert (Γ : Locals) (x : FVarId) (A : Term) (hA : A.Closed) : Locals where
  type y := if y = x then some A else Γ.type y
  closed := by
    intro y B hB
    split at hB
    · obtain rfl := Option.some.inj hB
      exact hA
    · exact Γ.closed hB

theorem Locals.type_insert_self (Γ : Locals) (x : FVarId) (hA : A.Closed) :
    (Γ.insert x A hA).type x = some A :=
  if_pos rfl

theorem Locals.type_insert_of_ne (hA : A.Closed) {y : FVarId} (h : y ≠ x) :
    (Γ.insert x A hA).type y = Γ.type y :=
  if_neg h

/-- Whether the variables that have types, and those of their types, have
numbers below a bound. -/
def Locals.Below (Γ : Locals) (k : Nat) : Prop :=
  ∀ x A, Γ.type x = some A → x.id.toNat < k ∧ A.Uses (fun y => y.id.toNat < k) 0

theorem Locals.Below.mono (h : Γ.Below k) (hkm : k ≤ m) : Γ.Below m := by
  intro x A hA
  obtain ⟨hx, hA⟩ := h x A hA
  exact ⟨Nat.lt_of_lt_of_le hx hkm, hA.mono (Nat.le_refl 0) fun _ hy => Nat.lt_of_lt_of_le hy hkm⟩

theorem Locals.Below.insert (h : Γ.Below k) (hx : x.id.toNat = k) (hA : A.Closed)
    (huses : A.Uses (fun y => y.id.toNat < k) 0) : (Γ.insert x A hA).Below (k + 1) := by
  intro y B hB
  by_cases hy : y = x
  · subst hy
    rw [Γ.type_insert_self] at hB
    obtain rfl := Option.some.inj hB
    exact ⟨by omega, huses.mono (Nat.le_refl 0) fun _ hz => Nat.lt_succ_of_lt hz⟩
  · rw [Locals.type_insert_of_ne hA hy] at hB
    exact h.mono (Nat.le_succ k) y B hB

theorem Locals.Below.type_eq_none (h : Γ.Below k) (hx : k ≤ x.id.toNat) : Γ.type x = none := by
  cases hA : Γ.type x with
  | none => rfl
  | some A => exact absurd (h x A hA).1 (Nat.not_lt.mpr hx)

theorem HasType.uses_below (h : HasType S Γ [] e T) (hΓ : Γ.Below k) :
    e.Uses (fun y => y.id.toNat < k) 0 := by
  refine h.uses.mono (Nat.le_refl 0) fun x hx => ?_
  obtain ⟨A, hA⟩ := Option.isSome_iff_exists.mp hx
  exact (hΓ x A hA).1

/-- One more variable has a type. -/
theorem HasType.insert (h : HasType S Γ [] e T) (hx : Γ.type x = none) (hA : A.Closed) :
    HasType S (Γ.insert x A hA) Δ e T := by
  refine h.weaken fun {y B} hB => ?_
  rw [Locals.type_insert_of_ne hA (by rintro rfl; rw [hx] at hB; cases hB)]
  exact hB

/-- A binder is opened with a new variable. -/
theorem HasType.openBinder (h : HasType S Γ [A] b B) (hx : Γ.type x = none) (hA : A.Closed) :
    HasType S (Γ.insert x A hA) [] (b.inst (.fvar x)) (B.inst (.fvar x)) := by
  refine h.subst (σ := .single (.fvar x)) ⟨fun {i A'} hA' => ?_, fun {y A'} hA' => ?_⟩
  · obtain rfl | i := i
    · obtain rfl := Option.some.inj hA'
      have hlift : (A.lift 1).subst (.single (.fvar x)) = A := Term.inst_lift A _
      rw [hlift]
      exact .fvar (Γ.type_insert_self x hA)
    · cases hA'
  · rw [(Γ.closed hA').subst_eq_self fun _ => rfl]
    refine .fvar ?_
    rw [Locals.type_insert_of_ne hA (by rintro rfl; rw [hx] at hA'; cases hA')]
    exact hA'

theorem Term.inst_subst_closing (hb : b.Uses (fun y => y ≠ x) 1) :
    (b.inst (.fvar x)).subst (Expr.closing x) = b := by
  rw [Term.inst, Term.subst_subst]
  refine Term.subst_eq_self hb (fun i hi => ?_) fun y hy => if_neg hy
  obtain rfl : i = 0 := by omega
  exact if_pos rfl

/-- A new variable is made that of a binder. -/
theorem HasType.subst_closing {hA : A.Closed} (h : HasType S (Γ.insert x A hA) [] e B)
    (hΓ : Γ.Below x.id.toNat) (huses : A.Uses (fun y => y.id.toNat < x.id.toNat) 0) :
    HasType S Γ [A] (e.subst (Expr.closing x)) (B.subst (Expr.closing x)) := by
  have hclosing : ∀ {y : FVarId}, y.id.toNat < x.id.toNat → (Expr.closing x).free y = .fvar y :=
    fun hy => if_neg (by rintro rfl; exact Nat.lt_irrefl _ hy)
  refine h.subst ⟨fun hi => (by cases hi), fun {y A'} hA' => ?_⟩
  by_cases hy : y = x
  · subst hy
    rw [Γ.type_insert_self] at hA'
    obtain rfl := Option.some.inj hA'
    have hself : A.subst (Expr.closing y) = A.lift 1 := by
      rw [Term.lift, hA.rename]
      exact Term.subst_eq_self huses (fun _ hi => absurd hi (Nat.not_lt_zero _)) fun _ => hclosing
    rw [show (Expr.closing y).free y = .bvar 0 from if_pos rfl, hself]
    exact .bvar rfl
  · rw [Locals.type_insert_of_ne hA hy] at hA'
    obtain ⟨hlt, huses'⟩ := hΓ y A' hA'
    rw [hclosing hlt, Term.subst_eq_self huses' (fun _ hi => absurd hi (Nat.not_lt_zero _))
      fun _ => hclosing]
    exact .fvar hA'

/-- A binder is closed again, if the variable was new. -/
theorem HasType.closeBinder {hA : A.Closed}
    (h : HasType S (Γ.insert x A hA) [] (b.inst (.fvar x)) B)
    (hΓ : Γ.Below x.id.toNat) (huses : A.Uses (fun y => y.id.toNat < x.id.toNat) 0)
    (hb : b.Uses (fun y => y ≠ x) 1) : HasType S Γ [A] b (B.subst (Expr.closing x)) := by
  rw [← Term.inst_subst_closing hb]
  exact h.subst_closing hΓ huses

/-- More variables have types that have universes. -/
theorem Locals.WellTyped.insert {l : Level} (hΓ : Γ.WellTyped S) (hx : Γ.type x = none)
    (hA : HasType S Γ [] A (.sort l)) : (Γ.insert x A hA.closed).WellTyped S := by
  intro y B hB
  by_cases hy : y = x
  · subst hy
    rw [Γ.type_insert_self] at hB
    obtain rfl := Option.some.inj hB
    exact ⟨l, hA.insert hx hA.closed⟩
  · rw [Locals.type_insert_of_ne hA.closed hy] at hB
    obtain ⟨l', hl'⟩ := hΓ hB
    exact ⟨l', hl'.insert hx hA.closed⟩

end

theorem narrow_fvar (x : FVarId) : (Expr.fvar x).Narrow := Nat.two_pow_pos 31

section
variable {S : Signature} {Γ : Locals} {t : UInt64} {dom body : Expr} {A X : Term}

theorem Locals.Below.insert_next (hΓ : Γ.Below t.toNat) (hroom : t.toNat + 1 < 2 ^ 64)
    (hA : HasType S Γ [] A X) : (Γ.insert ⟨t⟩ A hA.closed).Below (t + 1).toNat := by
  rw [Supply.toNat_add_one hroom]
  exact hΓ.insert rfl hA.closed (hA.uses_below hΓ)

/-- The body of a binder that is opened with the next variable. -/
theorem HasType.opened (hΓ : Γ.Below t.toNat) (hnarrow : body.Narrow) (hA : A.Closed)
    (h : HasType S Γ [A] body.term X) : HasType S (Γ.insert ⟨t⟩ A hA) []
      (body.instantiate (.fvar ⟨t⟩)).term (X.inst (.fvar ⟨t⟩)) := by
  rw [Expr.term_instantiate hnarrow (narrow_fvar _)]
  exact h.openBinder (hΓ.type_eq_none (Nat.le_refl _)) hA

/-- The body of a binder, from the body that was opened with the next
variable. -/
theorem HasType.of_opened (hΓ : Γ.Below t.toNat) (hnarrow : body.Narrow)
    (hscoped : body.Scoped 1) (hbody : body.FVarsIn fun x => x.id.toNat < t.toNat) {hA : A.Closed}
    (huses : A.Uses (fun x => x.id.toNat < t.toNat) 0)
    (h : HasType S (Γ.insert ⟨t⟩ A hA) [] (body.instantiate (.fvar ⟨t⟩)).term X) :
    HasType S Γ [A] body.term (X.subst (Expr.closing ⟨t⟩)) := by
  rw [Expr.term_instantiate hnarrow (narrow_fvar _)] at h
  refine h.closeBinder hΓ huses ((Expr.uses_term hscoped hbody).mono (Nat.le_refl 1) ?_)
  rintro x hx rfl
  exact Nat.lt_irrefl _ hx

end

/-! ### Inference -/

namespace CheckM

variable {α β : Type} {m : CheckM α} {s s' : UInt64}

/-- Whether the result that a computation has, if it has one, passes. -/
def resultPasses (m : CheckM α) (s : UInt64) (p : α → UInt64 → Bool) : Bool :=
  match m.run.run s with
  | some (.ok a, s') => p a s'
  | _ => true

theorem Returns.passes {a : α} (h : m.Returns s a s') {p : α → UInt64 → Bool}
    (hp : m.resultPasses s p) : p a s' := by
  rw [resultPasses, show m.run.run s = some (.ok a, s') from h] at hp
  exact hp

/-- Whether a computation has a result if it ends. -/
def NeverFails (m : CheckM α) (s : UInt64) : Prop := ∀ e s', m.run.run s ≠ some (.error e, s')

theorem Returns.neverFails {a : α} (h : m.Returns s a s') : m.NeverFails s := by
  intro e t he
  cases (show some (Except.ok a, s') = some (Except.error e, t) from h.symm.trans he)

theorem neverFails_pure (a : α) : NeverFails (pure a) s := nofun

theorem neverFails_lift (o : Option α) : NeverFails (liftM o : CheckM α) s := by
  cases o <;> nofun

theorem neverFails_fresh : NeverFails (liftM Supply.fresh : CheckM FVarId) s := nofun

theorem NeverFails.bind {f : α → CheckM β} (hm : m.NeverFails s)
    (hf : ∀ a t, m.Returns s a t → (f a).NeverFails t) : NeverFails (m >>= f) s := by
  intro e s' h
  rw [ExceptT.run_bind, Supply.run_bind_eq_some] at h
  obtain ⟨_ | a, t, hma, h⟩ := h
  · exact hm _ _ hma
  · exact hf a t hma e s' h

end CheckM

namespace Environment

/-- Whether an inference that begins with a supply of variables comes across
narrow terms only. -/
def inferTypeWithin (env : Environment) : Nat → LocalContext → Expr → UInt64 → Bool
  | 0, _, _, _ => true
  | n + 1, Γ, e, s =>
    decide e.Narrow &&
    match e with
    | .mdata _ e => inferTypeWithin env n Γ e s
    | .app f a =>
      inferTypeWithin env n Γ f s && (env.inferType n Γ f).resultPasses s fun F t =>
        env.whnfWithin .all n F && inferTypeWithin env n Γ a t &&
          (env.inferType n Γ a).resultPasses t fun A _ => (env.whnf .all n F).all fun
            | .pi _ dom _ => env.isDefEqWithin .all n A dom
            | _ => true
    | .lam _ dom body =>
      inferTypeWithin env n Γ dom s && (env.inferType n Γ dom).resultPasses s fun D t =>
        let inside := Γ.push ⟨t⟩ (.simple "x") dom
        let opened := body.instantiate (.fvar ⟨t⟩)
        env.whnfWithin .all n D && inferTypeWithin env n inside opened (t + 1) &&
          (env.inferType n inside opened).resultPasses (t + 1) fun B _ => decide B.Narrow
    | .pi _ dom body =>
      inferTypeWithin env n Γ dom s && (env.inferType n Γ dom).resultPasses s fun D t =>
        let inside := Γ.push ⟨t⟩ (.simple "x") dom
        let opened := body.instantiate (.fvar ⟨t⟩)
        env.whnfWithin .all n D && inferTypeWithin env n inside opened (t + 1) &&
          (env.inferType n inside opened).resultPasses (t + 1) fun B _ => env.whnfWithin .all n B
    | .letE type value body =>
      inferTypeWithin env n Γ type s && (env.inferType n Γ type).resultPasses s fun D t =>
        env.whnfWithin .all n D && inferTypeWithin env n Γ value t &&
          (env.inferType n Γ value).resultPasses t fun A t' =>
            env.isDefEqWithin .all n A type && inferTypeWithin env n Γ (body.instantiate value) t'
    | _ => true

/-- Whether a variable has been drawn before `s`, and has the type in `Δ` that
it has in the context, if it is there. -/
def Known (Γ : LocalContext) (Δ : Locals) (s : UInt64) (x : FVarId) : Prop :=
  x.id.toNat < s.toNat ∧ ∀ entry, Γ.find? x = some entry → Δ.type x = some entry.type.term

section
variable {env : Environment} {Γ : LocalContext} {Δ : Locals} {s t s' : UInt64} {n : Nat}
  {e dom body T : Expr} {x : FVarId} {X : Term}

theorem Known.mono (h : Known Γ Δ s x) (hst : s.toNat ≤ t.toNat) : Known Γ Δ t x :=
  ⟨Nat.lt_of_lt_of_le h.1 hst, h.2⟩

/-- What was known is known under one more binder. -/
theorem Known.push (h : Known Γ Δ t x) (hroom : t.toNat + 1 < 2 ^ 64) (c : Name)
    (hdom : dom.term.Closed) :
    Known (Γ.push ⟨t⟩ c dom) (Δ.insert ⟨t⟩ dom.term hdom) (t + 1) x := by
  have hx : x ≠ ⟨t⟩ := by
    rintro rfl
    exact Nat.lt_irrefl _ h.1
  refine ⟨by rw [Supply.toNat_add_one hroom]; exact Nat.lt_succ_of_lt h.1, fun entry hentry => ?_⟩
  rw [LocalContext.find?_push, if_neg (Ne.symm hx)] at hentry
  rw [Locals.type_insert_of_ne hdom hx]
  exact h.2 entry hentry

/-- So is the variable that opens the binder. -/
theorem known_opened (h : body.FVarsIn (Known Γ Δ t)) (hroom : t.toNat + 1 < 2 ^ 64) (c : Name)
    (hdom : dom.term.Closed) : (body.instantiate (.fvar ⟨t⟩)).FVarsIn
      (Known (Γ.push ⟨t⟩ c dom) (Δ.insert ⟨t⟩ dom.term hdom) (t + 1)) := by
  refine (h.mono fun x hx => hx.push hroom c hdom).instantiate ⟨?_, fun entry hentry => ?_⟩
  · rw [Supply.toNat_add_one hroom]
    exact Nat.lt_succ_self _
  · rw [LocalContext.find?_push, if_pos rfl] at hentry
    obtain rfl := Option.some.inj hentry
    exact Δ.type_insert_self _ hdom

theorem narrow_of_inferTypeWithin (h : env.inferTypeWithin (n + 1) Γ e s) : e.Narrow := by
  cases e <;>
    · simp only [inferTypeWithin, Bool.and_eq_true] at h
      exact of_decide_eq_true h.1

/-- What makes an inference one of the calculus: the variables of the term are known,
no number is drawn twice, and all terms that it comes across are narrow. -/
structure Prepared (env : Environment) (n : Nat) (Γ : LocalContext) (Δ : Locals) (e : Expr)
    (s : UInt64) : Prop where
  below : Δ.Below s.toNat
  known : e.FVarsIn (Known Γ Δ s)
  within : env.inferTypeWithin n Γ e s
  room : s.toNat + e.openings n < 2 ^ 64

namespace Prepared

theorem narrow (h : env.Prepared (n + 1) Γ Δ e s) : e.Narrow :=
  narrow_of_inferTypeWithin h.within

theorem mdata {m : List (Name × MDataValue)} (h : env.Prepared (n + 1) Γ Δ (.mdata m e) s) :
    env.Prepared n Γ Δ e s where
  below := h.below
  known := h.known
  within := by
    have hwithin := h.within
    rw [inferTypeWithin, Bool.and_eq_true] at hwithin
    exact hwithin.2
  room := h.room

/-! Applications: the function is asked for first, then the argument. -/

section
variable {f a F A : Expr}

theorem appFn (h : env.Prepared (n + 1) Γ Δ (.app f a) s) : env.Prepared n Γ Δ f s where
  below := h.below
  known := h.known.1
  within := by
    have hwithin := h.within
    rw [inferTypeWithin, Bool.and_eq_true, Bool.and_eq_true] at hwithin
    exact hwithin.2.1
  room := by
    have hroom := h.room
    rw [Expr.openings] at hroom
    omega

theorem appWithin (h : env.Prepared (n + 1) Γ Δ (.app f a) s)
    (hF : (env.inferType n Γ f).Returns s F t) :
    (env.whnfWithin .all n F ∧ env.inferTypeWithin n Γ a t) ∧
      ∀ {info dom body A s'}, env.whnf .all n F = some (.pi info dom body) →
        (env.inferType n Γ a).Returns t A s' → env.isDefEqWithin .all n A dom := by
  have hwithin := h.within
  rw [inferTypeWithin, Bool.and_eq_true, Bool.and_eq_true] at hwithin
  have hpass := hF.passes hwithin.2.2
  rw [Bool.and_eq_true, Bool.and_eq_true] at hpass
  refine ⟨hpass.1, fun hpi hA => ?_⟩
  have hcompared := hA.passes hpass.2
  rw [hpi] at hcompared
  exact hcompared

theorem appArg (h : env.Prepared (n + 1) Γ Δ (.app f a) s)
    (hF : (env.inferType n Γ f).Returns s F t) : env.Prepared n Γ Δ a t := by
  have hroom := h.room
  rw [Expr.openings] at hroom
  have ht := toNat_supply hF (by omega)
  exact {
    below := h.below.mono (by omega)
    known := h.known.2.mono fun x hx => hx.mono (by omega)
    within := (h.appWithin hF).1.2
    room := by omega }

end

/-! Functions and quantifiers: the type of the binder, and the opened body. -/

section
variable {info : BinderInfo} {D B : Expr}

theorem binderType (h : env.Prepared (n + 1) Γ Δ e s)
    (he : e = .lam info dom body ∨ e = .pi info dom body) : env.Prepared n Γ Δ dom s where
  below := h.below
  known := by
    rcases he with rfl | rfl <;> exact h.known.1
  within := by
    have hwithin := h.within
    rcases he with rfl | rfl <;>
      · rw [inferTypeWithin, Bool.and_eq_true, Bool.and_eq_true] at hwithin
        exact hwithin.2.1
  room := by
    have hroom := h.room
    rcases he with rfl | rfl <;>
      · rw [Expr.openings] at hroom
        omega

theorem binderWithin (h : env.Prepared (n + 1) Γ Δ e s)
    (he : e = .lam info dom body ∨ e = .pi info dom body)
    (hD : (env.inferType n Γ dom).Returns s D t) :
    env.whnfWithin .all n D ∧ env.inferTypeWithin n (Γ.push ⟨t⟩ (.simple "x") dom)
      (body.instantiate (.fvar ⟨t⟩)) (t + 1) := by
  have hwithin := h.within
  rcases he with rfl | rfl <;>
    · rw [inferTypeWithin, Bool.and_eq_true, Bool.and_eq_true] at hwithin
      have hpass := hD.passes hwithin.2.2
      rw [Bool.and_eq_true, Bool.and_eq_true] at hpass
      exact hpass.1

/-- What is known of the body where the binder is opened. -/
theorem binderKnown (h : env.Prepared (n + 1) Γ Δ e s)
    (he : e = .lam info dom body ∨ e = .pi info dom body)
    (hD : (env.inferType n Γ dom).Returns s D t) :
    Δ.Below t.toNat ∧ body.FVarsIn (Known Γ Δ t) ∧
      t.toNat + 1 + (body.instantiate (.fvar ⟨0⟩)).openings n < 2 ^ 64 := by
  have ht := toNat_supply hD (h.binderType he).room
  have hroom := h.room
  have hknown := h.known
  refine ⟨h.below.mono (by omega), ?_, ?_⟩ <;> rcases he with rfl | rfl
  · exact hknown.2.mono fun x hx => hx.mono (by omega)
  · exact hknown.2.mono fun x hx => hx.mono (by omega)
  · rw [Expr.openings] at hroom
    omega
  · rw [Expr.openings] at hroom
    omega

theorem binderBody {S : Signature} (h : env.Prepared (n + 1) Γ Δ e s)
    (he : e = .lam info dom body ∨ e = .pi info dom body)
    (hD : (env.inferType n Γ dom).Returns s D t) (hdom : HasType S Δ [] dom.term X) :
    env.Prepared n (Γ.push ⟨t⟩ (.simple "x") dom) (Δ.insert ⟨t⟩ dom.term hdom.closed)
      (body.instantiate (.fvar ⟨t⟩)) (t + 1) := by
  obtain ⟨hbelow, hknown, hroom⟩ := h.binderKnown he hD
  exact {
    below := hbelow.insert_next (by omega) hdom
    known := known_opened hknown (by omega) _ _
    within := (h.binderWithin he hD).2
    room := by rw [Expr.openings_instantiate_fvar, Supply.toNat_add_one (by omega)]; omega }

/-- The opened body has a type of the calculus, and so has the body. -/
theorem closeBody {S : Signature} (h : env.Prepared (n + 1) Γ Δ e s)
    (he : e = .lam info dom body ∨ e = .pi info dom body) (hscoped : body.Scoped 1)
    (hD : (env.inferType n Γ dom).Returns s D t) (hdom : HasType S Δ [] dom.term X) {Y : Term}
    (hbody : HasType S (Δ.insert ⟨t⟩ dom.term hdom.closed) []
      (body.instantiate (.fvar ⟨t⟩)).term Y) :
    HasType S Δ [dom.term] body.term (Y.subst (Expr.closing ⟨t⟩)) := by
  obtain ⟨hbelow, hknown, -⟩ := h.binderKnown he hD
  have hnarrow : body.Narrow := by
    rcases he with rfl | rfl
    · exact (Expr.narrow_lam h.narrow).2
    · exact (Expr.narrow_pi h.narrow).2
  exact hbody.of_opened hbelow hnarrow hscoped (hknown.mono fun _ hx => hx.1)
    (hdom.uses_below hbelow)

theorem lamNarrow (h : env.Prepared (n + 1) Γ Δ (.lam info dom body) s)
    (hD : (env.inferType n Γ dom).Returns s D t)
    (hB : (env.inferType n (Γ.push ⟨t⟩ (.simple "x") dom) (body.instantiate (.fvar ⟨t⟩))).Returns
      (t + 1) B s') : B.Narrow := by
  have hwithin := h.within
  rw [inferTypeWithin, Bool.and_eq_true, Bool.and_eq_true] at hwithin
  have hpass := hD.passes hwithin.2.2
  rw [Bool.and_eq_true, Bool.and_eq_true] at hpass
  exact of_decide_eq_true (hB.passes hpass.2)

theorem piWithin (h : env.Prepared (n + 1) Γ Δ (.pi info dom body) s)
    (hD : (env.inferType n Γ dom).Returns s D t)
    (hB : (env.inferType n (Γ.push ⟨t⟩ (.simple "x") dom) (body.instantiate (.fvar ⟨t⟩))).Returns
      (t + 1) B s') : env.whnfWithin .all n B := by
  have hwithin := h.within
  rw [inferTypeWithin, Bool.and_eq_true, Bool.and_eq_true] at hwithin
  have hpass := hD.passes hwithin.2.2
  rw [Bool.and_eq_true, Bool.and_eq_true] at hpass
  exact hB.passes hpass.2

end

/-! Definitions inside terms: the type, the value, and the body with the value. -/

section
variable {type value D A : Expr} {t' : UInt64}

theorem letType (h : env.Prepared (n + 1) Γ Δ (.letE type value body) s) :
    env.Prepared n Γ Δ type s where
  below := h.below
  known := h.known.1
  within := by
    have hwithin := h.within
    rw [inferTypeWithin, Bool.and_eq_true, Bool.and_eq_true] at hwithin
    exact hwithin.2.1
  room := by
    have hroom := h.room
    rw [Expr.openings] at hroom
    omega

theorem letWithin (h : env.Prepared (n + 1) Γ Δ (.letE type value body) s)
    (hD : (env.inferType n Γ type).Returns s D t) :
    (env.whnfWithin .all n D ∧ env.inferTypeWithin n Γ value t) ∧
      ∀ {A t'}, (env.inferType n Γ value).Returns t A t' →
        env.isDefEqWithin .all n A type ∧
          env.inferTypeWithin n Γ (body.instantiate value) t' := by
  have hwithin := h.within
  rw [inferTypeWithin, Bool.and_eq_true, Bool.and_eq_true] at hwithin
  have hpass := hD.passes hwithin.2.2
  rw [Bool.and_eq_true, Bool.and_eq_true] at hpass
  refine ⟨hpass.1, fun hA => ?_⟩
  have hrest := hA.passes hpass.2
  rwa [Bool.and_eq_true] at hrest

theorem letValue (h : env.Prepared (n + 1) Γ Δ (.letE type value body) s)
    (hD : (env.inferType n Γ type).Returns s D t) : env.Prepared n Γ Δ value t := by
  have hroom := h.room
  rw [Expr.openings] at hroom
  have ht := toNat_supply hD (by omega)
  exact {
    below := h.below.mono (by omega)
    known := h.known.2.1.mono fun x hx => hx.mono (by omega)
    within := (h.letWithin hD).1.2
    room := by omega }

theorem letBody (h : env.Prepared (n + 1) Γ Δ (.letE type value body) s)
    (hD : (env.inferType n Γ type).Returns s D t)
    (hA : (env.inferType n Γ value).Returns t A t') :
    env.Prepared n Γ Δ (body.instantiate value) t' := by
  have hroom := h.room
  rw [Expr.openings] at hroom
  have ht := toNat_supply hD (by omega)
  have ht' := toNat_supply hA (by omega)
  exact {
    below := h.below.mono (by omega)
    known := (h.known.2.2.instantiate h.known.2.1).mono fun x hx => hx.mono (by omega)
    within := ((h.letWithin hD).2 hA).2
    room := by omega }

end

end Prepared

/-- What inference gives a constant is its type in the calculus. -/
theorem typeTerm?_of_instantiateType {c : Name} {ls : List Level} {info : Constant}
    (hinfo : env.find? c = some info) (hT : info.instantiateType ls = .ok T) :
    env.typeTerm? c (ls.map Level.simplify) = some T.term := by
  obtain ⟨subst, hsubst, rfl⟩ := instantiateType_eq_ok hT
  obtain ⟨hlen, rfl⟩ := levelSubst_eq_ok.mp hsubst
  refine typeTerm?_eq_some.mpr ⟨info, hinfo, by rwa [List.length_map], ?_⟩
  rw [Expr.term_instantiateLevels, instLevels_zip_simplify]

/-- What inference gives a term, coming across narrow terms only, is a type of
the term. -/
theorem inferType_hasType (henv : env.Ground) (hp : env.Prepared n Γ Δ e s)
    (h : (env.inferType n Γ e).Returns s T s') : HasType henv.signature Δ [] e.term T.term := by
  induction n generalizing Γ Δ e T s s' with
  | zero => exact absurd h not_inferType_zero_returns
  | succ n ih =>
    have hscoped := scoped_of_inferType h
    cases e with
    | bvar i => exact absurd h not_inferType_bvar_returns
    | fvar x =>
      obtain ⟨⟨entry, hentry, rfl⟩, -⟩ := inferType_fvar_returns_iff.mp h
      exact .fvar (hp.known.2 entry hentry)
    | sort l =>
      obtain ⟨rfl, -⟩ := inferType_sort_returns_iff.mp h
      exact .sort [] l.simplify
    | const c ls =>
      obtain ⟨⟨info, hinfo, hT⟩, -⟩ := inferType_const_returns_iff.mp h
      exact .const (typeTerm?_of_instantiateType hinfo hT)
    | lit v =>
      obtain ⟨rfl, -⟩ := inferType_lit_returns_iff.mp h
      cases v <;> exact .lit [] _
    | mdata m e => exact ih (e := e) hp.mdata (inferType_mdata_returns_iff.mp h)
    | app f a =>
      obtain ⟨F, A, info, dom, body, t, hF, hpi, hA, hdom, rfl⟩ := inferType_app_returns_iff.mp h
      obtain ⟨⟨hwF, -⟩, hwA⟩ := hp.appWithin hF
      have htf := ih hp.appFn hF
      have hta := ih (hp.appArg hF) hA
      -- The type of the function reduces to a type of functions, and the type of the
      -- argument is convertible with its domain.
      obtain ⟨hred, -, hnarrowPi, -⟩ := whnf_reduct henv hpi hwF
      rw [Expr.term_instantiate (Expr.narrow_pi hnarrowPi).2 (Expr.narrow_app.mp hp.narrow).2]
      exact .app (htf.conv (.of_reduct hred)) (hta.conv (isDefEq_converts henv hdom (hwA hpi hA)))
    | lam info dom body =>
      obtain ⟨D, l, B, t, hD, hl, hB, rfl⟩ := inferType_lam_returns_iff.mp h
      have htd := ih (hp.binderType (.inl rfl)) hD
      -- The variable that opens the body is new, so that the binder can be closed again.
      have htb := ih (hp.binderBody (.inl rfl) hD htd) hB
      have hsort := htd.conv (.of_reduct (whnf_reduct henv hl (hp.binderWithin (.inl rfl) hD).1).1)
      rw [Expr.term, Expr.term, Expr.term_abstractFVar (hp.lamNarrow hD hB)]
      exact .lam hsort (hp.closeBody (.inl rfl) hscoped.2 hD htd htb)
    | pi info dom body =>
      obtain ⟨D, l₁, B, l₂, t, hD, hl₁, hB, hl₂, rfl⟩ := inferType_pi_returns_iff.mp h
      have htd := ih (hp.binderType (.inr rfl)) hD
      have htb := ih (hp.binderBody (.inr rfl) hD htd) hB
      have hsort := htd.conv
        (.of_reduct (whnf_reduct henv hl₁ (hp.binderWithin (.inr rfl) hD).1).1)
      have hsort' := htb.conv (.of_reduct (whnf_reduct henv hl₂ (hp.piWithin hD hB)).1)
      -- Levels of the calculus are simplified.
      have hlevel : (Level.imax l₁ l₂).simplify.simplify =
          (Level.imax l₁.simplify l₂.simplify).simplify := by
        rw [Level.simplify_idem, Level.simplify, Level.simplify, Level.simplify_idem,
          Level.simplify_idem]
      rw [Expr.term, Expr.term, hlevel]
      exact .pi hsort (hp.closeBody (.inr rfl) hscoped.2 hD htd hsort')
    | letE type value body =>
      obtain ⟨D, l, A, t, t', hD, hl, hA, htype, hB⟩ := inferType_letE_returns_iff.mp h
      obtain ⟨⟨hwD, -⟩, hwA⟩ := hp.letWithin hD
      obtain ⟨-, hvalue, hbody⟩ := Expr.narrow_letE hp.narrow
      have hsort := (ih hp.letType hD).conv (.of_reduct (whnf_reduct henv hl hwD).1)
      have htv := ih (hp.letValue hD) hA
      have htb := ih (hp.letBody hD hA) hB
      rw [Expr.term_instantiate hbody hvalue] at htb
      exact .letE hsort (htv.conv (isDefEq_converts henv htype (hwA hA).1)) htb

/-- The type that inference gives a term has a universe. -/
theorem inferType_hasUniverse (henv : env.Ground) (hS : henv.signature.WellTyped)
    (hwell : Δ.WellTyped henv.signature) (hp : env.Prepared n Γ Δ e s)
    (h : (env.inferType n Γ e).Returns s T s') :
    ∃ l, HasType henv.signature Δ [] T.term (.sort l) := by
  induction n generalizing Γ Δ e T s s' with
  | zero => exact absurd h not_inferType_zero_returns
  | succ n ih =>
    cases e with
    | bvar i => exact absurd h not_inferType_bvar_returns
    | fvar x =>
      obtain ⟨⟨entry, hentry, rfl⟩, -⟩ := inferType_fvar_returns_iff.mp h
      exact hwell (hp.known.2 entry hentry)
    | sort l =>
      obtain ⟨rfl, -⟩ := inferType_sort_returns_iff.mp h
      exact ⟨_, .sort [] _⟩
    | const c ls =>
      obtain ⟨⟨info, hinfo, hT⟩, -⟩ := inferType_const_returns_iff.mp h
      obtain ⟨l, hl⟩ := hS.type (typeTerm?_of_instantiateType hinfo hT)
      exact ⟨l, hl.of_empty⟩
    | lit v =>
      obtain ⟨rfl, -⟩ := inferType_lit_returns_iff.mp h
      obtain ⟨l, hl⟩ := hS.literal v
      cases v <;> exact ⟨l, .const hl⟩
    | mdata m e => exact ih (e := e) hwell hp.mdata (inferType_mdata_returns_iff.mp h)
    | app f a =>
      obtain ⟨F, A, info, dom, body, t, hF, hpi, hA, hdom, rfl⟩ := inferType_app_returns_iff.mp h
      obtain ⟨⟨hwF, -⟩, hwA⟩ := hp.appWithin hF
      have hta := inferType_hasType henv (hp.appArg hF) hA
      obtain ⟨l, hl⟩ := ih hwell hp.appFn hF
      -- The type of the function is a quantified type, so the body of that has a universe.
      obtain ⟨hred, -, hnarrowPi, -⟩ := whnf_reduct henv hpi hwF
      obtain ⟨l₁, l₂, -, hbody, -⟩ := (hl.reduct hS hred).generation
      rw [Expr.term_instantiate (Expr.narrow_pi hnarrowPi).2 (Expr.narrow_app.mp hp.narrow).2]
      exact ⟨l₂, hbody.inst (hta.conv (isDefEq_converts henv hdom (hwA hpi hA)))⟩
    | lam info dom body =>
      obtain ⟨D, l, B, t, hD, hl, hB, rfl⟩ := inferType_lam_returns_iff.mp h
      have htd := (inferType_hasType henv (hp.binderType (.inl rfl)) hD).conv
        (.of_reduct (whnf_reduct henv hl (hp.binderWithin (.inl rfl) hD).1).1)
      -- The universe is one in the context with the new variable, which is closed again.
      obtain ⟨hbelow, -, -⟩ := hp.binderKnown (.inl rfl) hD
      have hnone := hbelow.type_eq_none (x := ⟨t⟩) (Nat.le_refl _)
      obtain ⟨l', hl'⟩ := ih (hwell.insert hnone htd) (hp.binderBody (.inl rfl) hD htd) hB
      rw [Expr.term, Expr.term_abstractFVar (hp.lamNarrow hD hB)]
      exact ⟨_, .pi htd (hl'.subst_closing hbelow (htd.uses_below hbelow))⟩
    | pi info dom body =>
      obtain ⟨D, l₁, B, l₂, t, -, -, -, -, rfl⟩ := inferType_pi_returns_iff.mp h
      exact ⟨_, .sort [] _⟩
    | letE type value body =>
      obtain ⟨D, l, A, t, t', hD, -, hA, -, hB⟩ := inferType_letE_returns_iff.mp h
      exact ih hwell (hp.letBody hD hA) hB

/-! ### Terms that have types -/

/-- Whether a variable is known, and in the context. -/
def Given (Γ : LocalContext) (Δ : Locals) (s : UInt64) (x : FVarId) : Prop :=
  Known Γ Δ s x ∧ (Γ.find? x).isSome

/-- Opening a binder adds the variable that it is opened with to the context. -/
theorem found_opened (h : body.FVarsIn fun x => (Γ.find? x).isSome) (c : Name) :
    (body.instantiate (.fvar ⟨t⟩)).FVarsIn fun x => ((Γ.push ⟨t⟩ c dom).find? x).isSome := by
  refine (h.mono fun x hx => ?_).instantiate (show _ = true from ?_)
  · rw [LocalContext.find?_push]
    split
    · rfl
    · exact hx
  · rw [LocalContext.find?_push, if_pos rfl]
    rfl

/-- A type that is convertible with a universe reduces to it, if its reduction
ends. -/
theorem sortOfType_neverFails (henv : env.Ground) {l : Level}
    (h : Converts henv.signature.toDefinitions T.term (.sort l))
    (hwithin : env.whnfWithin .all n T) :
    (env.sortOfType n e T).NeverFails s := by
  unfold sortOfType
  refine (CheckM.neverFails_lift _).bind fun W t hW => ?_
  obtain ⟨hred, hsettled, -, hnot⟩ :=
    whnf_reduct henv (CheckM.returns_lift.mp hW).1 hwithin
  have hagree := ((Converts.of_reduct hred).symm.trans h).agree hsettled trivial
  cases W with
  | sort l => exact CheckM.neverFails_pure l
  | mdata m W => exact absurd rfl (hnot m W)
  | _ => exact hagree.elim

theorem inferType_const_neverFails (henv : env.Ground) {c : Name} {ls : List Level}
    (h : HasType henv.signature Δ [] (Expr.const c ls).term X) :
    (env.inferType (n + 1) Γ (.const c ls)).NeverFails s := by
  obtain ⟨A, hA, -⟩ := h.generation
  obtain ⟨info, hinfo, hlen, -⟩ := typeTerm?_eq_some.mp hA
  rw [List.length_map] at hlen
  rw [inferType, hinfo]
  show (MonadExcept.ofExcept ((info.levelSubst ls).map _) : CheckM Expr).NeverFails s
  rw [levelSubst_eq_ok.mpr ⟨hlen, rfl⟩]
  exact CheckM.neverFails_pure _

/-- A term that has a type is given one by inference that comes across narrow
terms only, if it ends. -/
theorem inferType_neverFails (henv : env.Ground) (hp : env.Prepared n Γ Δ e s)
    (hfound : e.FVarsIn fun x => (Γ.find? x).isSome)
    (h : HasType henv.signature Δ [] e.term X) : (env.inferType n Γ e).NeverFails s := by
  induction n generalizing Γ Δ e X s with
  | zero => exact CheckM.neverFails_lift none
  | succ n ih =>
    cases e with
    | bvar i =>
      obtain ⟨A, hA, -⟩ := h.generation
      cases hA
    | sort l => exact CheckM.neverFails_pure _
    | lit v => cases v <;> exact CheckM.neverFails_pure _
    | fvar x =>
      obtain ⟨entry, hentry⟩ := Option.isSome_iff_exists.mp hfound
      rw [inferType, hentry]
      exact CheckM.neverFails_pure _
    | const c ls => exact inferType_const_neverFails henv h
    | mdata m e => exact ih (e := e) hp.mdata hfound h
    | app f a =>
      obtain ⟨A, B, hf, ha, -⟩ := h.generation
      refine (ih hp.appFn hfound.1 hf).bind fun F t hF => ?_
      obtain ⟨⟨hwF, -⟩, hwA⟩ := hp.appWithin hF
      have htf := inferType_hasType henv hp.appFn hF
      refine (CheckM.neverFails_lift _).bind fun P t' hlift => ?_
      obtain ⟨hP, rfl⟩ := CheckM.returns_lift.mp hlift
      obtain ⟨hred, hsettled, -, hnot⟩ := whnf_reduct henv hP hwF
      -- The type of the function is convertible with a quantified type, so it reduces to one.
      have hagree := ((Converts.of_reduct hred).symm.trans (htf.unique hf)).agree hsettled trivial
      cases P with
      | mdata m P => exact absurd rfl (hnot m P)
      | pi info dom body =>
        refine (ih (hp.appArg hF) hfound.2 ha).bind fun A' t' hA' => ?_
        have hta := inferType_hasType henv (hp.appArg hF) hA'
        refine (CheckM.neverFails_lift _).bind fun r t'' hr => ?_
        obtain rfl := isDefEq_of_converts (t := .all) henv ((hta.unique ha).trans hagree.1.symm)
          (CheckM.returns_lift.mp hr).1 (hwA hP hA')
        exact CheckM.neverFails_pure _
      | _ => exact hagree.elim
    | lam info dom body =>
      obtain ⟨l, B, hdom, hbody, -⟩ := h.generation
      have hpd := hp.binderType (.inl rfl)
      refine (ih hpd hfound.1 hdom).bind fun D t hD => ?_
      have htd := inferType_hasType henv hpd hD
      refine (sortOfType_neverFails henv (htd.unique hdom)
        (hp.binderWithin (.inl rfl) hD).1).bind fun l' t' hl' => ?_
      obtain ⟨-, rfl⟩ := sortOfType_returns_iff.mp hl'
      refine CheckM.neverFails_fresh.bind fun x t' hx => ?_
      obtain ⟨rfl, rfl⟩ := CheckM.returns_fresh.mp hx
      -- The body has its type also where the binder is opened.
      have hopened := hbody.opened (hp.binderKnown (.inl rfl) hD).1 (Expr.narrow_lam hp.narrow).2
        htd.closed
      exact (ih (hp.binderBody (.inl rfl) hD htd) (found_opened hfound.2 _) hopened).bind
        fun B' t' _ => CheckM.neverFails_pure _
    | pi info dom body =>
      obtain ⟨l, l', hdom, hbody, -⟩ := h.generation
      have hpd := hp.binderType (.inr rfl)
      refine (ih hpd hfound.1 hdom).bind fun D t hD => ?_
      have htd := inferType_hasType henv hpd hD
      refine (sortOfType_neverFails henv (htd.unique hdom)
        (hp.binderWithin (.inr rfl) hD).1).bind fun l₁ t' hl => ?_
      obtain ⟨-, rfl⟩ := sortOfType_returns_iff.mp hl
      refine CheckM.neverFails_fresh.bind fun x t' hx => ?_
      -- The body has its type where the binder is opened, and its own type has a universe.
      obtain ⟨rfl, rfl⟩ := CheckM.returns_fresh.mp hx
      have hopened := hbody.opened (hp.binderKnown (.inr rfl) hD).1 (Expr.narrow_pi hp.narrow).2
        htd.closed
      have hpb := hp.binderBody (.inr rfl) hD htd
      refine (ih hpb (found_opened hfound.2 _) hopened).bind fun B t' hB => ?_
      have htb := inferType_hasType henv hpb hB
      exact (sortOfType_neverFails henv (htb.unique hopened) (hp.piWithin hD hB)).bind
        fun l₂ t'' _ => CheckM.neverFails_pure _
    | letE type value body =>
      obtain ⟨l, htype, hvalue, hbody⟩ := h.generation
      refine (ih hp.letType hfound.1 htype).bind fun D t hD => ?_
      obtain ⟨⟨hwD, -⟩, hwA⟩ := hp.letWithin hD
      have htd := inferType_hasType henv hp.letType hD
      refine (sortOfType_neverFails henv (htd.unique htype) hwD).bind fun l₁ t' hl => ?_
      obtain ⟨-, rfl⟩ := sortOfType_returns_iff.mp hl
      refine (ih (hp.letValue hD) hfound.2.1 hvalue).bind fun A t' hA => ?_
      have hta := inferType_hasType henv (hp.letValue hD) hA
      -- The value has the type that the binder gives it, so they are found equal.
      refine (CheckM.neverFails_lift _).bind fun r t'' hlift => ?_
      obtain ⟨hr, rfl⟩ := CheckM.returns_lift.mp hlift
      obtain rfl := isDefEq_of_converts (t := .all) henv (hta.unique hvalue) hr (hwA hA).1
      -- The body has its type with the value put in.
      obtain ⟨-, hnvalue, hnbody⟩ := Expr.narrow_letE hp.narrow
      rw [← Expr.term_instantiate hnbody hnvalue] at hbody
      exact ih (hp.letBody hD hA) (hfound.2.2.instantiate hfound.2.1) hbody

end

end Environment

end Pinpoint
