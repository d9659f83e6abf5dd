/-
Terms with indices of any size.

`Term` leaves out of a term what the checker does not look at: metadata, how
the arguments of binders are supplied, and the parts of a level that simplify.
Its indices are not bounded, so that substitution obeys its laws everywhere;
`Expr.term` in `Proofs.Erasure` leads from the terms of the checker to these.

A substitution replaces the bound variables without a binder and the free
variables at once, because binders are opened by free variables and closed
again.

* `subst_subst`, `subst_inst` — substitutions one after the other, and below a
  binder that is instantiated;
* `subst_congr` — a substitution matters at the variables that occur only;
* `instLevels_subst` — universe parameters are replaced independently.
-/
import Pinpoint.Expr.Basic

namespace Pinpoint

/-- Terms up to metadata, binder annotations and simplification of levels. -/
inductive Term where
  | bvar (index : Nat)
  | fvar (id : FVarId)
  | sort (level : Level)
  | const (name : Name) (levels : List Level)
  | app (fn arg : Term)
  | lam (type body : Term)
  | pi (type body : Term)
  | letE (type value body : Term)
  | lit (value : Literal)

namespace Term

/-- A change of bound variables below one more binder. -/
def under (ρ : Nat → Nat) : Nat → Nat
  | 0 => 0
  | i + 1 => ρ i + 1

/-- The term with its bound variables changed. -/
def rename (ρ : Nat → Nat) : Term → Term
  | .bvar i => .bvar (ρ i)
  | .fvar x => .fvar x
  | .sort l => .sort l
  | .const n ls => .const n ls
  | .app f a => .app (f.rename ρ) (a.rename ρ)
  | .lam t b => .lam (t.rename ρ) (b.rename (under ρ))
  | .pi t b => .pi (t.rename ρ) (b.rename (under ρ))
  | .letE t v b => .letE (t.rename ρ) (v.rename ρ) (b.rename (under ρ))
  | .lit v => .lit v

/-- The term below `n` more binders. -/
def lift (n : Nat) (e : Term) : Term := e.rename (· + n)

@[simp] theorem lift_bvar (n i : Nat) : (bvar i).lift n = .bvar (i + n) := rfl

end Term

/-- What the variables of a term are replaced by. -/
structure Subst where
  bound : Nat → Term
  free : FVarId → Term

namespace Subst

/-- The substitution below one more binder. -/
def up (σ : Subst) : Subst where
  bound
    | 0 => .bvar 0
    | i + 1 => (σ.bound i).lift 1
  free x := (σ.free x).lift 1

/-- The substitution that replaces nothing. -/
def id : Subst := ⟨.bvar, .fvar⟩

/-- The substitution for the variable of a binder. -/
def single (a : Term) : Subst where
  bound
    | 0 => a
    | i + 1 => .bvar i
  free := .fvar

/-- The substitution for free variables. -/
def ofFree (τ : FVarId → Term) : Subst := ⟨.bvar, τ⟩

end Subst

namespace Term

/-- The term with its variables replaced. -/
def subst (σ : Subst) : Term → Term
  | .bvar i => σ.bound i
  | .fvar x => σ.free x
  | .sort l => .sort l
  | .const n ls => .const n ls
  | .app f a => .app (f.subst σ) (a.subst σ)
  | .lam t b => .lam (t.subst σ) (b.subst σ.up)
  | .pi t b => .pi (t.subst σ) (b.subst σ.up)
  | .letE t v b => .letE (t.subst σ) (v.subst σ) (b.subst σ.up)
  | .lit v => .lit v

/-- The body of a binder with its variable replaced. -/
def inst (b a : Term) : Term := b.subst (.single a)

end Term

/-! ### Changes of variables and substitutions -/

namespace Subst

/-- A substitution after a change of bound variables. -/
def afterRename (ρ : Nat → Nat) (σ : Subst) : Subst := ⟨fun i => σ.bound (ρ i), σ.free⟩

/-- A change of bound variables after a substitution. -/
def thenRename (σ : Subst) (ρ : Nat → Nat) : Subst :=
  ⟨fun i => (σ.bound i).rename ρ, fun x => (σ.free x).rename ρ⟩

/-- One substitution after another. -/
def comp (σ τ : Subst) : Subst :=
  ⟨fun i => (σ.bound i).subst τ, fun x => (σ.free x).subst τ⟩

@[ext] theorem ext' {σ τ : Subst} (hbound : ∀ i, σ.bound i = τ.bound i)
    (hfree : ∀ x, σ.free x = τ.free x) : σ = τ := by
  obtain ⟨_, _⟩ := σ
  obtain ⟨_, _⟩ := τ
  obtain rfl := funext hbound
  obtain rfl := funext hfree
  rfl

@[simp] theorem up_id : id.up = id := by
  refine ext' (fun i => ?_) fun x => rfl
  cases i <;> rfl

end Subst

namespace Term

open Subst

theorem under_comp (ρ ρ' : Nat → Nat) :
    (fun i => under ρ' (under ρ i)) = under fun i => ρ' (ρ i) := by
  funext i
  cases i <;> rfl

theorem rename_rename (ρ ρ' : Nat → Nat) (e : Term) :
    (e.rename ρ).rename ρ' = e.rename fun i => ρ' (ρ i) := by
  induction e generalizing ρ ρ' with
  | app f a ihf iha => simp only [rename, ihf, iha]
  | lam t b iht ihb | pi t b iht ihb => simp only [rename, iht, ihb, under_comp]
  | letE t v b iht ihv ihb => simp only [rename, iht, ihv, ihb, under_comp]
  | _ => rfl

theorem up_afterRename (ρ : Nat → Nat) (σ : Subst) :
    σ.up.afterRename (under ρ) = (σ.afterRename ρ).up := by
  refine ext' (fun i => ?_) fun x => rfl
  cases i <;> rfl

theorem subst_rename (ρ : Nat → Nat) (σ : Subst) (e : Term) :
    (e.rename ρ).subst σ = e.subst (σ.afterRename ρ) := by
  induction e generalizing ρ σ with
  | app f a ihf iha => simp only [rename, subst, ihf, iha]
  | lam t b iht ihb | pi t b iht ihb => simp only [rename, subst, iht, ihb, up_afterRename]
  | letE t v b iht ihv ihb => simp only [rename, subst, iht, ihv, ihb, up_afterRename]
  | _ => rfl

theorem lift_rename (ρ : Nat → Nat) (e : Term) :
    (e.lift 1).rename (under ρ) = (e.rename ρ).lift 1 := by
  rw [lift, lift, rename_rename, rename_rename]
  rfl

theorem up_thenRename (σ : Subst) (ρ : Nat → Nat) :
    σ.up.thenRename (under ρ) = (σ.thenRename ρ).up := by
  refine ext' (fun i => ?_) fun x => lift_rename ρ _
  cases i with
  | zero => rfl
  | succ i => exact lift_rename ρ _

theorem rename_subst (σ : Subst) (ρ : Nat → Nat) (e : Term) :
    (e.subst σ).rename ρ = e.subst (σ.thenRename ρ) := by
  induction e generalizing ρ σ with
  | app f a ihf iha => simp only [rename, subst, ihf, iha]
  | lam t b iht ihb | pi t b iht ihb => simp only [rename, subst, iht, ihb, up_thenRename]
  | letE t v b iht ihv ihb => simp only [rename, subst, iht, ihv, ihb, up_thenRename]
  | _ => rfl

theorem lift_subst_up (σ : Subst) (e : Term) : (e.lift 1).subst σ.up = (e.subst σ).lift 1 := by
  rw [lift, lift, subst_rename, rename_subst]
  rfl

theorem up_comp (σ τ : Subst) : σ.up.comp τ.up = (σ.comp τ).up := by
  refine ext' (fun i => ?_) fun x => lift_subst_up τ _
  cases i with
  | zero => rfl
  | succ i => exact lift_subst_up τ _

/-- Two substitutions in a row are one. -/
theorem subst_subst (σ τ : Subst) (e : Term) : (e.subst σ).subst τ = e.subst (σ.comp τ) := by
  induction e generalizing σ τ with
  | app f a ihf iha => simp only [subst, ihf, iha]
  | lam t b iht ihb | pi t b iht ihb => simp only [subst, iht, ihb, up_comp]
  | letE t v b iht ihv ihb => simp only [subst, iht, ihv, ihb, up_comp]
  | _ => rfl

@[simp] theorem subst_id (e : Term) : e.subst Subst.id = e := by
  induction e with
  | app f a ihf iha => simp only [subst, ihf, iha]
  | lam t b iht ihb | pi t b iht ihb => simp only [subst, iht, ihb, up_id]
  | letE t v b iht ihv ihb => simp only [subst, iht, ihv, ihb, up_id]
  | _ => rfl

theorem rename_eq_subst (ρ : Nat → Nat) (e : Term) :
    e.rename ρ = e.subst ⟨fun i => .bvar (ρ i), .fvar⟩ := by
  have h := subst_rename ρ Subst.id e
  rwa [subst_id] at h

@[simp] theorem rename_id (e : Term) : e.rename (fun i => i) = e := by
  rw [rename_eq_subst]
  exact subst_id e

/-- A term below one more binder does not mention its variable. -/
@[simp] theorem inst_lift (e a : Term) : (e.lift 1).inst a = e := by
  rw [inst, lift, subst_rename]
  exact subst_id e

/-- A substitution goes below a binder that is instantiated. -/
theorem subst_inst (σ : Subst) (b a : Term) :
    (b.inst a).subst σ = (b.subst σ.up).inst (a.subst σ) := by
  rw [inst, inst, subst_subst, subst_subst]
  congr 1
  refine ext' (fun i => ?_) fun x => (inst_lift _ _).symm
  cases i with
  | zero => rfl
  | succ i => exact (inst_lift _ _).symm

theorem rename_inst (ρ : Nat → Nat) (b a : Term) :
    (b.inst a).rename ρ = (b.rename (under ρ)).inst (a.rename ρ) := by
  rw [inst, inst, rename_subst, subst_rename]
  congr 1
  refine ext' (fun i => ?_) fun x => rfl
  cases i <;> rfl

/-! ### Variables that occur -/

/-- Whether the bound variables without a binder are among the first `n`, and
the free variables are as asked. -/
def Uses (p : FVarId → Prop) : Nat → Term → Prop
  | n, .bvar i => i < n
  | _, .fvar x => p x
  | n, .app f a => f.Uses p n ∧ a.Uses p n
  | n, .lam t b => t.Uses p n ∧ b.Uses p (n + 1)
  | n, .pi t b => t.Uses p n ∧ b.Uses p (n + 1)
  | n, .letE t v b => t.Uses p n ∧ v.Uses p n ∧ b.Uses p (n + 1)
  | _, _ => True

theorem up_bound_congr {n : Nat} {σ τ : Subst} (h : ∀ i < n, σ.bound i = τ.bound i) :
    ∀ i < n + 1, σ.up.bound i = τ.up.bound i := by
  intro i hi
  cases i with
  | zero => rfl
  | succ i => exact congrArg (lift 1) (h i (Nat.lt_of_succ_lt_succ hi))

/-- A substitution matters at the variables that occur only. -/
theorem subst_congr {p : FVarId → Prop} {n : Nat} {σ τ : Subst} {e : Term} (h : e.Uses p n)
    (hbound : ∀ i < n, σ.bound i = τ.bound i) (hfree : ∀ x, p x → σ.free x = τ.free x) :
    e.subst σ = e.subst τ := by
  induction e generalizing n σ τ with
  | bvar i => exact hbound i h
  | fvar x => exact hfree x h
  | app f a ihf iha => rw [subst, subst, ihf h.1 hbound hfree, iha h.2 hbound hfree]
  | lam t b iht ihb | pi t b iht ihb =>
    have hup : ∀ x, p x → σ.up.free x = τ.up.free x := fun x hx => congrArg (lift 1) (hfree x hx)
    rw [subst, subst, iht h.1 hbound hfree, ihb h.2 (up_bound_congr hbound) hup]
  | letE t v b iht ihv ihb =>
    have hup : ∀ x, p x → σ.up.free x = τ.up.free x := fun x hx => congrArg (lift 1) (hfree x hx)
    rw [subst, subst, iht h.1 hbound hfree, ihv h.2.1 hbound hfree,
      ihb h.2.2 (up_bound_congr hbound) hup]
  | _ => rfl

theorem Uses.mono {p q : FVarId → Prop} {m n : Nat} {e : Term} (h : e.Uses p m) (hmn : m ≤ n)
    (hpq : ∀ x, p x → q x) : e.Uses q n := by
  induction e generalizing m n with
  | bvar i => exact Nat.lt_of_lt_of_le h hmn
  | fvar x => exact hpq x h
  | app f a ihf iha => exact ⟨ihf h.1 hmn, iha h.2 hmn⟩
  | lam t b iht ihb | pi t b iht ihb => exact ⟨iht h.1 hmn, ihb h.2 (Nat.succ_le_succ hmn)⟩
  | letE t v b iht ihv ihb =>
    exact ⟨iht h.1 hmn, ihv h.2.1 hmn, ihb h.2.2 (Nat.succ_le_succ hmn)⟩
  | _ => trivial

/-- A term that holds none of the variables is not changed. -/
theorem subst_eq_self {p : FVarId → Prop} {n : Nat} {σ : Subst} {e : Term} (h : e.Uses p n)
    (hbound : ∀ i < n, σ.bound i = .bvar i) (hfree : ∀ x, p x → σ.free x = .fvar x) :
    e.subst σ = e :=
  (subst_congr h hbound hfree).trans (subst_id e)

/-- Whether a term has no bound variable without a binder. -/
def Closed (e : Term) : Prop := e.Uses (fun _ => True) 0

/-- Whether a term has neither a bound variable without a binder nor a free
variable. -/
def Ground (e : Term) : Prop := e.Uses (fun _ => False) 0

theorem Ground.closed {e : Term} (h : e.Ground) : e.Closed :=
  Uses.mono h (Nat.le_refl 0) fun _ => False.elim

theorem Ground.subst {e : Term} (h : e.Ground) (σ : Subst) : e.subst σ = e :=
  subst_eq_self h (fun _ hi => absurd hi (Nat.not_lt_zero _)) fun _ => False.elim

theorem Closed.subst_congr {e : Term} (h : e.Closed) {σ τ : Subst}
    (hfree : ∀ x, σ.free x = τ.free x) : e.subst σ = e.subst τ :=
  Term.subst_congr h (fun _ hi => absurd hi (Nat.not_lt_zero _)) fun x _ => hfree x

theorem Closed.subst_eq_self {e : Term} (h : e.Closed) {σ : Subst}
    (hfree : ∀ x, σ.free x = .fvar x) : e.subst σ = e :=
  Term.subst_eq_self h (fun _ hi => absurd hi (Nat.not_lt_zero _)) fun x _ => hfree x

theorem Closed.rename {e : Term} (h : e.Closed) (ρ : Nat → Nat) : e.rename ρ = e := by
  rw [rename_eq_subst]
  exact h.subst_eq_self fun _ => rfl

/-- A closed term under one more binder. -/
theorem Closed.subst_up {e : Term} (h : e.Closed) (σ : Subst) :
    e.subst σ.up = (e.subst σ).lift 1 := by
  rw [lift, rename_subst]
  exact h.subst_congr fun _ => rfl

/-! ### Universe parameters -/

/-- The term with universe parameters replaced, and its levels simplified. -/
def instLevels (s : List (Name × Level)) : Term → Term
  | .bvar i => .bvar i
  | .fvar x => .fvar x
  | .sort l => .sort (l.instantiate s).simplify
  | .const n ls => .const n (ls.map fun l => (l.instantiate s).simplify)
  | .app f a => .app (f.instLevels s) (a.instLevels s)
  | .lam t b => .lam (t.instLevels s) (b.instLevels s)
  | .pi t b => .pi (t.instLevels s) (b.instLevels s)
  | .letE t v b => .letE (t.instLevels s) (v.instLevels s) (b.instLevels s)
  | .lit v => .lit v

theorem instLevels_rename (s : List (Name × Level)) (ρ : Nat → Nat) (e : Term) :
    (e.rename ρ).instLevels s = (e.instLevels s).rename ρ := by
  induction e generalizing ρ with
  | app f a ihf iha => simp only [rename, instLevels, ihf, iha]
  | lam t b iht ihb | pi t b iht ihb => simp only [rename, instLevels, iht, ihb]
  | letE t v b iht ihv ihb => simp only [rename, instLevels, iht, ihv, ihb]
  | _ => rfl

theorem instLevels_subst (s : List (Name × Level)) (σ : Subst) (e : Term) :
    (e.subst σ).instLevels s = (e.instLevels s).subst
      ⟨fun i => (σ.bound i).instLevels s, fun x => (σ.free x).instLevels s⟩ := by
  have hup : ∀ σ : Subst, (⟨fun i => (σ.up.bound i).instLevels s,
      fun x => (σ.up.free x).instLevels s⟩ : Subst) =
      Subst.up ⟨fun i => (σ.bound i).instLevels s, fun x => (σ.free x).instLevels s⟩ := by
    intro σ
    refine ext' (fun i => ?_) fun x => instLevels_rename s _ _
    cases i with
    | zero => rfl
    | succ i => exact instLevels_rename s _ _
  induction e generalizing σ with
  | app f a ihf iha => simp only [subst, instLevels, ihf, iha]
  | lam t b iht ihb | pi t b iht ihb => simp only [subst, instLevels, iht, ihb, hup]
  | letE t v b iht ihv ihb => simp only [subst, instLevels, iht, ihv, ihb, hup]
  | _ => rfl

theorem instLevels_inst (s : List (Name × Level)) (b a : Term) :
    (b.inst a).instLevels s = (b.instLevels s).inst (a.instLevels s) := by
  rw [inst, inst, instLevels_subst]
  congr 1
  refine ext' (fun i => ?_) fun x => rfl
  cases i <;> rfl

theorem Uses.instLevels {p : FVarId → Prop} {n : Nat} {e : Term} (h : e.Uses p n)
    (s : List (Name × Level)) : (e.instLevels s).Uses p n := by
  induction e generalizing n with
  | app f a ihf iha => exact ⟨ihf h.1, iha h.2⟩
  | lam t b iht ihb | pi t b iht ihb => exact ⟨iht h.1, ihb h.2⟩
  | letE t v b iht ihv ihb => exact ⟨iht h.1, ihv h.2.1, ihb h.2.2⟩
  | _ => exact h

end Term

end Pinpoint
