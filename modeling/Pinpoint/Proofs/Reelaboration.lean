/-
Elaborating in two contexts at once.

A printed term is elaborated where its variables have other identities and other
names than they had when it was made.  `Parallel` says how the two contexts belong
together: each variable `x` of the one stands for `ρ x` in the other, with the type
renamed, and is called there by the number of binders around it.  The supplies of
fresh variables run apart, for the printer writes an arrow where a quantifier was
not used, and no variable is drawn for that.

* `Parallel.infers`, `Parallel.resolve`, `Parallel.operation` — what is found in the
  one context is found in the other, up to the renaming;
* `Parallel.push`, `Parallel.skip`, `Parallel.arrow` — binders keep contexts parallel;
* `ApartFromBinders` — no constant is called like a bound variable around it;
* `Repeats` — whatever an elaboration gives is given again by the elaboration of what
  is printed for it, and `Again` the same of one term;
* `Repeats.openBinder` — binders, whether they are used or not.
-/
import Mathlib.Algebra.GroupWithZero.Nat
import Pinpoint.Proofs.Closing
import Pinpoint.Proofs.Elaborated
import Pinpoint.Proofs.Mentions
import Pinpoint.Proofs.Names
import Pinpoint.Proofs.Weakening

namespace Pinpoint

namespace Expr

variable {ρ ρ' : FVarId → FVarId} {p q : FVarId → Prop} {e : Expr}

theorem rename_congr (h : e.FVarsIn fun x => ρ x = ρ' x) : e.rename ρ = e.rename ρ' := by
  induction e with
  | fvar x => exact congrArg Expr.fvar h
  | app f a ihf iha => simp only [rename, ihf h.1, iha h.2]
  | lam i t b iht ihb | pi i t b iht ihb => simp only [rename, iht h.1, ihb h.2]
  | letE t v b iht ihv ihb => simp only [rename, iht h.1, ihv h.2.1, ihb h.2.2]
  | mdata m e ih => simp only [rename, ih h]
  | _ => rfl

theorem FVarsIn.rename (h : e.FVarsIn fun x => q (ρ x)) : (e.rename ρ).FVarsIn q := by
  induction e with
  | fvar x => exact h
  | app f a ihf iha => exact ⟨ihf h.1, iha h.2⟩
  | lam i t b iht ihb | pi i t b iht ihb => exact ⟨iht h.1, ihb h.2⟩
  | letE t v b iht ihv ihb => exact ⟨iht h.1, ihv h.2.1, ihb h.2.2⟩
  | mdata m e ih => exact ih h
  | _ => trivial

theorem FVarsIn.of_abstractFVar {x : FVarId} (h : (e.abstractFVar x).FVarsIn p) :
    e.FVarsIn fun y => y = x ∨ p y := by
  refine FVarsIn.of_mapVars (fun d y hy => ?_) 0 h
  by_cases hx : y = x
  · exact .inl hx
  · rw [if_neg hx] at hy
    exact .inr hy

/-- A closed term without the variable stays as it is. -/
theorem abstractFVar_eq_self {x : FVarId} (hclosed : e.closedUnder 0) (h : e.FVarsIn (· ≠ x)) :
    e.abstractFVar x = e := by
  unfold abstractFVar
  unfold closedUnder at hclosed
  revert hclosed
  generalize (0 : UInt32) = k
  intro hclosed
  induction e generalizing k with
  | bvar i =>
    have hi : ¬ k ≤ i := by simpa [allBVars] using hclosed
    simp only [mapVars, if_neg hi]
  | fvar y => exact if_neg h
  | app f a ihf iha =>
    obtain ⟨hf, ha⟩ := Bool.and_eq_true_iff.mp hclosed
    simp only [mapVars, ihf h.1 k hf, iha h.2 k ha]
  | lam i t b iht ihb | pi i t b iht ihb =>
    obtain ⟨ht, hb⟩ := Bool.and_eq_true_iff.mp hclosed
    simp only [mapVars, iht h.1 k ht, ihb h.2 (k + 1) hb]
  | letE t v b iht ihv ihb =>
    obtain ⟨htv, hb⟩ := Bool.and_eq_true_iff.mp hclosed
    obtain ⟨ht, hv⟩ := Bool.and_eq_true_iff.mp htv
    simp only [mapVars, iht h.1 k ht, ihv h.2.1 k hv, ihb h.2.2 (k + 1) hb]
  | mdata m e ih => simp only [mapVars, ih h k hclosed]
  | _ => rfl

section
variable {f : UInt32 → UInt32 → Expr} {g : UInt32 → FVarId → Expr}

theorem size_mapVars (hf : ∀ d i, (f d i).size = 1) (hg : ∀ d x, (g d x).size = 1) (d : UInt32)
    (e : Expr) : (mapVars f g d e).size = e.size := by
  induction e generalizing d with
  | bvar i => exact hf d i
  | fvar x => exact hg d x
  | app f a ihf iha => simp only [mapVars, size, ihf, iha]
  | lam i t b iht ihb | pi i t b iht ihb => simp only [mapVars, size, iht, ihb]
  | letE t v b iht ihv ihb => simp only [mapVars, size, iht, ihv, ihb]
  | mdata m e ih => simp only [mapVars, size, ih]
  | _ => rfl

theorem letFree_mapVars (hf : ∀ d i, (f d i).letFree) (hg : ∀ d x, (g d x).letFree) (d : UInt32)
    (e : Expr) : (mapVars f g d e).letFree = e.letFree := by
  induction e generalizing d with
  | bvar i => exact hf d i
  | fvar x => exact hg d x
  | app f a ihf iha => simp only [mapVars, letFree, ihf, iha]
  | lam i t b iht ihb | pi i t b iht ihb => simp only [mapVars, letFree, iht, ihb]
  | mdata m e ih => simp only [mapVars, letFree, ih]
  | _ => rfl

end

theorem size_abstractFVar (e : Expr) (x : FVarId) : (e.abstractFVar x).size = e.size :=
  size_mapVars (fun d i => by split <;> rfl) (fun d y => by split <;> rfl) 0 e

theorem letFree_abstractFVar (e : Expr) (x : FVarId) : (e.abstractFVar x).letFree = e.letFree :=
  letFree_mapVars (fun d i => by split <;> rfl) (fun d y => by split <;> rfl) 0 e

theorem size_lift (e : Expr) (amount : UInt32) : (e.lift amount).size = e.size :=
  size_mapVars (fun d i => by split <;> rfl) (fun _ _ => rfl) 0 e

theorem letFree_lift (e : Expr) (amount : UInt32) : (e.lift amount).letFree = e.letFree :=
  letFree_mapVars (fun d i => by split <;> rfl) (fun _ _ => rfl) 0 e

theorem FVarsIn.of_lift {amount : UInt32} (h : (e.lift amount).FVarsIn p) : e.FVarsIn p :=
  FVarsIn.of_mapVars (g := fun _ x => .fvar x) (fun _ _ hx => hx) 0 h

theorem nesting_le_size (e : Expr) : e.nesting ≤ e.size := by
  induction e <;> simp only [nesting, size] <;> omega

theorem size_mkApp (f : Expr) (args : List Expr) :
    (mkApp f args).size = f.size + (args.map fun a => a.size + 1).sum := by
  induction args generalizing f with
  | nil => simp
  | cons a args ih =>
    rw [mkApp_cons, ih, List.map_cons, List.sum_cons, size]
    omega

/-- Whether each constant in a term under `d` binders has a name, and is not called like
one of the bound variables around it. -/
def ApartFromBinders : Nat → Expr → Prop
  | d, .const n _ => n ≠ .anonymous ∧ ∀ k < d, n.render ≠ binderName k
  | d, .app f a => f.ApartFromBinders d ∧ a.ApartFromBinders d
  | d, .lam _ t b | d, .pi _ t b => t.ApartFromBinders d ∧ b.ApartFromBinders (d + 1)
  | d, .letE t v b => t.ApartFromBinders d ∧ v.ApartFromBinders d ∧ b.ApartFromBinders (d + 1)
  | d, .mdata _ e => e.ApartFromBinders d
  | _, _ => True

instance decidableApartFromBinders : (d : Nat) → (e : Expr) → Decidable (e.ApartFromBinders d)
  | d, .const n _ => inferInstanceAs (Decidable (n ≠ .anonymous ∧ ∀ k < d, n.render ≠ binderName k))
  | d, .app f a =>
    have := decidableApartFromBinders d f
    have := decidableApartFromBinders d a
    inferInstanceAs (Decidable (_ ∧ _))
  | d, .lam _ t b | d, .pi _ t b =>
    have := decidableApartFromBinders d t
    have := decidableApartFromBinders (d + 1) b
    inferInstanceAs (Decidable (_ ∧ _))
  | d, .letE t v b =>
    have := decidableApartFromBinders d t
    have := decidableApartFromBinders d v
    have := decidableApartFromBinders (d + 1) b
    inferInstanceAs (Decidable (_ ∧ _ ∧ _))
  | d, .mdata _ e => decidableApartFromBinders d e
  | _, .bvar _ | _, .fvar _ | _, .sort _ | _, .lit _ => .isTrue trivial

/-- No constant is lost where variables are replaced. -/
theorem ApartFromBinders.of_mapVars {f : UInt32 → UInt32 → Expr} {g : UInt32 → FVarId → Expr}
    {d : Nat} {k : UInt32} (h : (mapVars f g k e).ApartFromBinders d) : e.ApartFromBinders d := by
  induction e generalizing d k with
  | const => exact h
  | app f a ihf iha => exact ⟨ihf h.1, iha h.2⟩
  | lam i t b iht ihb | pi i t b iht ihb => exact ⟨iht h.1, ihb h.2⟩
  | letE t v b iht ihv ihb => exact ⟨iht h.1, ihv h.2.1, ihb h.2.2⟩
  | mdata m e ih => exact ih h
  | _ => trivial

/-- What is asked of a term that is to be printed under `d` binders: there is no
definition in it, no constant in it is called like a bound variable around it, and it is
not too large for indices. -/
structure Plain (d : Nat) (e : Expr) : Prop where
  letFree : e.letFree
  apart : e.ApartFromBinders d
  size : d + e.size < 2 ^ 32

namespace Plain

variable {d : Nat} {f a t b : Expr} {i : BinderInfo} {x : FVarId}

theorem app (h : (Expr.app f a).Plain d) : f.Plain d ∧ a.Plain d := by
  obtain ⟨hlet, hapart, hsize⟩ := h
  obtain ⟨hf, ha⟩ := Bool.and_eq_true_iff.mp hlet
  rw [Expr.size] at hsize
  exact ⟨⟨hf, hapart.1, by omega⟩, ⟨ha, hapart.2, by omega⟩⟩

theorem mkApp {args : List Expr} (h : (mkApp f args).Plain d) :
    f.Plain d ∧ ∀ a ∈ args, a.Plain d := by
  induction args generalizing f with
  | nil => exact ⟨h, List.forall_mem_nil _⟩
  | cons a args ih =>
    obtain ⟨hfa, hargs⟩ := ih h
    exact ⟨hfa.app.1, List.forall_mem_cons.mpr ⟨hfa.app.2, hargs⟩⟩

theorem pi (h : (Expr.pi i t (b.abstractFVar x)).Plain d) : t.Plain d ∧ b.Plain (d + 1) := by
  obtain ⟨hlet, hapart, hsize⟩ := h
  obtain ⟨ht, hb⟩ := Bool.and_eq_true_iff.mp hlet
  rw [Expr.size, size_abstractFVar] at hsize
  rw [letFree_abstractFVar] at hb
  exact ⟨⟨ht, hapart.1, by omega⟩, ⟨hb, hapart.2.of_mapVars, by omega⟩⟩

theorem arrow (h : (Expr.arrow t b).Plain d) : t.Plain d ∧ b.Plain (d + 1) := by
  obtain ⟨hlet, hapart, hsize⟩ := h
  obtain ⟨ht, hb⟩ := Bool.and_eq_true_iff.mp hlet
  rw [Expr.arrow, Expr.size, size_lift] at hsize
  rw [letFree_lift] at hb
  exact ⟨⟨ht, hapart.1, by omega⟩, ⟨hb, hapart.2.of_mapVars, by omega⟩⟩

end Plain

end Expr

/-- A renaming that sends `x` to `x'` and is otherwise, as far as it can be, as it
was. -/
def redirect (ρ : FVarId → FVarId) (x x' y : FVarId) : FVarId :=
  if y = x then x' else if ρ y = x' then ρ x else ρ y

section
variable {ρ : FVarId → FVarId} {x x' y : FVarId}

@[simp] theorem redirect_self : redirect ρ x x' x = x' := if_pos rfl

theorem redirect_of_ne (hy : y ≠ x) (hρ : ρ y ≠ x') : redirect ρ x x' y = ρ y := by
  rw [redirect, if_neg hy, if_neg hρ]

theorem redirect_injective (hρ : Function.Injective ρ) : Function.Injective (redirect ρ x x') := by
  intro y z h
  unfold redirect at h
  have hyx := hρ.eq_iff (a := y) (b := x)
  have hzx := hρ.eq_iff (a := z) (b := x)
  have hyz := hρ.eq_iff (a := y) (b := z)
  grind

end

/-! ### Two contexts -/

namespace Elaboration

open Environment Pinpoint.Expr ElabM

theorem operation?_of_returns {env : Environment} {n : Nat} {Γ : LocalContext} {op : Operator}
    {lhs rhs e : Expr} {s s' : UInt64} (h : (operation env n Γ op lhs rhs).Returns s e s') :
    e.operation? = some (op, lhs, rhs) := by
  rcases returns_operation.mp h with ⟨rfl, rfl, -⟩ | ⟨hop, -, T, -, l, -, -, rfl⟩
  · simp [Expr.mkIff, operation?]
  · have hternary : Operator.ofTernary? op.constant = some op := by
      cases op <;> first | rfl | exact absurd rfl hop
    simp [Expr.mkApp, operation?, hternary]

/-- Whether a supply has been drawn from, at most `k` times. -/
def Draws (k : Nat) (s t : UInt64) : Prop := s.toNat ≤ t.toNat ∧ t.toNat ≤ s.toNat + k

/-- A context in which a text was elaborated, and one in which its printed form is.
The variables that matter have places in both: `x` in the one is `ρ x` in the other,
and called by the number of binders around it there. -/
structure Parallel (Γ Γ' : LocalContext) (ρ : FVarId → FVarId) (p : FVarId → Prop)
    (level : FVarId → Nat) (d : Nat) (s s' : UInt64) : Prop where
  injective : Function.Injective ρ
  inner : ∀ x : FVarId, ¬ x.IsOuter → ρ x = x
  closed : Γ.Closed
  below : ∀ x, p x → x.id.toNat < s.toNat ∧ (ρ x).id.toNat < s'.toNat
  type : ∀ x, p x → ∃ T, (Γ.find? x).map LocalEntry.type = some T ∧
    (Γ'.find? (ρ x)).map LocalEntry.type = some (T.rename ρ) ∧ T.FVarsIn p
  depth : ∀ x, p x → level x < d
  named : ∀ x, p x → (Γ'.findName? (binderName (level x))).map LocalEntry.fvar = some (ρ x)
  apart : ∀ text, (∀ k < d, text ≠ binderName k) → Γ'.findName? text = none

namespace Parallel

variable {env : Environment} {Γ Γ' : LocalContext} {ρ : FVarId → FVarId} {p : FVarId → Prop}
  {level : FVarId → Nat} {d n k : Nat} {s s' t t' : UInt64} {e T : Expr}

theorem draw (h : Parallel Γ Γ' ρ p level d s s') (hs : s.toNat ≤ t.toNat)
    (hs' : s'.toNat ≤ t'.toNat) : Parallel Γ Γ' ρ p level d t t' :=
  { h with below := fun x hx => by have := h.below x hx; omega }

section
variable (h : Parallel Γ Γ' ρ p level d s s') (hfree : env.FVarFree) (henv : env.Closed)
include h hfree

/-- What the checker finds in the one context it finds in the other. -/
theorem infers (he : e.FVarsIn p) (hplain : e.Plain d)
    (hT : (env.inferType n Γ e).Returns Checker.firstFresh T t) :
    (env.inferType n Γ' (e.rename ρ)).Returns Checker.firstFresh (T.rename ρ) t ∧
      T.FVarsIn p := by
  have hopenings : e.openings n < 2 ^ 32 :=
    Nat.lt_of_le_of_lt (openings_le_size hplain.letFree)
      (Nat.lt_of_le_of_lt (Nat.le_add_left _ d) hplain.size)
  have htracks := tracks_firstFresh (k := e.openings n) h.inner (by rw [toNat_firstFresh]; omega)
  have hΓ : ∀ y, (∃ x, p x ∧ ρ x = y) →
      ((Γ.rename ρ).find? y).map LocalEntry.type = (Γ'.find? y).map LocalEntry.type := by
    rintro y ⟨x, hx, rfl⟩
    obtain ⟨T, hT, hT', -⟩ := h.type x hx
    obtain ⟨entry, hentry, rfl⟩ := Option.map_eq_some_iff.mp hT
    rw [LocalContext.find?_rename h.injective, hT', hentry]
    rfl
  refine ⟨?_, FVarsIn.inferType hfree.fvarsIn (fun _ => id) ?_ he hT⟩
  · rw [← inferType_congr_types hΓ (he.mono fun x hx => ⟨x, hx, rfl⟩).rename]
    rw [supply_of_returns hT]
    exact hfree.returns_rename h.injective htracks hT
  · intro x entry hx hentry
    obtain ⟨T, hT, -, hTp⟩ := h.type x hx
    rw [hentry] at hT
    exact Option.some.inj hT ▸ hTp

theorem ensureSort (he : e.FVarsIn p) (hplain : e.Plain d) {l : Level}
    (hl : (Checker.ensureSort ⟨env, Γ, n⟩ e).Returns Checker.firstFresh l t) :
    (Checker.ensureSort ⟨env, Γ', n⟩ (e.rename ρ)).Returns Checker.firstFresh l t := by
  obtain ⟨T, u, hT, hl⟩ := CheckM.returns_bind.mp hl
  obtain ⟨hwhnf, rfl⟩ := sortOfType_returns_iff.mp hl
  exact CheckM.returns_bind.mpr ⟨_, _, (h.infers hfree he hplain hT).1,
    sortOfType_returns_iff.mpr ⟨hfree.whnf_rename hwhnf, rfl⟩⟩

theorem inferType (he : e.FVarsIn p) (hplain : e.Plain d)
    (hT : (Elaboration.inferType env n Γ e).Returns t T t') :
    t' = t ∧ T.FVarsIn p ∧
      ∀ u, (Elaboration.inferType env n Γ' (e.rename ρ)).Returns u (T.rename ρ) u := by
  obtain ⟨⟨v, hv⟩, rfl⟩ := returns_ofCheck.mp hT
  obtain ⟨hT', hTp⟩ := h.infers hfree he hplain hv
  exact ⟨rfl, hTp, fun u => returns_ofCheck.mpr ⟨⟨v, hT'⟩, rfl⟩⟩

theorem sortLevel (he : e.FVarsIn p) (hplain : e.Plain d) {l : Level}
    (hl : (Elaboration.sortLevel env n Γ e).Returns t l t') :
    t' = t ∧ ∀ u, (Elaboration.sortLevel env n Γ' (e.rename ρ)).Returns u l u := by
  obtain ⟨⟨v, hv⟩, rfl⟩ := returns_ofCheck.mp hl
  exact ⟨rfl, fun u => returns_ofCheck.mpr ⟨⟨v, h.ensureSort hfree he hplain hv⟩, rfl⟩⟩

/-- A name that was read is written as a name that is read as the same thing, also in
front of further arguments that settle no universe parameter. -/
theorem resolve {name : String} {args more : List Expr}
    (hargs : ∀ a ∈ args, a.FVarsIn p ∧ a.Plain d) (he : e.FVarsIn p) (hplain : e.Plain d)
    (hsettles : ∀ c, env.find? (.ofString name) = some c →
      c.settles args.length (args.length + more.length))
    (hr : (Elaboration.resolve env n Γ name args).Returns t e t') :
    t' = t ∧ ((∃ x, e = .fvar x) ∨ ∃ ls, e = .const (.ofString name) ls) ∧ ∃ written,
      (∀ prec, (e.closeVars level d 0).written d prec = .ident .nowhere written) ∧
      ∀ u, (Elaboration.resolve env n Γ' written ((args ++ more).map (rename ρ))).Returns u
        (e.rename ρ) u := by
  have hd : d < 2 ^ 32 := Nat.lt_of_le_of_lt (Nat.le_add_right d _) hplain.size
  unfold Elaboration.resolve at hr
  split at hr
  · -- A variable is written by its level, and that is how the other context names it.
    rename_i entry hentry
    obtain ⟨rfl, rfl⟩ := returns_pure.mp hr
    have hx : p entry.fvar := he
    refine ⟨rfl, .inl ⟨_, rfl⟩, binderName (level entry.fvar),
      written_closeVars_fvar (h.depth _ hx) hd, fun u => ?_⟩
    obtain ⟨entry', hentry', hfvar⟩ := Option.map_eq_some_iff.mp (h.named _ hx)
    unfold Elaboration.resolve
    rw [if_neg (Surface.binderName_ne (by decide) _), hentry']
    exact returns_pure.mpr ⟨congrArg Expr.fvar hfvar, rfl⟩
  · dsimp only at hr
    split at hr
    · exact absurd hr not_returns_throw
    · -- A constant is written as it is, and no variable of the other context hides it.
      rename_i c hc
      obtain ⟨solved, v, hsolved, hconst⟩ := returns_bind.mp hr
      obtain ⟨rfl, hsolved'⟩ := returns_solveLevels_map c.levelParams c.type
        (fun a ha => h.sortLevel hfree (hargs a ha).1 (hargs a ha).2) hsolved
      obtain ⟨rfl, rfl⟩ := returns_pure.mp hconst
      obtain ⟨hne, hname⟩ := hplain.apart
      refine ⟨rfl, .inr ⟨_, rfl⟩, (Name.ofString name).render, fun prec => ?_, fun u => ?_⟩
      · rw [closeVars, mapVars, written]
        rfl
      · unfold Elaboration.resolve
        rw [h.apart _ hname, ite_self]
        dsimp only
        rw [Name.ofString_render hne, hc, List.map_append]
        -- What was read off the arguments in front is not changed by those behind them.
        refine returns_bind.mpr ⟨solved, u, returns_solveLevels_append (fun p hp hnot => ?_)
          (hsolved' u), returns_pure.mpr ⟨rfl, rfl⟩⟩
        rw [List.length_map, List.length_map] at hp
        rw [List.length_map] at hnot
        exact unsettled?_of_settles (hsettles c hc) hp hnot _

include henv in
/-- An operation is put together in the same way. -/
theorem operation {op : Operator} {lhs rhs : Expr} (he : e.FVarsIn p) (hplain : e.Plain d)
    (ho : (Elaboration.operation env n Γ op lhs rhs).Returns t e t') :
    t' = t ∧ (∃ head, e = .app (.app head lhs) rhs) ∧
      (lhs.Scoped 0 → rhs.Scoped 0 → e.Scoped 0) ∧
      ∀ u, (Elaboration.operation env n Γ' op (lhs.rename ρ) (rhs.rename ρ)).Returns u
        (e.rename ρ) u := by
  rcases returns_operation.mp ho with ⟨rfl, rfl, rfl⟩ | ⟨hop, hcontains, T, v, l, hT, hl, rfl⟩
  · exact ⟨rfl, ⟨_, rfl⟩, fun hlhs hrhs => ⟨⟨trivial, hlhs⟩, hrhs⟩, fun u =>
      returns_operation.mpr (.inl ⟨rfl, rfl, rfl⟩)⟩
  · obtain ⟨⟨⟨-, hTp⟩, hlhs⟩, hrhs⟩ := he
    have hlplain := hplain.app.1.app.2
    have hTplain := hplain.app.1.app.1.app.2
    obtain ⟨rfl, -, hT'⟩ := h.inferType hfree hlhs hlplain hT
    obtain ⟨rfl, hl'⟩ := h.sortLevel hfree hTp hTplain hl
    refine ⟨rfl, ⟨_, rfl⟩, fun hlhs hrhs => ⟨⟨⟨trivial, ?_⟩, hlhs⟩, hrhs⟩, fun u => ?_⟩
    · obtain ⟨⟨w, hT⟩, -⟩ := returns_ofCheck.mp hT
      exact inferType_scoped henv h.closed hT
    · exact returns_operation.mpr (.inr ⟨hop, hcontains, _, u, l, hT' u, hl' u, rfl⟩)

end

/-! ### Binders -/

theorem findName?_push (Γ : LocalContext) (x : FVarId) (name : Name) (T : Expr) (text : String) :
    (Γ.push x name T).findName? text =
      if name.render = text then some ⟨x, name, T⟩ else Γ.findName? text := by
  simp only [LocalContext.push, LocalContext.findName?, List.find?_cons]
  by_cases h : name.render = text <;> simp [h]

/-- Where a binder is opened, what was there before is renamed as before. -/
theorem redirect_eq (h : Parallel Γ Γ' ρ p level d s s') {y : FVarId} (hy : p y) :
    redirect ρ ⟨s⟩ ⟨s'⟩ y = ρ y := by
  obtain ⟨hbelow, hbelow'⟩ := h.below y hy
  refine redirect_of_ne ?_ fun heq => ?_
  · rintro rfl
    exact Nat.lt_irrefl _ hbelow
  · rw [heq] at hbelow'
    exact Nat.lt_irrefl _ hbelow'

theorem rename_redirect (h : Parallel Γ Γ' ρ p level d s s') (he : e.FVarsIn p) :
    e.rename (redirect ρ ⟨s⟩ ⟨s'⟩) = e.rename ρ :=
  rename_congr (he.mono fun _ => h.redirect_eq)

/-- A binder is opened in both. -/
theorem push (h : Parallel Γ Γ' ρ p level d s s') (hs : s.toNat < 2 ^ 62) (hs' : s'.toNat < 2 ^ 62)
    (hT : T.FVarsIn p) (hclosed : T.Scoped 0) (name : Name) :
    Parallel (Γ.push ⟨s⟩ name T) (Γ'.push ⟨s'⟩ (.ofString (binderName d)) (T.rename ρ))
      (redirect ρ ⟨s⟩ ⟨s'⟩) (fun y => y = ⟨s⟩ ∨ p y) (Function.update level ⟨s⟩ d) (d + 1)
      (s + 1) (s' + 1) := by
  have hne : ∀ y, p y → y ≠ ⟨s⟩ := by
    rintro y hy rfl
    exact Nat.lt_irrefl _ (h.below _ hy).1
  have hne' : ∀ y, p y → ρ y ≠ ⟨s'⟩ := by
    intro y hy heq
    have := (h.below _ hy).2
    rw [heq] at this
    exact Nat.lt_irrefl _ this
  refine ⟨redirect_injective h.injective, fun y hy => ?_, h.closed.push _ _ hclosed, ?_, ?_, ?_, ?_,
    ?_⟩
  · -- The variables of the checker stay, as neither of the two new ones is among them.
    have houter : ∀ {u : UInt64}, u.toNat < 2 ^ 62 → y ≠ ⟨u⟩ := by
      rintro u hu rfl
      exact hy (FVarId.isOuter_iff.mpr hu)
    rw [redirect_of_ne (houter hs) (by rw [h.inner y hy]; exact houter hs'), h.inner y hy]
  · rintro y (rfl | hy)
    · rw [redirect_self, Supply.toNat_add_one (by omega), Supply.toNat_add_one (by omega)]
      exact ⟨Nat.lt_succ_self _, Nat.lt_succ_self _⟩
    · rw [h.redirect_eq hy, Supply.toNat_add_one (by omega), Supply.toNat_add_one (by omega)]
      have := h.below y hy
      omega
  · rintro y (rfl | hy)
    · -- The new variables have the same type, and the others keep theirs.
      refine ⟨T, ?_, ?_, hT.mono fun _ => .inr⟩
      · rw [LocalContext.find?_push, if_pos rfl]
        rfl
      · rw [redirect_self, LocalContext.find?_push, if_pos rfl, h.rename_redirect hT]
        rfl
    · obtain ⟨U, hU, hU', hUp⟩ := h.type y hy
      refine ⟨U, ?_, ?_, hUp.mono fun _ => .inr⟩
      · rw [LocalContext.find?_push, if_neg (hne y hy).symm, hU]
      · rw [h.redirect_eq hy, LocalContext.find?_push, if_neg (hne' y hy).symm, hU',
          h.rename_redirect hUp]
  · rintro y (rfl | hy)
    · rw [Function.update_self]
      exact Nat.lt_succ_self d
    · rw [Function.update_of_ne (hne y hy)]
      exact Nat.lt_succ_of_lt (h.depth y hy)
  · rintro y (rfl | hy)
    · rw [Function.update_self, findName?_push, if_pos (render_binderName d), redirect_self]
      rfl
    · -- The new name is none of those that are in use.
      have hlevel : (Name.ofString (binderName d)).render ≠ binderName (level y) := by
        rw [render_binderName]
        exact fun heq => Nat.ne_of_gt (h.depth y hy) (binderName_injective heq)
      rw [Function.update_of_ne (hne y hy), findName?_push, if_neg hlevel,
        h.redirect_eq hy]
      exact h.named y hy
  · intro text htext
    rw [findName?_push, if_neg]
    · exact h.apart text fun k hk => htext k (Nat.lt_succ_of_lt hk)
    · rw [render_binderName]
      exact (htext d (Nat.lt_succ_self d)).symm

/-- A binder is opened in the first that is not written in the second. -/
theorem skip (h : Parallel Γ Γ' ρ p level d s s') (hs : s.toNat < 2 ^ 62)
    (hclosed : T.Scoped 0) (name : Name) :
    Parallel (Γ.push ⟨s⟩ name T) Γ' ρ p (Function.update level ⟨s⟩ d) (d + 1) (s + 1) s' := by
  have hne : ∀ y, p y → y ≠ ⟨s⟩ := by
    rintro y hy rfl
    exact Nat.lt_irrefl _ (h.below _ hy).1
  refine ⟨h.injective, h.inner, h.closed.push _ _ hclosed, fun y hy => ?_, fun y hy => ?_,
    fun y hy => ?_, fun y hy => ?_,
    fun text htext => h.apart text fun k hk => htext k (Nat.lt_succ_of_lt hk)⟩
  · rw [Supply.toNat_add_one (by omega)]
    have := h.below y hy
    omega
  · rw [LocalContext.find?_push, if_neg (hne y hy).symm]
    exact h.type y hy
  · rw [Function.update_of_ne (hne y hy)]
    exact Nat.lt_succ_of_lt (h.depth y hy)
  · rw [Function.update_of_ne (hne y hy)]
    exact h.named y hy

/-- An arrow counts as a binder that neither has. -/
theorem arrow (h : Parallel Γ Γ' ρ p level d s s') : Parallel Γ Γ' ρ p level (d + 1) s s' :=
  { h with
    depth := fun y hy => Nat.lt_succ_of_lt (h.depth y hy)
    apart := fun text htext => h.apart text fun k hk => htext k (Nat.lt_succ_of_lt hk) }

end Parallel

/-! ### Binders -/

section
variable {env : Environment} {n : Nat}

/-- Whether what a computation makes of a context is made again from its printed
form, in contexts that are parallel to it, wherever it is printed. -/
def Repeats (env : Environment) (n : Nat) (m : LocalContext → ElabM Expr) : Prop :=
  ∀ ⦃Γ s e t⦄, (m Γ).Returns s e t → ∀ ⦃Γ' ρ p level d s'⦄, Parallel Γ Γ' ρ p level d s s' →
    e.FVarsIn p → e.Plain d → s.toNat + e.size ≤ 2 ^ 62 → s'.toNat + e.size ≤ 2 ^ 62 →
      e.Scoped 0 ∧ Draws e.size s t ∧ ∀ prec, ∃ t',
        (elaborate env n Γ' ((e.closeVars level d 0).written d prec)).Returns s' (e.rename ρ) t' ∧
          Draws e.size s' t'

/-- Whether a term is made again from its printed form in a context, whatever has been
drawn from the supply there besides. -/
def Again (env : Environment) (n : Nat) (Γ' : LocalContext) (ρ : FVarId → FVarId)
    (level : FVarId → Nat) (d : Nat) (s' : UInt64) (e : Expr) : Prop :=
  ∀ ⦃u : UInt64⦄, s'.toNat ≤ u.toNat → u.toNat + e.size ≤ 2 ^ 62 → ∀ prec, ∃ t',
    (elaborate env n Γ' ((e.closeVars level d 0).written d prec)).Returns u (e.rename ρ) t' ∧
      Draws e.size u t'

variable {Γ Γ' : LocalContext} {ρ : FVarId → FVarId} {p : FVarId → Prop}
  {level : FVarId → Nat} {d : Nat} {s s' t u : UInt64} {e T b : Expr}
  {type inside : LocalContext → ElabM Expr} {name : String}

theorem Repeats.again {m : LocalContext → ElabM Expr} (hm : Repeats env n m)
    (hr : (m Γ).Returns s e t) (h : Parallel Γ Γ' ρ p level d s s') (he : e.FVarsIn p)
    (hplain : e.Plain d) (hs : s.toNat + e.size ≤ 2 ^ 62) (hs' : s'.toNat + e.size ≤ 2 ^ 62) :
    e.Scoped 0 ∧ Draws e.size s t ∧ Again env n Γ' ρ level d s' e := by
  obtain ⟨hscoped, hdraws, -⟩ := hm hr h he hplain hs hs'
  exact ⟨hscoped, hdraws, fun u hu hroom =>
    (hm hr (h.draw (Nat.le_refl _) hu) he hplain hs hroom).2.2⟩

section
variable (hfree : env.FVarFree) (htype : Repeats env n type) (hinside : Repeats env n inside)
  (h : Parallel Γ Γ' ρ p level d s s') (hT : (type Γ).Returns s T u) {l : Level} {v : UInt64}
  (hl : (sortLevel env n Γ T).Returns u l v)
  (hb : (inside (Γ.push ⟨v⟩ (.ofString name) T)).Returns (v + 1) b t)
  (hp : (Expr.pi .default T (b.abstractFVar ⟨v⟩)).FVarsIn p)
  (hplain : (Expr.pi .default T (b.abstractFVar ⟨v⟩)).Plain d)
  (hs : s.toNat + (T.size + b.size + 1) ≤ 2 ^ 62) (hs' : s'.toNat + (T.size + b.size + 1) ≤ 2 ^ 62)
include hfree htype hinside h hT hl hb hp hplain hs hs'

/-- A binder is made again from a binder. -/
theorem Repeats.binder {mk : BinderInfo → Expr → Expr → Expr} (hmk : mk = .pi ∨ mk = .lam)
    (prec prec' : Nat) :
    T.Scoped 0 ∧ b.Scoped 0 ∧ Draws (T.size + b.size + 1) s t ∧ ∃ t',
      (elaborateBinders env n mk
        (fun Γ => elaborate env n Γ
          ((b.closeVars (Function.update level ⟨v⟩ d) (d + 1) 0).written (d + 1) prec')) Γ'
        (.one ⟨.nowhere, binderName d⟩ ((T.closeVars level d 0).written d prec))).Returns s'
          ((mk .default T (b.abstractFVar ⟨v⟩)).rename ρ) t' ∧
        Draws (T.size + b.size + 1) s' t' := by
  obtain ⟨hTplain, hbplain⟩ := hplain.pi
  obtain ⟨hTscoped, ⟨hsu, hus⟩, hwritten⟩ := htype hT h hp.1 hTplain (by omega) (by omega)
  obtain ⟨u', hT', hsu', hus'⟩ := hwritten prec
  obtain ⟨rfl, hl'⟩ := (h.draw hsu hsu').sortLevel hfree hp.1 hTplain hl
  have hv : v.toNat < 2 ^ 62 := by omega
  have hu' : u'.toNat < 2 ^ 62 := by omega
  have hnext : (v + 1).toNat = v.toNat + 1 := Supply.toNat_add_one (by omega)
  have hnext' : (u' + 1).toNat = u'.toNat + 1 := Supply.toNat_add_one (by omega)
  have hopened := (h.draw hsu hsu').push hv hu' hp.1 hTscoped (.ofString name)
  obtain ⟨hbscoped, ⟨hvt, htv⟩, hwritten⟩ := hinside hb hopened hp.2.of_abstractFVar hbplain
    (by omega) (by omega)
  obtain ⟨t', hb', hut', htu'⟩ := hwritten prec'
  refine ⟨hTscoped, hbscoped, ⟨by omega, by omega⟩, t', ?_, by omega, by omega⟩
  unfold elaborateBinders
  refine returns_bind.mpr ⟨_, u', hT', returns_openBinder.mpr ⟨l, u', _, hl' u', hb', ?_⟩⟩
  -- the variable that is abstracted again is the one that the renaming leads to
  have hbody : (b.rename (redirect ρ ⟨v⟩ ⟨u'⟩)).abstractFVar ⟨u'⟩ =
      (b.abstractFVar ⟨v⟩).rename ρ := by
    rw [← (h.draw hsu hsu').rename_redirect hp.2, rename_abstractFVar hopened.injective,
      redirect_self]
  rw [hbody]
  rcases hmk with rfl | rfl <;> rfl

/-- A binder whose variable does not occur is made again from an arrow. -/
theorem Repeats.unused (hunused : b.FVarsIn (· ≠ ⟨v⟩)) (prec prec' : Nat) :
    T.Scoped 0 ∧ b.Scoped 0 ∧ Draws (T.size + b.size + 1) s t ∧ ∃ t',
      (elaborate env n Γ' (.arrow .nowhere ((T.closeVars level d 0).written d prec)
        ((b.closeVars (Function.update level ⟨v⟩ d) (d + 1) 0).written (d + 1) prec'))).Returns s'
          ((Expr.pi .default T (b.abstractFVar ⟨v⟩)).rename ρ) t' ∧
        Draws (T.size + b.size + 1) s' t' := by
  obtain ⟨hTplain, hbplain⟩ := hplain.pi
  obtain ⟨hTscoped, ⟨hsu, hus⟩, hwritten⟩ := htype hT h hp.1 hTplain (by omega) (by omega)
  obtain ⟨u', hT', hsu', hus'⟩ := hwritten prec
  obtain ⟨rfl, -⟩ := (h.draw hsu hsu').sortLevel hfree hp.1 hTplain hl
  have hv : v.toNat < 2 ^ 62 := by omega
  have hnext : (v + 1).toNat = v.toNat + 1 := Supply.toNat_add_one (by omega)
  have hopened := (h.draw hsu hsu').skip hv hTscoped (.ofString name)
  have hbp : b.FVarsIn p :=
    fvarsIn_iff.mpr fun x hx => (fvarsIn_iff.mp hp.2.of_abstractFVar x hx).resolve_left
      (fvarsIn_iff.mp hunused x hx)
  -- The arrow opens nothing, so that its right side is read in the context as it was.
  obtain ⟨hbscoped, ⟨hvt, htv⟩, hwritten⟩ := hinside hb hopened hbp hbplain (by omega) (by omega)
  obtain ⟨t', hb', hut', htu'⟩ := hwritten prec'
  refine ⟨hTscoped, hbscoped, ⟨by omega, by omega⟩, t', ?_, by omega, by omega⟩
  have hnesting : b.nesting < 2 ^ 32 :=
    Nat.lt_of_le_of_lt (nesting_le_size b) (by have := hbplain.size; omega)
  have hbody : (b.rename ρ).lift 1 = (b.abstractFVar ⟨v⟩).rename ρ := by
    rw [← rename_lift, lift_eq_self (hbscoped.hasLooseBVars hnesting),
      abstractFVar_eq_self (hbscoped.closedUnder hnesting) hunused]
  unfold elaborate
  refine returns_bind.mpr ⟨_, u', hT', returns_bind.mpr ⟨_, t', hb', returns_pure.mpr ⟨?_, rfl⟩⟩⟩
  rw [Expr.arrow, hbody]
  rfl

end

@[simp] theorem elaborate_enclose (needed : Bool) (w : Surface.Term) :
    elaborate env n Γ (w.enclose needed) = elaborate env n Γ w := by
  cases needed <;> rfl

/-- A binder is made again, whether its variable occurs or not. -/
theorem Repeats.openBinder (hfree : env.FVarFree) (htype : Repeats env n type)
    (hinside : Repeats env n inside) {mk : BinderInfo → Expr → Expr → Expr}
    (hmk : mk = .pi ∨ mk = .lam) (name : String) :
    Repeats env n fun Γ => type Γ >>= fun T => Elaboration.openBinder env n mk Γ name T inside := by
  intro Γ s e t hr Γ' ρ p level d s' h he hplain hs hs'
  obtain ⟨T, u, hT, hbinder⟩ := returns_bind.mp hr
  obtain ⟨l, v, b, hl, hb, rfl⟩ := returns_openBinder.mp hbinder
  have hp : (Expr.pi .default T (b.abstractFVar ⟨v⟩)).FVarsIn p := by
    rcases hmk with rfl | rfl <;> exact he
  have hpi : (Expr.pi .default T (b.abstractFVar ⟨v⟩)).Plain d := by
    rcases hmk with rfl | rfl
    · exact hplain
    · exact ⟨hplain.letFree, hplain.apart, hplain.size⟩
  have hsize : (mk .default T (b.abstractFVar ⟨v⟩)).size = T.size + b.size + 1 := by
    rcases hmk with rfl | rfl <;> rw [size, size_abstractFVar] <;> omega
  rw [hsize] at hs hs' ⊢
  -- Its two parts are made again under any precedence.
  have hbinder := fun prec prec' =>
    Repeats.binder hfree htype hinside h hT hl hb hp hpi hs hs' hmk prec prec'
  obtain ⟨hTscoped, hbscoped, hdraws, -⟩ := hbinder 0 0
  have hbsize := hpi.pi.2.size
  have hnesting : b.nesting < 2 ^ 32 := by
    have := nesting_le_size b
    omega
  have hbfvars : b.FVarsIn fun y => y = ⟨v⟩ ∨ level y < d :=
    hp.2.of_abstractFVar.mono fun y hy => hy.imp_right (h.depth y)
  -- The variable that was drawn is the one that closing the body names.
  have hclosed := closeVars_abstractFVar (hbscoped.closedUnder hnesting) hbfvars
  have habstract := hbscoped.abstractFVar ⟨v⟩
  refine ⟨?_, hdraws, fun prec => ?_⟩
  · rcases hmk with rfl | rfl <;> exact ⟨hTscoped, habstract⟩
  rcases hmk with rfl | rfl
  · have hcloses : closeVars level d 0 (.pi .default T (b.abstractFVar ⟨v⟩)) =
        .pi .default (closeVars level d 0 T)
          (closeVars (Function.update level ⟨v⟩ d) (d + 1) 0 b) := congrArg _ hclosed
    have hlevel : ∀ y, y = ⟨v⟩ ∨ level y < d →
        Function.update level ⟨v⟩ d y ≤ d ∧ (Function.update level ⟨v⟩ d y ≠ d → y ≠ ⟨v⟩) := by
      intro y hy
      rw [Function.update_apply]
      split
      · exact ⟨Nat.le_refl d, fun hne => absurd rfl hne⟩
      · exact ⟨Nat.le_of_lt (hy.resolve_left ‹_›), fun _ => ‹_›⟩
    -- A quantified type is printed as an arrow if its body does not use the variable,
    -- and then nothing has to be looked up under that name.
    have huses := usesBVar_closeVars (K := 0) hbscoped (hbfvars.mono fun y hy => (hlevel y hy).1)
      (by have := nesting_le_size b; omega)
    rw [hcloses, written_pi]
    split
    · rw [elaborate_enclose, elaborate]
      exact (hbinder _ _).2.2.2
    · rename_i hunused
      have hunused : b.FVarsIn (· ≠ ⟨v⟩) :=
        fvarsIn_iff.mpr fun y hy => (hlevel y (fvarsIn_iff.mp hbfvars y hy)).2
          (fvarsIn_iff.mp (huses.mp (by simpa using hunused)) y hy)
      rw [elaborate_enclose]
      exact (Repeats.unused hfree htype hinside h hT hl hb hp hpi hs hs' hunused _ _).2.2.2
  · have hcloses : closeVars level d 0 (.lam .default T (b.abstractFVar ⟨v⟩)) =
        .lam .default (closeVars level d 0 T)
          (closeVars (Function.update level ⟨v⟩ d) (d + 1) 0 b) := congrArg _ hclosed
    rw [hcloses, written_lam, elaborate_enclose, elaborate]
    exact (hbinder _ _).2.2.2

end

end Elaboration

end Pinpoint
