/-
Binders closed all at once.

While a text is elaborated its binders are opened; when a term is printed they are
closed.  `e.closeVars level d k` is the term `e` of a place with `d` binders around
it, `k` of them in `e` itself, once all of them are closed: `level x` is the number
of binders around the one that was opened with the variable `x`.

* `closeVars_abstractFVar` — closing one binder and then the others;
* `usesBVar_closeVars` — the variable of the innermost binder;
* `written_closeVars_fvar`, `written_mkApp` — how variables and applications are
  written.
-/
import Mathlib.Data.List.Induction
import Pinpoint.Proofs.Constants
import Pinpoint.Proofs.Written

namespace Pinpoint

/-- The number of arguments that make an operation of the constant. -/
def Operator.arity : Operator → Nat
  | .iff => 2
  | _ => 3

theorem Operator.constant_injective : Function.Injective Operator.constant := by
  intro op op' h
  cases op <;> cases op' <;> first | rfl | exact absurd h (by decide)

theorem Operator.eq_of_ofTernary? {n : Name} {op : Operator} (h : ofTernary? n = some op) :
    n = op.constant ∧ op.arity = 3 := by
  unfold ofTernary? at h
  split at h
  · cases h
    exact ⟨‹_›, rfl⟩
  · split at h
    · cases h
      exact ⟨‹_›, rfl⟩
    · split at h
      · cases h
        exact ⟨‹_›, rfl⟩
      · cases h

theorem Surface.Args.ofList_append (a : Term) (as : List Term) (b : Term) :
    (ofList a as).append (.one b) = ofList a (as ++ [b]) := by
  induction as generalizing a with
  | nil => rfl
  | cons a' as ih => exact congrArg (Args.cons a) (ih a')

namespace Expr

/-! ### Closing -/

/-- The term with its free variables bound by the binders that are counted by
`level`, where `d + k` binders stand around it, `k` of them in the term. -/
def closeVars (level : FVarId → Nat) (d : Nat) (k : UInt32) (e : Expr) : Expr :=
  mapVars (fun _ i => .bvar i) (fun k x => .bvar (k + .ofNat (d - 1 - level x))) k e

variable {level : FVarId → Nat} {d K : Nat} {k : UInt32} {e f a b : Expr} {x : FVarId}

/-- One binder more without a variable of its own. -/
theorem closeVars_succ (h : e.FVarsIn fun y => level y < d) :
    closeVars level d (k + 1) e = closeVars level (d + 1) k e := by
  unfold closeVars
  induction e generalizing k with
  | fvar x =>
    have hlevel : d + 1 - 1 - level x = d - 1 - level x + 1 := by
      have : level x < d := h
      omega
    simp only [mapVars, hlevel, ofNat_succ, UInt32.add_assoc, UInt32.add_comm 1]
  | app f a ihf iha => simp only [mapVars, ihf h.1, iha h.2]
  | lam i t b iht ihb | pi i t b iht ihb => simp only [mapVars, iht h.1, ihb h.2]
  | letE t v b iht ihv ihb => simp only [mapVars, iht h.1, ihv h.2.1, ihb h.2.2]
  | mdata m e ih => simp only [mapVars, ih h]
  | _ => rfl

theorem closeVars_mapVars (hb : b.closedUnder k)
    (hfvars : b.FVarsIn fun y => y = x ∨ level y < d) :
    closeVars level d (k + 1)
        (mapVars (fun d i => if d ≤ i then .bvar (i + 1) else .bvar i)
          (fun d y => if y = x then .bvar d else .fvar y) k b) =
      closeVars (Function.update level x d) (d + 1) k b := by
  unfold closeVars
  unfold closedUnder at hb
  induction b generalizing k with
  | bvar i =>
    have hi : ¬ k ≤ i := by simpa [allBVars] using hb
    simp only [mapVars, if_neg hi]
  | fvar y =>
    by_cases hy : y = x
    · subst hy
      simp [mapVars]
    · -- An older variable stands under one binder more than before.
      have hlevel : d + 1 - 1 - level y = d - 1 - level y + 1 := by
        have : level y < d := hfvars.resolve_left hy
        omega
      simp only [mapVars, if_neg hy, Function.update_of_ne hy, hlevel, ofNat_succ,
        UInt32.add_assoc, UInt32.add_comm 1]
  | app f a ihf iha =>
    obtain ⟨hf, ha⟩ := Bool.and_eq_true_iff.mp hb
    simp only [mapVars, ihf hf hfvars.1, iha ha hfvars.2]
  | lam i t b iht ihb | pi i t b iht ihb =>
    obtain ⟨ht, hb⟩ := Bool.and_eq_true_iff.mp hb
    simp only [mapVars, iht ht hfvars.1, ihb hb hfvars.2]
  | letE t v b iht ihv ihb =>
    obtain ⟨htv, hb⟩ := Bool.and_eq_true_iff.mp hb
    obtain ⟨ht, hv⟩ := Bool.and_eq_true_iff.mp htv
    simp only [mapVars, iht ht hfvars.1, ihv hv hfvars.2.1, ihb hb hfvars.2.2]
  | mdata m e ih => simp only [mapVars, ih hb hfvars]
  | _ => rfl

/-- A binder is closed, and then those around it. -/
theorem closeVars_abstractFVar (hb : b.closedUnder 0)
    (hfvars : b.FVarsIn fun y => y = x ∨ level y < d) :
    closeVars level d 1 (b.abstractFVar x) =
      closeVars (Function.update level x d) (d + 1) 0 b :=
  closeVars_mapVars (k := 0) hb hfvars

/-- The variable of the innermost binder is used if the term has a free variable
of that level. -/
theorem usesBVar_closeVars (hb : b.Scoped K) (hfvars : b.FVarsIn fun y => level y ≤ d)
    (hsize : K + d + b.nesting < 2 ^ 32) :
    (closeVars level (d + 1) (.ofNat K) b).usesBVar K = false ↔
      b.FVarsIn fun y => level y ≠ d := by
  unfold closeVars
  induction b generalizing K with
  | bvar i =>
    have hi : i.toNat < K := hb
    simp only [mapVars, usesBVar, FVarsIn, decide_eq_false_iff_not, iff_true]
    omega
  | fvar y =>
    have hy : level y ≤ d := hfvars
    -- The level becomes the distance from the innermost binder, with no wrap.
    have hindex : (UInt32.ofNat K + .ofNat (d + 1 - 1 - level y)).toNat = K + (d - level y) := by
      rw [← UInt32.ofNat_add, UInt32.toNat_ofNat_of_lt']
      · omega
      · simp only [nesting] at hsize
        exact Nat.lt_of_le_of_lt (by omega) hsize
    simp only [mapVars, usesBVar, FVarsIn, hindex, decide_eq_false_iff_not]
    omega
  | app f a ihf iha =>
    simp only [nesting] at hsize
    simp only [mapVars, usesBVar, FVarsIn, Bool.or_eq_false_iff,
      ihf hb.1 hfvars.1 (by omega), iha hb.2 hfvars.2 (by omega)]
  | lam i t b iht ihb | pi i t b iht ihb =>
    simp only [nesting] at hsize
    have ihb := ihb hb.2 hfvars.2 (by omega)
    rw [ofNat_succ] at ihb
    simp only [mapVars, usesBVar, FVarsIn, Bool.or_eq_false_iff,
      iht hb.1 hfvars.1 (by omega), ihb]
  | letE t v b iht ihv ihb =>
    simp only [nesting] at hsize
    have ihb := ihb hb.2.2 hfvars.2.2 (by omega)
    rw [ofNat_succ] at ihb
    simp only [mapVars, usesBVar, FVarsIn, Bool.or_eq_false_iff, and_assoc,
      iht hb.1 hfvars.1 (by omega), ihv hb.2.1 hfvars.2.1 (by omega), ihb]
  | mdata m e ih => exact ih hb hfvars hsize
  | _ => simp [mapVars, usesBVar, FVarsIn]

theorem closeVars_mkApp (f : Expr) (args : List Expr) :
    closeVars level d k (mkApp f args) =
      mkApp (closeVars level d k f) (args.map (closeVars level d k)) := by
  induction args generalizing f with
  | nil => rfl
  | cons a args ih => exact ih (.app f a)

/-- Closing leaves operations, and makes none. -/
theorem operation?_closeVars (e : Expr) : (closeVars level d k e).operation? =
    e.operation?.map fun (op, a, b) => (op, closeVars level d k a, closeVars level d k b) := by
  unfold closeVars
  cases e with
  | app f b =>
    cases f with
    | app f a =>
      cases f with
      | app f c =>
        cases f with
        | const n ls => simp only [mapVars, operation?, Option.map_map]; rfl
        | _ => rfl
      | const n ls =>
        simp only [mapVars, operation?]
        split <;> rfl
      | _ => rfl
    | _ => rfl
  | _ => rfl

/-- A term without free variables is as it was. -/
theorem closeVars_eq_self (h : e.FVarsIn fun _ => False) : closeVars level d k e = e := by
  unfold closeVars
  induction e generalizing k with
  | fvar x => exact h.elim
  | app f a ihf iha => simp only [mapVars, ihf h.1, iha h.2]
  | lam i t b iht ihb | pi i t b iht ihb => simp only [mapVars, iht h.1, ihb h.2]
  | letE t v b iht ihv ihb => simp only [mapVars, iht h.1, ihv h.2.1, ihb h.2.2]
  | mdata m e ih => simp only [mapVars, ih h]
  | _ => rfl

/-! ### Writing -/

/-- A variable is written by the number of binders around its own. -/
theorem written_closeVars_fvar (hx : level x < d) (hd : d < 2 ^ 32) (prec : Nat) :
    (closeVars level d 0 (.fvar x)).written d prec =
      .ident .nowhere (binderName (level x)) := by
  have hindex : (0 + UInt32.ofNat (d - 1 - level x)).toNat = d - 1 - level x := by
    rw [UInt32.zero_add, UInt32.toNat_ofNat_of_lt']
    exact Nat.lt_of_le_of_lt (by omega) hd
  rw [closeVars, mapVars, written_bvar, hindex]
  congr 2
  omega

/-- An operation is its constant with as many arguments as this takes. -/
theorem appFn_of_operation? {op : Operator} (h : e.operation? = some (op, a, b)) :
    ∃ ls, e.appFn = .const op.constant ls ∧ e.appArgs.length = op.arity := by
  unfold operation? at h
  split at h
  · obtain ⟨op', hop, heq⟩ := Option.map_eq_some_iff.mp h
    cases heq
    obtain ⟨rfl, harity⟩ := Operator.eq_of_ofTernary? hop
    exact ⟨_, rfl, harity.symm⟩
  · split at h
    · cases h
      subst_vars
      exact ⟨_, rfl, rfl⟩
    · cases h
  · cases h

/-- Whether none of the terms that a head makes with some of the arguments is an
operation. -/
def KeepsApart (f : Expr) (n : Nat) : Prop :=
  ∀ (op : Operator) (ls : List Level), f.appFn = .const op.constant ls →
    f.appArgs.length + n < op.arity ∨ op.arity ≤ f.appArgs.length

theorem appArgsAux_eq (e : Expr) (rest : List Expr) : e.appArgsAux rest = e.appArgs ++ rest := by
  induction e generalizing rest with
  | app f a ihf _ =>
    rw [appArgs, appArgsAux, appArgsAux, ihf, ihf [a], List.append_assoc, List.singleton_append]
  | _ => rfl

theorem appArgs_mkApp (f : Expr) (args : List Expr) :
    (mkApp f args).appArgs = f.appArgs ++ args := by
  induction args generalizing f with
  | nil => rw [mkApp_nil, List.append_nil]
  | cons a args ih =>
    rw [mkApp_cons, ih, appArgs, appArgsAux, appArgsAux_eq, List.append_assoc,
      List.singleton_append]

theorem KeepsApart.operation? {n : Nat} (h : KeepsApart f n) {args : List Expr}
    (hne : args ≠ []) (hargs : args.length ≤ n) : (mkApp f args).operation? = none := by
  refine Option.eq_none_iff_forall_ne_some.mpr fun r hr => ?_
  obtain ⟨op, a, b⟩ := r
  obtain ⟨ls, hhead, harity⟩ := appFn_of_operation? hr
  rw [appFn_mkApp] at hhead
  rw [appArgs_mkApp, List.length_append] at harity
  have := List.length_pos_iff.mpr hne
  rcases h op ls hhead with h | h <;> omega

/-- A head is written in front of its arguments. -/
theorem written_mkApp {prec : Nat} {args : List Expr} (h : KeepsApart f (args.length + 1))
    (hf : ∀ others, (f.written d Precedence.app).applyArgs others =
      .app .nowhere (f.written d Precedence.app) others) :
    (mkApp f (a :: args)).written d prec =
      .enclose (Precedence.app < prec) (.app .nowhere (f.written d Precedence.app)
        (.ofList (a.written d Precedence.arg) (args.map (written d Precedence.arg)))) := by
  induction args using List.reverseRecOn generalizing prec with
  | nil =>
    have hop : (mkApp f [a]).operation? = none := h.operation? (by simp) (by simp)
    rw [mkApp_cons, mkApp_nil] at hop ⊢
    rw [written_app hop, hf]
    rfl
  | append_singleton args a' ih =>
    have hop : (mkApp f (a :: (args ++ [a']))).operation? = none :=
      h.operation? (by simp) (by simp)
    have heq : mkApp f (a :: (args ++ [a'])) = .app (mkApp f (a :: args)) a' := by
      rw [← List.cons_append, mkApp_append]
      rfl
    have hfewer : KeepsApart f (args.length + 1) := fun op ls hhead => by
      rcases h op ls hhead with h | h
      · rw [List.length_append, List.length_singleton] at h
        omega
      · exact .inr h
    rw [heq] at hop ⊢
    rw [written_app hop, ih hfewer]
    simp only [Surface.Term.enclose, Nat.lt_irrefl, decide_false, Bool.false_eq_true, if_false,
      Surface.Term.applyArgs, Surface.Args.ofList_append, List.map_append, List.map_cons,
      List.map_nil]

/-- Terms that, written as the head of an application, are no names: universes,
literals, terms with a binder, and operations. -/
def isBase : Expr → Bool
  | .sort _ | .lit _ | .lam .. | .pi .. => true
  | e => e.operation?.isSome

theorem isBase_closeVars (h : e.isBase) : (closeVars level d k e).isBase := by
  cases e with
  | sort | lit | lam | pi => rfl
  | app f a =>
    have hop : (closeVars level d k (app f a)).operation?.isSome := by
      rw [operation?_closeVars, Option.isSome_map]
      exact h
    exact hop
  | _ => cases h

theorem isBase_cases (h : e.isBase) :
    (∃ op a b, e.operation? = some (op, a, b)) ∨ (e.operation? = none ∧ e.appFn = e ∧
      ∀ n ls, e ≠ .const n ls) := by
  cases e with
  | app f a =>
    obtain ⟨⟨op, a, b⟩, hop⟩ := Option.isSome_iff_exists.mp h
    exact .inl ⟨op, a, b, hop⟩
  | sort | lit | lam | pi => exact .inr ⟨rfl, rfl, nofun⟩
  | _ => cases h

theorem keepsApart_of_isBase (h : e.isBase) (n : Nat) : KeepsApart e n := by
  intro op ls hhead
  rcases isBase_cases h with ⟨op', a, b, hop⟩ | ⟨-, happ, hconst⟩
  · obtain ⟨ls', hhead', harity⟩ := appFn_of_operation? hop
    rw [hhead] at hhead'
    obtain ⟨hconstant, -⟩ := Expr.const.inj hhead'
    rw [Operator.constant_injective hconstant]
    exact .inr (Nat.le_of_eq harity.symm)
  · exact absurd (happ.symm.trans hhead) (hconst _ _)

end Expr

namespace Surface

/-- Whether a term is a name or an application, parentheses apart. -/
def Term.isSpine : Term → Bool
  | .ident .. | .app .. => true
  | .paren _ e => e.isSpine
  | _ => false

@[simp] theorem Term.isSpine_enclose (needed : Bool) (e : Term) :
    (e.enclose needed).isSpine = e.isSpine := by
  cases needed <;> rfl

theorem Term.applyArgs_of_not_isSpine {head : Term} (h : head.isSpine = false) (args : Args) :
    head.applyArgs args = .app .nowhere head args := by
  cases head with
  | app => cases h
  | _ => rfl

end Surface

namespace Expr

variable {d : Nat} {e : Expr}

theorem isSpine_written (h : e.isBase) (prec : Nat) : (e.written d prec).isSpine = false := by
  rcases isBase_cases h with ⟨op, a, b, hop⟩ | ⟨hop, -, -⟩
  · rw [written_of_operation hop, Surface.Term.isSpine_enclose]
    rfl
  · cases e with
    | sort l =>
      rw [written]
      simp only [operation?]
      split <;> rfl
    | lit v =>
      rw [written]
      cases v <;> rfl
    | lam => rw [written_lam, Surface.Term.isSpine_enclose]; rfl
    | pi =>
      rw [written_pi]
      split <;> rw [Surface.Term.isSpine_enclose] <;> rfl
    | app =>
      obtain ⟨_, hsome⟩ := Option.isSome_iff_exists.mp h
      cases hop.symm.trans hsome
    | _ => cases h

end Expr

end Pinpoint
