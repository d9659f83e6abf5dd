/-
Terms without functions.

Only applied functions make a reduction go on, as long as constants have no
values; so where no function is written and none is declared, a term reduces to
itself, and everything that is asked of such terms ends, also of those that have
no type.

* `Expr.funFree` — terms without functions, definitions inside and metadata;
* `whnf_funFree`, `isDefEq_settles` — they reduce to themselves, and their
  comparison ends;
* `inferType_ends` — so does inference, and types that are inferred are without
  functions;
* `declare_settles` — so do the checks of constants.
-/
import Pinpoint.Proofs.Settling

namespace Pinpoint

namespace Expr

/-- Whether there is no function, no definition and no metadata in a term. -/
def funFree : Expr → Bool
  | .app f a => f.funFree && a.funFree
  | .pi _ t b => t.funFree && b.funFree
  | .lam .. | .letE .. | .mdata .. => false
  | _ => true

section
variable {f a e v : Expr} {i : BinderInfo} {t b : Expr} {x : FVarId}

theorem funFree_app : (app f a).funFree ↔ f.funFree ∧ a.funFree := by
  rw [funFree, Bool.and_eq_true]

theorem funFree_pi : (pi i t b).funFree ↔ t.funFree ∧ b.funFree := by
  rw [funFree, Bool.and_eq_true]

theorem funFree_mkApp {args : List Expr} (hf : f.funFree) (hargs : ∀ a ∈ args, a.funFree) :
    (f.mkApp args).funFree := by
  induction args generalizing f with
  | nil => exact hf
  | cons a args ih =>
    obtain ⟨ha, hargs⟩ := List.forall_mem_cons.mp hargs
    exact ih (funFree_app.mpr ⟨hf, ha⟩) hargs

theorem funFree_mapVars {g : UInt32 → UInt32 → Expr} {h : UInt32 → FVarId → Expr}
    (hg : ∀ d i, (g d i).funFree) (hh : ∀ d x, (h d x).funFree) (d : UInt32) (he : e.funFree) :
    (mapVars g h d e).funFree := by
  induction e generalizing d with
  | bvar i => exact hg d i
  | fvar x => exact hh d x
  | app f a ihf iha =>
    obtain ⟨hf, ha⟩ := funFree_app.mp he
    exact funFree_app.mpr ⟨ihf d hf, iha d ha⟩
  | pi i t b iht ihb =>
    obtain ⟨ht, hb⟩ := funFree_pi.mp he
    exact funFree_pi.mpr ⟨iht d ht, ihb (d + 1) hb⟩
  | lam | letE | mdata => cases he
  | _ => rfl

theorem funFree_lift (amount : UInt32) (he : e.funFree) : (e.lift amount).funFree :=
  funFree_mapVars (fun d i => by split <;> rfl) (fun _ _ => rfl) 0 he

theorem funFree_instantiate (he : e.funFree) (hv : v.funFree) : (e.instantiate v).funFree := by
  refine funFree_mapVars (fun d i => ?_) (fun _ _ => rfl) 0 he
  split
  · exact funFree_lift d hv
  · split <;> rfl

theorem funFree_abstractFVar (he : e.funFree) : (e.abstractFVar x).funFree :=
  funFree_mapVars (fun d i => by split <;> rfl) (fun d y => by split <;> rfl) 0 he

theorem funFree_instantiateLevels {s : List (Name × Level)} (he : e.funFree) :
    (e.instantiateLevels s).funFree := by
  induction e with
  | app f a ihf iha =>
    obtain ⟨hf, ha⟩ := funFree_app.mp he
    exact funFree_app.mpr ⟨ihf hf, iha ha⟩
  | pi i t b iht ihb =>
    obtain ⟨ht, hb⟩ := funFree_pi.mp he
    exact funFree_pi.mpr ⟨iht ht, ihb hb⟩
  | lam | letE | mdata => cases he
  | _ => rfl

theorem size_pos (e : Expr) : 0 < e.size := by
  cases e <;> simp only [size] <;> omega

end

end Expr

/-- Whether no type in a context has functions. -/
def LocalContext.FunFree (Γ : LocalContext) : Prop := ∀ entry ∈ Γ.entries, entry.type.funFree

theorem LocalContext.FunFree.push {Γ : LocalContext} (hΓ : Γ.FunFree) {type : Expr}
    (htype : type.funFree) (x : FVarId) (n : Name) : (Γ.push x n type).FunFree :=
  List.forall_mem_cons.mpr ⟨htype, hΓ⟩

namespace Environment

open Pinpoint.Expr

/-- Whether all constants are without values, and without functions in their
types. -/
def FunFree (env : Environment) : Prop := ∀ c ∈ env.constants, c.type.funFree ∧ c.value = none

theorem FunFree.push {env : Environment} (henv : env.FunFree) {c : Constant}
    (hc : c.type.funFree ∧ c.value = none) : (env.push c).FunFree := by
  intro c' hc'
  rcases List.mem_append.mp hc' with hc' | hc'
  · exact henv c' hc'
  · exact List.mem_singleton.mp hc' ▸ hc

variable {env : Environment} {Γ : LocalContext} {t : Transparency} {n : Nat} {e a b : Expr}
  {s : UInt64}

theorem FunFree.valueAt?_eq_none (henv : env.FunFree) (c : Name) (ls : List Level) :
    env.valueAt? t c ls = none := by
  cases t with
  | reducible => rfl
  | all =>
    refine Option.eq_none_iff_forall_ne_some.mpr fun v hv => ?_
    obtain ⟨info, hinfo, hv⟩ := Option.bind_eq_some_iff.mp hv
    obtain ⟨v', hv', rfl⟩ := Option.bind_eq_some_iff.mp hv
    rw [Constant.instantiateValue, (henv info (List.mem_of_find?_eq_some hinfo)).2] at hv'
    cases hls : info.levelSubst ls <;> rw [hls] at hv' <;> simp [Except.toOption, Except.map] at hv'

section
variable (henv : env.FunFree)
include henv

/-! ### Reduction and comparison -/

theorem whnf_appFn (he : e.funFree) :
    env.whnf t (n + 1) e.appFn = some e.appFn ∧ env.Stuck t e.appFn := by
  induction e with
  | app f a ihf _ => exact ihf (funFree_app.mp he).1
  | const c ls =>
    refine ⟨whnf_const_of_none (henv.valueAt?_eq_none c ls), nofun, ?_⟩
    rintro c' ls' heq
    exact henv.valueAt?_eq_none c' ls'
  | lam | letE | mdata => cases he
  | _ => exact ⟨rfl, nofun, nofun⟩

/-- A term without functions reduces to itself. -/
theorem whnf_funFree (he : e.funFree) : env.whnf t (n + 2) e = some e := by
  cases e with
  | app f a =>
    obtain ⟨hhead, hstuck⟩ := whnf_appFn (t := t) (n := n) henv he
    exact whnf_app_of_stuck hhead hstuck
  | const c ls => exact whnf_const_of_none (henv.valueAt?_eq_none c ls)
  | lam | letE | mdata => cases he
  | _ => rfl

theorem whnf_settles (he : e.funFree) : Settles (fun n => env.whnf t n e) fun e' => e' = e := by
  refine .of_eq 2 (fun n hn => ?_) rfl
  obtain ⟨n, rfl⟩ : ∃ k, n = k + 2 := ⟨n - 2, by omega⟩
  exact whnf_funFree henv he

/-- Two terms without functions are compared part by part. -/
theorem isDefEq_isSome (ha : a.funFree) (hb : b.funFree) (hn : a.size + 2 ≤ n) :
    (env.isDefEq t n a b).isSome := by
  induction n generalizing a b with
  | zero => omega
  | succ n ih =>
    have hpos := a.size_pos
    obtain ⟨m, rfl⟩ : ∃ k, n = k + 2 := ⟨n - 2, by omega⟩
    rw [isDefEq_succ]
    split
    · rfl
    · rw [whnf_funFree henv ha, whnf_funFree henv hb]
      show (compareParts (env.isDefEq t (m + 2)) a b).isSome
      -- Nothing reduces, so the parts of the two terms are compared one after the other.
      have hparts : ∀ {x y x' y' : Expr}, x.funFree → y.funFree → x'.funFree → y'.funFree →
          x.size + y.size + 1 ≤ m + 1 →
          (do if ← env.isDefEq t (m + 2) x x' then env.isDefEq t (m + 2) y y' else some false :
            Option Bool).isSome := by
        intro x y x' y' hx hy hx' hy' hsize
        obtain ⟨r, hr⟩ := Option.isSome_iff_exists.mp (ih hx hx' (by omega))
        rw [hr]
        cases r with
        | false => rfl
        | true => exact ih hy hy' (by omega)
      cases a with
      | app f x =>
        cases b with
        | app f' x' =>
          obtain ⟨hf, hx⟩ := funFree_app.mp ha
          obtain ⟨hf', hx'⟩ := funFree_app.mp hb
          refine hparts hf hx hf' hx' ?_
          simp only [size] at hn
          omega
        | _ => rfl
      | pi i d c =>
        cases b with
        | pi i' d' c' =>
          obtain ⟨hd, hc⟩ := funFree_pi.mp ha
          obtain ⟨hd', hc'⟩ := funFree_pi.mp hb
          refine hparts hd hc hd' hc' ?_
          simp only [size] at hn
          omega
        | _ => rfl
      | lam | letE | mdata => cases ha
      | _ => cases b <;> rfl

theorem isDefEq_settles (ha : a.funFree) (hb : b.funFree) :
    Settles (fun n => env.isDefEq t n a b) fun _ => True := by
  obtain ⟨r, hr⟩ := Option.isSome_iff_exists.mp (isDefEq_isSome (t := t) henv ha hb (Nat.le_refl _))
  exact .of_eq _ (fun n hn => isDefEq_mono hn hr) trivial

/-! ### Inference -/

theorem sortOfType_ends (e : Expr) (ha : a.funFree) :
    Ends (fun n => env.sortOfType n e a) s fun _ => True := by
  refine Ends.bind (Ends.lift (whnf_settles henv ha)) fun W t hW => ?_
  subst hW
  cases W with
  | sort l => exact .pure trivial
  | _ => exact .throw _

theorem inferType_const_ends (c : Name) (ls : List Level) :
    Ends (fun n => env.inferType (n + 1) Γ (.const c ls)) s fun T => T.funFree := by
  cases hc : env.find? c with
  | none =>
    simp only [inferType, hc]
    exact .throw _
  | some info =>
    simp only [inferType, hc]
    unfold Constant.instantiateType
    cases info.levelSubst ls with
    | error err => exact .throw _
    | ok σ => exact .pure (funFree_instantiateLevels (henv info (List.mem_of_find?_eq_some hc)).1)

/-- Inference ends, and what it finds is without functions. -/
theorem inferType_ends (hΓ : Γ.FunFree) (he : e.funFree) :
    Ends (fun n => env.inferType n Γ e) s fun T => T.funFree := by
  -- By induction on the size, which opening a binder leaves as it is.
  induction hsize : e.size using Nat.strongRecOn generalizing e Γ s with
  | _ k ih =>
  subst hsize
  refine .succ ?_
  cases e with
  | bvar i => exact .throw _
  | fvar x =>
    cases hx : Γ.find? x with
    | none =>
      simp only [inferType, hx]
      exact .throw _
    | some entry =>
      simp only [inferType, hx]
      exact .pure (hΓ entry (List.mem_of_find?_eq_some hx))
  | sort l => exact .pure rfl
  | lit v => cases v <;> exact .pure rfl
  | const c ls => exact inferType_const_ends henv c ls
  | app f a =>
    obtain ⟨hf, ha⟩ := funFree_app.mp he
    refine Ends.bind (ih f.size (by simp only [size]; omega) hΓ hf rfl) fun F t hF => ?_
    refine Ends.bind (Ends.lift (whnf_settles henv hF)) fun W t hW => ?_
    subst hW
    -- A type without functions is reduced already.
    cases W with
    | pi i dom body =>
      obtain ⟨hdom, hbody⟩ := funFree_pi.mp hF
      refine Ends.bind (ih a.size (by simp only [size]; omega) hΓ ha rfl) fun A t hA => ?_
      refine Ends.bind (Ends.lift (isDefEq_settles henv hA hdom)) fun r t _ => ?_
      cases r with
      | false => exact .throw _
      | true => exact .pure (funFree_instantiate hbody ha)
    | _ => exact .throw _
  | pi i dom body =>
    obtain ⟨hdom, hbody⟩ := funFree_pi.mp he
    refine Ends.bind (ih dom.size (by simp only [size]; omega) hΓ hdom rfl) fun D t hD => ?_
    refine Ends.bind (sortOfType_ends henv _ hD) fun l₁ t _ => ?_
    refine Ends.bind .fresh fun x t _ => ?_
    refine Ends.bind (ih body.size (by simp only [size]; omega) (hΓ.push hdom _ _)
      (funFree_instantiate hbody rfl) (size_instantiate_fvar body x)) fun B t hB => ?_
    exact Ends.bind (sortOfType_ends henv _ hB) fun l₂ t _ => .pure rfl
  | lam | letE | mdata => cases he

theorem ensureSort_ends (hΓ : Γ.FunFree) (he : e.funFree) :
    Ends (fun n => Checker.ensureSort ⟨env, Γ, n⟩ e) s fun _ => True :=
  Ends.bind (inferType_ends henv hΓ he) fun _ _ hT => sortOfType_ends henv e hT

/-! ### Declarations -/

/-- The check of a constant without functions ends. -/
theorem declare_settles {c : Constant} (hc : c.type.funFree ∧ c.value = none) :
    Settles (fun n => env.declare n c) fun r => ∀ env', r = .ok env' → env'.FunFree := by
  by_cases hname : env.contains c.name
  · refine Settles.congr (.pure ?_) fun n => if_pos hname
    exact nofun
  by_cases hloose : c.type.hasLooseBVars || c.value.any Expr.hasLooseBVars
  · refine Settles.congr (.pure ?_) fun n => (if_neg hname).trans (if_pos hloose)
    exact nofun
  have hcheck : Ends (fun n => env.checkConstant n c) Checker.firstFresh fun _ => True := by
    unfold checkConstant
    rw [hc.2]
    exact Ends.bind (ensureSort_ends henv (Γ := .empty) nofun hc.1) fun _ _ _ => .pure trivial
  refine Settles.congr (hcheck.run'.map (f := fun r => r.map fun _ => env.push c) fun r _ => ?_)
    fun n => (if_neg hname).trans (if_neg hloose)
  intro env' henv'
  cases r with
  | error err => cases henv'
  | ok _ =>
    obtain rfl := Except.ok.inj henv'
    exact henv.push hc

end

end Environment

end Pinpoint
