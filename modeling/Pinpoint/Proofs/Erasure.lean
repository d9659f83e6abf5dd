/-
From terms of the checker to terms with indices of any size.

`Expr.term` forgets metadata, binder annotations and the parts of levels that
simplify.  An index of 32 bits wraps, so the operations on terms are those on
`Term` only where indices and binders together stay small: `e.span` bounds
both, and a term is `Narrow` if its span is below `2 ^ 31`.

* `term_mapVars` — a traversal is a substitution;
* `term_instantiate`, `term_abstractFVar`, `term_instantiateRev`,
  `term_bindFVars?`, `term_instantiateLevels` — the operations;
* `term_eq_of_eqModMData` — terms equal up to metadata have the same image.
-/
import Pinpoint.Expr.Metadata
import Pinpoint.Proofs.Judgements
import Pinpoint.Proofs.Metavariables
import Pinpoint.Proofs.Skeleton

namespace Pinpoint

namespace Expr

/-- The term without metadata and binder annotations, with simplified
levels. -/
def term : Expr → Term
  | .bvar i => .bvar i.toNat
  | .fvar x => .fvar x
  | .sort l => .sort l.simplify
  | .const n ls => .const n (ls.map Level.simplify)
  | .app f a => .app f.term a.term
  | .lam _ t b => .lam t.term b.term
  | .pi _ t b => .pi t.term b.term
  | .letE t v b => .letE t.term v.term b.term
  | .lit v => .lit v
  | .mdata _ e => e.term

/-- A bound for the indices and for the binders around each of them. -/
def span : Expr → Nat
  | .bvar i => i.toNat + 1
  | .app f a => max f.span a.span
  | .lam _ t b => max t.span (b.span + 1)
  | .pi _ t b => max t.span (b.span + 1)
  | .letE t v b => max t.span (max v.span (b.span + 1))
  | .mdata _ e => e.span
  | _ => 0

/-- Whether no operation on the term and others like it can wrap an index. -/
def Narrow (e : Expr) : Prop := e.span < 2 ^ 31

instance (e : Expr) : Decidable e.Narrow := inferInstanceAs (Decidable (_ < _))

section
variable {f a type value body : Expr} {info : BinderInfo}

theorem narrow_app : (app f a).Narrow ↔ f.Narrow ∧ a.Narrow := by
  simp only [Narrow, span]
  omega

theorem narrow_lam (h : (lam info type body).Narrow) : type.Narrow ∧ body.Narrow := by
  simp only [Narrow, span] at h ⊢
  omega

theorem narrow_pi (h : (pi info type body).Narrow) : type.Narrow ∧ body.Narrow := by
  simp only [Narrow, span] at h ⊢
  omega

theorem narrow_letE (h : (letE type value body).Narrow) :
    type.Narrow ∧ value.Narrow ∧ body.Narrow := by
  simp only [Narrow, span] at h ⊢
  omega

end

@[simp] theorem term_mkApp (f : Expr) (args : List Expr) :
    (mkApp f args).term = (args.map term).foldl .app f.term := by
  induction args generalizing f with
  | nil => rfl
  | cons a args ih => exact ih (.app f a)

@[simp] theorem term_stripMData (e : Expr) : e.stripMData.term = e.term := by
  induction e with
  | mdata _ _ ih => exact ih
  | _ => rfl

theorem uses_term {p : FVarId → Prop} {n : Nat} {e : Expr} (hscoped : e.Scoped n)
    (hfvars : e.FVarsIn p) : e.term.Uses p n := by
  induction e generalizing n with
  | bvar i => exact hscoped
  | fvar x => exact hfvars
  | app _ _ ihf iha => exact ⟨ihf hscoped.1 hfvars.1, iha hscoped.2 hfvars.2⟩
  | lam _ _ _ iht ihb | pi _ _ _ iht ihb =>
    exact ⟨iht hscoped.1 hfvars.1, ihb hscoped.2 hfvars.2⟩
  | letE _ _ _ iht ihv ihb =>
    exact ⟨iht hscoped.1 hfvars.1, ihv hscoped.2.1 hfvars.2.1, ihb hscoped.2.2 hfvars.2.2⟩
  | mdata _ _ ih => exact ih hscoped hfvars
  | _ => trivial

theorem closed_term {e : Expr} (h : e.Scoped 0) : e.term.Closed :=
  uses_term h (fvarsIn_of_forall (fun _ => trivial) e)

end Expr

/-! ### Substitutions below binders -/

namespace Subst

/-- The substitution below `n` more binders. -/
def ups : Nat → Subst → Subst
  | 0, σ => σ
  | n + 1, σ => (ups n σ).up

theorem ups_bound_of_lt {k i : Nat} (σ : Subst) (h : i < k) : (ups k σ).bound i = .bvar i := by
  induction k generalizing i with
  | zero => exact absurd h (Nat.not_lt_zero i)
  | succ k ih =>
    cases i with
    | zero => rfl
    | succ i =>
      show ((ups k σ).bound i).lift 1 = _
      rw [ih (Nat.lt_of_succ_lt_succ h)]
      rfl

theorem ups_bound_add (σ : Subst) (k i : Nat) : (ups k σ).bound (i + k) = (σ.bound i).lift k := by
  induction k with
  | zero => exact (Term.rename_id _).symm
  | succ k ih =>
    show ((ups k σ).bound (i + k)).lift 1 = _
    rw [ih, Term.lift_lift]

theorem ups_bound_of_le {k i : Nat} (σ : Subst) (h : k ≤ i) :
    (ups k σ).bound i = (σ.bound (i - k)).lift k := by
  rw [← ups_bound_add, Nat.sub_add_cancel h]

theorem ups_free (σ : Subst) (k : Nat) (x : FVarId) : (ups k σ).free x = (σ.free x).lift k := by
  induction k with
  | zero => exact (Term.rename_id _).symm
  | succ k ih =>
    show ((ups k σ).free x).lift 1 = _
    rw [ih, Term.lift_lift]

end Subst

namespace Expr

open Subst

variable {e v : Expr} {k : Nat}

/-- A traversal that does at the variables what a substitution does is that
substitution. -/
theorem term_mapVars {f : UInt32 → UInt32 → Expr} {g : UInt32 → FVarId → Expr} {σ : Subst}
    (hf : ∀ k i, k + i.toNat < 2 ^ 31 → (f (.ofNat k) i).term = (ups k σ).bound i.toNat)
    (hg : ∀ k x, k < 2 ^ 31 → (g (.ofNat k) x).term = (ups k σ).free x)
    (h : k + e.span < 2 ^ 31) :
    (mapVars f g (.ofNat k) e).term = e.term.subst (ups k σ) := by
  induction e generalizing k with
  | bvar i => exact hf k i (by simp only [span] at h; omega)
  | fvar x => exact hg k x h
  | sort l | const n ls | lit v => rfl
  | app f a ihf iha =>
    simp only [span] at h
    show Term.app _ _ = Term.app _ _
    rw [ihf (by omega), iha (by omega)]
  | lam i t b iht ihb =>
    simp only [span] at h
    show Term.lam _ _ = Term.lam _ _
    rw [iht (by omega), ← ofNat_succ, ihb (k := k + 1) (by omega)]
    rfl
  | pi i t b iht ihb =>
    simp only [span] at h
    show Term.pi _ _ = Term.pi _ _
    rw [iht (by omega), ← ofNat_succ, ihb (k := k + 1) (by omega)]
    rfl
  | letE t v b iht ihv ihb =>
    simp only [span] at h
    show Term.letE _ _ _ = Term.letE _ _ _
    rw [iht (by omega), ihv (by omega), ← ofNat_succ, ihb (k := k + 1) (by omega)]
    rfl
  | mdata _ e ih => exact ih h

/-! ### The operations -/

theorem term_lift {amount : UInt32} (he : e.Narrow) (hamount : amount.toNat < 2 ^ 31) :
    (e.lift amount).term = e.term.lift amount.toNat := by
  rw [Term.lift, Term.rename_eq_subst]
  refine term_mapVars (k := 0) (fun k i hk => ?_) (fun k x _ => ?_) (by simpa [Narrow] using he)
  · have hadd : (i + amount).toNat = i.toNat + amount.toNat := by
      rw [UInt32.toNat_add]
      exact Nat.mod_eq_of_lt (by omega)
    by_cases hki : k ≤ i.toNat
    · have hcond : UInt32.ofNat k ≤ i ∧ i < maxIndex := by
        rw [ofNat_le_iff (by omega), UInt32.lt_iff_toNat_lt]
        exact ⟨hki, by simp [maxIndex]; omega⟩
      rw [if_pos hcond, ups_bound_of_le _ hki, term, hadd, Term.lift_bvar]
      congr 1
      omega
    · rw [if_neg (fun h => hki ((ofNat_le_iff (by omega)).mp h.1)), ups_bound_of_lt _ (by omega)]
      rfl
  · rw [ups_free]
    rfl

theorem term_instantiate (he : e.Narrow) (hv : v.Narrow) :
    (e.instantiate v).term = e.term.inst v.term := by
  refine term_mapVars (k := 0) (σ := .single v.term) (fun k i hk => ?_) (fun k x _ => ?_)
    (by simpa [Narrow] using he)
  · have hofNat : (UInt32.ofNat k).toNat = k := toNat_ofNat_of_lt (by omega)
    by_cases hik : i.toNat = k
    · rw [if_pos ((eq_ofNat_iff (by omega)).mpr hik), term_lift hv (by omega), hofNat,
        ups_bound_of_le _ (by omega), hik, Nat.sub_self]
      rfl
    · rw [if_neg (fun h => hik ((eq_ofNat_iff (by omega)).mp h))]
      by_cases hki : k < i.toNat
      · have hsub : (i - 1).toNat = i.toNat - 1 :=
          UInt32.toNat_sub_of_le _ _ (UInt32.le_iff_toNat_le.mpr (by simp; omega))
        rw [if_pos ((ofNat_lt_iff (by omega)).mpr hki), ups_bound_of_le _ (by omega), term, hsub]
        obtain ⟨j, hj⟩ : ∃ j, i.toNat - k = j + 1 := ⟨i.toNat - k - 1, by omega⟩
        rw [hj]
        show Term.bvar _ = Term.bvar (j + k)
        congr 1
        omega
      · rw [if_neg (fun h => hki ((ofNat_lt_iff (by omega)).mp h)), ups_bound_of_lt _ (by omega)]
        rfl
  · rw [ups_free]
    rfl

/-- The substitution that makes a free variable the variable of a new
binder. -/
def closing (x : FVarId) : Subst where
  bound i := .bvar (i + 1)
  free y := if y = x then .bvar 0 else .fvar y

theorem term_abstractFVar (he : e.Narrow) (x : FVarId) :
    (e.abstractFVar x).term = e.term.subst (closing x) := by
  refine term_mapVars (k := 0) (σ := closing x) (fun k i hk => ?_) (fun k y hk => ?_)
    (by simpa [Narrow] using he)
  · have hsucc := toNat_index_succ (d := i) (by omega)
    by_cases hki : k ≤ i.toNat
    · rw [if_pos ((ofNat_le_iff (by omega)).mpr hki), ups_bound_of_le _ hki, term, hsucc]
      show Term.bvar (i.toNat + 1) = Term.bvar (i.toNat - k + 1 + k)
      congr 1
      omega
    · rw [if_neg (fun h => hki ((ofNat_le_iff (by omega)).mp h)), ups_bound_of_lt _ (by omega)]
      rfl
  · have hfree : (closing x).free y = if y = x then .bvar 0 else .fvar y := rfl
    rw [ups_free, hfree]
    by_cases hy : y = x
    · rw [if_pos hy, if_pos hy, term, toNat_ofNat_of_lt (by omega), Term.lift_bvar, Nat.zero_add]
    · rw [if_neg hy, if_neg hy]
      rfl

/-- The substitution for the variables of several binders, the outermost one
first. -/
def instances (vals : List Term) : Subst where
  bound i := vals.reverse[i]?.getD (.bvar (i - vals.length))
  free := .fvar

theorem term_instantiateRev {vals : List Expr} (he : e.Narrow) (hvals : ∀ v ∈ vals, v.Narrow)
    (hlen : vals.length < 2 ^ 31) :
    (e.instantiateRev vals).term = e.term.subst (instances (vals.map term)) := by
  refine term_mapVars (k := 0) (σ := instances (vals.map term)) (fun k i hk => ?_) (fun k x _ => ?_)
    (by simpa [Narrow] using he)
  · have hofNat : (UInt32.ofNat k).toNat = k := toNat_ofNat_of_lt (by omega)
    -- An index below the depth is bound inside; the others count values from the end.
    by_cases hki : i.toNat < k
    · rw [if_pos (by rw [UInt32.lt_iff_toNat_lt, hofNat]; exact hki), ups_bound_of_lt _ hki]
      rfl
    · have hsub : (i - UInt32.ofNat k).toNat = i.toNat - k := by
        rw [UInt32.toNat_sub_of_le _ _ ((ofNat_le_iff (by omega)).mpr (by omega)), hofNat]
      rw [if_neg (by rw [UInt32.lt_iff_toNat_lt, hofNat]; exact hki),
        ups_bound_of_le _ (by omega), hsub]
      cases hget : vals.reverse[i.toNat - k]? with
      | some v =>
        have hv := hvals v (List.mem_reverse.mp (List.mem_of_getElem? hget))
        have hbound : (instances (vals.map term)).bound (i.toNat - k) = v.term := by
          simp only [instances, ← List.map_reverse, List.getElem?_map, hget]
          rfl
        rw [hbound, term_lift hv (by omega), hofNat]
      | none =>
        have hbound : (instances (vals.map term)).bound (i.toNat - k) =
            .bvar (i.toNat - k - vals.length) := by
          simp only [instances, ← List.map_reverse, List.getElem?_map, hget, List.length_map]
          rfl
        rw [List.getElem?_eq_none_iff, List.length_reverse] at hget
        have hlen' : (UInt32.ofNat vals.length).toNat = vals.length := toNat_ofNat_of_lt (by omega)
        rw [hbound, Term.lift_bvar, term,
          UInt32.toNat_sub_of_le _ _ ((ofNat_le_iff (by omega)).mpr (by omega)), hlen']
        congr 1
        omega
  · rw [ups_free]
    rfl

/-- Free variables replaced by closed terms, whatever the number of binders around. -/
theorem term_mapVars_closed {g : FVarId → Expr} {τ : FVarId → Term} (k : Nat) (d : UInt32)
    (he : e.FVarsIn fun x => τ x = (g x).term ∧ (g x).Scoped 0) :
    (mapVars (fun _ i => .bvar i) (fun _ x => g x) d e).term =
      e.term.subst (ups k (.ofFree τ)) := by
  induction e generalizing k d with
  | bvar i =>
    rcases Nat.lt_or_ge i.toNat k with hik | hik
    · exact (ups_bound_of_lt _ hik).symm
    · refine ((ups_bound_of_le _ hik).trans ?_).symm
      rw [ofFree, Term.lift_bvar, Nat.sub_add_cancel hik]
      rfl
  | fvar x =>
    -- What is put in is closed, so lifting it past the binders does nothing.
    obtain ⟨hx, hclosed⟩ := he
    show (g x).term = (ups k (.ofFree τ)).free x
    have hfree : (ofFree τ).free x = (g x).term := hx
    rw [ups_free, hfree]
    exact ((closed_term hclosed).rename _).symm
  | app _ _ ihf iha => exact congrArg₂ Term.app (ihf k d he.1) (iha k d he.2)
  | lam _ _ _ iht ihb => exact congrArg₂ Term.lam (iht k d he.1) (ihb (k + 1) (d + 1) he.2)
  | pi _ _ _ iht ihb => exact congrArg₂ Term.pi (iht k d he.1) (ihb (k + 1) (d + 1) he.2)
  | letE _ _ _ iht ihv ihb =>
    show Term.letE _ _ _ = Term.letE _ _ _
    rw [iht k d he.1, ihv k d he.2.1, ihb (k + 1) (d + 1) he.2.2]
    rfl
  | mdata _ _ ih => exact ih k d he
  | _ => rfl

theorem term_bindFVars? {f : FVarId → Option Expr} {e' : Expr} {τ : FVarId → Term}
    (hτ : ∀ x v, f x = some v → τ x = v.term ∧ v.Scoped 0) (h : e.bindFVars? f = some e') :
    e'.term = e.term.subst (.ofFree τ) := by
  obtain ⟨hfound, rfl⟩ := bindFVars?_eq_some_iff.mp h
  refine term_mapVars_closed 0 0 (hfound.mono fun x hx => ?_)
  obtain ⟨v, hv⟩ := Option.isSome_iff_exists.mp hx
  rw [hv]
  exact hτ x v hv

theorem term_instantiateLevels (s : List (Name × Level)) (e : Expr) :
    (e.instantiateLevels s).term = e.term.instLevels s := by
  induction e with
  | sort l => exact congrArg Term.sort (Level.simplify_instantiate s l).symm
  | const n ls =>
    show Term.const n _ = Term.const n _
    rw [List.map_map, List.map_map]
    congr 1
    exact List.map_congr_left fun l _ => (Level.simplify_instantiate s l).symm
  | app f a ihf iha => exact congrArg₂ Term.app ihf iha
  | lam _ t b iht ihb => exact congrArg₂ Term.lam iht ihb
  | pi _ t b iht ihb => exact congrArg₂ Term.pi iht ihb
  | letE t v b iht ihv ihb =>
    show Term.letE _ _ _ = Term.letE _ _ _
    rw [iht, ihv, ihb]
  | mdata _ _ ih => exact ih
  | _ => rfl

@[simp] theorem term_skeleton (e : Expr) : e.skeleton.term = e.term := by
  induction e with
  | sort l => exact congrArg Term.sort (Level.simplify_idem l)
  | app f a ihf iha => exact congrArg₂ Term.app ihf iha
  | lam _ t b iht ihb => exact congrArg₂ Term.lam iht ihb
  | pi _ t b iht ihb => exact congrArg₂ Term.pi iht ihb
  | letE t v b iht ihv ihb =>
    show Term.letE _ _ _ = Term.letE _ _ _
    rw [iht, ihv, ihb]
  | mdata _ _ ih => exact ih
  | _ => rfl

/-- Terms that are equal up to metadata have the same image. -/
theorem term_eq_of_eqModMData {e' : Expr} (h : e.eqModMData e' = true) : e.term = e'.term := by
  rw [← term_skeleton e, (eqModMData_iff e e').mp h, term_skeleton]

end Expr

end Pinpoint
