/-
Well-scoped terms.

`e.Scoped n` says that every bound variable of `e` has its binder inside `e`
or among `n` binders around it.  It counts binders without a bound, so all
operations on terms keep it, also where an index of 32 bits wraps: a number
that wraps only becomes smaller.

`e.nesting` is the number of binders around the deepest part of `e`.  A
well-scoped term in which fewer than `2 ^ 32` binders nest is closed in the
sense of the operations, whose count of binders does not wrap in it.

* `Scoped.instantiate`, `Scoped.abstractFVar`, `Scoped.instantiateRev` — the
  operations keep terms well scoped;
* `Scoped.of_instantiate` — what is well scoped once a binder is opened was
  well scoped below the binder;
* `Scoped.closedUnder` — well-scoped terms that are not too deep are closed.
-/
import Pinpoint.Proofs.Matching

namespace Pinpoint

namespace Expr

/-- Whether every bound variable has its binder inside the term or among the
`n` binders around it. -/
def Scoped : Nat → Expr → Prop
  | n, .bvar i => i.toNat < n
  | n, .app f a => Scoped n f ∧ Scoped n a
  | n, .lam _ t b => Scoped n t ∧ Scoped (n + 1) b
  | n, .pi _ t b => Scoped n t ∧ Scoped (n + 1) b
  | n, .letE t v b => Scoped n t ∧ Scoped n v ∧ Scoped (n + 1) b
  | n, .mdata _ e => Scoped n e
  | _, _ => True

instance Scoped.decidable : ∀ (n : Nat) (e : Expr), Decidable (e.Scoped n)
  | n, .bvar i => inferInstanceAs (Decidable (i.toNat < n))
  | n, .app f a => @instDecidableAnd _ _ (decidable n f) (decidable n a)
  | n, .lam _ t b => @instDecidableAnd _ _ (decidable n t) (decidable (n + 1) b)
  | n, .pi _ t b => @instDecidableAnd _ _ (decidable n t) (decidable (n + 1) b)
  | n, .letE t v b =>
    @instDecidableAnd _ _ (decidable n t)
      (@instDecidableAnd _ _ (decidable n v) (decidable (n + 1) b))
  | n, .mdata _ e => decidable n e
  | _, .fvar _ => .isTrue trivial
  | _, .sort _ => .isTrue trivial
  | _, .const _ _ => .isTrue trivial
  | _, .lit _ => .isTrue trivial

/-- The number of binders around the deepest part of a term. -/
def nesting : Expr → Nat
  | .app f a => max f.nesting a.nesting
  | .lam _ t b => max t.nesting (b.nesting + 1)
  | .pi _ t b => max t.nesting (b.nesting + 1)
  | .letE t v b => max t.nesting (max v.nesting (b.nesting + 1))
  | .mdata _ e => e.nesting
  | _ => 0

theorem Scoped.mono {m n : Nat} {e : Expr} (h : e.Scoped m) (hmn : m ≤ n) : e.Scoped n := by
  induction e generalizing m n with
  | bvar i => exact Nat.lt_of_lt_of_le h hmn
  | app _ _ ihf iha => exact ⟨ihf h.1 hmn, iha h.2 hmn⟩
  | lam _ _ _ iht ihb | pi _ _ _ iht ihb => exact ⟨iht h.1 hmn, ihb h.2 (Nat.succ_le_succ hmn)⟩
  | letE _ _ _ iht ihv ihb =>
    exact ⟨iht h.1 hmn, ihv h.2.1 hmn, ihb h.2.2 (Nat.succ_le_succ hmn)⟩
  | mdata _ _ ih => exact ih h hmn
  | _ => trivial

theorem Scoped.stripMData {n : Nat} {e : Expr} (h : e.Scoped n) : e.stripMData.Scoped n := by
  induction e with
  | mdata _ _ ih => exact ih h
  | _ => exact h

/-! ### Traversals -/

theorem toNat_ofNat_le (k : Nat) : (UInt32.ofNat k).toNat ≤ k := by
  rw [UInt32.toNat_ofNat']
  exact Nat.mod_le k _

theorem ofNat_succ (k : Nat) : UInt32.ofNat (k + 1) = UInt32.ofNat k + 1 := by
  rw [UInt32.ofNat_add]
  rfl

theorem toNat_ofNat_of_lt {k : Nat} (h : k < 2 ^ 32) : (UInt32.ofNat k).toNat = k := by
  rw [UInt32.toNat_ofNat']
  exact Nat.mod_eq_of_lt h

theorem toNat_sub_ofNat {k : Nat} {i : UInt32} (h : k ≤ i.toNat) :
    (i - UInt32.ofNat k).toNat = i.toNat - k := by
  have hlt := i.toNat_lt
  have hk : (UInt32.ofNat k).toNat = k := toNat_ofNat_of_lt (by omega)
  rw [UInt32.toNat_sub_of_le _ _ (UInt32.le_iff_toNat_le.mpr (by omega)), hk]

section
variable {k : Nat} {i : UInt32} (hk : k < 2 ^ 32)
include hk

theorem ofNat_le_iff : UInt32.ofNat k ≤ i ↔ k ≤ i.toNat := by
  rw [UInt32.le_iff_toNat_le, toNat_ofNat_of_lt hk]

theorem ofNat_lt_iff : UInt32.ofNat k < i ↔ k < i.toNat := by
  rw [UInt32.lt_iff_toNat_lt, toNat_ofNat_of_lt hk]

theorem lt_ofNat_iff : i < UInt32.ofNat k ↔ i.toNat < k := by
  rw [UInt32.lt_iff_toNat_lt, toNat_ofNat_of_lt hk]

theorem eq_ofNat_iff : i = UInt32.ofNat k ↔ i.toNat = k := by
  rw [← UInt32.toNat_inj, toNat_ofNat_of_lt hk]

end

/-- A traversal that puts well-scoped terms at the variables keeps the term
well scoped. -/
theorem Scoped.mapVars {f : UInt32 → UInt32 → Expr} {g : UInt32 → FVarId → Expr} {m n : Nat}
    (hf : ∀ k i, i.toNat < n + k → (f (.ofNat k) i).Scoped (m + k))
    (hg : ∀ k x, (g (.ofNat k) x).Scoped (m + k)) {k : Nat} {e : Expr} (h : e.Scoped (n + k)) :
    (mapVars f g (.ofNat k) e).Scoped (m + k) := by
  induction e generalizing k with
  | bvar i => exact hf k i h
  | fvar x => exact hg k x
  | app _ _ ihf iha => exact ⟨ihf h.1, iha h.2⟩
  | lam _ _ _ iht ihb | pi _ _ _ iht ihb =>
    refine ⟨iht h.1, ?_⟩
    rw [← ofNat_succ]
    exact ihb (k := k + 1) h.2
  | letE _ _ _ iht ihv ihb =>
    refine ⟨iht h.1, ihv h.2.1, ?_⟩
    rw [← ofNat_succ]
    exact ihb (k := k + 1) h.2.2
  | mdata _ _ ih => exact ih h
  | _ => trivial

/-- If only well-scoped variables are made into well-scoped terms, what a
traversal leaves well scoped was so before. -/
theorem Scoped.of_mapVars {f : UInt32 → UInt32 → Expr} {g : UInt32 → FVarId → Expr} {m n : Nat}
    (hf : ∀ k i, (f (.ofNat k) i).Scoped (m + k) → i.toNat < n + k) {k : Nat} {e : Expr}
    (h : (Expr.mapVars f g (.ofNat k) e).Scoped (m + k)) : e.Scoped (n + k) := by
  induction e generalizing k with
  | bvar i => exact hf k i h
  | app _ _ ihf iha => exact ⟨ihf h.1, iha h.2⟩
  | lam _ _ _ iht ihb | pi _ _ _ iht ihb =>
    obtain ⟨ht, hb⟩ := h
    rw [← ofNat_succ] at hb
    exact ⟨iht ht, ihb (k := k + 1) hb⟩
  | letE _ _ _ iht ihv ihb =>
    obtain ⟨ht, hv, hb⟩ := h
    rw [← ofNat_succ] at hb
    exact ⟨iht ht, ihv hv, ihb (k := k + 1) hb⟩
  | mdata _ _ ih => exact ih h
  | _ => trivial

/-! ### Operations -/

theorem Scoped.lift {n : Nat} {amount : UInt32} {e : Expr} (h : e.Scoped n) :
    (e.lift amount).Scoped (n + amount.toNat) := by
  refine Scoped.mapVars (k := 0) (g := fun _ x => .fvar x) (n := n) (m := n + amount.toNat)
    (fun k i hi => ?_) (fun _ _ => trivial) h
  have hadd : (i + amount).toNat ≤ i.toNat + amount.toNat := by
    rw [UInt32.toNat_add]
    exact Nat.mod_le _ _
  split
  · show (i + amount).toNat < _
    omega
  · show i.toNat < _
    omega

/-- A term without outer variables, lifted to a depth of any size. -/
theorem Scoped.lift_ofNat {v : Expr} (h : v.Scoped 0) (k : Nat) :
    (v.lift (.ofNat k)).Scoped k := by
  refine h.lift.mono ?_
  rw [Nat.zero_add]
  exact toNat_ofNat_le k

theorem Scoped.instantiate {n : Nat} {e v : Expr} (he : e.Scoped (n + 1)) (hv : v.Scoped 0) :
    (e.instantiate v).Scoped n := by
  refine Scoped.mapVars (k := 0) (g := fun _ x => .fvar x) (n := n + 1) (fun k i hi => ?_)
    (fun _ _ => trivial) he
  have hk := toNat_ofNat_le k
  by_cases hik : i = UInt32.ofNat k
  · rw [if_pos hik]
    exact (hv.lift_ofNat k).mono (Nat.le_add_left k n)
  · rw [if_neg hik]
    split
    · rename_i hlt
      show (i - 1).toNat < n + k
      rw [UInt32.lt_iff_toNat_lt] at hlt
      rw [UInt32.toNat_sub_of_le _ _ (by rw [UInt32.le_iff_toNat_le]; simp; omega)]
      simp
      omega
    · rename_i hlt
      show i.toNat < n + k
      rw [UInt32.lt_iff_toNat_lt] at hlt
      have : i.toNat ≠ (UInt32.ofNat k).toNat := fun h => hik (UInt32.toNat_inj.mp h)
      omega

/-- What is well scoped once a binder is opened was well scoped under the
binder. -/
theorem Scoped.of_instantiate {e v : Expr} (h : (e.instantiate v).Scoped 0) : e.Scoped 1 := by
  refine Scoped.of_mapVars (k := 0) (m := 0) (n := 1) (fun k i hi => ?_) h
  have hlt := i.toNat_lt
  -- below more binders than there are indices every variable is well scoped
  by_cases hk : k < 2 ^ 32
  · have hofNat : (UInt32.ofNat k).toNat = k := toNat_ofNat_of_lt hk
    by_cases hik : i = UInt32.ofNat k
    · rw [hik, hofNat]
      omega
    · rw [if_neg hik] at hi
      split at hi
      · rename_i hki
        rw [UInt32.lt_iff_toNat_lt] at hki
        have hi : (i - 1).toNat < 0 + k := hi
        rw [UInt32.toNat_sub_of_le _ _ (by rw [UInt32.le_iff_toNat_le]; simp; omega)] at hi
        simp at hi
        omega
      · rename_i hki
        rw [UInt32.lt_iff_toNat_lt] at hki
        omega
  · omega

theorem Scoped.abstractFVar {e : Expr} (h : e.Scoped 0) (x : FVarId) :
    (e.abstractFVar x).Scoped 1 := by
  refine Scoped.mapVars (k := 0) (m := 1) (n := 0) (fun k i hi => ?_) (fun k y => ?_) h
  · have hadd : (i + 1).toNat ≤ i.toNat + 1 := by
      rw [UInt32.toNat_add]
      exact Nat.mod_le _ _
    split
    · show (i + 1).toNat < _
      omega
    · show i.toNat < _
      omega
  · have hk := toNat_ofNat_le k
    split
    · show (UInt32.ofNat k).toNat < _
      omega
    · trivial

theorem Scoped.instantiateRev {e : Expr} {vals : List Expr} (he : e.Scoped vals.length)
    (hv : ∀ v ∈ vals, v.Scoped 0) : (e.instantiateRev vals).Scoped 0 := by
  refine Scoped.mapVars (k := 0) (g := fun _ x => .fvar x) (n := vals.length) (fun k i hi => ?_)
    (fun _ _ => trivial) he
  have hk := toNat_ofNat_le k
  split
  · rename_i hik
    show i.toNat < 0 + k
    rw [UInt32.lt_iff_toNat_lt] at hik
    omega
  · rename_i hik
    rw [UInt32.lt_iff_toNat_lt, Nat.not_lt] at hik
    have hsub : (i - UInt32.ofNat k).toNat = i.toNat - (UInt32.ofNat k).toNat :=
      UInt32.toNat_sub_of_le _ _ (UInt32.le_iff_toNat_le.mpr hik)
    split
    · rename_i v hget
      rw [Nat.zero_add]
      exact (hv v (List.mem_reverse.mp (List.mem_of_getElem? hget))).lift_ofNat k
    · rename_i hget
      rw [List.getElem?_eq_none_iff, List.length_reverse, hsub] at hget
      show (i - UInt32.ofNat vals.length).toNat < 0 + k
      rw [toNat_sub_ofNat (by omega)]
      omega

theorem scoped_instantiateLevels {subst : List (Name × Level)} {n : Nat} {e : Expr} :
    (e.instantiateLevels subst).Scoped n ↔ e.Scoped n := by
  induction e generalizing n with
  | app _ _ ihf iha => exact and_congr ihf iha
  | lam _ _ _ iht ihb | pi _ _ _ iht ihb => exact and_congr iht ihb
  | letE _ _ _ iht ihv ihb => exact and_congr iht (and_congr ihv ihb)
  | mdata _ _ ih => exact ih
  | _ => rfl

theorem scoped_mkApp {n : Nat} {f : Expr} {args : List Expr} :
    (mkApp f args).Scoped n ↔ f.Scoped n ∧ ∀ a ∈ args, a.Scoped n := by
  induction args generalizing f with
  | nil => simp
  | cons a args ih =>
    rw [mkApp_cons, ih]
    simp [Scoped, and_assoc]

/-! ### Nesting -/

theorem nesting_stripMData (e : Expr) : e.stripMData.nesting = e.nesting := by
  induction e with
  | mdata _ _ ih => exact ih
  | _ => rfl

/-! ### Terms that are not too deep -/

/-- The count of binders does not wrap in a term that is not too deep. -/
theorem Scoped.allBVars {n : Nat} {d : UInt32} {e : Expr} (h : e.Scoped n) (hn : n ≤ d.toNat)
    (hd : d.toNat + e.nesting < 2 ^ 32) : e.allBVars (fun d i => i < d) d := by
  induction e generalizing n d with
  | bvar i =>
    show decide (i < d) = true
    have hi : i.toNat < n := h
    rw [decide_eq_true_eq, UInt32.lt_iff_toNat_lt]
    omega
  | app _ _ ihf iha =>
    simp only [nesting] at hd
    rw [Expr.allBVars, ihf h.1 hn (by omega), iha h.2 hn (by omega), Bool.and_self]
  | lam _ t b iht ihb | pi _ t b iht ihb =>
    simp only [nesting] at hd
    have hsucc := toNat_index_succ (d := d) (by omega)
    rw [Expr.allBVars, iht h.1 hn (by omega), ihb h.2 (by omega) (by omega), Bool.and_self]
  | letE t v b iht ihv ihb =>
    simp only [nesting] at hd
    have hsucc := toNat_index_succ (d := d) (by omega)
    rw [Expr.allBVars, iht h.1 hn (by omega), ihv h.2.1 hn (by omega),
      ihb h.2.2 (by omega) (by omega), Bool.and_self, Bool.and_self]
  | mdata _ _ ih => exact ih h hn hd
  | _ => rfl

/-- A traversal that keeps the variables with a binder below it keeps a term without
loose variables. -/
theorem Scoped.mapVars_eq_self {f : UInt32 → UInt32 → Expr} {d : UInt32} {e : Expr}
    (hf : ∀ d i, i < d → f d i = .bvar i) (h : e.Scoped 0) (hd : d.toNat + e.nesting < 2 ^ 32) :
    Expr.mapVars f (fun _ x => .fvar x) d e = e :=
  Expr.mapVars_eq_self (fun d i hi => hf d i (of_decide_eq_true hi)) (fun _ _ => rfl)
    (h.allBVars (Nat.zero_le _) hd)

theorem Scoped.hasLooseBVars {e : Expr} (h : e.Scoped 0) (hd : e.nesting < 2 ^ 32) :
    e.hasLooseBVars = false :=
  hasLooseBVars_of_closedUnder (h.allBVars (Nat.le_refl 0) (by simpa using hd))

theorem Scoped.closedUnder {e : Expr} (h : e.Scoped 0) (hd : e.nesting < 2 ^ 32) :
    e.closedUnder 0 :=
  h.allBVars (Nat.le_refl 0) (by simpa using hd)

end Expr

end Pinpoint
