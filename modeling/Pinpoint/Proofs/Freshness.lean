/-
Inference and the variables that it draws.

The checker numbers its own free variables from `2 ^ 62` on, and goes on where
it stopped.  As long as the terms it is asked about have none of them, it does
not matter where it is in its range: the types it gives are the same.

* `inferType_le` — an answer is the answer for every larger amount of fuel;
* `Expr.openings` — how many variables inference draws at most;
* `inferType_along` — a renaming that keeps the order of the draws commutes
  with inference, also where this fails or runs out of fuel;
* `inferType_along_self` — so all places in the range are alike;
* `returns_of_returns`, `returns_rename` — a type that is found at one place is
  found at the others, and for renamed terms.
-/
import Pinpoint.Proofs.Inference
import Pinpoint.Proofs.Renaming

namespace Pinpoint

namespace Environment

open CheckM

variable {env : Environment} {Γ : LocalContext} {m n : Nat} {e T : Expr} {s t : UInt64}

/-! ### More fuel -/

theorem sortOfType_le (hmn : m ≤ n) (e type : Expr) :
    (env.sortOfType m e type).Le (env.sortOfType n e type) := by
  unfold sortOfType
  exact le_bind (le_of_lift fun _ => whnf_mono hmn) fun _ => Le.refl _

/-- An answer is the answer for every larger amount of fuel. -/
theorem inferType_le (hmn : m ≤ n) (Γ : LocalContext) (e : Expr) :
    (env.inferType m Γ e).Le (env.inferType n Γ e) := by
  induction m generalizing n Γ e with
  | zero =>
    intro s r h
    rw [inferType] at h
    cases (show (none : Option (Except CheckError Expr × UInt64)) = some r from h)
  | succ m ih =>
    obtain ⟨n, rfl⟩ : ∃ k, n = k + 1 := ⟨n - 1, by omega⟩
    have hmn : m ≤ n := Nat.le_of_succ_le_succ hmn
    have hsort : ∀ e type, (env.sortOfType m e type).Le (env.sortOfType n e type) :=
      sortOfType_le hmn
    cases e with
    | mdata d e => exact ih hmn Γ e
    | app f a =>
      rw [inferType, inferType]
      refine le_bind (ih hmn Γ f) fun F => le_bind (le_of_lift fun _ => whnf_mono hmn) fun F' => ?_
      split
      · exact le_bind (ih hmn Γ a) fun A => le_bind (le_of_lift fun _ => isDefEq_mono hmn) fun _ =>
          Le.refl _
      · exact Le.refl _
    | lam info dom body =>
      rw [inferType, inferType]
      exact le_bind (ih hmn Γ dom) fun D => le_bind (hsort dom D) fun _ =>
        le_bind (Le.refl _) fun x => le_bind (ih hmn _ _) fun _ => Le.refl _
    | pi info dom body =>
      rw [inferType, inferType]
      exact le_bind (ih hmn Γ dom) fun D => le_bind (hsort dom D) fun _ =>
        le_bind (Le.refl _) fun x => le_bind (ih hmn _ _) fun B => le_bind (hsort _ B) fun _ =>
          Le.refl _
    | letE type value body =>
      rw [inferType, inferType]
      refine le_bind (ih hmn Γ type) fun D => le_bind (hsort type D) fun _ =>
        le_bind (ih hmn Γ value) fun A => le_bind (le_of_lift fun _ => isDefEq_mono hmn) fun b => ?_
      cases b
      · exact Le.refl _
      · exact ih hmn Γ _
    | lit v => cases v <;> exact Le.refl _
    | _ => exact Le.refl _

end Environment

/-! ### How many variables are drawn -/

/-- The number of binders that inference opens in a term, if it gets through
with the given fuel. -/
def Expr.openings : Nat → Expr → Nat
  | 0, _ => 0
  | n + 1, e =>
    match e with
    | .app f a => openings n f + openings n a
    | .lam _ t b => openings n t + 1 + openings n (b.instantiate (.fvar ⟨0⟩))
    | .pi _ t b => openings n t + 1 + openings n (b.instantiate (.fvar ⟨0⟩))
    | .letE t v b => openings n t + openings n v + openings n (b.instantiate v)
    | .mdata _ e => openings n e
    | _ => 0

namespace Expr

theorem openings_mono {m n : Nat} (hmn : m ≤ n) (e : Expr) : e.openings m ≤ e.openings n := by
  induction m generalizing n e with
  | zero => exact Nat.zero_le _
  | succ m ih =>
    obtain ⟨n, rfl⟩ : ∃ k, n = k + 1 := ⟨n - 1, by omega⟩
    have ih := fun e => ih (Nat.le_of_succ_le_succ hmn) e
    cases e with
    | app f a => exact Nat.add_le_add (ih f) (ih a)
    | lam _ t b | pi _ t b => exact Nat.add_le_add (Nat.add_le_add_right (ih t) 1) (ih _)
    | letE t v b => exact Nat.add_le_add (Nat.add_le_add (ih t) (ih v)) (ih _)
    | mdata _ e => exact ih e
    | _ => exact Nat.zero_le _

/-- The names of the free variables play no part. -/
theorem openings_rename (n : Nat) (ρ : FVarId → FVarId) (e : Expr) :
    (e.rename ρ).openings n = e.openings n := by
  induction n generalizing ρ e with
  | zero => rfl
  | succ n ih =>
    -- a body is opened with one variable, so it is compared once all are that one
    have hopen : ∀ b : Expr, ((b.rename ρ).instantiate (.fvar ⟨0⟩)).openings n =
        (b.instantiate (.fvar ⟨0⟩)).openings n := by
      intro b
      rw [← ih (fun _ => ⟨0⟩), ← ih (fun _ => ⟨0⟩) (b.instantiate _), rename_instantiate,
        rename_instantiate, rename_rename]
    cases e with
    | app f a => rw [rename, openings, openings, ih, ih]
    | lam _ t b | pi _ t b => rw [rename, openings, openings, ih, hopen]
    | letE t v b => rw [rename, openings, openings, ih, ih, ← rename_instantiate, ih]
    | mdata _ e => rw [rename, openings, openings, ih]
    | _ => rfl

theorem openings_instantiate_fvar (n : Nat) (b : Expr) (x : FVarId) :
    (b.instantiate (.fvar x)).openings n = (b.instantiate (.fvar ⟨0⟩)).openings n := by
  rw [← openings_rename n (fun _ => ⟨0⟩), ← openings_rename n (fun _ => ⟨0⟩) (b.instantiate _),
    rename_instantiate, rename_instantiate]
  rfl

/-- Whether nothing is defined inside the term. -/
def letFree : Expr → Bool
  | .app f a => f.letFree && a.letFree
  | .lam _ t b => t.letFree && b.letFree
  | .pi _ t b => t.letFree && b.letFree
  | .letE .. => false
  | .mdata _ e => e.letFree
  | _ => true

theorem size_instantiate_fvar (b : Expr) (x : FVarId) : (b.instantiate (.fvar x)).size = b.size := by
  rw [instantiate]
  generalize (0 : UInt32) = d
  induction b generalizing d with
  | bvar i =>
    rw [mapVars]
    split
    · rfl
    · split <;> rfl
  | app _ _ ihf iha => rw [mapVars, size, size, ihf, iha]
  | lam _ _ _ iht ihb | pi _ _ _ iht ihb => rw [mapVars, size, size, iht, ihb]
  | letE _ _ _ iht ihv ihb => rw [mapVars, size, size, iht, ihv, ihb]
  | mdata _ _ ih => rw [mapVars, size, size, ih]
  | _ => rfl

theorem letFree_instantiate_fvar (b : Expr) (x : FVarId) :
    (b.instantiate (.fvar x)).letFree = b.letFree := by
  rw [instantiate]
  generalize (0 : UInt32) = d
  induction b generalizing d with
  | bvar i =>
    rw [mapVars]
    split
    · rfl
    · split <;> rfl
  | app _ _ ihf iha => rw [mapVars, letFree, letFree, ihf, iha]
  | lam _ _ _ iht ihb | pi _ _ _ iht ihb => rw [mapVars, letFree, letFree, iht, ihb]
  | mdata _ _ ih => rw [mapVars, letFree, letFree, ih]
  | _ => rfl

/-- Without definitions inside, each binder is opened once. -/
theorem openings_le_size {n : Nat} {e : Expr} (h : e.letFree) : e.openings n ≤ e.size := by
  induction n generalizing e with
  | zero => exact Nat.zero_le _
  | succ n ih =>
    cases e with
    | app f a =>
      rw [letFree, Bool.and_eq_true] at h
      have hf := ih h.1
      have ha := ih h.2
      simp only [openings, size]
      omega
    | lam _ t b | pi _ t b =>
      rw [letFree, Bool.and_eq_true] at h
      have ht := ih h.1
      have hb := ih ((letFree_instantiate_fvar b ⟨0⟩).trans h.2)
      rw [size_instantiate_fvar] at hb
      simp only [openings, size]
      omega
    | letE t v b => cases h
    | mdata _ e =>
      have he := ih (e := e) h
      simp only [openings, size]
      omega
    | _ => exact Nat.zero_le _

end Expr

namespace Environment

open Pinpoint.Expr

variable {env : Environment} {Γ : LocalContext} {m n : Nat} {e T : Expr} {s s' t : UInt64}

/-- Inference draws a variable for every binder that it opens. -/
theorem supply_of_returns (h : (env.inferType n Γ e).Returns s T t) :
    t = s + .ofNat (e.openings n) := by
  have hadd : ∀ (s : UInt64) (i j : Nat), s + .ofNat i + .ofNat j = s + .ofNat (i + j) := by
    intro s i j
    rw [UInt64.add_assoc, UInt64.ofNat_add]
  have hzero : ∀ s : UInt64, s = s + .ofNat 0 := fun s => (UInt64.add_zero s).symm
  induction n generalizing Γ e T s t with
  | zero => exact absurd h not_inferType_zero_returns
  | succ n ih =>
    cases e with
    | bvar i => exact absurd h not_inferType_bvar_returns
    | fvar x =>
      obtain ⟨-, rfl⟩ := inferType_fvar_returns_iff.mp h
      exact hzero s
    | sort l =>
      obtain ⟨-, rfl⟩ := inferType_sort_returns_iff.mp h
      exact hzero s
    | const c ls =>
      obtain ⟨-, rfl⟩ := inferType_const_returns_iff.mp h
      exact hzero s
    | lit v =>
      obtain ⟨-, rfl⟩ := inferType_lit_returns_iff.mp h
      exact hzero s
    | mdata m e => exact ih (inferType_mdata_returns_iff.mp h)
    | app f a =>
      obtain ⟨F, A, info, dom, body, t, hF, -, hA, -, -⟩ := inferType_app_returns_iff.mp h
      rw [ih hA, ih hF, hadd, openings]
    | lam info dom body =>
      obtain ⟨D, l, B, t, hD, -, hB, -⟩ := inferType_lam_returns_iff.mp h
      rw [ih hB, ih hD, openings_instantiate_fvar, openings, ← hadd, ← hadd]
      rfl
    | pi info dom body =>
      obtain ⟨D, l₁, B, l₂, t, hD, -, hB, -, -⟩ := inferType_pi_returns_iff.mp h
      rw [ih hB, ih hD, openings_instantiate_fvar, openings, ← hadd, ← hadd]
      rfl
    | letE type value body =>
      obtain ⟨D, l, A, t, t', hD, -, hA, -, hB⟩ := inferType_letE_returns_iff.mp h
      rw [ih hB, ih hA, ih hD, openings, ← hadd, ← hadd]

/-- Where the supply is after an inference. -/
theorem toNat_supply (h : (env.inferType n Γ e).Returns s T t)
    (hroom : s.toNat + e.openings n < 2 ^ 64) : t.toNat = s.toNat + e.openings n := by
  rw [supply_of_returns h, Supply.toNat_add_ofNat hroom]

/-- What is drawn after an inference is still in the range of the checker. -/
theorem firstFresh_le_supply (h : (env.inferType n Γ e).Returns s T t)
    (hs : Checker.firstFresh ≤ s) (hroom : s.toNat + e.openings n < 2 ^ 64) :
    Checker.firstFresh ≤ t := by
  rw [UInt64.le_iff_toNat_le] at hs ⊢
  rw [toNat_supply h hroom]
  omega

end Environment

/-! ### Contexts -/

namespace LocalContext

/-- The context with its variables renamed, also in their types. -/
def rename (ρ : FVarId → FVarId) (Γ : LocalContext) : LocalContext :=
  ⟨Γ.entries.map fun entry : LocalEntry => ⟨ρ entry.fvar, entry.name, entry.type.rename ρ⟩⟩

/-- Whether all variables in a context, and those in their types, are as
asked. -/
def FVarsIn (p : FVarId → Prop) (Γ : LocalContext) : Prop :=
  ∀ entry ∈ Γ.entries, p entry.fvar ∧ entry.type.FVarsIn p

variable {p : FVarId → Prop} {ρ : FVarId → FVarId} {Γ : LocalContext} {x : FVarId}
  {entry : LocalEntry}

instance FVarsIn.decidable (p : FVarId → Prop) [DecidablePred p] (Γ : LocalContext) :
    Decidable (Γ.FVarsIn p) :=
  inferInstanceAs (Decidable (∀ entry ∈ Γ.entries, p entry.fvar ∧ entry.type.FVarsIn p))

theorem find?_rename (hρ : Function.Injective ρ) (Γ : LocalContext) (x : FVarId) :
    (Γ.rename ρ).find? (ρ x) = (Γ.find? x).map fun entry =>
      ⟨ρ entry.fvar, entry.name, entry.type.rename ρ⟩ := by
  unfold rename find?
  rw [List.find?_map]
  have hcomp : ((fun e : LocalEntry => decide (e.fvar = ρ x)) ∘ fun entry : LocalEntry =>
      (⟨ρ entry.fvar, entry.name, entry.type.rename ρ⟩ : LocalEntry)) =
      fun e : LocalEntry => decide (e.fvar = x) := by
    funext e
    simp [hρ.eq_iff]
  rw [hcomp]

theorem rename_eq_self (h : Γ.FVarsIn fun x => ρ x = x) : Γ.rename ρ = Γ := by
  obtain ⟨entries⟩ := Γ
  unfold rename
  congr 1
  refine (List.map_congr_left fun entry hentry => ?_).trans (List.map_id entries)
  obtain ⟨hx, htype⟩ := h entry hentry
  rw [hx, Expr.rename_eq_self htype]
  rfl

theorem FVarsIn.mono {q : FVarId → Prop} (h : Γ.FVarsIn p) (hpq : ∀ x, p x → q x) :
    Γ.FVarsIn q :=
  fun entry hentry => ⟨hpq _ (h entry hentry).1, (h entry hentry).2.mono hpq⟩

theorem FVarsIn.push (h : Γ.FVarsIn p) (hx : p x) (n : Name) {type : Expr}
    (htype : type.FVarsIn p) : (Γ.push x n type).FVarsIn p := by
  intro entry hentry
  rcases List.mem_cons.mp hentry with rfl | hentry
  · exact ⟨hx, htype⟩
  · exact h entry hentry

theorem FVarsIn.find? (h : Γ.FVarsIn p) (hx : Γ.find? x = some entry) : entry.type.FVarsIn p :=
  (h entry (List.mem_of_find?_eq_some hx)).2

end LocalContext

/-! ### Renaming -/

namespace Environment

open Pinpoint.Expr

variable {env : Environment} {Γ : LocalContext} {n : Nat} {e T : Expr} {s s' t : UInt64}
  {p q : FVarId → Prop} {ρ : FVarId → FVarId}

theorem FVarsIn.instantiateType (henv : env.FVarsIn p) {c : Name} {info : Constant}
    {ls : List Level} (hinfo : env.find? c = some info) (hT : info.instantiateType ls = .ok T) :
    T.FVarsIn p := by
  obtain ⟨subst, -, rfl⟩ := instantiateType_eq_ok hT
  exact Expr.FVarsIn.instantiateLevels.mpr (henv info (List.mem_of_find?_eq_some hinfo)).1

/-- Inference brings in the free variables of constants and of the types of the
variables that a term has; those that it draws are abstracted. -/
theorem FVarsIn.inferType (henv : env.FVarsIn q) (hpq : ∀ x, p x → q x)
    (hΓ : ∀ x entry, p x → Γ.find? x = some entry → entry.type.FVarsIn q) (he : e.FVarsIn p)
    (h : (env.inferType n Γ e).Returns s T t) : T.FVarsIn q := by
  induction n generalizing Γ e T s t p q with
  | zero => exact absurd h not_inferType_zero_returns
  | succ n ih =>
    -- a body once it is opened, in the context with the new variable
    have hopen : ∀ {x : FVarId} {dom body B : Expr} {s t : UInt64}, dom.FVarsIn p →
        body.FVarsIn p →
        (env.inferType n (Γ.push x (.simple "x") dom) (body.instantiate (.fvar x))).Returns s B t →
        B.FVarsIn fun y => y = x ∨ q y := by
      intro x dom body B s t hdom hbody hB
      refine ih (p := fun y => y = x ∨ p y) (henv.mono fun _ => .inr)
        (fun y hy => hy.imp_right (hpq y)) (fun y entry hy hentry => ?_) ?_ hB
      · rw [LocalContext.find?_push] at hentry
        split at hentry
        · obtain rfl := Option.some.inj hentry
          exact hdom.mono fun y hy => .inr (hpq y hy)
        · rename_i hxy
          exact (hΓ y entry (hy.resolve_left fun h => hxy h.symm) hentry).mono fun _ => .inr
      · exact (hbody.mono fun _ => .inr).instantiate (.inl rfl)
    cases e with
    | bvar i => exact absurd h not_inferType_bvar_returns
    | fvar x =>
      obtain ⟨⟨entry, hentry, rfl⟩, -⟩ := inferType_fvar_returns_iff.mp h
      exact hΓ x entry he hentry
    | sort l =>
      obtain ⟨rfl, -⟩ := inferType_sort_returns_iff.mp h
      trivial
    | const c ls =>
      obtain ⟨⟨info, hinfo, hT⟩, -⟩ := inferType_const_returns_iff.mp h
      exact henv.instantiateType hinfo hT
    | lit v =>
      obtain ⟨rfl, -⟩ := inferType_lit_returns_iff.mp h
      cases v <;> trivial
    | mdata m e => exact ih (e := e) henv hpq hΓ he (inferType_mdata_returns_iff.mp h)
    | app f a =>
      obtain ⟨F, A, info, dom, body, t, hF, hpi, -, -, rfl⟩ := inferType_app_returns_iff.mp h
      exact (henv.whnf hpi (ih henv hpq hΓ he.1 hF)).2.instantiate (he.2.mono hpq)
    | lam info dom body =>
      obtain ⟨D, l, B, t, -, -, hB, rfl⟩ := inferType_lam_returns_iff.mp h
      exact ⟨he.1.mono hpq, (hopen he.1 he.2 hB).abstractFVar⟩
    | pi info dom body =>
      obtain ⟨D, l₁, B, l₂, t, -, -, -, -, rfl⟩ := inferType_pi_returns_iff.mp h
      trivial
    | letE type value body =>
      obtain ⟨D, l, A, t, t', -, -, -, -, hB⟩ := inferType_letE_returns_iff.mp h
      exact ih henv hpq hΓ (he.2.2.instantiate he.2.1) hB

/-- Whether a renaming takes the next `k` draws from one supply to those from
another one, in order. -/
def Tracks (ρ : FVarId → FVarId) (s s' : UInt64) (k : Nat) : Prop :=
  ∀ i < k, ρ ⟨s + .ofNat i⟩ = ⟨s' + .ofNat i⟩

theorem Tracks.left {i j : Nat} (h : Tracks ρ s s' (i + j)) : Tracks ρ s s' i :=
  fun k hk => h k (Nat.lt_add_right j hk)

theorem Tracks.right {i j : Nat} (h : Tracks ρ s s' (i + j)) :
    Tracks ρ (s + .ofNat i) (s' + .ofNat i) j := by
  intro k hk
  have := h (i + k) (Nat.add_lt_add_left hk i)
  rwa [UInt64.ofNat_add, ← UInt64.add_assoc, ← UInt64.add_assoc] at this

/-- The next draw. -/
theorem Tracks.next {k : Nat} (h : Tracks ρ s s' (1 + k)) : ρ ⟨s⟩ = ⟨s'⟩ := by
  have := h 0 (by omega)
  rwa [show UInt64.ofNat 0 = 0 from rfl, UInt64.add_zero, UInt64.add_zero] at this

/-- The rest of the draws, once a part has its type. -/
theorem Tracks.rest {i k : Nat} (h : Tracks ρ s s' (e.openings n + k))
    (hT : (env.inferType n Γ e).Returns s T (s + .ofNat i)) :
    Tracks ρ (s + .ofNat i) (s' + .ofNat i) k := by
  have hi : UInt64.ofNat i = .ofNat (e.openings n) :=
    (UInt64.add_right_inj s).mp (supply_of_returns hT)
  rw [hi]
  exact h.right

theorem sortOfType_along (henv : env.FVarFree) (hρ : Function.Injective ρ) (e T : Expr) :
    CheckM.Along (· = ·) 0 (env.sortOfType n e T) s
      (env.sortOfType n (e.rename ρ) (T.rename ρ)) s' := by
  unfold sortOfType
  refine .bind_lift (henv.whnf_rename_eq hρ T) fun l _ => ?_
  cases l with
  | sort l => exact .pure rfl
  | _ => exact .throw _ _

theorem inferType_const_along (henv : env.FVarFree) (c : Name) (ls : List Level) :
    CheckM.Along (fun T T' => T' = T.rename ρ) 0 (env.inferType (n + 1) Γ (.const c ls)) s
      (env.inferType (n + 1) (Γ.rename ρ) (.const c ls)) s' := by
  rw [inferType, inferType]
  cases hinfo : env.find? c with
  | none => exact .throw _ _
  | some info =>
    cases hT : info.instantiateType ls with
    | error err =>
      simp only [hT]
      exact .throw _ _
    | ok T =>
      simp only [hT]
      exact .pure (rename_eq_self (henv.fvarsIn.instantiateType hinfo hT)).symm

/-- A renaming that takes the variables that are drawn to those drawn
elsewhere, in order, commutes with inference. -/
theorem FVarFree.inferType_along (henv : env.FVarFree) (hρ : Function.Injective ρ)
    (htracks : Tracks ρ s s' (e.openings n)) :
    CheckM.Along (fun T T' => T' = T.rename ρ) (e.openings n) (env.inferType n Γ e) s
      (env.inferType n (Γ.rename ρ) (e.rename ρ)) s' := by
  induction n generalizing Γ e s s' with
  | zero => exact .inl ⟨rfl, rfl⟩
  | succ n ih =>
    -- A body that is opened with the next variable on both sides: the variables
    -- that are left are those that its own inference draws.
    have hopen : ∀ {Γ : LocalContext} {dom body : Expr} {s s' : UInt64},
        Tracks ρ s s' (1 + (body.instantiate (.fvar ⟨0⟩)).openings n) →
          CheckM.Along (fun T T' => T' = T.rename ρ) ((body.instantiate (.fvar ⟨0⟩)).openings n)
            (env.inferType n (Γ.push ⟨s⟩ (.simple "x") dom) (body.instantiate (.fvar ⟨s⟩))) (s + 1)
            (env.inferType n ((Γ.rename ρ).push ⟨s'⟩ (.simple "x") (dom.rename ρ))
              ((body.rename ρ).instantiate (.fvar ⟨s'⟩))) (s' + 1) := by
      intro Γ dom body s s' htracks
      have hpush : (Γ.push ⟨s⟩ (.simple "x") dom).rename ρ =
          (Γ.rename ρ).push ⟨s'⟩ (.simple "x") (dom.rename ρ) := by
        rw [← htracks.next]
        rfl
      have hbody : (body.instantiate (.fvar ⟨s⟩)).rename ρ =
          (body.rename ρ).instantiate (.fvar ⟨s'⟩) := by
        rw [rename_instantiate, ← htracks.next]
        rfl
      have hright := htracks.right
      rw [← openings_instantiate_fvar n body ⟨s⟩] at hright ⊢
      rw [← hpush, ← hbody]
      exact ih hright
    cases e with
    | bvar i => exact .throw _ _
    | fvar x =>
      rw [rename, inferType, inferType, LocalContext.find?_rename hρ]
      cases Γ.find? x with
      | none => exact .throw _ _
      | some entry => exact .pure rfl
    | sort l => exact .pure rfl
    | const c ls => exact inferType_const_along henv c ls
    | lit v => cases v <;> exact .pure rfl
    | mdata m e => exact ih (e := e) htracks
    | app f a =>
      rw [rename, inferType, inferType]
      rw [openings] at htracks ⊢
      refine .bind (ih htracks.left) fun i _ F F' hF hreturns => ?_
      subst hF
      -- Both function types are reduced; only a function type goes on.
      refine .bind_lift (henv.whnf_rename_eq hρ F) fun W _ => ?_
      cases W with
      | pi info dom body =>
        rw [← Nat.add_zero (a.openings n)]
        refine .bind (ih (htracks.rest hreturns)) fun j _ A A' hA _ => ?_
        subst hA
        refine .bind_lift (g := id) ?_ fun b _ => .guard rfl (.pure ?_)
        · rw [henv.isDefEq_rename hρ, Option.map_id, id]
        · rw [rename_instantiate]
      | _ => exact (CheckM.Along.throw _ _).mono (Nat.zero_le _) fun _ _ => id
    | lam info dom body =>
      rw [rename, inferType, inferType]
      rw [openings, Nat.add_assoc] at htracks ⊢
      refine .bind (ih htracks.left) fun i _ D D' hD hreturns => ?_
      subst hD
      have hbinder := htracks.rest hreturns
      refine .bind_still (sortOfType_along henv hρ dom D) fun _ _ _ _ => .bind_fresh ?_
      rw [← Nat.add_zero ((body.instantiate _).openings n)]
      refine .bind (hopen hbinder) fun j _ B B' hB _ => .pure ?_
      -- The variable that was drawn is abstracted again.
      rw [hB, ← hbinder.next, rename, rename_abstractFVar hρ]
    | pi info dom body =>
      rw [rename, inferType, inferType]
      rw [openings, Nat.add_assoc] at htracks ⊢
      refine .bind (ih htracks.left) fun i _ D D' hD hreturns => ?_
      subst hD
      have hbinder := htracks.rest hreturns
      refine .bind_still (sortOfType_along henv hρ dom D) fun l l' hl _ => .bind_fresh ?_
      rw [← Nat.add_zero ((body.instantiate _).openings n)]
      refine .bind (hopen hbinder) fun j _ B B' hB _ => ?_
      -- The opened body is named in the error if its type is no universe.
      have hopened := rename_instantiate (ρ := ρ) body (.fvar ⟨s + .ofNat i⟩)
      rw [rename, hbinder.next] at hopened
      rw [hB, ← hopened]
      refine .bind_still (sortOfType_along henv hρ _ B) fun l₂ l₂' hl₂ _ => .pure ?_
      rw [hl, hl₂, rename]
    | letE type value body =>
      rw [rename, inferType, inferType]
      rw [openings, Nat.add_assoc] at htracks ⊢
      refine .bind (ih htracks.left) fun i _ D D' hD hreturns => ?_
      subst hD
      have hnext := htracks.rest hreturns
      refine .bind_still (sortOfType_along henv hρ type D) fun _ _ _ _ => ?_
      refine .bind (ih hnext.left) fun j _ A A' hA hvalue => ?_
      subst hA
      refine .bind_lift (g := id) ?_ fun b _ => .guard rfl ?_
      · rw [henv.isDefEq_rename hρ, Option.map_id, id]
      · -- The body has its value put in, so no variable is drawn for it.
        rw [← rename_instantiate]
        exact ih (hnext.rest hvalue)

end Environment

/-! ### The range of the checker -/

/-- Whether a free variable is none of those that the checker draws. -/
def FVarId.IsOuter (x : FVarId) : Prop := x.id < Checker.firstFresh

instance FVarId.IsOuter.decidable : DecidablePred FVarId.IsOuter :=
  fun x => inferInstanceAs (Decidable (x.id < Checker.firstFresh))

/-- The variables from `2 ^ 62` on moved up by `k`, and around at the end. -/
def FVarId.rotate (k : Nat) (x : FVarId) : FVarId :=
  if x.id.toNat < 2 ^ 62 then x
  else if x.id.toNat + k < 2 ^ 64 then ⟨.ofNat (x.id.toNat + k)⟩
  else ⟨.ofNat (x.id.toNat + k - 3 * 2 ^ 62)⟩

namespace FVarId

theorem isOuter_iff {x : FVarId} : x.IsOuter ↔ x.id.toNat < 2 ^ 62 := by
  rw [IsOuter, UInt64.lt_iff_toNat_lt]
  rfl

theorem rotate_of_isOuter {x : FVarId} (hx : x.IsOuter) (k : Nat) : x.rotate k = x :=
  if_pos (isOuter_iff.mp hx)

theorem rotate_injective {k : Nat} (hk : k < 3 * 2 ^ 62) : Function.Injective (rotate k) := by
  intro x y h
  have hx := x.id.toNat_lt
  have hy := y.id.toNat_lt
  have hid : ∀ i, (rotate k i).id.toNat =
      if i.id.toNat < 2 ^ 62 then i.id.toNat
      else if i.id.toNat + k < 2 ^ 64 then i.id.toNat + k
      else i.id.toNat + k - 3 * 2 ^ 62 := by
    intro i
    have hi := i.id.toNat_lt
    unfold rotate
    split
    · rfl
    · split <;> rw [UInt64.toNat_ofNat'] <;> exact Nat.mod_eq_of_lt (by omega)
  have heq := congrArg (fun i => i.id.toNat) h
  simp only [hid] at heq
  have : x.id = y.id := UInt64.toNat_inj.mp (by grind)
  cases x
  cases y
  exact congrArg FVarId.mk this

end FVarId

namespace Environment

open Pinpoint.Expr

variable {env : Environment} {Γ : LocalContext} {n : Nat} {e T : Expr} {s s' t : UInt64}

theorem toNat_firstFresh : Checker.firstFresh.toNat = 2 ^ 62 := rfl

theorem tracks_rotate {k : Nat} (hs : Checker.firstFresh ≤ s) (hs' : Checker.firstFresh ≤ s')
    (hk : s.toNat + k ≤ 2 ^ 64) (hk' : s'.toNat + k ≤ 2 ^ 64) :
    Tracks (FVarId.rotate ((s'.toNat + 3 * 2 ^ 62 - s.toNat) % (3 * 2 ^ 62))) s s' k := by
  intro i hi
  rw [UInt64.le_iff_toNat_le, toNat_firstFresh] at hs hs'
  have hlt := s.toNat_lt
  have hlt' := s'.toNat_lt
  have hdraw : (s + .ofNat i).toNat = s.toNat + i := Supply.toNat_add_ofNat (by omega)
  have hdraw' : (s' + .ofNat i).toNat = s'.toNat + i := Supply.toNat_add_ofNat (by omega)
  unfold FVarId.rotate
  rw [hdraw, if_neg (by omega)]
  split <;> refine congrArg FVarId.mk (UInt64.toNat_inj.mp ?_) <;>
    rw [UInt64.toNat_ofNat', hdraw'] <;> omega

/-- For a term without such variables it does not matter where in its range
the checker begins. -/
theorem FVarFree.inferType_along_self (henv : env.FVarFree) (hΓ : Γ.FVarsIn FVarId.IsOuter)
    (he : e.FVarsIn FVarId.IsOuter) (hs : Checker.firstFresh ≤ s) (hs' : Checker.firstFresh ≤ s')
    (hroom : s.toNat + e.openings n ≤ 2 ^ 64) (hroom' : s'.toNat + e.openings n ≤ 2 ^ 64) :
    CheckM.Along (· = ·) (e.openings n) (env.inferType n Γ e) s (env.inferType n Γ e) s' := by
  have hfix : ∀ x : FVarId, x.IsOuter →
      x.rotate ((s'.toNat + 3 * 2 ^ 62 - s.toNat) % (3 * 2 ^ 62)) = x :=
    fun x hx => FVarId.rotate_of_isOuter hx _
  have halong := henv.inferType_along (Γ := Γ) (e := e) (n := n)
    (FVarId.rotate_injective (Nat.mod_lt _ (by omega))) (tracks_rotate hs hs' hroom hroom')
  rw [LocalContext.rename_eq_self (hΓ.mono hfix), rename_eq_self (he.mono hfix)] at halong
  -- neither does the type have such variables, so it is kept as well
  refine halong.imp_right ?_
  rintro ⟨i, hi, x, y, hxy, hx, hy⟩
  refine ⟨i, hi, x, y, ?_, hx, hy⟩
  cases x <;> cases y
  · trivial
  · exact hxy
  · exact hxy
  · have houter := henv.fvarsIn.inferType (fun _ => id) (fun _ _ _ => hΓ.find?) he hx
    exact (rename_eq_self (houter.mono hfix)).symm.trans (Eq.symm hxy)

/-- What the checker finds at one place in its range it finds at any other. -/
theorem FVarFree.returns_of_returns (henv : env.FVarFree) (hΓ : Γ.FVarsIn FVarId.IsOuter)
    (he : e.FVarsIn FVarId.IsOuter) (h : (env.inferType n Γ e).Returns s T t)
    (hs : Checker.firstFresh ≤ s) (hs' : Checker.firstFresh ≤ s')
    (hroom : s.toNat + e.openings n ≤ 2 ^ 64) (hroom' : s'.toNat + e.openings n ≤ 2 ^ 64) :
    (env.inferType n Γ e).Returns s' T (s' + .ofNat (e.openings n)) := by
  have hsupply := supply_of_returns h
  rcases henv.inferType_along_self hΓ he hs hs' hroom hroom' with ⟨hnone, -⟩ | ⟨i, -, x, y, hxy, hx, hy⟩
  · cases hnone.symm.trans h
  · obtain ⟨rfl, rfl⟩ := Prod.mk.inj (Option.some.inj (hx.symm.trans h))
    rw [← (UInt64.add_right_inj s).mp hsupply]
    cases y with
    | error err => cases hxy
    | ok T' =>
      obtain rfl : T = T' := hxy
      exact hy

/-- A renaming that keeps the variables of the checker tracks all that it draws
from the beginning of its range. -/
theorem tracks_firstFresh {ρ : FVarId → FVarId} {k : Nat}
    (hinner : ∀ x : FVarId, ¬ x.IsOuter → ρ x = x)
    (hk : Checker.firstFresh.toNat + k ≤ 2 ^ 64) :
    Tracks ρ Checker.firstFresh Checker.firstFresh k := by
  intro i hi
  refine hinner _ fun houter => ?_
  rw [FVarId.isOuter_iff] at houter
  rw [toNat_firstFresh] at hk
  simp only [UInt64.toNat_add, toNat_firstFresh, UInt64.toNat_ofNat'] at houter
  omega

/-- What the checker finds in a context it finds, renamed, in the renamed one. -/
theorem FVarFree.returns_rename (henv : env.FVarFree) {ρ : FVarId → FVarId}
    (hρ : Function.Injective ρ) (htracks : Tracks ρ s s' (e.openings n))
    (h : (env.inferType n Γ e).Returns s T t) :
    (env.inferType n (Γ.rename ρ) (e.rename ρ)).Returns s' (T.rename ρ)
      (s' + .ofNat (e.openings n)) := by
  have hsupply := supply_of_returns h
  rcases henv.inferType_along (Γ := Γ) hρ htracks with ⟨hnone, -⟩ | ⟨i, -, x, y, hxy, hx, hy⟩
  · cases hnone.symm.trans h
  · obtain ⟨rfl, rfl⟩ := Prod.mk.inj (Option.some.inj (hx.symm.trans h))
    rw [← (UInt64.add_right_inj s).mp hsupply]
    cases y with
    | error err => cases hxy
    | ok T' =>
      obtain rfl : T' = T.rename ρ := hxy
      exact hy

end Environment

end Pinpoint
