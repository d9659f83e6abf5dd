/-
Reduction and definitional equality, taken apart.

* `whnf_app_cases` — what a reduction of an application can be: the head is a
  function, or unfolds, or does nothing with its arguments;
* `whnf_mono`, `isDefEq_mono` — an answer is the answer for every larger
  amount of fuel;
* `isDefEq_refl`, `isDefEq_trans` — with enough fuel, definitional equality is
  reflexive and transitive.
-/
import Pinpoint.Typing.Reduction

namespace Pinpoint.Environment

variable {env : Environment} {t : Transparency} {m n : Nat} {e e' : Expr}

/-! ### Constants -/

theorem value?_eq_some {c : Name} {ls : List Level} {v : Expr} (h : env.value? c ls = some v) :
    ∃ info subst w, env.find? c = some info ∧ info.levelSubst ls = .ok subst ∧
      info.value = some w ∧ v = w.instantiateLevels subst := by
  unfold value? at h
  obtain ⟨info, hinfo, h⟩ := Option.bind_eq_some_iff.mp h
  obtain ⟨v?, hv, rfl⟩ := Option.bind_eq_some_iff.mp h
  unfold Constant.instantiateValue at hv
  cases hsubst : info.levelSubst ls with
  | error e => simp [hsubst, Except.map, Except.toOption] at hv
  | ok subst =>
    simp only [hsubst, Except.map, Except.toOption, Option.some.injEq, Option.map_eq_some_iff] at hv
    obtain ⟨w, hw, rfl⟩ := hv
    exact ⟨info, subst, w, hinfo, hsubst, hw, rfl⟩

theorem levelSubst_eq_ok {info : Constant} {ls : List Level} {s : List (Name × Level)} :
    info.levelSubst ls = .ok s ↔
      ls.length = info.levelParams.length ∧ s = info.levelParams.zip ls := by
  unfold Constant.levelSubst
  split <;> rename_i h
  · simp [h, eq_comm]
  · simp [h]

theorem instantiateType_eq_ok {info : Constant} {ls : List Level} {T : Expr}
    (h : info.instantiateType ls = .ok T) :
    ∃ subst, info.levelSubst ls = .ok subst ∧ T = info.type.instantiateLevels subst := by
  unfold Constant.instantiateType at h
  cases hsubst : info.levelSubst ls with
  | error e => simp [hsubst, Except.map] at h
  | ok subst =>
    simp only [hsubst, Except.map, Except.ok.injEq] at h
    exact ⟨subst, rfl, h.symm⟩

/-! ### Reduction -/

theorem whnf_mdata (d : List (Name × MDataValue)) (e : Expr) :
    env.whnf t (n + 1) (.mdata d e) = env.whnf t n e := rfl

theorem whnf_letE (type v b : Expr) :
    env.whnf t (n + 1) (.letE type v b) = env.whnf t n (b.instantiate v) := rfl

/-- Whether a term is what it reduces to, whatever is declared. -/
def Atomic : Expr → Prop
  | .bvar _ => True
  | .fvar _ => True
  | .sort _ => True
  | .lam .. => True
  | .pi .. => True
  | .lit _ => True
  | _ => False

theorem whnf_const_of_value {c : Name} {ls : List Level} {v : Expr}
    (h : env.valueAt? t c ls = some v) : env.whnf t (n + 1) (.const c ls) = env.whnf t n v := by
  rw [whnf, h]

theorem whnf_const_of_none {c : Name} {ls : List Level} (h : env.valueAt? t c ls = none) :
    env.whnf t (n + 1) (.const c ls) = some (.const c ls) := by
  rw [whnf, h]

/-- Whether a head, once reduced, does nothing with its arguments. -/
def Stuck (env : Environment) (t : Transparency) (head : Expr) : Prop :=
  (∀ i d b, head ≠ .lam i d b) ∧ ∀ c ls, head = .const c ls → env.valueAt? t c ls = none

theorem appArgs_app_ne_nil (f a : Expr) : (Expr.app f a).appArgs ≠ [] := by
  have h : ∀ (e : Expr) (rest : List Expr), rest ≠ [] → e.appArgsAux rest ≠ [] := by
    intro e
    induction e with
    | app f a ihf _ =>
      intro rest _
      exact ihf (a :: rest) (List.cons_ne_nil a rest)
    | _ =>
      intro rest hrest
      exact hrest
  exact h f [a] (List.cons_ne_nil a [])

/-- A reduction of an application: its head is reduced, and then it is a
function that is applied, or a definition that is unfolded, or the application
stays as it is. -/
theorem whnf_app_cases {f a : Expr} (h : env.whnf t (n + 1) (.app f a) = some e') :
    ∃ head, env.whnf t n (Expr.app f a).appFn = some head ∧
      ((∃ i d b arg args, head = .lam i d b ∧ (Expr.app f a).appArgs = arg :: args ∧
          env.whnf t n (.mkApp (b.instantiate arg) args) = some e') ∨
        (∃ c ls v, head = .const c ls ∧ env.valueAt? t c ls = some v ∧
          env.whnf t n (.mkApp v (Expr.app f a).appArgs) = some e') ∨
        (env.Stuck t head ∧ .app f a = e')) := by
  rw [whnf] at h
  obtain ⟨head, hhead, h⟩ := Option.bind_eq_some_iff.mp h
  refine ⟨head, hhead, ?_⟩
  cases hargs : (Expr.app f a).appArgs with
  | nil => exact absurd hargs (appArgs_app_ne_nil f a)
  | cons arg args =>
    rw [hargs] at h
    cases head with
    | lam i d b => exact .inl ⟨i, d, b, arg, args, rfl, rfl, h⟩
    | const c ls =>
      dsimp only at h
      cases hv : env.valueAt? t c ls with
      | some v =>
        rw [hv] at h
        exact .inr (.inl ⟨c, ls, v, rfl, hv, h⟩)
      | none =>
        rw [hv] at h
        refine .inr (.inr ⟨⟨fun _ _ _ => nofun, fun c' ls' heq => ?_⟩, Option.some.inj h⟩)
        obtain ⟨rfl, rfl⟩ := Expr.const.inj heq
        exact hv
    | _ => exact .inr (.inr ⟨⟨fun _ _ _ => nofun, fun _ _ => nofun⟩, Option.some.inj h⟩)

theorem whnf_app_of_lam {f a : Expr} {i : BinderInfo} {d b arg : Expr} {args : List Expr}
    (hhead : env.whnf t n (Expr.app f a).appFn = some (.lam i d b))
    (hargs : (Expr.app f a).appArgs = arg :: args) :
    env.whnf t (n + 1) (.app f a) = env.whnf t n (.mkApp (b.instantiate arg) args) := by
  rw [whnf, hhead, hargs]
  rfl

theorem whnf_app_of_value {f a : Expr} {c : Name} {ls : List Level} {v : Expr}
    (hhead : env.whnf t n (Expr.app f a).appFn = some (.const c ls))
    (hv : env.valueAt? t c ls = some v) :
    env.whnf t (n + 1) (.app f a) = env.whnf t n (.mkApp v (Expr.app f a).appArgs) := by
  rw [whnf, hhead]
  simp only [Option.bind_some, hv]

theorem whnf_app_of_stuck {f a head : Expr}
    (hhead : env.whnf t n (Expr.app f a).appFn = some head) (hstuck : env.Stuck t head) :
    env.whnf t (n + 1) (.app f a) = some (.app f a) := by
  rw [whnf, hhead]
  cases head with
  | lam i d b => exact absurd rfl (hstuck.1 i d b)
  | const c ls => simp only [Option.bind_some, hstuck.2 c ls rfl]
  | _ => rfl

/-- An answer is the answer for every larger amount of fuel. -/
theorem whnf_mono (hmn : m ≤ n) (h : env.whnf t m e = some e') : env.whnf t n e = some e' := by
  induction m generalizing n e e' with
  | zero => cases h
  | succ m ih =>
    obtain ⟨n, rfl⟩ : ∃ k, n = k + 1 := ⟨n - 1, by omega⟩
    have hmn : m ≤ n := Nat.le_of_succ_le_succ hmn
    cases e with
    | mdata d e =>
      rw [whnf_mdata] at h ⊢
      exact ih hmn h
    | letE type v b =>
      rw [whnf_letE] at h ⊢
      exact ih hmn h
    | const c ls =>
      cases hv : env.valueAt? t c ls with
      | some v =>
        rw [whnf_const_of_value hv] at h ⊢
        exact ih hmn h
      | none =>
        rw [whnf_const_of_none hv] at h ⊢
        exact h
    | app f a =>
      obtain ⟨head, hhead, h⟩ := whnf_app_cases h
      have hhead := ih hmn hhead
      rcases h with ⟨i, d, b, arg, args, rfl, hargs, h⟩ | ⟨c, ls, v, rfl, hv, h⟩ | ⟨hstuck, rfl⟩
      · rw [whnf_app_of_lam hhead hargs]
        exact ih hmn h
      · rw [whnf_app_of_value hhead hv]
        exact ih hmn h
      · exact whnf_app_of_stuck hhead hstuck
    | _ => exact h

/-- Two answers are the same, however much fuel each of them took. -/
theorem whnf_det {e₁ e₂ : Expr} (h₁ : env.whnf t m e = some e₁) (h₂ : env.whnf t n e = some e₂) :
    e₁ = e₂ := by
  have h₁ := whnf_mono (Nat.le_max_left m n) h₁
  have h₂ := whnf_mono (Nat.le_max_right m n) h₂
  exact Option.some.inj (h₁.symm.trans h₂)

/-- What beta and delta steps keep, and applications have exactly if their
parts have it, reduction keeps. -/
theorem whnf_preserves {P : Expr → Prop} (hmdata : ∀ m e, P (.mdata m e) → P e)
    (hlet : ∀ type v b, P (.letE type v b) → P (b.instantiate v))
    (hbeta : ∀ i d b a, P (.lam i d b) → P a → P (b.instantiate a))
    (happ : ∀ f a, P (.app f a) ↔ P f ∧ P a)
    (hvalue : ∀ c ls v, env.valueAt? t c ls = some v → P v)
    (h : env.whnf t n e = some e') (he : P e) : P e' := by
  -- By `happ`, an application with several arguments is treated part by part.
  have hmk : ∀ (args : List Expr) (f : Expr), P (.mkApp f args) ↔ P f ∧ ∀ a ∈ args, P a := by
    intro args
    induction args with
    | nil => simp
    | cons a args ih => simp [ih, happ, and_assoc]
  induction n generalizing e e' with
  | zero => cases h
  | succ n ih =>
    cases e with
    | mdata m e => exact ih h (hmdata m e he)
    | letE type v b => exact ih h (hlet type v b he)
    | const c ls =>
      cases hv : env.valueAt? t c ls with
      | some v =>
        rw [whnf_const_of_value hv] at h
        exact ih h (hvalue c ls v hv)
      | none =>
        rw [whnf_const_of_none hv] at h
        exact Option.some.inj h ▸ he
    | app f a =>
      obtain ⟨hfn, hargs⟩ := (hmk _ _).mp ((Expr.app f a).mkApp_appFn_appArgs.symm ▸ he)
      obtain ⟨head, hhead, h⟩ := whnf_app_cases h
      have hhead := ih hhead hfn
      rcases h with ⟨i, d, b, arg, args, rfl, heq, h⟩ | ⟨c, ls, v, rfl, hv, h⟩ | ⟨-, rfl⟩
      · rw [heq] at hargs
        have harg := hargs arg List.mem_cons_self
        exact ih h ((hmk _ _).mpr ⟨hbeta i d b arg hhead harg,
          fun a' ha' => hargs a' (List.mem_cons_of_mem _ ha')⟩)
      · exact ih h ((hmk _ _).mpr ⟨hvalue c ls v hv, hargs⟩)
      · exact he
    | _ => exact Option.some.inj h ▸ he

/-! ### Definitional equality -/

/-- Whether two reduced terms agree part by part. -/
def Agree (R : Expr → Expr → Prop) : Expr → Expr → Prop
  | .sort l, .sort l' => l.simplify = l'.simplify
  | .const c ls, .const c' ls' => c = c' ∧ ls.map Level.simplify = ls'.map Level.simplify
  | .app f x, .app f' x' => R f f' ∧ R x x'
  | .lam _ d b, .lam _ d' b' => R d d' ∧ R b b'
  | .pi _ d b, .pi _ d' b' => R d d' ∧ R b b'
  | a, b => a = b

/-- The comparison of two reduced terms, by a comparison of their parts. -/
def compareParts (cmp : Expr → Expr → Option Bool) : Expr → Expr → Option Bool
  | .sort l, .sort l' => some (l.simplify = l'.simplify)
  | .const c ls, .const c' ls' =>
    some (c = c' && ls.map Level.simplify = ls'.map Level.simplify)
  | .app f x, .app f' x' => do if ← cmp f f' then cmp x x' else some false
  | .lam _ d b, .lam _ d' b' => do if ← cmp d d' then cmp b b' else some false
  | .pi _ d b, .pi _ d' b' => do if ← cmp d d' then cmp b b' else some false
  | a, b => some (a = b)

theorem isDefEq_succ (a b : Expr) :
    env.isDefEq t (n + 1) a b = if a = b then some true else
      (env.whnf t n a).bind fun a => (env.whnf t n b).bind fun b =>
        compareParts (env.isDefEq t n) a b := rfl

section
variable {R R' : Expr → Expr → Prop} {cmp cmp' : Expr → Expr → Option Bool} {a b c : Expr}

theorem bind_ite_eq_true {p q : Option Bool} :
    (do if ← p then q else some false) = some true ↔ p = some true ∧ q = some true := by
  rcases p with _ | _ | _ <;> simp

theorem compareParts_eq_true :
    compareParts cmp a b = some true ↔ Agree (fun x y => cmp x y = some true) a b := by
  cases a <;> cases b <;> simp only [compareParts, Agree, bind_ite_eq_true] <;> simp

theorem compareParts_mono (h : ∀ x y r, cmp x y = some r → cmp' x y = some r) {r : Bool}
    (hr : compareParts cmp a b = some r) : compareParts cmp' a b = some r := by
  have hbind : ∀ {x y x' y' : Expr}, (do if ← cmp x x' then cmp y y' else some false) = some r →
      (do if ← cmp' x x' then cmp' y y' else some false) = some r := by
    intro x y x' y' hr
    obtain ⟨r', hr', hr⟩ := Option.bind_eq_some_iff.mp hr
    refine Option.bind_eq_some_iff.mpr ⟨r', h _ _ _ hr', ?_⟩
    cases r' with
    | false => exact hr
    | true => exact h _ _ _ hr
  cases a <;> cases b <;> first | exact hr | exact hbind hr

theorem Agree.refl (hR : ∀ x, R x x) (a : Expr) : Agree R a a := by
  cases a <;> simp only [Agree] <;> grind

theorem Agree.trans (hR : ∀ x y z, R x y → R y z → R x z) (h : Agree R a b) (h' : Agree R b c) :
    Agree R a c := by
  cases a <;> cases b <;> simp only [Agree, reduceCtorEq] at h <;>
    cases c <;> simp only [Agree, reduceCtorEq] at h' ⊢ <;> grind

end

theorem isDefEq_refl (a : Expr) : env.isDefEq t (n + 1) a a = some true := by
  rw [isDefEq_succ, if_pos rfl]

/-- Definitional equality of terms that are not the same is agreement of
what they reduce to. -/
theorem isDefEq_succ_eq_true {a b : Expr} :
    env.isDefEq t (n + 1) a b = some true ↔ a = b ∨ ∃ a' b', env.whnf t n a = some a' ∧
      env.whnf t n b = some b' ∧ Agree (fun x y => env.isDefEq t n x y = some true) a' b' := by
  rw [isDefEq_succ]
  by_cases hab : a = b
  · rw [if_pos hab]
    exact ⟨fun _ => .inl hab, fun _ => rfl⟩
  · rw [if_neg hab]
    simp only [Option.bind_eq_some_iff, compareParts_eq_true]
    constructor
    · rintro ⟨a', ha, b', hb, h⟩
      exact .inr ⟨a', b', ha, hb, h⟩
    · rintro (h | ⟨a', b', ha, hb, h⟩)
      · exact absurd h hab
      · exact ⟨a', ha, b', hb, h⟩

/-- An answer is the answer for every larger amount of fuel. -/
theorem isDefEq_mono (hmn : m ≤ n) {a b : Expr} {r : Bool} (h : env.isDefEq t m a b = some r) :
    env.isDefEq t n a b = some r := by
  induction m generalizing n a b r with
  | zero => cases h
  | succ m ih =>
    obtain ⟨n, rfl⟩ : ∃ k, n = k + 1 := ⟨n - 1, by omega⟩
    have hmn : m ≤ n := Nat.le_of_succ_le_succ hmn
    rw [isDefEq_succ] at h ⊢
    by_cases hab : a = b
    · rwa [if_pos hab] at h ⊢
    · rw [if_neg hab] at h ⊢
      obtain ⟨a', ha, h⟩ := Option.bind_eq_some_iff.mp h
      obtain ⟨b', hb, h⟩ := Option.bind_eq_some_iff.mp h
      rw [whnf_mono hmn ha, whnf_mono hmn hb]
      exact compareParts_mono (fun _ _ _ => ih hmn) h

theorem isDefEq_trans {a b c : Expr} (h : env.isDefEq t n a b = some true)
    (h' : env.isDefEq t n b c = some true) : env.isDefEq t n a c = some true := by
  induction n generalizing a b c with
  | zero => cases h
  | succ n ih =>
    rcases isDefEq_succ_eq_true.mp h with rfl | ⟨a', b', ha, hb, hab⟩
    · exact h'
    · rcases isDefEq_succ_eq_true.mp h' with rfl | ⟨b'', c', hb', hc, hbc⟩
      · exact h
      · obtain rfl := whnf_det hb hb'
        exact isDefEq_succ_eq_true.mpr
          (.inr ⟨a', c', ha, hc, hab.trans (fun _ _ _ => ih) hbc⟩)

end Pinpoint.Environment
