/-
Terms that differ in their metadata.

`HasHead e h args` says that the term `e`, reduced at its head one application
at a time, comes to the head `h` with the arguments `args`, and goes no
further.  Reduction finds that head, and metadata does not change it.  So
terms with one skeleton are equal by definition, if the comparison ends.

* `HasHead.of_whnf` — reduction keeps the head, and shows it;
* `HasHead.of_clean` — terms with one clean form have heads with one clean form;
  so terms with one skeleton have heads with one skeleton (`HasHead.alike`);
* `isDefEq_of_sameHead` — the comparison of terms with one skeleton does not end
  with a difference.
-/
import Pinpoint.Proofs.Cleaning
import Pinpoint.Proofs.Reduction

namespace Pinpoint

/-! ### Terms with one skeleton -/

namespace Expr

/-- Whether two terms have one skeleton. -/
def Alike (a b : Expr) : Prop := a.skeleton = b.skeleton

theorem alike_iff {a b : Expr} :
    Alike a b ↔ Cleaning.toSkeleton.clean a = Cleaning.toSkeleton.clean b := by
  rw [Cleaning.toSkeleton_clean, Cleaning.toSkeleton_clean, Alike]

section
variable {e d b : Expr} {i : BinderInfo} {c : Name} {ls : List Level}

theorem Alike.of_lam (h : Alike (.lam i d b) e) :
    ∃ i' d' b', e.stripMData = .lam i' d' b' ∧ Alike d d' ∧ Alike b b' := by
  obtain ⟨i', d', b', hs, -, hd, hb⟩ := Cleaning.of_lam (alike_iff.mp h)
  exact ⟨i', d', b', hs, alike_iff.mpr hd, alike_iff.mpr hb⟩

theorem Alike.of_pi (h : Alike (.pi i d b) e) :
    ∃ i' d' b', e.stripMData = .pi i' d' b' ∧ Alike d d' ∧ Alike b b' := by
  obtain ⟨i', d', b', hs, -, hd, hb⟩ := Cleaning.of_pi (alike_iff.mp h)
  exact ⟨i', d', b', hs, alike_iff.mpr hd, alike_iff.mpr hb⟩

theorem Alike.of_const (h : Alike (.const c ls) e) : e.stripMData = .const c ls :=
  Cleaning.of_leaf (alike_iff.mp h) trivial

end

end Expr

namespace Environment

open Pinpoint.Expr

/-! ### Heads -/

/-- A term comes to a head and its arguments when it is reduced at the head,
one application at a time. -/
inductive HasHead (env : Environment) : Expr → Expr → List Expr → Prop
  | mdata {m : List (Name × MDataValue)} {e h : Expr} {args : List Expr} :
    HasHead env e h args → HasHead env (.mdata m e) h args
  | letE {t v b h : Expr} {args : List Expr} :
    HasHead env (b.instantiate v) h args → HasHead env (.letE t v b) h args
  | delta {c : Name} {ls : List Level} {v h : Expr} {args : List Expr} :
    env.value? c ls = some v → HasHead env v h args → HasHead env (.const c ls) h args
  | const {c : Name} {ls : List Level} :
    env.value? c ls = none → HasHead env (.const c ls) (.const c ls) []
  | atom {e : Expr} : Atomic e → HasHead env e e []
  | beta {f a d b h : Expr} {i : BinderInfo} {args : List Expr} :
    HasHead env f (.lam i d b) [] → HasHead env (b.instantiate a) h args →
      HasHead env (.app f a) h args
  | app {f a h : Expr} {args : List Expr} :
    HasHead env f h args → (args = [] → ∀ i d b, h ≠ .lam i d b) →
      HasHead env (.app f a) h (args ++ [a])

variable {env : Environment} {e e' f g h h' a b : Expr} {args args' : List Expr} {n : Nat}

/-- Whether a term is one that heads are: no application, no definition, and
nothing that unfolds. -/
def IsHead (env : Environment) (h : Expr) : Prop :=
  Atomic h ∨ ∃ c ls, h = .const c ls ∧ env.value? c ls = none

theorem HasHead.isHead (h : env.HasHead e a args) : env.IsHead a := by
  induction h with
  | const hv => exact .inr ⟨_, _, rfl, hv⟩
  | atom ha => exact .inl ha
  | _ => assumption

theorem IsHead.hasHead (h : env.IsHead e) : env.HasHead e e [] := by
  rcases h with h | ⟨c, ls, rfl, hv⟩
  · exact .atom h
  · exact .const hv

/-- A term comes to one head only. -/
theorem HasHead.det (h₁ : env.HasHead e h args) (h₂ : env.HasHead e h' args') :
    h = h' ∧ args = args' := by
  induction h₁ generalizing h' args' with
  | mdata _ ih =>
    cases h₂ with
    | mdata h₂ => exact ih h₂
    | atom ha => cases ha
  | letE _ ih =>
    cases h₂ with
    | letE h₂ => exact ih h₂
    | atom ha => cases ha
  | delta hv _ ih =>
    cases h₂ with
    | delta hv' h₂ =>
      obtain rfl := Option.some.inj (hv.symm.trans hv')
      exact ih h₂
    | const hv' => rw [hv] at hv'; cases hv'
    | atom ha => cases ha
  | const hv =>
    cases h₂ with
    | delta hv' h₂ => rw [hv] at hv'; cases hv'
    | const _ => exact ⟨rfl, rfl⟩
    | atom ha => cases ha
  | atom ha =>
    cases h₂ with
    | atom _ => exact ⟨rfl, rfl⟩
    | _ => cases ha
  | beta hf _ ihf ihb =>
    cases h₂ with
    | beta hf' hb' =>
      -- The function is the same, so its body with the argument is.
      obtain ⟨heq, -⟩ := ihf hf'
      obtain ⟨rfl, rfl, rfl⟩ := Expr.lam.inj heq
      exact ihb hb'
    | app hf' hlam =>
      obtain ⟨rfl, rfl⟩ := ihf hf'
      -- An application keeps its last argument only if its head is no function.
      exact absurd rfl (hlam rfl _ _ _)
    | atom ha => cases ha
  | app hf hlam ih =>
    cases h₂ with
    | beta hf' hb' =>
      obtain ⟨rfl, rfl⟩ := ih hf'
      exact absurd rfl (hlam rfl _ _ _)
    | app hf' _ =>
      obtain ⟨rfl, rfl⟩ := ih hf'
      exact ⟨rfl, rfl⟩
    | atom ha => cases ha

/-- A function that comes to the same head may stand in its place, with all
its arguments. -/
theorem HasHead.mkApp (hfg : ∀ h args, env.HasHead f h args → env.HasHead g h args)
    {xs : List Expr} (h : env.HasHead (Expr.mkApp f xs) e args) :
    env.HasHead (Expr.mkApp g xs) e args := by
  induction xs generalizing f g with
  | nil => exact hfg _ _ h
  | cons x xs ih =>
    refine ih (fun h args happ => ?_) h
    cases happ with
    | beta hf hb => exact .beta (hfg _ _ hf) hb
    | app hf hlam => exact .app (hfg _ _ hf) hlam
    | atom ha => cases ha

/-- A head that is no function takes its arguments as they are. -/
theorem HasHead.mkApp_of_stuck (h : env.HasHead f e args)
    (hlam : args = [] → ∀ i d b, e ≠ .lam i d b) (xs : List Expr) :
    env.HasHead (Expr.mkApp f xs) e (args ++ xs) := by
  induction xs generalizing f args with
  | nil => rwa [List.append_nil]
  | cons x xs ih =>
    have happ := ih (h.app (a := x) hlam) fun hnil => absurd hnil (by simp)
    rwa [List.append_assoc] at happ

/-! ### Reduction finds the head -/

/-- Whether a term shows its head: it is the head, or an application that
keeps its last argument. -/
def Shows (env : Environment) (e h : Expr) (args : List Expr) : Prop :=
  (e = h ∧ args = []) ∨ ∃ f a args', e = .app f a ∧ args = args' ++ [a] ∧ env.HasHead f h args'

theorem Shows.ne_lam {f h : Expr} {args : List Expr} (hs : env.Shows f h args)
    (hstuck : ∀ i d b, f ≠ .lam i d b) (hnil : args = []) (i : BinderInfo) (d b : Expr) :
    h ≠ .lam i d b := by
  rintro rfl
  rcases hs with ⟨rfl, -⟩ | ⟨_, _, _, -, hcons, -⟩
  · exact hstuck i d b rfl
  · simp [hnil] at hcons

/-- A spine whose head is no function shows the head of that, with all its arguments. -/
theorem HasHead.app_of_stuck {f a h : Expr} {args : List Expr}
    (hfn : env.HasHead f.appFn h args) (hlam : args = [] → ∀ i d b, h ≠ .lam i d b) :
    env.HasHead (.app f a) h (args ++ f.appArgs ++ [a]) ∧
      env.Shows (.app f a) h (args ++ f.appArgs ++ [a]) := by
  have hf : env.HasHead f h (args ++ f.appArgs) := by
    have hmk := HasHead.mkApp_of_stuck (f := f.appFn) hfn hlam f.appArgs
    rwa [mkApp_appFn_appArgs] at hmk
  exact ⟨hf.app fun hnil => hlam (List.append_eq_nil_iff.mp hnil).1, .inr ⟨f, a, _, rfl, rfl, hf⟩⟩

/-- A constant that is the head of a reduced term has no value. -/
theorem HasHead.value?_eq_none {c : Name} {ls : List Level} {h : Expr} {args : List Expr}
    (hk : env.HasHead (.const c ls) h args) (hs : env.Shows (.const c ls) h args) :
    env.value? c ls = none := by
  rcases hs with ⟨rfl, rfl⟩ | ⟨_, _, _, heq, -⟩
  · obtain hatom | ⟨c', ls', heq, hv⟩ := hk.isHead
    · cases hatom
    · obtain ⟨rfl, rfl⟩ := Expr.const.inj heq
      exact hv
  · cases heq

/-- Reduction keeps the head, and shows it. -/
theorem HasHead.of_whnf (h : env.whnf .all n e = some e') :
    ∃ h args, env.HasHead e h args ∧ env.HasHead e' h args ∧ env.Shows e' h args := by
  have hself : ∀ {e : Expr}, env.IsHead e →
      ∃ h args, env.HasHead e h args ∧ env.HasHead e h args ∧ env.Shows e h args :=
    fun he => ⟨_, [], he.hasHead, he.hasHead, .inl ⟨rfl, rfl⟩⟩
  induction n generalizing e e' with
  | zero => cases h
  | succ n ih =>
    cases e with
    | mdata m e =>
      obtain ⟨a, args, he, he', hs⟩ := ih h
      exact ⟨a, args, .mdata he, he', hs⟩
    | letE t v b =>
      obtain ⟨a, args, he, he', hs⟩ := ih h
      exact ⟨a, args, .letE he, he', hs⟩
    | const c ls =>
      cases hv : env.valueAt? .all c ls with
      | some v =>
        rw [whnf_const_of_value hv] at h
        obtain ⟨a, args, he, he', hs⟩ := ih h
        exact ⟨a, args, .delta hv he, he', hs⟩
      | none =>
        rw [whnf_const_of_none hv] at h
        obtain rfl := Option.some.inj h
        exact hself (.inr ⟨c, ls, rfl, hv⟩)
    | app f a =>
      have hspine := (Expr.app f a).mkApp_appFn_appArgs
      obtain ⟨head, hhead, h⟩ := whnf_app_cases h
      obtain ⟨k, ks, hfn, hk, hs⟩ := ih hhead
      rcases h with ⟨i, d, b, arg, rest, rfl, hargs, h⟩ | ⟨c, ls, v, rfl, hv, h⟩ | ⟨hstuck, rfl⟩
      · -- The head is a function, which takes the first argument.
        obtain ⟨a', args, he, he', hs'⟩ := ih h
        rw [hargs] at hspine
        obtain ⟨rfl, rfl⟩ := hk.det (.atom trivial)
        refine ⟨a', args, ?_, he', hs'⟩
        rw [← hspine]
        exact HasHead.mkApp (fun h args hb => .beta hfn hb) he
      · -- The head unfolds, which reduced terms do not.
        cases hv.symm.trans (hk.value?_eq_none hs)
      · -- The head is stuck, so it takes no argument.
        obtain ⟨hfull, hshows⟩ := HasHead.app_of_stuck (f := f) (a := a) hfn (hs.ne_lam hstuck.1)
        exact ⟨k, _, hfull, hfull, hshows⟩
    | _ =>
      obtain rfl := Option.some.inj h
      exact hself (.inl trivial)

/-! ### Metadata -/

theorem HasHead.of_stripMData (h : env.HasHead e.stripMData g args) : env.HasHead e g args := by
  induction e with
  | mdata m e ih => exact .mdata (ih h)
  | _ => exact h

theorem IsHead.stripMData_eq (h : env.IsHead e) : e.stripMData = e := by
  cases e with
  | mdata m e =>
    rcases h with h | ⟨_, _, h, -⟩ <;> cases h
  | _ => rfl

/-- Under its metadata, a term with the clean form of an atom is one. -/
theorem Atomic.of_clean {c : Cleaning} (ha : Atomic a) (h : c.clean a = c.clean e) :
    Atomic e.stripMData := by
  rw [← Cleaning.clean_stripMData e] at h
  cases hs : e.stripMData with
  | mdata m e' => exact absurd hs (stripMData_ne_mdata e m e')
  | app | const | letE =>
    rw [hs] at h
    cases a <;> first | exact absurd ha id | cases h
  | _ => trivial

/-- Terms with one clean form come to heads and arguments with one clean form. -/
theorem HasHead.of_clean {c : Cleaning} (h : env.HasHead e a args) (he : c.clean e = c.clean e') :
    ∃ a' args', env.HasHead e' a' args' ∧ c.clean a = c.clean a' ∧
      args.map c.clean = args'.map c.clean := by
  induction h generalizing e' with
  | mdata _ ih => exact ih he
  | letE _ ih =>
    obtain ⟨t', v', b', hstrip, -, hv, hb⟩ := Cleaning.of_letE he
    obtain ⟨a', args', hhead, ha, hargs⟩ := ih (Cleaning.clean_instantiate_congr hb hv)
    exact ⟨a', args', .of_stripMData (hstrip ▸ .letE hhead), ha, hargs⟩
  | delta hv h _ =>
    refine ⟨_, _, .of_stripMData ?_, rfl, rfl⟩
    rw [Cleaning.of_leaf he trivial]
    exact .delta hv h
  | const hv =>
    refine ⟨_, [], .of_stripMData ?_, rfl, rfl⟩
    rw [Cleaning.of_leaf he trivial]
    exact .const hv
  | atom ha =>
    refine ⟨_, [], .of_stripMData (.atom (ha.of_clean he)), ?_, rfl⟩
    rw [Cleaning.clean_stripMData, he]
  | beta _ _ ihf ihb =>
    obtain ⟨f', a', hstrip, hf, ha⟩ := Cleaning.of_app he
    obtain ⟨k, ks, hk, hlam, hnil⟩ := ihf hf
    -- The head of the function is a function with the same clean form, so it takes the
    -- argument as well.
    obtain rfl := List.map_eq_nil_iff.mp hnil.symm
    obtain ⟨i', d', b', hstrip', -, -, hb⟩ := Cleaning.of_lam hlam
    rw [hk.isHead.stripMData_eq] at hstrip'
    subst hstrip'
    obtain ⟨a', args', hhead, ha, hargs⟩ := ihb (Cleaning.clean_instantiate_congr hb ha)
    exact ⟨a', args', .of_stripMData (hstrip ▸ .beta hk hhead), ha, hargs⟩
  | app hhead hlam ih =>
    obtain ⟨f', a', hstrip, hf, ha⟩ := Cleaning.of_app he
    obtain ⟨k, ks, hk, hak, hks⟩ := ih hf
    refine ⟨k, ks ++ [a'], .of_stripMData (hstrip ▸ .app hk ?_), hak, ?_⟩
    · rintro rfl i d b rfl
      obtain ⟨i', d', b', hstrip', -⟩ := Cleaning.of_lam hak.symm
      rw [hhead.isHead.stripMData_eq] at hstrip'
      exact hlam (List.map_eq_nil_iff.mp hks) i' d' b' hstrip'
    · rw [List.map_append, List.map_append, hks, List.map_singleton, List.map_singleton, ha]

/-- Terms with one skeleton come to heads with one skeleton. -/
theorem HasHead.alike (h : env.HasHead e a args) (he : Alike e e') :
    ∃ a' args', env.HasHead e' a' args' ∧ Alike a a' ∧
      args.map skeleton = args'.map skeleton := by
  have hskeleton : Cleaning.toSkeleton.clean = skeleton := funext Cleaning.toSkeleton_clean
  obtain ⟨a', args', h', ha, hargs⟩ := h.of_clean (alike_iff.mp he)
  exact ⟨a', args', h', alike_iff.mpr ha, by rwa [hskeleton] at hargs⟩

/-- Whether two terms have one skeleton, or come to heads and arguments with
one skeleton. -/
def SameHead (env : Environment) (a b : Expr) : Prop :=
  Alike a b ∨ ∃ h args h' args', env.HasHead a h args ∧ env.HasHead b h' args' ∧ Alike h h' ∧
    args.map skeleton = args'.map skeleton

/-- What terms that are alike reduce to shows heads that are alike. -/
theorem SameHead.of_whnf {a' b' : Expr} (hab : env.SameHead a b)
    (ha : env.whnf .all n a = some a') (hb : env.whnf .all n b = some b') :
    ∃ h args h' args', env.Shows a' h args ∧ env.Shows b' h' args' ∧ env.IsHead h ∧
      env.IsHead h' ∧ Alike h h' ∧ args.map skeleton = args'.map skeleton := by
  obtain ⟨h, args, hha, -, hsa⟩ := HasHead.of_whnf ha
  obtain ⟨h', args', hhb, -, hsb⟩ := HasHead.of_whnf hb
  refine ⟨h, args, h', args', hsa, hsb, hha.isHead, hhb.isHead, ?_⟩
  rcases hab with hab | ⟨k, ks, k', ks', hk, hk', hkk, hks⟩
  · obtain ⟨k, ks, hk, hkk, hks⟩ := hha.alike hab
    obtain ⟨rfl, rfl⟩ := hk.det hhb
    exact ⟨hkk, hks⟩
  · obtain ⟨rfl, rfl⟩ := hk.det hha
    obtain ⟨rfl, rfl⟩ := hk'.det hhb
    exact ⟨hkk, hks⟩

theorem bind_ite_eq_some {p q : Option Bool} {r : Bool}
    (h : (do if ← p then q else some false) = some r) (hp : ∀ r, p = some r → r = true)
    (hq : ∀ r, q = some r → r = true) : r = true := by
  obtain ⟨r', hr', h⟩ := Option.bind_eq_some_iff.mp h
  obtain rfl := hp r' hr'
  exact hq r h

/-- The comparison of heads with one skeleton does not end with a difference,
if that of their parts does not. -/
theorem compareParts_of_alike {cmp : Expr → Expr → Option Bool} {r : Bool} (ha : env.IsHead a)
    (hb : env.IsHead b) (hab : Alike a b)
    (hcmp : ∀ {x y : Expr}, Alike x y → ∀ r, cmp x y = some r → r = true)
    (h : compareParts cmp a b = some r) : r = true := by
  have hstrip := hb.stripMData_eq
  cases a with
  | lam i d e =>
    obtain ⟨i', d', e', hs, hd, he⟩ := Alike.of_lam hab
    obtain rfl := hstrip.symm.trans hs
    exact bind_ite_eq_some h (hcmp hd) (hcmp he)
  | pi i d e =>
    obtain ⟨i', d', e', hs, hd, he⟩ := Alike.of_pi hab
    obtain rfl := hstrip.symm.trans hs
    exact bind_ite_eq_some h (hcmp hd) (hcmp he)
  | const c ls =>
    obtain rfl := hstrip.symm.trans (Alike.of_const hab)
    simpa [compareParts] using h.symm
  | bvar | fvar | sort | lit =>
    rcases hb with hb | ⟨c, ls, rfl, -⟩
    · cases b <;> simp_all [Atomic, Alike, skeleton, compareParts]
    · cases hab
  | app | letE | mdata => rcases ha with ha | ⟨_, _, ha, -⟩ <;> cases ha

/-- The comparison of terms that come to heads with one skeleton does not end
with a difference. -/
theorem isDefEq_of_sameHead {r : Bool} (hab : env.SameHead a b)
    (h : env.isDefEq .all n a b = some r) : r = true := by
  induction n generalizing a b r with
  | zero => cases h
  | succ n ih =>
    rw [isDefEq_succ] at h
    by_cases heq : a = b
    · rw [if_pos heq] at h
      exact (Option.some.inj h).symm
    · rw [if_neg heq] at h
      obtain ⟨a', ha, h⟩ := Option.bind_eq_some_iff.mp h
      obtain ⟨b', hb, h⟩ := Option.bind_eq_some_iff.mp h
      obtain ⟨k, ks, k', ks', hsa, hsb, hk, hk', hkk, hks⟩ := hab.of_whnf ha hb
      have halike : ∀ {x y : Expr}, Alike x y → ∀ r, env.isDefEq .all n x y = some r → r = true :=
        fun hxy r hr => ih (.inl hxy) hr
      rcases hsa with ⟨rfl, rfl⟩ | ⟨f, x, xs, rfl, rfl, hf⟩
      · obtain rfl := List.map_eq_nil_iff.mp hks.symm
        rcases hsb with ⟨rfl, -⟩ | ⟨_, _, _, -, hnil, -⟩
        · exact compareParts_of_alike hk hk' hkk halike h
        · simp at hnil
      · rcases hsb with ⟨-, rfl⟩ | ⟨g, y, ys, rfl, rfl, hg⟩
        · simp at hks
        · rw [List.map_append, List.map_append] at hks
          obtain ⟨hxs, hxy⟩ := List.append_inj' hks rfl
          exact bind_ite_eq_some h (fun r hr => ih (.inr ⟨k, xs, k', ys, hf, hg, hkk, hxs⟩) hr)
            (halike (List.singleton_inj.mp hxy))

end Environment

end Pinpoint
