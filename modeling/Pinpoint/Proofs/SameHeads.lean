/-
Comparisons of terms that come to the same heads.

Two comparisons that both end have the same answer, if what they compare comes
to heads and arguments with the same skeletons.  Reduction that unfolds nothing
is reduction where nothing is declared, so this holds at both transparencies.

* `whnf_congr`, `isDefEq_congr` — reduction and comparison look at the values of
  constants only;
* `isDefEq_of_sameHeads` — comparisons of terms with the same heads have one
  answer;
* `Decides.of_alike` — so have comparisons of terms with the same skeletons, at
  every transparency.
-/
import Pinpoint.Proofs.DefinitionalEquality
import Pinpoint.Proofs.Heads

namespace Pinpoint.Environment

open Pinpoint.Expr

variable {env env' : Environment} {t t' : Transparency} {m n : Nat} {a a' b b' c : Expr}
  {r r' : Bool}

/-! ### Environments with the same values -/

theorem whnf_congr (hvalue : ∀ c ls, env.valueAt? t c ls = env'.valueAt? t' c ls) (n : Nat)
    (e : Expr) : env.whnf t n e = env'.whnf t' n e := by
  induction n generalizing e with
  | zero => rfl
  | succ n ih => simp only [whnf, ih, hvalue]

theorem isDefEq_congr (hvalue : ∀ c ls, env.valueAt? t c ls = env'.valueAt? t' c ls) (n : Nat)
    (a b : Expr) : env.isDefEq t n a b = env'.isDefEq t' n a b := by
  induction n generalizing a b with
  | zero => rfl
  | succ n ih => simp only [isDefEq, whnf_congr hvalue, ih]

/-- To unfold nothing is to unfold all constants of an environment that has none. -/
theorem valueAt?_reducible (c : Name) (ls : List Level) :
    env.valueAt? .reducible c ls = (⟨[]⟩ : Environment).valueAt? .all c ls := rfl

/-! ### The same heads -/

theorem SameHead.symm (h : env.SameHead a b) : env.SameHead b a := by
  rcases h with h | ⟨k, ks, k', ks', hk, hk', hkk, hks⟩
  · exact .inl (Eq.symm h)
  · exact .inr ⟨k', ks', k, ks, hk', hk, Eq.symm hkk, hks.symm⟩

/-- The heads of one of two terms with the same heads are those of the other. -/
theorem SameHead.hasHead {h : Expr} {args : List Expr} (hab : env.SameHead a b)
    (ha : env.HasHead a h args) :
    ∃ h' args', env.HasHead b h' args' ∧ Alike h h' ∧ args.map skeleton = args'.map skeleton := by
  rcases hab with hab | ⟨k, ks, k', ks', hk, hk', hkk, hks⟩
  · exact ha.alike hab
  · obtain ⟨rfl, rfl⟩ := hk.det ha
    exact ⟨k', ks', hk', hkk, hks⟩

theorem SameHead.trans (hab : env.SameHead a b) (hbc : env.SameHead b c) : env.SameHead a c := by
  rcases hab with hab | ⟨k, ks, k', ks', hk, hk', hkk, hks⟩
  · rcases hbc with hbc | ⟨k, ks, k', ks', hk, hk', hkk, hks⟩
    · exact .inl (Eq.trans hab hbc)
    · obtain ⟨l, ls, hl, hkl, hkls⟩ := hk.alike (Eq.symm hab)
      exact .inr ⟨l, ls, k', ks', hl, hk', Eq.trans (Eq.symm hkl) hkk, hkls.symm.trans hks⟩
  · obtain ⟨l, ls, hl, hkl, hkls⟩ := hbc.hasHead hk'
    exact .inr ⟨k, ks, l, ls, hk, hl, Eq.trans hkk hkl, hks.trans hkls⟩

/-- Terms that show heads and arguments with one clean form are these heads, or
applications of terms with such heads and arguments. -/
theorem Shows.cases_of_clean {c : Cleaning} {x y h h' : Expr} {args args' : List Expr}
    (hx : env.Shows x h args) (hy : env.Shows y h' args')
    (hargs : args.map c.clean = args'.map c.clean) :
    (x = h ∧ y = h') ∨ ∃ f u us g v vs, x = .app f u ∧ y = .app g v ∧ env.HasHead f h us ∧
      env.HasHead g h' vs ∧ us.map c.clean = vs.map c.clean ∧ c.clean u = c.clean v := by
  rcases hx with ⟨rfl, rfl⟩ | ⟨f, u, us, rfl, rfl, hf⟩
  · obtain rfl := List.map_eq_nil_iff.mp hargs.symm
    rcases hy with ⟨rfl, -⟩ | ⟨_, _, _, -, hnil, -⟩
    · exact .inl ⟨rfl, rfl⟩
    · simp at hnil
  · rcases hy with ⟨-, rfl⟩ | ⟨g, v, vs, rfl, rfl, hg⟩
    · simp at hargs
    · rw [List.map_append, List.map_append] at hargs
      obtain ⟨hus, huv⟩ := List.append_inj' hargs rfl
      exact .inr ⟨f, u, us, g, v, vs, rfl, rfl, hf, hg, hus, List.singleton_inj.mp huv⟩

/-- What two terms with the same heads reduce to is two heads, or two applications
of terms with the same heads to arguments that are alike. -/
theorem SameHead.cases_of_whnf (hab : env.SameHead a b) {x y : Expr}
    (ha : env.whnf .all m a = some x) (hb : env.whnf .all n b = some y) :
    (env.IsHead x ∧ env.IsHead y ∧ Alike x y) ∨
      ∃ f u g v, x = .app f u ∧ y = .app g v ∧ env.SameHead f g ∧ Alike u v := by
  have hskeleton : Cleaning.toSkeleton.clean = skeleton := funext Cleaning.toSkeleton_clean
  obtain ⟨h, args, hha, -, hsa⟩ := HasHead.of_whnf ha
  obtain ⟨h', args', hhb, -, hsb⟩ := HasHead.of_whnf hb
  obtain ⟨k, ks, hk, hhk, hks⟩ := hab.hasHead hha
  obtain ⟨rfl, rfl⟩ := hk.det hhb
  rw [← hskeleton] at hks
  rcases hsa.cases_of_clean hsb hks with
    ⟨rfl, rfl⟩ | ⟨f, u, us, g, v, vs, rfl, rfl, hf, hg, hus, huv⟩
  · exact .inl ⟨hha.isHead, hhb.isHead, hhk⟩
  · rw [hskeleton] at hus
    exact .inr ⟨f, u, g, v, rfl, rfl, .inr ⟨_, us, _, vs, hf, hg, hhk, hus⟩, alike_iff.mpr huv⟩

/-- What two terms with one clean form reduce to is two heads with one clean form,
or two applications. -/
theorem whnf_cases_of_clean {c : Cleaning} (hab : c.clean a = c.clean b) {x y : Expr}
    (ha : env.whnf .all m a = some x) (hb : env.whnf .all n b = some y) :
    (env.IsHead x ∧ env.IsHead y ∧ c.clean x = c.clean y) ∨
      ∃ f u g v, x = .app f u ∧ y = .app g v := by
  obtain ⟨h, args, hha, -, hsa⟩ := HasHead.of_whnf ha
  obtain ⟨h', args', hhb, -, hsb⟩ := HasHead.of_whnf hb
  obtain ⟨k, ks, hk, hhk, hks⟩ := hha.of_clean hab
  obtain ⟨rfl, rfl⟩ := hk.det hhb
  rcases hsa.cases_of_clean hsb hks with ⟨rfl, rfl⟩ | ⟨f, u, _, g, v, _, rfl, rfl, -⟩
  · exact .inl ⟨hha.isHead, hhb.isHead, hhk⟩
  · exact .inr ⟨f, u, g, v, rfl, rfl⟩

/-! ### Comparisons -/

theorem bind_ite_det {p p' q q' : Option Bool}
    (h : (do if ← p then q else some false) = some r)
    (h' : (do if ← p' then q' else some false) = some r')
    (hp : ∀ r r', p = some r → p' = some r' → r = r')
    (hq : ∀ r r', q = some r → q' = some r' → r = r') : r = r' := by
  obtain ⟨x, hx, h⟩ := Option.bind_eq_some_iff.mp h
  obtain ⟨x', hx', h'⟩ := Option.bind_eq_some_iff.mp h'
  obtain rfl := hp x x' hx hx'
  cases x with
  | true => exact hq r r' h h'
  | false => exact Option.some.inj (h.symm.trans h')

/-- What two heads that are alike can be. -/
inductive HeadsAlike : Expr → Expr → Prop
  | leaf {a : Expr} : Cleaning.IsLeaf a → HeadsAlike a a
  | sort {l l' : Level} : l.simplify = l'.simplify → HeadsAlike (.sort l) (.sort l')
  | lam {i i' : BinderInfo} {d d' b b' : Expr} :
    Alike d d' → Alike b b' → HeadsAlike (.lam i d b) (.lam i' d' b')
  | pi {i i' : BinderInfo} {d d' b b' : Expr} :
    Alike d d' → Alike b b' → HeadsAlike (.pi i d b) (.pi i' d' b')

theorem IsHead.headsAlike (ha : env.IsHead a) (hb : env.IsHead b) (h : Alike a b) :
    HeadsAlike a b := by
  have hstrip := hb.stripMData_eq
  cases a with
  | lam i d e =>
    obtain ⟨i', d', e', hs, hd, he⟩ := Alike.of_lam h
    obtain rfl := hstrip.symm.trans hs
    exact .lam hd he
  | pi i d e =>
    obtain ⟨i', d', e', hs, hd, he⟩ := Alike.of_pi h
    obtain rfl := hstrip.symm.trans hs
    exact .pi hd he
  | sort l =>
    obtain ⟨l', hs, hl⟩ := Cleaning.of_sort (alike_iff.mp h)
    obtain rfl := hstrip.symm.trans hs
    exact .sort hl
  | bvar | fvar | const | lit =>
    obtain rfl := hstrip.symm.trans (Cleaning.of_leaf (alike_iff.mp h) trivial)
    exact .leaf trivial
  | app | letE | mdata => rcases ha with ha | ⟨_, _, ha, -⟩ <;> cases ha

/-- The comparison of two pairs of heads that are alike has one answer, if that of
their parts does. -/
theorem HeadsAlike.compareParts {cmp cmp' : Expr → Expr → Option Bool} (ha : HeadsAlike a a')
    (hb : HeadsAlike b b')
    (hcmp : ∀ {x x' y y' : Expr}, Alike x x' → Alike y y' →
      ∀ r r', cmp x y = some r → cmp' x' y' = some r' → r = r')
    (h : compareParts cmp a b = some r) (h' : compareParts cmp' a' b' = some r') : r = r' := by
  cases ha with
  | leaf ha =>
    -- nothing is compared part by part
    cases hb with
    | leaf _ =>
      cases a <;> first | exact absurd ha id | skip
      all_goals cases b <;> exact Option.some.inj (h.symm.trans h')
    | _ =>
      cases a <;> first | exact absurd ha id | skip
      all_goals simp_all [Environment.compareParts]
  | sort hl =>
    cases hb with
    | leaf hb =>
      cases b <;> first | exact absurd hb id | simp_all [Environment.compareParts]
    | _ => simp_all [Environment.compareParts]
  | lam hd he =>
    cases hb with
    | lam hd' he' => exact bind_ite_det h h' (hcmp hd hd') (hcmp he he')
    | leaf hb => cases b <;> first | exact absurd hb id | simp_all [Environment.compareParts]
    | _ => simp_all [Environment.compareParts]
  | pi hd he =>
    cases hb with
    | pi hd' he' => exact bind_ite_det h h' (hcmp hd hd') (hcmp he he')
    | leaf hb => cases b <;> first | exact absurd hb id | simp_all [Environment.compareParts]
    | _ => simp_all [Environment.compareParts]

/-- A head and an application are found different. -/
theorem compareParts_head_app {cmp : Expr → Expr → Option Bool} (ha : env.IsHead a) (f u : Expr) :
    compareParts cmp a (.app f u) = some false ∧ compareParts cmp (.app f u) a = some false := by
  cases a with
  | app | letE | mdata => rcases ha with ha | ⟨_, _, ha, -⟩ <;> cases ha
  | _ => exact ⟨by simp [compareParts], by simp [compareParts]⟩

/-- Comparisons of terms that come to the same heads have one answer. -/
theorem isDefEq_of_sameHeads (haa : env.SameHead a a') (hbb : env.SameHead b b')
    (h : env.isDefEq .all n a b = some r) (h' : env.isDefEq .all m a' b' = some r') : r = r' := by
  induction n generalizing m a a' b b' r r' with
  | zero => cases h
  | succ n ih =>
    cases m with
    | zero => cases h'
    | succ m =>
      by_cases hab : a = b
      · -- Nothing is reduced, but the heads are the same.
        subst hab
        have hr' := isDefEq_of_sameHead (haa.symm.trans hbb) h'
        rw [isDefEq_succ, if_pos rfl] at h
        exact (Option.some.inj h).symm.trans hr'.symm
      by_cases hab' : a' = b'
      · subst hab'
        have hr := isDefEq_of_sameHead (haa.trans hbb.symm) h
        rw [isDefEq_succ, if_pos rfl] at h'
        exact hr.trans (Option.some.inj h')
      -- Both comparisons reduce their terms and go on with the parts.
      rw [isDefEq_succ, if_neg hab] at h
      rw [isDefEq_succ, if_neg hab'] at h'
      obtain ⟨x, hx, h⟩ := Option.bind_eq_some_iff.mp h
      obtain ⟨y, hy, h⟩ := Option.bind_eq_some_iff.mp h
      obtain ⟨x', hx', h'⟩ := Option.bind_eq_some_iff.mp h'
      obtain ⟨y', hy', h'⟩ := Option.bind_eq_some_iff.mp h'
      have hparts : ∀ {x x' y y' : Expr}, Alike x x' → Alike y y' → ∀ r r',
          env.isDefEq .all n x y = some r → env.isDefEq .all m x' y' = some r' → r = r' :=
        fun hx hy _ _ => ih (.inl hx) (.inl hy)
      -- The heads of either pair are the same, or both are applications that are stuck.
      rcases haa.cases_of_whnf hx hx' with ⟨ha, ha', haa⟩ | ⟨f, u, f', u', rfl, rfl, hf, hu⟩
      · rcases hbb.cases_of_whnf hy hy' with ⟨hb, hb', hbb⟩ | ⟨g, v, g', v', rfl, rfl, -, -⟩
        · exact (ha.headsAlike ha' haa).compareParts (hb.headsAlike hb' hbb) hparts h h'
        · rw [(compareParts_head_app ha g v).1] at h
          rw [(compareParts_head_app ha' g' v').1] at h'
          exact Option.some.inj (h.symm.trans h')
      · rcases hbb.cases_of_whnf hy hy' with ⟨hb, hb', -⟩ | ⟨g, v, g', v', rfl, rfl, hg, hv⟩
        · rw [(compareParts_head_app hb f u).2] at h
          rw [(compareParts_head_app hb' f' u').2] at h'
          exact Option.some.inj (h.symm.trans h')
        · exact bind_ite_det h h' (fun _ _ => ih hf hg) (hparts hu hv)

/-- Comparisons of terms with the same skeletons have one answer, at every
transparency. -/
theorem Decides.of_alike (haa : Alike a a') (hbb : Alike b b') (h : env.Decides t a b r)
    (h' : env.Decides t a' b' r') : r = r' := by
  obtain ⟨m, h⟩ := h
  obtain ⟨n, h'⟩ := h'
  cases t with
  | all => exact isDefEq_of_sameHeads (.inl haa) (.inl hbb) h h'
  | reducible =>
    rw [isDefEq_congr valueAt?_reducible] at h h'
    exact isDefEq_of_sameHeads (.inl haa) (.inl hbb) h h'

end Pinpoint.Environment
