/-
Instances of declarations.

A constant is checked once, with its universe parameters as they are, and is
used at all levels without another check.  The check can be repeated at any
levels, and when more constants are declared: reduction takes the same steps,
and inference gives types that differ from the instances of the old ones only
in how a universe at the end of the type is written.

* `whnf_instantiateLevels`, `isDefEq_instantiateLevels` — reduction and
  definitional equality at other levels;
* `Tail` — the difference between the types that are inferred;
* `inferType_instantiateLevels` — inference at other levels;
* `Checked.ensureSort_type` — the types of constants are accepted again;
* `Checked.usable_at_all_levels` — if constants mention no universe parameters
  but their own, every use of a constant has a type that is a type.
-/
import Pinpoint.Proofs.Freshness
import Pinpoint.Proofs.Levels
import Pinpoint.Proofs.Mentions
import Pinpoint.Proofs.TypedEnvironments

namespace Pinpoint

variable {s : List (Name × Level)}

namespace Expr

@[simp] theorem instantiateLevels_nil (e : Expr) : e.instantiateLevels [] = e := by
  induction e with
  | sort l => exact congrArg Expr.sort l.instantiate_nil
  | const c ls =>
    rw [instantiateLevels, List.map_congr_left fun l _ => l.instantiate_nil, List.map_id']
  | app f a ihf iha => rw [instantiateLevels, ihf, iha]
  | lam i t b iht ihb | pi i t b iht ihb => rw [instantiateLevels, iht, ihb]
  | letE t v b iht ihv ihb => rw [instantiateLevels, iht, ihv, ihb]
  | mdata m e ih => rw [instantiateLevels, ih]
  | _ => rfl

theorem instantiateLevels_mapVars (f : UInt32 → UInt32 → Expr) (g : UInt32 → FVarId → Expr)
    (d : UInt32) (e : Expr) :
    (mapVars f g d e).instantiateLevels s =
      mapVars (fun d i => (f d i).instantiateLevels s) (fun d x => (g d x).instantiateLevels s) d
        (e.instantiateLevels s) := by
  induction e generalizing d with
  | app _ _ ihf iha => simp only [mapVars, instantiateLevels, ihf, iha]
  | lam _ _ _ iht ihb | pi _ _ _ iht ihb => simp only [mapVars, instantiateLevels, iht, ihb]
  | letE _ _ _ iht ihv ihb => simp only [mapVars, instantiateLevels, iht, ihv, ihb]
  | mdata _ _ ih => simp only [mapVars, instantiateLevels, ih]
  | _ => rfl

theorem instantiateLevels_lift (amount : UInt32) (e : Expr) :
    (e.lift amount).instantiateLevels s = (e.instantiateLevels s).lift amount := by
  unfold lift liftAt
  rw [instantiateLevels_mapVars]
  congr 1
  funext d i
  split <;> rfl

theorem instantiateLevels_instantiate (e v : Expr) :
    (e.instantiate v).instantiateLevels s =
      (e.instantiateLevels s).instantiate (v.instantiateLevels s) := by
  unfold instantiate
  rw [instantiateLevels_mapVars]
  congr 1
  funext d i
  split
  · exact instantiateLevels_lift d v
  · split <;> rfl

theorem instantiateLevels_mkApp (f : Expr) (args : List Expr) :
    (mkApp f args).instantiateLevels s =
      mkApp (f.instantiateLevels s) (args.map (instantiateLevels s)) := by
  induction args generalizing f with
  | nil => rfl
  | cons a args ih => exact ih (.app f a)

theorem instantiateLevels_appFn (e : Expr) :
    e.appFn.instantiateLevels s = (e.instantiateLevels s).appFn := by
  induction e with
  | app f a ihf _ => exact ihf
  | _ => rfl

theorem instantiateLevels_appArgs (e : Expr) :
    e.appArgs.map (instantiateLevels s) = (e.instantiateLevels s).appArgs := by
  suffices h : ∀ rest, (e.appArgsAux rest).map (instantiateLevels s) =
      (e.instantiateLevels s).appArgsAux (rest.map (instantiateLevels s)) from h []
  induction e with
  | app f a ihf _ => exact fun rest => ihf (a :: rest)
  | _ => exact fun _ => rfl

theorem ConstsIn.mkApp_iff {p : Name → Nat → Prop} {f : Expr} {args : List Expr} :
    (mkApp f args).ConstsIn p ↔ f.ConstsIn p ∧ ∀ a ∈ args, a.ConstsIn p := by
  induction args generalizing f with
  | nil => simp
  | cons a args ih => simp [ih, ConstsIn, and_assoc]

end Expr

/-- The context with universe parameters replaced in all types. -/
def LocalContext.instantiateLevels (s : List (Name × Level)) (Γ : LocalContext) : LocalContext :=
  ⟨Γ.entries.map fun entry => { entry with type := entry.type.instantiateLevels s }⟩

theorem LocalContext.find?_instantiateLevels (Γ : LocalContext) (x : FVarId) :
    (Γ.instantiateLevels s).find? x =
      (Γ.find? x).map fun entry => { entry with type := entry.type.instantiateLevels s } := by
  unfold find? instantiateLevels
  rw [List.find?_map]
  rfl

namespace Environment

/-- An environment that can be extended, and whose constants can be used where levels
are put for universe parameters: they mention constants of their own, and universe
parameters of their own if any levels are put for parameters at all, and the larger
environment has them as they are. -/
structure Supports (s : List (Name × Level)) (env env' : Environment) : Prop where
  selfContained : env.SelfContained
  levels : s = [] ∨ env.OwnParams
  constants : env.constants <+: env'.constants

variable {env env' : Environment} {t : Transparency} {n : Nat} {e e' a b : Expr}

/-- Levels may be put for parameters before a constant is used or after. -/
theorem Supports.instantiateLevels_zip (h : Supports s env env') {info : Constant}
    (hinfo : info ∈ env.constants) (he : e = info.type ∨ info.value = some e) {ls : List Level}
    (hlen : ls.length = info.levelParams.length) :
    (e.instantiateLevels (info.levelParams.zip ls)).instantiateLevels s =
      e.instantiateLevels (info.levelParams.zip (ls.map (Level.instantiate s))) := by
  rcases h.levels with rfl | hown
  · rw [Expr.instantiateLevels_nil, List.map_congr_left fun l _ => l.instantiate_nil, List.map_id']
  · obtain ⟨htype, hvalue⟩ := hown info hinfo
    rcases he with rfl | he
    · exact Expr.instantiateLevels_zip hlen htype
    · exact Expr.instantiateLevels_zip hlen (hvalue e he)

/-! ### Reduction -/

/-- A declared constant unfolds at other levels as it did before, also if it
does not. -/
theorem Supports.valueAt?_eq (h : Supports s env env') {c : Name} {ls : List Level}
    (hc : env.Declares c ls.length) :
    env'.valueAt? t c (ls.map (Level.instantiate s)) =
      (env.valueAt? t c ls).map (Expr.instantiateLevels s) := by
  cases t with
  | reducible => rfl
  | all =>
    obtain ⟨info, hinfo, hlen⟩ := hc
    have hinfo' := find?_of_isPrefix h.constants hinfo
    have hsubst : info.levelSubst ls = .ok (info.levelParams.zip ls) :=
      levelSubst_eq_ok.mpr ⟨hlen.symm, rfl⟩
    have hsubst' : info.levelSubst (ls.map (Level.instantiate s)) =
        .ok (info.levelParams.zip (ls.map (Level.instantiate s))) :=
      levelSubst_eq_ok.mpr ⟨by rw [List.length_map, hlen], rfl⟩
    simp only [valueAt?, value?, hinfo, hinfo', Constant.instantiateValue, hsubst, hsubst',
      Except.map, Except.toOption, Option.bind_eq_bind, Option.bind_some]
    cases hv : info.value with
    | none => rfl
    | some v =>
      exact congrArg some
        (h.instantiateLevels_zip (List.mem_of_find?_eq_some hinfo) (.inr hv) hlen.symm).symm

/-- Reduction takes the same steps at other levels. -/
theorem whnf_instantiateLevels (h : Supports s env env') (he : e.ConstsIn env.Declares)
    (hw : env.whnf t n e = some e') :
    env'.whnf t n (e.instantiateLevels s) = some (e'.instantiateLevels s) := by
  induction n generalizing e e' with
  | zero => cases hw
  | succ n ih =>
    cases e with
    | mdata m e => exact ih he hw
    | letE type v b =>
      -- The value is put into the body on both sides.
      rw [whnf_letE] at hw
      rw [Expr.instantiateLevels, whnf_letE, ← Expr.instantiateLevels_instantiate]
      exact ih (he.2.2.instantiate he.2.1) hw
    | const c ls =>
      have hvalue := h.valueAt?_eq (t := t) (s := s) he
      cases hv : env.valueAt? t c ls with
      | none =>
        rw [whnf_const_of_none hv] at hw
        rw [hv] at hvalue
        exact Option.some.inj hw ▸ whnf_const_of_none hvalue
      | some v =>
        rw [whnf_const_of_value hv] at hw
        rw [hv] at hvalue
        rw [Expr.instantiateLevels, whnf_const_of_value hvalue]
        exact ih (h.selfContained.valueAt? hv) hw
    | app f a =>
      obtain ⟨hfn, hargs⟩ :=
        Expr.ConstsIn.mkApp_iff.mp ((Expr.app f a).mkApp_appFn_appArgs.symm ▸ he)
      obtain ⟨head, hhead, hw⟩ := whnf_app_cases hw
      -- The head of the spine reduces at other levels, and its arguments are known.
      have hknown := h.selfContained.whnf hhead hfn
      have hhead' := ih hfn hhead
      rw [Expr.instantiateLevels_appFn] at hhead'
      have hargs' := Expr.instantiateLevels_appArgs (s := s) (.app f a)
      rcases hw with ⟨i, d, b, arg, args, rfl, heq, hw⟩ | ⟨c, ls, v, rfl, hv, hw⟩ | ⟨hstuck, rfl⟩
      · -- A function takes its first argument.
        rw [heq] at hargs hargs'
        have hbody := hknown.2.instantiate (hargs arg List.mem_cons_self)
        have hresult := ih (Expr.ConstsIn.mkApp_iff.mpr ⟨hbody, fun a' ha' =>
          hargs a' (List.mem_cons_of_mem _ ha')⟩) hw
        rw [Expr.instantiateLevels_mkApp, Expr.instantiateLevels_instantiate] at hresult
        exact (whnf_app_of_lam hhead' hargs'.symm).trans hresult
      · -- A constant is unfolded.
        have hvalue := h.valueAt?_eq (t := t) (s := s) hknown
        rw [hv] at hvalue
        have hresult := ih (Expr.ConstsIn.mkApp_iff.mpr ⟨h.selfContained.valueAt? hv, hargs⟩) hw
        rw [Expr.instantiateLevels_mkApp, hargs'] at hresult
        exact (whnf_app_of_value hhead' hvalue).trans hresult
      · -- The head has neither form at other levels, if it has neither here.
        refine whnf_app_of_stuck hhead' ⟨fun i d b heq => ?_, fun c ls heq => ?_⟩
        · cases head <;> simp only [Expr.instantiateLevels, reduceCtorEq] at heq
          exact hstuck.1 _ _ _ rfl
        · cases head <;> simp only [Expr.instantiateLevels, reduceCtorEq] at heq
          obtain ⟨rfl, rfl⟩ := Expr.const.inj heq
          rw [h.valueAt?_eq hknown, hstuck.2 _ _ rfl, Option.map_none]
    | _ => exact Option.some.inj hw ▸ rfl

theorem map_simplify_instantiate {ls ls' : List Level}
    (h : ls.map Level.simplify = ls'.map Level.simplify) :
    (ls.map (Level.instantiate s)).map Level.simplify =
      (ls'.map (Level.instantiate s)).map Level.simplify := by
  have hmap : ∀ ls : List Level, (ls.map (Level.instantiate s)).map Level.simplify =
      (ls.map Level.simplify).map fun l => (l.instantiate s).simplify := by
    intro ls
    simp only [List.map_map]
    exact List.map_congr_left fun l _ => (Level.simplify_instantiate s l).symm
  rw [hmap, hmap, h]

theorem simplify_instantiate_congr {l l' : Level} (h : l.simplify = l'.simplify) :
    (l.instantiate s).simplify = (l'.instantiate s).simplify := by
  rw [← Level.simplify_instantiate, h, Level.simplify_instantiate]

/-- Terms that are found equal are found equal at other levels. -/
theorem isDefEq_instantiateLevels (h : Supports s env env') (ha : a.ConstsIn env.Declares)
    (hb : b.ConstsIn env.Declares) (hab : env.isDefEq t n a b = some true) :
    env'.isDefEq t n (a.instantiateLevels s) (b.instantiateLevels s) = some true := by
  induction n generalizing a b with
  | zero => cases hab
  | succ n ih =>
    rcases isDefEq_succ_eq_true.mp hab with rfl | ⟨a', b', ha', hb', hab⟩
    · exact isDefEq_refl _
    · refine isDefEq_succ_eq_true.mpr (.inr ⟨_, _, whnf_instantiateLevels h ha ha',
        whnf_instantiateLevels h hb hb', ?_⟩)
      have ha := h.selfContained.whnf ha' ha
      have hb := h.selfContained.whnf hb' hb
      cases a' <;> cases b' <;> simp only [Agree, Expr.instantiateLevels, reduceCtorEq] at hab ⊢
      case sort.sort => exact simplify_instantiate_congr hab
      case const.const => exact ⟨hab.1, map_simplify_instantiate hab.2⟩
      case app.app => exact ⟨ih ha.1 hb.1 hab.1, ih ha.2 hb.2 hab.2⟩
      case lam.lam => exact ⟨ih ha.1 hb.1 hab.1, ih ha.2 hb.2 hab.2⟩
      case pi.pi => exact ⟨ih ha.1 hb.1 hab.1, ih ha.2 hb.2 hab.2⟩
      all_goals grind

/-! ### Inferred types -/

theorem valueAt?_eq_none {c : Name} {ls : List Level} (h : ¬ env.Declares c ls.length) :
    env.valueAt? t c ls = none := by
  cases t with
  | reducible => rfl
  | all =>
    rw [Option.eq_none_iff_forall_ne_some]
    intro v hv
    obtain ⟨info, subst, w, hinfo, hsubst, -⟩ := value?_eq_some hv
    exact h ⟨info, hinfo, (levelSubst_eq_ok.mp hsubst).1.symm⟩

/-- How a type that is inferred with the smaller environment turns out at other
levels.  Up to the end of the type it is made of known terms, and at the end
stands a known term, or a universe that inference has simplified, or the type of
a literal, which need not be declared. -/
inductive Tail (env : Environment) (s : List (Name × Level)) : Expr → Expr → Prop
  | known {T : Expr} : T.ConstsIn env.Declares → Tail env s T (T.instantiateLevels s)
  | sort {l l' : Level} : l'.simplify = (l.instantiate s).simplify → Tail env s (.sort l) (.sort l')
  | pi {i : BinderInfo} {d b b' : Expr} : d.ConstsIn env.Declares → Tail env s b b' →
    Tail env s (.pi i d b) (.pi i (d.instantiateLevels s) b')
  | undeclared {n : Name} : ¬ env.Declares n 0 → Tail env s (.const n []) (.const n [])

/-- What is found equal to a universe reduces to an equal one. -/
theorem whnf_sort_of_isDefEq {l : Level} (h : env.isDefEq t (n + 1) (.sort l) a = some true) :
    ∃ k, env.whnf t (n + 1) a = some (.sort k) ∧ l.simplify = k.simplify := by
  rcases isDefEq_succ_eq_true.mp h with rfl | ⟨T₁, a₁, hT₁, ha₁, hagree⟩
  · exact ⟨l, rfl, rfl⟩
  · obtain _ | n := n
    · cases hT₁
    obtain rfl := Option.some.inj hT₁
    cases a₁ <;> simp only [Agree, reduceCtorEq] at hagree
    exact ⟨_, whnf_mono (by omega) ha₁, hagree⟩

/-- What is found equal to a type of functions reduces to one with equal parts. -/
theorem whnf_pi_of_isDefEq {i : BinderInfo} {d b : Expr}
    (h : env.isDefEq t (n + 1) (.pi i d b) a = some true) :
    ∃ j d₁ b₁, env.whnf t (n + 1) a = some (.pi j d₁ b₁) ∧
      env.isDefEq t (n + 1) d d₁ = some true ∧ env.isDefEq t (n + 1) b b₁ = some true := by
  rcases isDefEq_succ_eq_true.mp h with rfl | ⟨T₁, a₁, hT₁, ha₁, hagree⟩
  · exact ⟨i, d, b, rfl, isDefEq_refl d, isDefEq_refl b⟩
  · obtain _ | n := n
    · cases hT₁
    obtain rfl := Option.some.inj hT₁
    cases a₁ <;> simp only [Agree, reduceCtorEq] at hagree
    exact ⟨_, _, _, whnf_mono (by omega) ha₁, isDefEq_mono (by omega) hagree.1,
      isDefEq_mono (by omega) hagree.2⟩

/-- What is found equal to a constant that is not declared reduces to it. -/
theorem whnf_const_of_isDefEq {c : Name} (hc : ¬ env.Declares c 0)
    (h : env.isDefEq t (n + 1) (.const c []) a = some true) :
    a = .const c [] ∨ env.whnf t n a = some (.const c []) := by
  rcases isDefEq_succ_eq_true.mp h with rfl | ⟨T₁, a₁, hT₁, ha₁, hagree⟩
  · exact .inl rfl
  · obtain _ | n := n
    · cases hT₁
    rw [whnf_const_of_none (valueAt?_eq_none hc)] at hT₁
    obtain rfl := Option.some.inj hT₁
    cases a₁ <;> simp only [Agree, reduceCtorEq] at hagree
    obtain ⟨rfl, hls⟩ := hagree
    obtain rfl := List.map_eq_nil_iff.mp hls.symm
    exact .inr ha₁

namespace Tail

variable {T T' : Expr}

theorem mapVars {f f' : UInt32 → UInt32 → Expr} {g g' : UInt32 → FVarId → Expr}
    (hf : ∀ d i, (f d i).ConstsIn env.Declares ∧ (f d i).instantiateLevels s = f' d i)
    (hg : ∀ d x, (g d x).ConstsIn env.Declares ∧ (g d x).instantiateLevels s = g' d x)
    (h : Tail env s T T') (d : UInt32) :
    Tail env s (Expr.mapVars f g d T) (Expr.mapVars f' g' d T') := by
  have hknown : ∀ {e : Expr} (d : UInt32), (Expr.mapVars f g d e).instantiateLevels s =
      Expr.mapVars f' g' d (e.instantiateLevels s) := by
    intro e d
    rw [Expr.instantiateLevels_mapVars]
    congr 1 <;> funext d i
    · exact (hf d i).2
    · exact (hg d i).2
  induction h generalizing d with
  | known hT => exact hknown d ▸ .known (hT.mapVars (fun d i => (hf d i).1) (fun d x => (hg d x).1) d)
  | sort hl => exact .sort hl
  | pi hd _ ih =>
    have hdom := hd.mapVars (fun d i => (hf d i).1) (fun d x => (hg d x).1) d
    rw [Expr.mapVars, Expr.mapVars, ← hknown]
    exact .pi hdom (ih (d + 1))
  | undeclared hn => exact .undeclared hn

theorem instantiate (h : Tail env s T T') (ha : a.ConstsIn env.Declares) :
    Tail env s (T.instantiate a) (T'.instantiate (a.instantiateLevels s)) := by
  refine h.mapVars (g := fun _ x => .fvar x) (fun d i => ?_) (fun _ _ => ⟨trivial, rfl⟩) 0
  split
  · exact ⟨ha.lift d, Expr.instantiateLevels_lift d a⟩
  · split <;> exact ⟨trivial, rfl⟩

theorem abstractFVar (h : Tail env s T T') (x : FVarId) :
    Tail env s (T.abstractFVar x) (T'.abstractFVar x) := by
  refine h.mapVars (fun d i => ?_) (fun d y => ?_) 0 <;> split <;> exact ⟨trivial, rfl⟩

/-- Where one of the types reduces to a universe, so does the other. -/
theorem whnf_sort (h : Tail env s T T') (hsup : Supports s env env') {l : Level}
    (hw : env.whnf t n T = some (.sort l)) :
    ∃ l', env'.whnf t n T' = some (.sort l') ∧ l'.simplify = (l.instantiate s).simplify := by
  obtain _ | n := n
  · cases hw
  cases h with
  | known hT => exact ⟨_, whnf_instantiateLevels hsup hT hw, rfl⟩
  | sort hl =>
    obtain rfl := Expr.sort.inj (Option.some.inj hw)
    exact ⟨_, rfl, hl⟩
  | pi => cases hw
  | undeclared hn => rw [whnf_const_of_none (valueAt?_eq_none hn)] at hw; cases hw

/-- Where one of the types reduces to a type of functions, so does the other. -/
theorem whnf_pi (h : Tail env s T T') (hsup : Supports s env env') {i : BinderInfo} {d b : Expr}
    (hw : env.whnf t n T = some (.pi i d b)) :
    ∃ b', env'.whnf t n T' = some (.pi i (d.instantiateLevels s) b') ∧
      d.ConstsIn env.Declares ∧ Tail env s b b' := by
  obtain _ | n := n
  · cases hw
  cases h with
  | known hT =>
    have hpi := hsup.selfContained.whnf hw hT
    exact ⟨_, whnf_instantiateLevels hsup hT hw, hpi.1, .known hpi.2⟩
  | sort => cases hw
  | pi hd hb =>
    obtain ⟨rfl, rfl, rfl⟩ := Expr.pi.inj (Option.some.inj hw)
    exact ⟨_, rfl, hd, hb⟩
  | undeclared hn => rw [whnf_const_of_none (valueAt?_eq_none hn)] at hw; cases hw

/-- A type that is found equal to a known type is found so at other levels. -/
theorem isDefEq (h : Tail env s T T') (hsup : Supports s env env') (ha : a.ConstsIn env.Declares)
    (hTa : env.isDefEq t n T a = some true) :
    ∃ m, env'.isDefEq t m T' (a.instantiateLevels s) = some true := by
  obtain _ | n := n
  · cases hTa
  induction h generalizing a n with
  | known hT => exact ⟨n + 1, isDefEq_instantiateLevels hsup hT ha hTa⟩
  | @sort l l' hl =>
    obtain ⟨k, hk, hlk⟩ := whnf_sort_of_isDefEq hTa
    refine ⟨n + 2, isDefEq_succ_eq_true.mpr (.inr ⟨_, _, rfl, whnf_instantiateLevels hsup ha hk, ?_⟩)⟩
    exact hl.trans (simplify_instantiate_congr hlk)
  | @pi i d b b' hd _ ih =>
    obtain ⟨j, d₁, b₁, hk, hd₁, hb₁⟩ := whnf_pi_of_isDefEq hTa
    have hknown := hsup.selfContained.whnf hk ha
    -- Both heads are kept, and their parts are found equal again.
    obtain ⟨m, hm⟩ := ih hknown.2 n hb₁
    have hd' := isDefEq_instantiateLevels (s := s) hsup hd hknown.1 hd₁
    have hw := whnf_instantiateLevels (s := s) hsup ha hk
    have hatom : env'.whnf t (n + 1) (.pi i (d.instantiateLevels s) b') =
        some (.pi i (d.instantiateLevels s) b') := rfl
    exact ⟨max (n + 1) m + 1, isDefEq_succ_eq_true.mpr (.inr ⟨_, _,
      whnf_mono (Nat.le_max_left _ m) hatom, whnf_mono (Nat.le_max_left _ m) hw,
      isDefEq_mono (Nat.le_max_left _ m) hd', isDefEq_mono (Nat.le_max_right _ m) hm⟩)⟩
  | @undeclared c hc =>
    -- A known term does not reduce to a constant that is not declared.
    have hnot : ¬ (Expr.const c []).ConstsIn env.Declares := hc
    rcases whnf_const_of_isDefEq hc hTa with rfl | hw
    · exact absurd ha hnot
    · exact absurd (hsup.selfContained.whnf hw ha) hnot

end Tail

/-- Whether the types of all variables are made of declared constants. -/
def Covers (env : Environment) (Γ : LocalContext) : Prop :=
  ∀ entry ∈ Γ.entries, entry.type.ConstsIn env.Declares

theorem covers_empty : env.Covers .empty := nofun

theorem Covers.push {Γ : LocalContext} (h : env.Covers Γ) (x : FVarId) (name : Name) {type : Expr}
    (htype : type.ConstsIn env.Declares) : env.Covers (Γ.push x name type) :=
  List.forall_mem_cons.mpr ⟨htype, h⟩

theorem inferType_const_instantiateLevels (h : Supports s env env') {Γ : LocalContext} {c : Name}
    {ls : List Level} {T : Expr} {st st' : UInt64}
    (hT : (env.inferType (n + 1) Γ (.const c ls)).Returns st T st') :
    ∃ T', (env'.inferType 1 (Γ.instantiateLevels s)
      (.const c (ls.map (Level.instantiate s)))).Returns st T' st' ∧ Tail env s T T' := by
  obtain ⟨⟨info, hinfo, htype⟩, rfl⟩ := inferType_const_returns_iff.mp hT
  obtain ⟨subst, hsubst, rfl⟩ := instantiateType_eq_ok htype
  obtain ⟨hlen, rfl⟩ := levelSubst_eq_ok.mp hsubst
  have hmem := List.mem_of_find?_eq_some hinfo
  have htype := h.instantiateLevels_zip hmem (.inl rfl) hlen
  refine ⟨_, inferType_const_returns_iff.mpr ⟨⟨info, find?_of_isPrefix h.constants hinfo, ?_⟩,
    rfl⟩, .known (Expr.constsIn_instantiateLevels.mpr (h.selfContained info hmem).1)⟩
  rw [Constant.instantiateType, levelSubst_eq_ok.mpr ⟨by rw [List.length_map, hlen], rfl⟩, htype]
  rfl

/-- Inference goes through at other levels, with the same draws, and gives the
same type up to its tail. -/
theorem inferType_instantiateLevels (h : Supports s env env') {Γ : LocalContext} (hΓ : env.Covers Γ)
    {T : Expr} {st st' : UInt64} (hT : (env.inferType n Γ e).Returns st T st') :
    ∃ m T', (env'.inferType m (Γ.instantiateLevels s) (e.instantiateLevels s)).Returns st T' st' ∧
      Tail env s T T' := by
  induction n generalizing Γ e T st st' with
  | zero => exact absurd hT not_inferType_zero_returns
  | succ n ih =>
    have hknown := constsIn_of_inferType hT
    -- In each case the parts are inferred, reduced and compared with fuel of their own,
    -- and the largest of these amounts is enough for the whole.
    cases e with
    | bvar i => exact absurd hT not_inferType_bvar_returns
    | fvar x =>
      obtain ⟨⟨entry, hentry, rfl⟩, rfl⟩ := inferType_fvar_returns_iff.mp hT
      have hentry' := LocalContext.find?_instantiateLevels (s := s) Γ x
      rw [hentry, Option.map_some] at hentry'
      exact ⟨1, _, inferType_fvar_returns_iff.mpr ⟨⟨_, hentry', rfl⟩, rfl⟩,
        .known (hΓ entry (List.mem_of_find?_eq_some hentry))⟩
    | sort l =>
      obtain ⟨rfl, rfl⟩ := inferType_sort_returns_iff.mp hT
      exact ⟨1, _, inferType_sort_returns_iff.mpr ⟨rfl, rfl⟩, .sort rfl⟩
    | const c ls =>
      obtain ⟨T', hT', htail⟩ := inferType_const_instantiateLevels h hT
      exact ⟨1, T', hT', htail⟩
    | lit v =>
      obtain ⟨rfl, rfl⟩ := inferType_lit_returns_iff.mp hT
      refine ⟨1, _, inferType_lit_returns_iff.mpr ⟨rfl, rfl⟩, ?_⟩
      by_cases hv : env.Declares v.typeName 0
      · cases v <;> exact .known hv
      · cases v <;> exact .undeclared hv
    | mdata d e =>
      obtain ⟨m, T', hT', htail⟩ := ih hΓ (inferType_mdata_returns_iff.mp hT)
      exact ⟨m + 1, T', inferType_mdata_returns_iff.mpr hT', htail⟩
    | app f a =>
      obtain ⟨F, A, info, dom, body, t, hF, hpi, hA, hdom, rfl⟩ := inferType_app_returns_iff.mp hT
      obtain ⟨m₁, F', hF', htailF⟩ := ih hΓ hF
      obtain ⟨m₂, A', hA', htailA⟩ := ih hΓ hA
      -- The tail of a function's type is a type of functions with the same domain.
      obtain ⟨body', hpi', hdomKnown, htail⟩ := htailF.whnf_pi h hpi
      obtain ⟨m₃, hdom'⟩ := htailA.isDefEq h hdomKnown hdom
      refine ⟨max (max m₁ m₂) (max m₃ n) + 1, _, inferType_app_returns_iff.mpr ⟨F', A', info, _,
        body', t, (inferType_le (by omega) _ _).returns hF', whnf_mono (by omega) hpi',
        (inferType_le (by omega) _ _).returns hA', isDefEq_mono (by omega) hdom', rfl⟩,
        htail.instantiate hknown.2⟩
    | lam info dom body =>
      obtain ⟨D, l, B, t, hD, hl, hB, rfl⟩ := inferType_lam_returns_iff.mp hT
      obtain ⟨m₁, D', hD', htailD⟩ := ih hΓ hD
      obtain ⟨m₂, B', hB', htailB⟩ := ih (hΓ.push _ _ hknown.1) hB
      obtain ⟨l', hl', -⟩ := htailD.whnf_sort h hl
      rw [Expr.instantiateLevels_instantiate] at hB'
      refine ⟨max (max m₁ m₂) n + 1, _, inferType_lam_returns_iff.mpr ⟨D', l', B', t,
        (inferType_le (by omega) _ _).returns hD', whnf_mono (by omega) hl',
        (inferType_le (by omega) _ _).returns hB', rfl⟩, .pi hknown.1 (htailB.abstractFVar _)⟩
    | pi info dom body =>
      obtain ⟨D, l₁, B, l₂, t, hD, hl₁, hB, hl₂, rfl⟩ := inferType_pi_returns_iff.mp hT
      obtain ⟨m₁, D', hD', htailD⟩ := ih hΓ hD
      obtain ⟨m₂, B', hB', htailB⟩ := ih (hΓ.push _ _ hknown.1) hB
      obtain ⟨l₁', hl₁', heq₁⟩ := htailD.whnf_sort h hl₁
      obtain ⟨l₂', hl₂', heq₂⟩ := htailB.whnf_sort h hl₂
      rw [Expr.instantiateLevels_instantiate] at hB'
      refine ⟨max (max m₁ m₂) n + 1, _, inferType_pi_returns_iff.mpr ⟨D', l₁', B', l₂', t,
        (inferType_le (by omega) _ _).returns hD', whnf_mono (by omega) hl₁',
        (inferType_le (by omega) _ _).returns hB', whnf_mono (by omega) hl₂', rfl⟩, .sort ?_⟩
      -- The universe of the whole is made of the universes of the parts.
      rw [Level.simplify_idem, Level.simplify_instantiate]
      simp only [Level.simplify, Level.instantiate, heq₁, heq₂]
    | letE type value body =>
      obtain ⟨D, l, A, t, t', hD, hl, hA, htype, hB⟩ := inferType_letE_returns_iff.mp hT
      obtain ⟨m₁, D', hD', htailD⟩ := ih hΓ hD
      obtain ⟨m₂, A', hA', htailA⟩ := ih hΓ hA
      obtain ⟨m₃, B', hB', htailB⟩ := ih hΓ hB
      obtain ⟨l', hl', -⟩ := htailD.whnf_sort h hl
      obtain ⟨m₄, htype'⟩ := htailA.isDefEq h hknown.1 htype
      rw [Expr.instantiateLevels_instantiate] at hB'
      exact ⟨max (max m₁ m₂) (max (max m₃ m₄) n) + 1, _, inferType_letE_returns_iff.mpr ⟨D', l', A', t,
        t', (inferType_le (by omega) _ _).returns hD', whnf_mono (by omega) hl',
        (inferType_le (by omega) _ _).returns hA', isDefEq_mono (by omega) htype',
        (inferType_le (by omega) _ _).returns hB'⟩, htailB⟩

/-! ### Uses of constants -/

/-- Environments whose constants mention no universe parameters but their own
keep this property when constants are taken back. -/
theorem OwnParams.of_isPrefix (h : env'.OwnParams) (hle : env.constants <+: env'.constants) :
    env.OwnParams := fun c hc => h c (hle.subset hc)

/-- The type of a constant is accepted again once more constants are declared, at any
levels if constants mention no universe parameters but their own. -/
theorem Checked.ensureSort_type (henv : env.Checked) {c : Constant} (hc : c ∈ env.constants)
    (hs : s = [] ∨ env.OwnParams) :
    ∃ m, ∀ n ≥ m, ∃ l, (Checker.ensureSort ⟨env, .empty, n⟩
      (c.type.instantiateLevels s)).runFresh = some (.ok l) := by
  obtain ⟨env₀, fuel, h₀, hle, hdeclare⟩ := henv.accepted hc
  have hle : env₀.constants <+: env.constants := (List.prefix_append _ _).trans hle
  have hsup : Supports s env₀ env := ⟨h₀.selfContained, hs.imp_right (·.of_isPrefix hle), hle⟩
  obtain ⟨-, -, st, hcheck⟩ := declare_eq_ok hdeclare
  obtain ⟨T, l, t, hT, hl, -⟩ := checkConstant_returns hcheck
  obtain ⟨m, T', hT', htail⟩ := inferType_instantiateLevels hsup covers_empty hT
  obtain ⟨l', hl', -⟩ := htail.whnf_sort hsup hl
  refine ⟨max m fuel, fun n hn => ?_⟩
  have hm : m ≤ n := by omega
  have hfuel : fuel ≤ n := by omega
  exact ⟨l', CheckM.runFresh_eq_ok.mpr ⟨t, CheckM.returns_bind.mpr ⟨T', t,
    (inferType_le hm _ _).returns hT', sortOfType_returns_iff.mpr ⟨whnf_mono hfuel hl', rfl⟩⟩⟩⟩

/-- A use of a declared constant has a type, whatever its levels; and that type
is a type, if constants mention no universe parameters but their own. -/
theorem Checked.usable_at_all_levels (henv : env.Checked) {c : Constant} (hc : c ∈ env.constants)
    {ls : List Level} (hls : ls.length = c.levelParams.length) :
    ∃ fuel T, (Checker.inferType ⟨env, .empty, fuel⟩ (.const c.name ls)).runFresh = some (.ok T) ∧
      (env.OwnParams →
        ∃ l, (Checker.ensureSort ⟨env, .empty, fuel⟩ T).runFresh = some (.ok l)) := by
  have hfind : env.find? c.name = some c := henv.find?_eq_some hc
  have htype : c.instantiateType ls = .ok (c.type.instantiateLevels (c.levelParams.zip ls)) := by
    rw [Constant.instantiateType, levelSubst_eq_ok.mpr ⟨hls, rfl⟩]
    rfl
  have huse : ∀ n, (Checker.inferType ⟨env, .empty, n + 1⟩ (.const c.name ls)).runFresh =
      some (.ok (c.type.instantiateLevels (c.levelParams.zip ls))) := fun n =>
    CheckM.runFresh_eq_ok.mpr ⟨_, inferType_const_returns_iff.mpr ⟨⟨c, hfind, htype⟩, rfl⟩⟩
  by_cases hown : env.OwnParams
  · obtain ⟨m, hm⟩ := henv.ensureSort_type hc (.inr hown)
    exact ⟨m + 1, _, huse m, fun _ => hm (m + 1) (Nat.le_succ m)⟩
  · exact ⟨_, _, huse 0, fun h => absurd h hown⟩

/-! ### Examples -/

namespace LevelInstanceExample

/-- A predicate on the members of any type. -/
def predicate : Constant :=
  ⟨.simple "A", [.simple "u"], .pi .default (.sort (.param (.simple "u"))) .prop, none⟩

/-- A definition that mentions a universe parameter without declaring it: its
value is the universe of this parameter, at whatever levels it is used. -/
def undeclared : Constant :=
  ⟨.simple "c", [], .sort (.succ (.param (.simple "w"))), some (.sort (.param (.simple "w")))⟩

/-- A declaration that is well typed where the parameter that it declares is the
one that the definition mentions. -/
def confused : Constant :=
  ⟨.simple "d", [.simple "w"], .pi .default (.const (.simple "c") [])
    (.app (.const (.simple "A") [.param (.simple "w")]) (.bvar 0)), none⟩

theorem checked_predicate : Checked ⟨[predicate]⟩ :=
  .declare .empty (show declare .empty 5 predicate = some (.ok ⟨[predicate]⟩) from rfl)

theorem checked_confused : Checked ⟨[predicate, undeclared, confused]⟩ := by
  have hundeclared : declare ⟨[predicate]⟩ 5 undeclared =
    some (.ok ⟨[predicate, undeclared]⟩) := rfl
  have hconfused : declare ⟨[predicate, undeclared]⟩ 9 confused =
    some (.ok ⟨[predicate, undeclared, confused]⟩) := rfl
  exact (checked_predicate.declare hundeclared).declare hconfused

/-- The type of the last declaration at level `1`. -/
def instanceAtOne : Expr :=
  .pi .default (.const (.simple "c") []) (.app (.const (.simple "A") [.one]) (.bvar 0))

end LevelInstanceExample

open LevelInstanceExample in
/-- A predicate that is declared for all universes can be used for types. -/
theorem predicate_usable_at_one : Checked ⟨[predicate]⟩ ∧ OwnParams ⟨[predicate]⟩ ∧
    ∃ fuel T, (Checker.inferType ⟨⟨[predicate]⟩, .empty, fuel⟩
      (.const (.simple "A") [.one])).runFresh = some (.ok T) ∧
      ∃ l, (Checker.ensureSort ⟨⟨[predicate]⟩, .empty, fuel⟩ T).runFresh = some (.ok l) := by
  have hown : OwnParams ⟨[predicate]⟩ := by
    refine List.forall_mem_singleton.mpr ⟨by decide, nofun⟩
  have hlength : [Level.one].length = predicate.levelParams.length := rfl
  obtain ⟨fuel, T, hT, hl⟩ :=
    checked_predicate.usable_at_all_levels List.mem_cons_self hlength
  exact ⟨checked_predicate, hown, fuel, T, hT, hl hown⟩

open LevelInstanceExample in
/-- A declaration is accepted, and at level `1` it has a type that is no type. -/
theorem instance_without_universe : Checked ⟨[predicate, undeclared, confused]⟩ ∧
    (Checker.inferType ⟨⟨[predicate, undeclared, confused]⟩, .empty, 5⟩
      (.const (.simple "d") [.one])).runFresh = some (.ok instanceAtOne) ∧
    ∀ fuel l, (Checker.ensureSort ⟨⟨[predicate, undeclared, confused]⟩, .empty, fuel⟩
      instanceAtOne).runFresh ≠ some (.ok l) := by
  refine ⟨checked_confused, rfl, fun fuel l h => ?_⟩
  have hfuel : fuel ≤ max fuel 9 := Nat.le_max_left fuel 9
  have hle : ∀ {m n : Nat}, m ≤ n →
      (Checker.ensureSort ⟨⟨[predicate, undeclared, confused]⟩, .empty, m⟩ instanceAtOne).Le
        (Checker.ensureSort ⟨⟨[predicate, undeclared, confused]⟩, .empty, n⟩ instanceAtOne) :=
    fun hmn => CheckM.le_bind (inferType_le hmn _ _) fun T => sortOfType_le hmn _ T
  have hrefused : (Checker.ensureSort ⟨⟨[predicate, undeclared, confused]⟩, .empty, 9⟩
      instanceAtOne).runFresh = some (.error (.typeMismatch (.sort .one)
        (.const (.simple "c") []))) := rfl
  have h := (hle hfuel).runFresh h
  rw [(hle (Nat.le_max_right fuel 9)).runFresh hrefused] at h
  cases h

end Environment

end Pinpoint
