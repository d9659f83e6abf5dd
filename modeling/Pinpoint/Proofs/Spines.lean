/-
Types of applications.

`Gives Γ e T` says that the checker gives `e` the type `T` in the context `Γ`,
wherever in its range it draws variables from, as long as the range lasts.  A
function whose type quantifies over as many variables as there are arguments
is applied to them one at a time, and the type of the application is what was
quantified, at the arguments.

* `gives_of_returns`, `Gives.infers` — from one place in the range to all of
  them, and back;
* `Gives.app` and `of_gives_app` — one argument, put together and taken apart;
* `Gives.mkApp`, `Gives.mkApp_telescope` — many arguments, and all of them.
-/
import Pinpoint.Proofs.Freshness
import Pinpoint.Proofs.ScopedInference
import Pinpoint.Proofs.Simultaneous

namespace Pinpoint

/-! ### Small terms -/

namespace Expr

/-- Whether a term is well scoped and small enough that its binders can be
counted also under those of another such term. -/
structure Small (e : Expr) : Prop where
  closed : e.Scoped 0
  nesting : e.nesting < 2 ^ 31

namespace Small

variable {e v : Expr} {d amount : UInt32}

theorem lift (h : e.Small) : e.lift amount = e := by
  have := h.nesting
  exact lift_eq_self (h.closed.hasLooseBVars (by omega))

/-- What is put at a variable under binders is not changed by what replaces
the variables of those binders. -/
theorem mapVars_inst (h : e.Small) (hd : d.toNat < 2 ^ 31) :
    mapVars (instVar v) (fun _ x => .fvar x) d e = e := by
  have hn := h.nesting
  exact h.closed.mapVars_eq_self (fun _ _ => instVar_of_lt) (by omega)

end Small

end Expr

/-! ### Judgements of the checker -/

namespace Environment

variable (env : Environment)

/-- Whether two terms are equal by definition, given enough fuel. -/
def DefEq (a b : Expr) : Prop := ∃ n, env.isDefEq .all n a b = some true

/-- Whether a term has the given weak-head normal form. -/
def Reduces (e e' : Expr) : Prop := ∃ n, env.whnf .all n e = some e'

/-- Whether a checker that has drawn nothing yet gives a term a type. -/
def Infers (Γ : LocalContext) (e T : Expr) : Prop :=
  ∃ n, (env.inferType n Γ e).runFresh = some (.ok T)

/-- Whether a checker gives a term a type wherever it is in its range, if the
range lasts. -/
structure Gives (Γ : LocalContext) (e T : Expr) : Prop where
  closed : e.Scoped 0
  returns : ∃ n, ∀ s, Checker.firstFresh ≤ s → s.toNat + e.openings n < 2 ^ 64 →
    (env.inferType n Γ e).Returns s T (s + .ofNat (e.openings n))

/-- Whether a checker gives a term a type that is equal by definition to the
given one, wherever it is in its range. -/
def Checks (Γ : LocalContext) (e type : Expr) : Prop :=
  ∃ T, env.Gives Γ e T ∧ env.DefEq T type

end Environment

/-- Whether the range of a checker is large enough for a term. -/
def Expr.FitsRange (e : Expr) : Prop :=
  ∀ n, Checker.firstFresh.toNat + e.openings n < 2 ^ 64

namespace Environment

open Pinpoint.Expr

variable {env : Environment} {Γ : LocalContext} {a b c e f T F A : Expr} {n : Nat} {s t : UInt64}

theorem DefEq.refl (a : Expr) : env.DefEq a a := ⟨1, isDefEq_refl a⟩

theorem DefEq.trans (h : env.DefEq a b) (h' : env.DefEq b c) : env.DefEq a c := by
  obtain ⟨n, h⟩ := h
  obtain ⟨m, h'⟩ := h'
  exact ⟨max n m, isDefEq_trans (isDefEq_mono (Nat.le_max_left n m) h)
    (isDefEq_mono (Nat.le_max_right n m) h')⟩

/-- Terms that reduce to the same term are equal by definition. -/
theorem DefEq.of_reduces (ha : env.Reduces a c) (hb : env.Reduces b c) : env.DefEq a b := by
  obtain ⟨n, ha⟩ := ha
  obtain ⟨m, hb⟩ := hb
  refine ⟨max n m + 1, isDefEq_succ_eq_true.mpr (.inr ⟨c, c, ?_, ?_, ?_⟩)⟩
  · exact whnf_mono (Nat.le_max_left n m) ha
  · exact whnf_mono (Nat.le_max_right n m) hb
  · obtain ⟨k, hk⟩ : ∃ k, max n m = k + 1 := by
      rcases n with _ | n
      · cases ha
      · exact ⟨max (n + 1) m - 1, by omega⟩
    rw [hk]
    exact Agree.refl (fun x => isDefEq_refl x) c

theorem Checks.trans (h : env.Checks Γ e a) (hab : env.DefEq a b) : env.Checks Γ e b := by
  obtain ⟨T, hT, hTa⟩ := h
  exact ⟨T, hT, hTa.trans hab⟩

/-- A type that a term has is one that every larger amount of fuel finds. -/
theorem Gives.eventually (h : env.Gives Γ e T) : ∃ n, ∀ m ≥ n, ∀ s, Checker.firstFresh ≤ s →
    s.toNat + e.openings m < 2 ^ 64 →
      (env.inferType m Γ e).Returns s T (s + .ofNat (e.openings m)) := by
  obtain ⟨n, h⟩ := h.returns
  refine ⟨n, fun m hnm s hs hroom => ?_⟩
  have hle := openings_mono hnm e
  have hret := (inferType_le hnm Γ e).returns (h s hs (by omega))
  rwa [supply_of_returns hret] at hret

/-- What a checker finds at one place in its range it finds at all places. -/
theorem FVarFree.gives_of_returns (henv : env.FVarFree) (hΓ : Γ.FVarsIn FVarId.IsOuter)
    (he : e.FVarsIn FVarId.IsOuter) (h : (env.inferType n Γ e).Returns s T t)
    (hs : Checker.firstFresh ≤ s) (hroom : s.toNat + e.openings n ≤ 2 ^ 64) :
    env.Gives Γ e T :=
  ⟨scoped_of_inferType h, n, fun _ hs' hroom' =>
    henv.returns_of_returns hΓ he h hs hs' hroom (Nat.le_of_lt hroom')⟩

theorem FVarFree.gives_of_infers (henv : env.FVarFree) (hΓ : Γ.FVarsIn FVarId.IsOuter)
    (he : e.FVarsIn FVarId.IsOuter) (hfits : e.FitsRange) (h : env.Infers Γ e T) :
    env.Gives Γ e T := by
  obtain ⟨n, h⟩ := h
  obtain ⟨t, h⟩ := CheckM.runFresh_eq_ok.mp h
  exact henv.gives_of_returns hΓ he h UInt64.le_rfl (Nat.le_of_lt (hfits n))

theorem Gives.infers (h : env.Gives Γ e T) (hfits : e.FitsRange) : env.Infers Γ e T := by
  obtain ⟨n, h⟩ := h.returns
  exact ⟨n, CheckM.runFresh_eq_ok.mpr ⟨_, h _ UInt64.le_rfl (hfits n)⟩⟩

/-- An application has a type if the argument fits the function. -/
theorem Gives.app (hf : env.Gives Γ f F) {info : BinderInfo} {dom body : Expr}
    (hF : env.Reduces F (.pi info dom body)) (ha : env.Checks Γ a dom) :
    env.Gives Γ (.app f a) (body.instantiate a) := by
  obtain ⟨A, ha, hA⟩ := ha
  refine ⟨⟨hf.closed, ha.closed⟩, ?_⟩
  obtain ⟨n₁, hf⟩ := hf.eventually
  obtain ⟨n₂, ha⟩ := ha.eventually
  obtain ⟨n₃, hF⟩ := hF
  obtain ⟨n₄, hA⟩ := hA
  let n := n₁ + n₂ + n₃ + n₄
  refine ⟨n + 1, fun s hs hroom => ?_⟩
  rw [openings] at hroom ⊢
  have hret := hf n (by omega) s hs (by omega)
  have hnext := toNat_supply hret (by omega)
  rw [UInt64.ofNat_add, ← UInt64.add_assoc]
  exact inferType_app_returns_iff.mpr ⟨F, A, info, dom, body, _, hret, whnf_mono (by omega) hF,
    ha n (by omega) _ (firstFresh_le_supply hret hs (by omega)) (by omega),
    isDefEq_mono (by omega) hA, rfl⟩

/-- The parts of an application that has a type. -/
theorem FVarFree.of_gives_app (henv : env.FVarFree) (hΓ : Γ.FVarsIn FVarId.IsOuter)
    (he : (Expr.app f a).FVarsIn FVarId.IsOuter) (hfits : (Expr.app f a).FitsRange)
    (h : env.Gives Γ (.app f a) T) :
    ∃ F info dom body, env.Gives Γ f F ∧ env.Reduces F (.pi info dom body) ∧
      env.Checks Γ a dom ∧ T = body.instantiate a := by
  obtain ⟨n, hret⟩ := h.returns
  have hret := hret _ UInt64.le_rfl (hfits n)
  rcases n with _ | n
  · exact absurd hret not_inferType_zero_returns
  obtain ⟨F, A, info, dom, body, t, hF, hpi, hA, hdom, rfl⟩ := inferType_app_returns_iff.mp hret
  have hroom := hfits (n + 1)
  rw [openings] at hroom
  have ht := toNat_supply hF (by omega)
  have hfresh := firstFresh_le_supply hF UInt64.le_rfl (by omega)
  exact ⟨F, info, dom, body, henv.gives_of_returns hΓ he.1 hF UInt64.le_rfl (by omega), ⟨n, hpi⟩,
    ⟨A, henv.gives_of_returns hΓ he.2 hA hfresh (by omega), n, hdom⟩, rfl⟩

/-- Inference has one answer, whatever the fuel. -/
theorem inferType_runFresh_det {m : Nat} {r r' : Except CheckError Expr}
    (h : (env.inferType n Γ e).runFresh = some r) (h' : (env.inferType m Γ e).runFresh = some r') :
    r = r' := by
  have hr := (inferType_le (Nat.le_max_left n m) Γ e).runFresh h
  have hr' := (inferType_le (Nat.le_max_right n m) Γ e).runFresh h'
  exact Option.some.inj (hr.symm.trans hr')

theorem Infers.det {T' : Expr} (h : env.Infers Γ e T) (h' : env.Infers Γ e T') : T = T' := by
  obtain ⟨n, hn⟩ := h
  obtain ⟨m, hm⟩ := h'
  exact Except.ok.inj (inferType_runFresh_det hn hm)

/-- A term for which there is an error has no type, whatever the fuel. -/
theorem not_infers_of_error {err : CheckError}
    (h : (env.inferType n Γ e).runFresh = some (.error err)) : ¬ env.Infers Γ e T := by
  rintro ⟨m, hm⟩
  cases inferType_runFresh_det h hm

theorem gives_const {c : Name} {ls : List Level} {info : Constant}
    (hinfo : env.find? c = some info) (hT : info.instantiateType ls = .ok T) :
    env.Gives Γ (.const c ls) T :=
  ⟨trivial, 1, fun s _ _ =>
    inferType_const_returns_iff.mpr ⟨⟨info, hinfo, hT⟩, (UInt64.add_zero s).symm⟩⟩

/-! ### Many arguments -/

theorem Reduces.of_stripMData (h : env.Reduces e.stripMData a) : env.Reduces e a := by
  induction e with
  | mdata m e ih =>
    obtain ⟨n, h⟩ := ih h
    exact ⟨n + 1, h⟩
  | _ => exact h

theorem reduces_pi (info : BinderInfo) (dom body : Expr) :
    env.Reduces (.pi info dom body) (.pi info dom body) :=
  ⟨1, rfl⟩

end Environment

namespace Expr

theorem stripMData_mapVars_stripMData (f : UInt32 → UInt32 → Expr) (g : UInt32 → FVarId → Expr)
    (d : UInt32) (e : Expr) :
    (mapVars f g d e.stripMData).stripMData = (mapVars f g d e).stripMData := by
  induction e with
  | mdata m e ih => exact ih
  | _ => rfl

theorem stripMData_instantiateRev (e : Expr) (vals : List Expr) :
    (e.stripMData.instantiateRev vals).stripMData = (e.instantiateRev vals).stripMData :=
  stripMData_mapVars_stripMData _ _ _ e

/-- What a type says once its first variables, if there are so many, are
given. -/
def bodyUnder : Nat → Expr → Expr
  | 0, e => e
  | k + 1, e =>
    match e.stripMData with
    | .pi _ _ body => bodyUnder k body
    | _ => e

/-- Under its metadata a term either quantifies over a first variable, or the
telescope is all of it. -/
theorem telescope_cases (e : Expr) :
    (e.telescope.1 = [] ∧ e.telescope.2 = e.stripMData) ∨
      ∃ info dom body, e.stripMData = .pi info dom body ∧
        e.telescope = (dom :: body.telescope.1, body.telescope.2) := by
  induction e with
  | mdata m e ih => exact ih
  | pi info dom body => exact .inr ⟨info, dom, body, rfl, rfl⟩
  | _ => exact .inl ⟨rfl, rfl⟩

/-- Past all variables there is what the telescope ends in. -/
theorem stripMData_bodyUnder {k : Nat} {e : Expr} (hk : e.telescope.1.length = k) :
    (e.bodyUnder k).stripMData = e.telescope.2 := by
  induction k generalizing e with
  | zero =>
    rcases telescope_cases e with ⟨-, hrest⟩ | ⟨info, dom, body, -, htele⟩
    · exact hrest.symm
    · simp [htele] at hk
  | succ k ih =>
    rcases telescope_cases e with ⟨hnil, -⟩ | ⟨info, dom, body, hpi, htele⟩
    · simp [hnil] at hk
    · rw [htele] at hk ⊢
      rw [bodyUnder, hpi]
      exact ih (Nat.succ.inj hk)

end Expr

namespace Environment

open Pinpoint.Expr

variable {env : Environment} {Γ : LocalContext} {f X T T' : Expr} {earlier args : List Expr}

/-- Whether arguments have the types of a telescope, each at the arguments
before it. -/
def ArgsFit (env : Environment) (Γ : LocalContext) :
    List Expr → List Expr → List Expr → Prop
  | _, [], [] => True
  | earlier, type :: types, v :: args =>
    env.Checks Γ v (type.instantiateRev earlier) ∧ ArgsFit env Γ (earlier ++ [v]) types args
  | _, _, _ => False

/-- A type whose first variable stands under values reduces to the quantifier
over it. -/
theorem reduces_instantiateRev {info : BinderInfo} {dom body : Expr}
    (hpi : X.stripMData = .pi info dom body) :
    env.Reduces (X.instantiateRev earlier) (.pi info (dom.instantiateRev earlier)
      (mapVars (revVar earlier) (fun _ x => .fvar x) 1 body)) := by
  refine Reduces.of_stripMData ?_
  rw [instantiateRev_eq_mapVars, ← stripMData_mapVars_stripMData, hpi]
  exact reduces_pi _ _ _

theorem small_append {v : Expr} (hearlier : ∀ w ∈ earlier, w.Small) (hv : v.Small) :
    ∀ w ∈ earlier ++ [v], w.Small := by
  intro w hw
  rcases List.mem_append.mp hw with hw | hw
  · exact hearlier w hw
  · exact List.mem_singleton.mp hw ▸ hv

theorem closed_of_small {k : Nat} (hearlier : ∀ w ∈ earlier, w.Small) (hk : k < 2 ^ 31) :
    ∀ w ∈ earlier, w.Scoped 0 ∧ k + 1 + w.nesting < 2 ^ 32 := by
  intro w hw
  have := (hearlier w hw).nesting
  exact ⟨(hearlier w hw).closed, by omega⟩

/-- A function applied to arguments that fit its type has the type that is
left, at the arguments. -/
theorem Gives.mkApp (hf : env.Gives Γ f (X.instantiateRev earlier))
    (hargs : env.ArgsFit Γ earlier X.telescope.1 args) (hearlier : ∀ v ∈ earlier, v.Small)
    (hnesting : ∀ v ∈ args, v.nesting < 2 ^ 31) (hX : earlier.length + X.nesting < 2 ^ 31) :
    env.Gives Γ (mkApp f args) ((X.bodyUnder args.length).instantiateRev (earlier ++ args)) := by
  induction args generalizing f X earlier with
  | nil => rwa [List.append_nil]
  | cons v args ih =>
    rcases telescope_cases X with ⟨hnil, -⟩ | ⟨info, dom, body, hpi, htele⟩
    · rw [hnil] at hargs
      exact absurd hargs id
    · rw [htele] at hargs
      obtain ⟨hv, hargs⟩ := hargs
      have hbody : body.nesting + 1 ≤ X.nesting := by
        rw [← nesting_stripMData X, hpi]
        exact Nat.le_max_right _ _
      have hsmall : v.Small := by
        obtain ⟨A, hA, -⟩ := hv
        exact ⟨hA.closed, hnesting v List.mem_cons_self⟩
      have hlen : (earlier ++ [v]).length + body.nesting < 2 ^ 31 := by
        rw [List.length_append, List.length_singleton]
        omega
      have hfv := hf.app (reduces_instantiateRev hpi) hv
      rw [instantiate_mapVars_revVar (closed_of_small hearlier (by omega)) (by omega)] at hfv
      have h := ih hfv hargs (small_append hearlier hsmall)
        (fun w hw => hnesting w (List.mem_cons_of_mem v hw)) hlen
      rw [List.append_assoc] at h
      rw [List.length_cons, bodyUnder, hpi]
      exact h

/-- A function applied to all arguments that its type quantifies over has, up to
metadata, the type that is quantified, at the arguments. -/
theorem Gives.mkApp_telescope (hf : env.Gives Γ f X)
    (hargs : env.ArgsFit Γ [] X.telescope.1 args) (hlen : X.telescope.1.length = args.length)
    (hnesting : ∀ v ∈ args, v.nesting < 2 ^ 31) (hX : X.nesting < 2 ^ 31) :
    ∃ T, env.Gives Γ (Expr.mkApp f args) T ∧
      T.stripMData = (X.telescope.2.instantiateRev args).stripMData := by
  have hf : env.Gives Γ f (X.instantiateRev []) := by rwa [instantiateRev_nil]
  refine ⟨_, hf.mkApp hargs (List.forall_mem_nil _) hnesting (by simpa using hX), ?_⟩
  rw [List.nil_append, ← stripMData_instantiateRev, stripMData_bodyUnder hlen]

/-- A term has at most one type. -/
theorem Gives.det {e : Expr} (h : env.Gives Γ e T) (h' : env.Gives Γ e T')
    (hfits : e.FitsRange) : T = T' := by
  obtain ⟨n, h⟩ := h.eventually
  obtain ⟨m, h'⟩ := h'.eventually
  have hT := h (max n m) (Nat.le_max_left n m) _ UInt64.le_rfl (hfits _)
  have hT' := h' (max n m) (Nat.le_max_right n m) _ UInt64.le_rfl (hfits _)
  have heq := hT.symm.trans hT'
  simpa using heq

end Environment

/-- Whether the binders of a term can be counted, and all be opened in the range
of the checker. -/
structure Expr.Openable (e : Expr) : Prop where
  nesting : e.nesting < 2 ^ 31
  fits : e.FitsRange

/-- Whether a term is one that the checker can handle: its free variables are
none of the checker's own, its binders can be counted, and the range of the
checker is large enough for it. -/
structure Expr.WithinLimits (e : Expr) : Prop where
  outer : e.FVarsIn FVarId.IsOuter
  nesting : e.nesting < 2 ^ 31
  fits : e.FitsRange

namespace Expr.Openable

variable {f a : Expr} {args : List Expr}

theorem app (h : (Expr.app f a).Openable) : f.Openable ∧ a.Openable := by
  have hn := h.nesting
  simp only [Expr.nesting] at hn
  refine ⟨⟨by omega, fun n => ?_⟩, ⟨by omega, fun n => ?_⟩⟩ <;>
    have := h.fits (n + 1) <;> rw [openings] at this <;> omega

theorem mkApp (h : (mkApp f args).Openable) : f.Openable ∧ ∀ a ∈ args, a.Openable := by
  induction args generalizing f with
  | nil => exact ⟨h, List.forall_mem_nil _⟩
  | cons a args ih =>
    obtain ⟨hfa, hargs⟩ := ih h
    obtain ⟨hf, ha⟩ := hfa.app
    exact ⟨hf, List.forall_mem_cons.mpr ⟨ha, hargs⟩⟩

theorem withinLimits {e : Expr} (h : e.Openable) (houter : e.FVarsIn FVarId.IsOuter) :
    e.WithinLimits :=
  ⟨houter, h.nesting, h.fits⟩

end Expr.Openable

namespace Expr.WithinLimits

variable {e f a : Expr} {args : List Expr}

theorem openable (h : e.WithinLimits) : e.Openable := ⟨h.nesting, h.fits⟩

/-- Without definitions inside, a term is within limits if its size is. -/
theorem of_letFree (houter : e.FVarsIn FVarId.IsOuter) (hlet : e.letFree)
    (hnesting : e.nesting < 2 ^ 31) (hsize : e.size < 2 ^ 63) : e.WithinLimits := by
  refine ⟨houter, hnesting, fun n => ?_⟩
  have hle := openings_le_size (n := n) hlet
  have hfirst : Checker.firstFresh.toNat = 2 ^ 62 := by rfl
  omega

theorem app (h : (Expr.app f a).WithinLimits) : f.WithinLimits ∧ a.WithinLimits := by
  obtain ⟨hf, ha⟩ := h.openable.app
  exact ⟨hf.withinLimits h.outer.1, ha.withinLimits h.outer.2⟩

theorem mkApp (h : (mkApp f args).WithinLimits) :
    f.WithinLimits ∧ ∀ a ∈ args, a.WithinLimits := by
  obtain ⟨hf, hargs⟩ := h.openable.mkApp
  obtain ⟨houter, houters⟩ := FVarsIn.mkApp.mp h.outer
  exact ⟨hf.withinLimits houter, fun a ha => (hargs a ha).withinLimits (houters a ha)⟩

theorem stripMData (h : e.WithinLimits) : e.stripMData.WithinLimits := by
  induction e with
  | mdata m e ih => exact ih ⟨h.outer, h.nesting, fun n => h.fits (n + 1)⟩
  | _ => exact h

end Expr.WithinLimits

namespace Environment

open Pinpoint.Expr

variable {env : Environment} {Γ : LocalContext} {f X T : Expr} {earlier args : List Expr}

/-- The head of an application that has a type has one. -/
theorem FVarFree.gives_head (henv : env.FVarFree) (hΓ : Γ.FVarsIn FVarId.IsOuter)
    (hlimits : (Expr.mkApp f args).WithinLimits) (h : env.Gives Γ (Expr.mkApp f args) T) :
    ∃ F, env.Gives Γ f F := by
  induction args generalizing f T with
  | nil => exact ⟨T, h⟩
  | cons a args ih =>
    obtain ⟨F, hF⟩ := ih hlimits h
    have hfa : (Expr.app f a).WithinLimits := (WithinLimits.mkApp (f := .app f a) hlimits).1
    obtain ⟨F', -, -, -, hF', -⟩ := henv.of_gives_app hΓ hfa.outer hfa.fits hF
    exact ⟨F', hF'⟩

/-- The arguments of an application that has a type fit the type of the
function. -/
theorem FVarFree.argsFit_of_gives (henv : env.FVarFree) (hΓ : Γ.FVarsIn FVarId.IsOuter)
    (hlimits : (Expr.mkApp f args).WithinLimits) (h : env.Gives Γ (Expr.mkApp f args) T)
    (hf : env.Gives Γ f (X.instantiateRev earlier)) (hlen : X.telescope.1.length = args.length)
    (hearlier : ∀ v ∈ earlier, v.Small) (hX : earlier.length + X.nesting < 2 ^ 31) :
    env.ArgsFit Γ earlier X.telescope.1 args := by
  induction args generalizing f X earlier with
  | nil =>
    rw [List.length_eq_zero_iff.mp hlen]
    trivial
  | cons v args ih =>
    rcases telescope_cases X with ⟨hnil, -⟩ | ⟨info, dom, body, hpi, htele⟩
    · simp [hnil] at hlen
    · rw [htele] at hlen ⊢
      have hbody : body.nesting + 1 ≤ X.nesting := by
        rw [← nesting_stripMData X, hpi]
        exact Nat.le_max_right _ _
      have hfv : (Expr.app f v).WithinLimits := (WithinLimits.mkApp (f := .app f v) hlimits).1
      obtain ⟨F', hF'⟩ := henv.gives_head (f := .app f v) hΓ hlimits h
      obtain ⟨F, info', dom', body', hF, hred, hv, rfl⟩ :=
        henv.of_gives_app hΓ hfv.outer hfv.fits hF'
      obtain rfl := hf.det hF hfv.app.1.fits
      -- the type of the function has only one weak-head normal form
      obtain ⟨n, hn⟩ := hred
      obtain ⟨m, hm⟩ : env.Reduces (X.instantiateRev earlier) _ := reduces_instantiateRev hpi
      obtain ⟨rfl, rfl, rfl⟩ := Expr.pi.inj (whnf_det hn hm)
      have hsmall : v.Small := by
        obtain ⟨A, hA, -⟩ := hv
        exact ⟨hA.closed, hfv.app.2.nesting⟩
      have hlen' : (earlier ++ [v]).length + body.nesting < 2 ^ 31 := by
        rw [List.length_append, List.length_singleton]
        omega
      rw [instantiate_mapVars_revVar (closed_of_small hearlier (by omega)) (by omega)] at hF'
      exact ⟨hv, ih hlimits h hF' (Nat.succ.inj hlen) (small_append hearlier hsmall) hlen'⟩

end Environment

end Pinpoint
