/-
Reduction and definitional equality within the widths of the machine.

The words of the checker are finite: an index that grows too large wraps.
`whnfWithin` and `isDefEqWithin` say of a computation that all terms it comes
across are narrow, so that no index can; the functions follow the calls of
`whnf` and `isDefEq`.

* `whnf_reduct` — reduction within the widths is reduction in the calculus,
  and it stops at a settled term;
* `isDefEq_converts`, `isDefEq_of_converts` — the comparison decides
  conversion as far as it ends;
* `converts_all` — what is equal without unfolding constants is equal.
-/
import Pinpoint.Proofs.Erasure
import Pinpoint.Proofs.Reduction
import Pinpoint.Proofs.ScopedInference

namespace Pinpoint

namespace Environment

/-! ### The computations -/

/-- What an application whose head is reduced is contracted to. -/
def contract? (env : Environment) (t : Transparency) : Expr → List Expr → Option Expr
  | .lam _ _ b, a :: args => some (.mkApp (b.instantiate a) args)
  | .const c ls, args => (env.valueAt? t c ls).map (Expr.mkApp · args)
  | _, _ => none

/-- Whether a reduction comes across narrow terms only. -/
def whnfWithin (env : Environment) (t : Transparency) : Nat → Expr → Bool
  | 0, _ => true
  | n + 1, e =>
    decide e.Narrow &&
    match e with
    | .mdata _ e => whnfWithin env t n e
    | .letE _ v b => whnfWithin env t n (b.instantiate v)
    | .app f a =>
      whnfWithin env t n f.appFn &&
        (env.whnf t n f.appFn).all fun head =>
          (env.contract? t head (Expr.app f a).appArgs).all fun e => whnfWithin env t n e
    | .const c ls => (env.valueAt? t c ls).all fun v => whnfWithin env t n v
    | _ => true

/-- Whether a comparison of two reduced terms passes, for the parts that are
compared. -/
def partsWithin (within : Expr → Expr → Bool) : Expr → Expr → Bool
  | .app f x, .app f' x' => within f f' && within x x'
  | .lam _ d b, .lam _ d' b' => within d d' && within b b'
  | .pi _ d b, .pi _ d' b' => within d d' && within b b'
  | _, _ => true

/-- Whether a comparison comes across narrow terms only. -/
def isDefEqWithin (env : Environment) (t : Transparency) : Nat → Expr → Expr → Bool
  | 0, _, _ => true
  | n + 1, a, b =>
    decide (a = b) || whnfWithin env t n a && whnfWithin env t n b &&
      (env.whnf t n a).all fun a => (env.whnf t n b).all fun b =>
        partsWithin (fun a b => isDefEqWithin env t n a b) a b

/-! ### The constants as definitions -/

/-- Whether the types and the values of constants mention no variables but
their own. -/
structure Ground (env : Environment) : Prop where
  closed : env.Closed
  fvarFree : env.FVarFree

variable {env : Environment} {t : Transparency} {n : Nat} {a b e e' : Expr}

/-- The levels of a use can be simplified first. -/
theorem instLevels_zip_simplify (params : List Name) (ls : List Level) (e : Term) :
    e.instLevels (params.zip (ls.map Level.simplify)) = e.instLevels (params.zip ls) := by
  have hzip : params.zip (ls.map Level.simplify) =
      (params.zip ls).map fun p => (p.1, p.2.simplify) := by
    rw [List.zip_map_right]
    rfl
  rw [hzip]
  induction e with
  | sort l => exact congrArg Term.sort (Level.simplify_instantiate_map _ l)
  | const n ks =>
    show Term.const n _ = Term.const n _
    congr 1
    exact List.map_congr_left fun l _ => Level.simplify_instantiate_map _ l
  | app f a ihf iha => exact congrArg₂ Term.app ihf iha
  | lam t b iht ihb => exact congrArg₂ Term.lam iht ihb
  | pi t b iht ihb => exact congrArg₂ Term.pi iht ihb
  | letE t v b iht ihv ihb =>
    show Term.letE _ _ _ = Term.letE _ _ _
    rw [iht, ihv, ihb]
  | _ => rfl

/-- The type that a use of a constant has in the calculus. -/
def typeTerm? (env : Environment) (c : Name) (ls : List Level) : Option Term :=
  (env.find? c).bind fun info =>
    if ls.length = info.levelParams.length then
      some (info.type.term.instLevels (info.levelParams.zip ls))
    else none

/-- The value that a use of a constant has in the calculus. -/
def valueTerm? (env : Environment) (c : Name) (ls : List Level) : Option Term :=
  (env.find? c).bind fun info =>
    if ls.length = info.levelParams.length then
      info.value.map fun v => v.term.instLevels (info.levelParams.zip ls)
    else none

theorem typeTerm?_eq_some {c : Name} {ls : List Level} {T : Term} :
    env.typeTerm? c ls = some T ↔ ∃ info, env.find? c = some info ∧
      ls.length = info.levelParams.length ∧
      info.type.term.instLevels (info.levelParams.zip ls) = T := by
  unfold typeTerm?
  simp [Option.bind_eq_some_iff]

theorem valueTerm?_eq_some {c : Name} {ls : List Level} {v : Term} :
    env.valueTerm? c ls = some v ↔ ∃ info w, env.find? c = some info ∧
      ls.length = info.levelParams.length ∧ info.value = some w ∧
      w.term.instLevels (info.levelParams.zip ls) = v := by
  unfold valueTerm?
  simp [Option.bind_eq_some_iff]

theorem term_value? (env : Environment) (c : Name) (ls : List Level) :
    (env.value? c ls).map Expr.term = env.valueTerm? c (ls.map Level.simplify) := by
  unfold value? valueTerm? Constant.instantiateValue Constant.levelSubst
  cases env.find? c with
  | none => rfl
  | some info =>
    simp only [Option.bind_eq_bind, Option.bind_some, List.length_map]
    by_cases hlen : ls.length = info.levelParams.length
    · simp only [if_pos hlen, Except.map, Except.toOption, Option.bind_some, Option.map_map]
      cases info.value with
      | none => rfl
      | some w =>
        simp only [Option.map_some, Function.comp_apply, Expr.term_instantiateLevels,
          instLevels_zip_simplify]
    · simp only [if_neg hlen, Except.map, Except.toOption, Option.bind_none, Option.map_none]

namespace Ground

theorem typeTerm (h : env.Ground) {c : Name} {ls : List Level} {T : Term}
    (hT : env.typeTerm? c ls = some T) : T.Ground := by
  obtain ⟨info, hinfo, -, rfl⟩ := typeTerm?_eq_some.mp hT
  have hmem := List.mem_of_find?_eq_some hinfo
  exact (Expr.uses_term (h.closed info hmem).1 (h.fvarFree info hmem).1).instLevels _

theorem valueTerm (h : env.Ground) {c : Name} {ls : List Level} {v : Term}
    (hv : env.valueTerm? c ls = some v) : v.Ground := by
  obtain ⟨info, w, hinfo, -, hw, rfl⟩ := valueTerm?_eq_some.mp hv
  have hmem := List.mem_of_find?_eq_some hinfo
  exact (Expr.uses_term ((h.closed info hmem).2 w hw) ((h.fvarFree info hmem).2 w hw)).instLevels _

/-- The constants of an environment in the calculus. -/
def signature (h : env.Ground) : Signature where
  value := env.valueTerm?
  ground := h.valueTerm
  type := env.typeTerm?
  type_ground := h.typeTerm

/-- The constants that unfold at a transparency. -/
def definitions (h : env.Ground) : Transparency → Definitions
  | .reducible => .none
  | .all => h.signature.toDefinitions

theorem value_definitions (h : env.Ground) (c : Name) (ls : List Level) :
    (h.definitions t).value c (ls.map Level.simplify) = (env.valueAt? t c ls).map Expr.term := by
  cases t with
  | reducible => rfl
  | all => exact (env.term_value? c ls).symm

/-- What is equal without unfolding constants is equal. -/
theorem converts_all (h : env.Ground) {a b : Term} (hab : Converts (h.definitions t) a b) :
    Converts h.signature.toDefinitions a b := by
  cases t with
  | reducible => exact hab.mono (Definitions.none_le _)
  | all => exact hab

end Ground

/-! ### Reduction -/

theorem narrow_of_whnfWithin (h : env.whnfWithin t (n + 1) e) : e.Narrow := by
  cases e <;>
    · simp only [whnfWithin, Bool.and_eq_true] at h
      exact of_decide_eq_true h.1

theorem foldl_app_reduct {D : Definitions} (args : List Term) {f g : Term}
    (h : Reduct D f g) : Reduct D (args.foldl .app f) (args.foldl .app g) := by
  induction args generalizing f g with
  | nil => exact h
  | cons a args ih => exact ih (h.app (.refl a))

theorem narrow_mkApp {f : Expr} {args : List Expr} :
    (Expr.mkApp f args).Narrow ↔ f.Narrow ∧ ∀ a ∈ args, a.Narrow := by
  induction args generalizing f with
  | nil => simp
  | cons a args ih => simp [ih, Expr.narrow_app, and_assoc]

/-- The head and the arguments of a narrow application. -/
theorem narrow_spine (h : e.Narrow) : e.appFn.Narrow ∧ ∀ a ∈ e.appArgs, a.Narrow := by
  rw [← e.mkApp_appFn_appArgs] at h
  exact narrow_mkApp.mp h

/-- An application whose head has a neutral reduct has one. -/
theorem neutral_of_appFn {D : Definitions} (e : Expr)
    (h : ∃ g, Reduct D e.appFn.term g ∧ g.Neutral D) :
    ∃ g, Reduct D e.term g ∧ g.Neutral D := by
  induction e with
  | app f a ihf _ =>
    obtain ⟨g, hg, hneutral⟩ := ihf h
    exact ⟨.app g a.term, hg.app (.refl _), hneutral⟩
  | _ => exact h

/-- A settled head that is no function reduces to a neutral term. -/
theorem exists_neutral_of_settled {D : Definitions} {head : Expr} (h : head.term.Settled D)
    (hlam : ∀ i d b, head ≠ .lam i d b) (hmdata : ∀ m e₀, head ≠ .mdata m e₀) :
    ∃ g, Reduct D head.term g ∧ g.Neutral D := by
  refine h.exists_neutral fun d b heq => ?_
  cases head with
  | lam i d b => exact hlam i d b rfl
  | mdata m e₀ => exact hmdata m e₀ rfl
  | _ => cases heq

/-- Reduction within the widths is reduction in the calculus, and it stops
only where no step can change the head. -/
theorem whnf_reduct (henv : env.Ground) (h : env.whnf t n e = some e')
    (hwithin : env.whnfWithin t n e) :
    Reduct (henv.definitions t) e.term e'.term ∧ e'.term.Settled (henv.definitions t) ∧
      e'.Narrow ∧ ∀ m e₀, e' ≠ .mdata m e₀ := by
  induction n generalizing e e' with
  | zero => cases h
  | succ n ih =>
    have hnarrow := narrow_of_whnfWithin hwithin
    cases e with
    | mdata m e =>
      rw [whnfWithin, Bool.and_eq_true] at hwithin
      exact ih (e := e) h hwithin.2
    | letE type v b =>
      rw [whnfWithin, Bool.and_eq_true] at hwithin
      obtain ⟨-, hv, hb⟩ := Expr.narrow_letE hnarrow
      obtain ⟨hred, hrest⟩ := ih (e := b.instantiate v) h hwithin.2
      -- The value is put into the body in the calculus as well.
      rw [Expr.term_instantiate hb hv] at hred
      exact ⟨hred.head (.zeta (.refl _) (.refl _)), hrest⟩
    | const c ls =>
      rw [whnfWithin, Bool.and_eq_true] at hwithin
      cases hv : env.valueAt? t c ls with
      | some v =>
        rw [whnf_const_of_value hv] at h
        rw [hv] at hwithin
        obtain ⟨hred, hrest⟩ := ih h hwithin.2
        have hvalue := henv.value_definitions (t := t) c ls
        rw [hv] at hvalue
        exact ⟨hred.head (.delta hvalue), hrest⟩
      | none =>
        rw [whnf_const_of_none hv] at h
        obtain rfl := Option.some.inj h
        refine ⟨.refl _, ?_, hnarrow, fun _ _ => by simp⟩
        have hvalue := henv.value_definitions (t := t) c ls
        rw [hv] at hvalue
        exact hvalue
    | app f a =>
      rw [whnfWithin, Bool.and_eq_true, Bool.and_eq_true] at hwithin
      obtain ⟨-, hwithinHead, hwithin⟩ := hwithin
      obtain ⟨hnarrowFn, hnarrowArgs⟩ := narrow_spine hnarrow
      obtain ⟨head, hhead, h⟩ := whnf_app_cases h
      obtain ⟨hred, hsettled, hnarrowHead, hnot⟩ := ih hhead hwithinHead
      -- The head reduces within the spine.
      have hspine : (Expr.app f a).term =
          ((Expr.app f a).appArgs.map Expr.term).foldl .app (Expr.app f a).appFn.term := by
        rw [← Expr.term_mkApp, Expr.mkApp_appFn_appArgs]
      rw [show env.whnf t n f.appFn = some head from hhead] at hwithin
      rcases h with ⟨i, d, b, arg, args, rfl, hargs, h⟩ | ⟨c, ls, v, rfl, hv, h⟩ | ⟨hstuck, rfl⟩
      · -- The head is a function, which takes the first argument.
        rw [hargs] at hwithin hspine hnarrowArgs
        obtain ⟨hred', hrest⟩ := ih h hwithin
        rw [Expr.term_mkApp, Expr.term_instantiate (Expr.narrow_lam hnarrowHead).2
          (hnarrowArgs arg List.mem_cons_self)] at hred'
        refine ⟨?_, hrest⟩
        rw [hspine]
        refine (foldl_app_reduct _ hred).trans (Reduct.trans ?_ hred')
        exact foldl_app_reduct _ (.single (.beta (.refl _) (.refl _)))
      · -- A constant that is left as the head has no value.
        have hvalue := henv.value_definitions (t := t) c ls
        rw [hv] at hvalue
        cases hvalue.symm.trans hsettled
      · -- The head is stuck, so the spine is neutral and no step changes its head.
        refine ⟨.refl _, ?_, hnarrow, fun _ _ => by simp⟩
        have hneutral := exists_neutral_of_settled hsettled hstuck.1 hnot
        exact neutral_of_appFn f ((Converts.of_reduct hred).exists_neutral hneutral)
    | bvar _ | fvar _ | sort _ | lam _ _ _ | pi _ _ _ | lit _ =>
      obtain rfl := Option.some.inj h
      exact ⟨.refl _, trivial, hnarrow, fun _ _ => by simp⟩

/-! ### Definitional equality -/

/-- The comparison of reduced terms, by that of their parts. -/
theorem Agree.converts_term {D : Definitions} {R : Expr → Expr → Prop}
    (hR : ∀ x y, R x y → Converts D x.term y.term) (h : Agree R a b) :
    Converts D a.term b.term := by
  cases a <;> cases b <;> simp only [Agree, reduceCtorEq] at h
  case app.app => exact (hR _ _ h.1).app (hR _ _ h.2)
  case lam.lam => exact (hR _ _ h.1).lam (hR _ _ h.2)
  case pi.pi => exact (hR _ _ h.1).pi (hR _ _ h.2)
  case sort.sort => exact .of_eq (congrArg Term.sort h)
  case const.const =>
    obtain ⟨rfl, hls⟩ := h
    exact .of_eq (congrArg (Term.const _) hls)
  all_goals exact .of_eq (congrArg Expr.term h)

/-- Terms that the comparison takes for equal are convertible. -/
theorem isDefEq_converts (henv : env.Ground) (h : env.isDefEq t n a b = some true)
    (hwithin : env.isDefEqWithin t n a b) : Converts (henv.definitions t) a.term b.term := by
  induction n generalizing a b with
  | zero => cases h
  | succ n ih =>
    rcases isDefEq_succ_eq_true.mp h with rfl | ⟨a', b', ha, hb, hagree⟩
    · exact .refl _
    · by_cases hab : a = b
      · exact hab ▸ .refl _
      · rw [isDefEqWithin, decide_eq_false hab, Bool.false_or, Bool.and_eq_true, Bool.and_eq_true,
          ha, hb] at hwithin
        obtain ⟨⟨hwa, hwb⟩, hparts⟩ := hwithin
        obtain ⟨hca, -⟩ := whnf_reduct henv ha hwa
        obtain ⟨hcb, -⟩ := whnf_reduct henv hb hwb
        refine (Converts.of_reduct hca).trans (Converts.trans ?_ (Converts.of_reduct hcb).symm)
        refine Agree.converts_term
          (R := fun x y => env.isDefEq t n x y = some true ∧ env.isDefEqWithin t n x y)
          (fun x y hxy => ih hxy.1 hxy.2) ?_
        simp only [Option.all_some] at hparts
        cases a' <;> cases b' <;> simp only [Agree, partsWithin, Bool.and_eq_true] at hagree hparts ⊢
          <;> first
            | exact hagree
            | exact ⟨⟨hagree.1, hparts.1⟩, hagree.2, hparts.2⟩

/-- Convertible terms are taken for equal, if the comparison ends. -/
theorem isDefEq_of_converts (henv : env.Ground)
    (h : Converts (henv.definitions t) a.term b.term) {r : Bool}
    (hr : env.isDefEq t n a b = some r) (hwithin : env.isDefEqWithin t n a b) : r = true := by
  induction n generalizing a b r with
  | zero => cases hr
  | succ n ih =>
    rw [isDefEq_succ] at hr
    by_cases hab : a = b
    · rw [if_pos hab] at hr
      exact (Option.some.inj hr).symm
    · rw [if_neg hab] at hr
      obtain ⟨a', ha, hr⟩ := Option.bind_eq_some_iff.mp hr
      obtain ⟨b', hb, hr⟩ := Option.bind_eq_some_iff.mp hr
      rw [isDefEqWithin, decide_eq_false hab, Bool.false_or, Bool.and_eq_true, Bool.and_eq_true,
        ha, hb] at hwithin
      obtain ⟨⟨hwa, hwb⟩, hparts⟩ := hwithin
      simp only [Option.all_some] at hparts
      -- The weak-head normal forms are convertible, so they have heads that agree.
      obtain ⟨hca, hsa, -, hna⟩ := whnf_reduct henv ha hwa
      obtain ⟨hcb, hsb, -, hnb⟩ := whnf_reduct henv hb hwb
      have hconv := (Converts.of_reduct hca).symm.trans (h.trans (Converts.of_reduct hcb))
      have hagree := hconv.agree hsa hsb
      -- The two parts of a head are compared one after the other.
      have hpair : ∀ {x x' y y' : Expr},
          Converts (henv.definitions t) x.term x'.term ∧
            Converts (henv.definitions t) y.term y'.term →
          env.isDefEqWithin t n x x' ∧ env.isDefEqWithin t n y y' →
          (do if ← env.isDefEq t n x x' then env.isDefEq t n y y' else some false) = some r →
          r = true := by
        intro x x' y y' hconv hwithin hr
        obtain ⟨r', hr', hr⟩ := Option.bind_eq_some_iff.mp hr
        obtain rfl := ih hconv.1 hr' hwithin.1
        exact ih hconv.2 hr hwithin.2
      cases a' with
      | mdata m e => exact absurd rfl (hna m e)
      | letE _ _ _ => exact hsa.elim
      | _ =>
        cases b' <;> first
          | exact absurd rfl (hnb _ _)
          | exact hsb.elim
          | exact hagree.elim
          | skip
        all_goals simp only [partsWithin, Bool.and_eq_true, compareParts] at hparts hr
        all_goals first
          | exact hpair hagree hparts hr
          | skip
        all_goals
          simp only [Expr.term, Term.Agree] at hagree
          obtain rfl := Option.some.inj hr
          simp [hagree, ← UInt32.toNat_inj]

end Environment

end Pinpoint
