/-
Free variables of elaborated terms.

A written term names hypotheses and constants, and nothing else.  What it is
elaborated to also holds types that the checker finds for operands, and for a
while the variables of opened binders, which are abstracted again.  So its free
variables are those of the context and those that constants mention.

* `ElabM.Yields` — computations all of whose results are as asked;
* `returns_solveLevels_append` — further arguments of a constant that settle no universe
  parameter change nothing;
* `elaborate_fvarsIn` — all free variables of an elaborated term are as asked,
  if those of the context and of the constants are;
* `elaborate_headFVarsIn` — those at its heads are as asked, if the variables that
  the context declares are;
* `elaborate_scoped` — all its bound variables are bound in it.
-/
import Pinpoint.Proofs.Freshness
import Pinpoint.Proofs.Mentions
import Pinpoint.Proofs.Readings

namespace Pinpoint

/-! ### Universe parameters -/

namespace Expr

/-- The universe parameters in whose universes the first `k` arguments lie of what has
this type. -/
def sortParams : Expr → Nat → List Name
  | .pi _ (.sort (.param p)) body, k + 1 => p :: body.sortParams k
  | .pi _ _ body, k + 1 => body.sortParams k
  | _, _ => []

theorem mem_sortParams_pi {info : BinderInfo} {dom body : Expr} {k : Nat} {p : Name} :
    p ∈ (pi info dom body).sortParams (k + 1) ↔
      dom = .sort (.param p) ∨ p ∈ body.sortParams k := by
  by_cases hdom : ∃ q, dom = .sort (.param q)
  · obtain ⟨q, rfl⟩ := hdom
    rw [sortParams, List.mem_cons]
    exact or_congr_left ⟨fun h => h ▸ rfl, fun h => (Level.param.inj (sort.inj h)).symm⟩
  · rw [sortParams]
    · exact (or_iff_right fun h => hdom ⟨p, h⟩).symm
    · rintro q rfl
      exact hdom ⟨q, rfl⟩

end Expr

/-- Whether the arguments of a constant after the first `given` of `total` settle no
universe parameter that these leave open. -/
def Constant.settles (c : Constant) (given total : Nat) : Bool :=
  (c.type.sortParams total).all fun p => p ∉ c.levelParams || p ∈ c.type.sortParams given

namespace ElabM

variable {α β : Type} {m : ElabM α} {Q : α → Prop} {R : β → Prop}

/-- Whether every result of a computation is as asked. -/
def Yields (m : ElabM α) (Q : α → Prop) : Prop :=
  ∀ ⦃s a s'⦄, m.run.run s = some (.ok a, s') → Q a

theorem yields_pure {a : α} (h : Q a) : Yields (pure a) Q := by
  intro s b s' hb
  rw [ExceptT.run_pure, Supply.run_pure_eq_some] at hb
  exact Except.ok.inj hb.1 ▸ h

theorem yields_throw (e : ElaborationError) : Yields (throw e : ElabM α) Q := by
  intro s a s' h
  cases (show some (Except.error e, s) = some (Except.ok a, s') from h)

theorem Yields.bind {f : α → ElabM β} (hm : m.Yields Q) (hf : ∀ a, Q a → (f a).Yields R) :
    Yields (m >>= f) R := by
  intro s b s' h
  rw [ExceptT.run_bind, Supply.run_bind_eq_some] at h
  obtain ⟨_ | a, t, ha, h⟩ := h
  · obtain ⟨hb, -⟩ := Supply.run_pure_eq_some.mp h
    cases hb
  · exact hf a (hm ha) h

theorem yields_lift {o : Option α} (h : ∀ a, o = some a → Q a) :
    Yields (liftM o : ElabM α) Q := by
  intro s a s' ha
  cases o with
  | none => cases (show (none : Option (Except ElaborationError α × UInt64)) = _ from ha)
  | some b =>
    obtain ⟨hb, -⟩ := Prod.mk.inj (Option.some.inj
      (show some (Except.ok b, s) = some (Except.ok a, s') from ha))
    exact Except.ok.inj hb ▸ h b rfl

theorem yields_mapM {f : β → ElabM α} {l : List β} (h : ∀ b ∈ l, (f b).Yields Q) :
    (l.mapM f).Yields fun as => ∀ a ∈ as, Q a := by
  induction l with
  | nil =>
    rw [List.mapM_nil]
    exact yields_pure (List.forall_mem_nil _)
  | cons b l ih =>
    obtain ⟨hb, hl⟩ := List.forall_mem_cons.mp h
    rw [List.mapM_cons]
    exact hb.bind fun a ha => (ih hl).bind fun as has =>
      yields_pure (List.forall_mem_cons.mpr ⟨ha, has⟩)

/-- Whether a computation has a result, and leaves the supply at `s'`. -/
def Returns (m : ElabM α) (s : UInt64) (a : α) (s' : UInt64) : Prop :=
  m.run.run s = some (.ok a, s')

section
variable {s s' : UInt64}

theorem returns_bind {f : α → ElabM β} {b : β} :
    (m >>= f).Returns s b s' ↔ ∃ a t, m.Returns s a t ∧ (f a).Returns t b s' := by
  unfold Returns
  rw [ExceptT.run_bind, Supply.run_bind_eq_some]
  constructor
  · rintro ⟨_ | a, t, ha, h⟩
    · obtain ⟨hb, -⟩ := Supply.run_pure_eq_some.mp h
      cases hb
    · exact ⟨a, t, ha, h⟩
  · rintro ⟨a, t, ha, h⟩
    exact ⟨.ok a, t, ha, h⟩

theorem returns_pure {a b : α} : (pure a : ElabM α).Returns s b s' ↔ a = b ∧ s = s' := by
  unfold Returns
  rw [ExceptT.run_pure, Supply.run_pure_eq_some]
  exact and_congr_left' ⟨Except.ok.inj, congrArg _⟩

theorem not_returns_throw {e : ElaborationError} {a : α} :
    ¬ (throw e : ElabM α).Returns s a s' := by
  intro h
  cases (show some (Except.error e, s) = some (Except.ok a, s') from h)

theorem returns_lift {o : Option α} {a : α} :
    (liftM o : ElabM α).Returns s a s' ↔ o = some a ∧ s = s' := by
  cases o with
  | none =>
    constructor
    · intro h
      cases (show (none : Option (Except ElaborationError α × UInt64)) = some (.ok a, s') from h)
    · rintro ⟨h, -⟩
      cases h
  | some b =>
    constructor
    · intro h
      obtain ⟨hb, hs⟩ := Prod.mk.inj (Option.some.inj
        (show some (Except.ok b, s) = some (Except.ok a, s') from h))
      exact ⟨congrArg some (Except.ok.inj hb), hs⟩
    · rintro ⟨h, rfl⟩
      obtain rfl := Option.some.inj h
      rfl

theorem returns_fresh {x : FVarId} :
    (liftM Supply.fresh : ElabM FVarId).Returns s x s' ↔ x = ⟨s⟩ ∧ s' = s + 1 := by
  constructor
  · intro h
    obtain ⟨hx, hs⟩ := Prod.mk.inj (Option.some.inj
      (show some (Except.ok ⟨s⟩, s + 1) = some (Except.ok x, s') from h))
    exact ⟨(Except.ok.inj hx).symm, hs.symm⟩
  · rintro ⟨rfl, rfl⟩
    rfl

end

/-- Nothing is known of the result of a computation that nothing is known
of. -/
theorem yields_true (m : ElabM α) : m.Yields fun _ => True :=
  fun _ _ _ _ => trivial

end ElabM

namespace Elaboration

open ElabM Pinpoint.Expr

variable {env : Environment} {fuel : Nat} {Γ : LocalContext} {p : FVarId → Prop} {e : Expr}

theorem returns_ofCheck {α : Type} {m : CheckM α} {a : α} {s s' : UInt64} :
    (ofCheck m).Returns s a s' ↔ (∃ t, m.Returns Checker.firstFresh a t) ∧ s = s' := by
  rw [← CheckM.runFresh_eq_ok]
  unfold ofCheck
  rw [returns_bind]
  constructor
  · rintro ⟨r, t, hr, h⟩
    obtain ⟨hm, rfl⟩ := returns_lift.mp hr
    cases r with
    | error e => exact absurd h not_returns_throw
    | ok b =>
      obtain ⟨rfl, rfl⟩ := returns_pure.mp h
      exact ⟨hm, rfl⟩
  · rintro ⟨hm, rfl⟩
    exact ⟨.ok a, s, returns_lift.mpr ⟨hm, rfl⟩, returns_pure.mpr ⟨rfl, rfl⟩⟩

/-- What is read from a text is what is returned before any binder is opened. -/
theorem runFresh_eq_ok {α : Type} {m : ElabM α} {a : α} :
    runFresh m = some (.ok a) ↔ ∃ t, m.Returns firstBinder a t := by
  constructor
  · intro h
    obtain ⟨⟨r, t⟩, hr, rfl⟩ := Option.map_eq_some_iff.mp h
    exact ⟨t, hr⟩
  · rintro ⟨t, h⟩
    exact Option.map_eq_some_iff.mpr ⟨_, h, rfl⟩

/-- Without arguments no universe parameters are read off. -/
theorem solveLevels_nil (env : Environment) (n : Nat) (Γ : LocalContext) (params : List Name)
    (type : Expr) (solved : List (Option Level)) :
    solveLevels env n Γ params type [] solved = pure solved := by
  unfold solveLevels
  split
  · rename_i hnil
    cases hnil
  · rename_i hnil
    cases hnil
  · rfl

/-- The universe parameter that an argument settles where a head takes one of type
`dom`: its place among the parameters, if it has not been settled yet. -/
def unsettled? (params : List Name) (solved : List (Option Level)) : Expr → Option Nat
  | .sort (.param p) => (params.idxOf? p).filter fun i => solved[i]? = some none
  | _ => none

/-- An argument settles the parameter that is left for it to settle, if there is one. -/
theorem solveLevels_pi (env : Environment) (n : Nat) (Γ : LocalContext) (params : List Name)
    (info : BinderInfo) (dom body a : Expr) (args : List Expr) (solved : List (Option Level)) :
    solveLevels env n Γ params (.pi info dom body) (a :: args) solved =
      match unsettled? params solved dom with
      | some i => do
        let l ← sortLevel env n Γ a
        solveLevels env n Γ params body args (solved.set i (some l))
      | none => solveLevels env n Γ params body args solved := by
  by_cases hdom : ∃ q, dom = .sort (.param q)
  · obtain ⟨q, rfl⟩ := hdom
    cases hq : params.idxOf? q with
    | none => simp only [solveLevels, unsettled?, hq, Option.filter_none]
    | some i =>
      by_cases hsolved : solved[i]? = some none
      · simp only [solveLevels, unsettled?, hq, hsolved, Option.filter_some, decide_true, if_true]
      · simp only [solveLevels, unsettled?, hq, Option.filter_some, hsolved, decide_false,
          Bool.false_eq_true, if_false]
  · have hsettles : unsettled? params solved dom = none := by
      unfold unsettled?
      split
      · exact absurd ⟨_, rfl⟩ hdom
      · rfl
    rw [hsettles, solveLevels]
    rintro q rfl
    exact hdom ⟨q, rfl⟩

/-- What universe parameters are read off an argument: none, the one of a binder, or
none any more.  Which it is depends on the type of the head alone. -/
theorem solveLevels_cons (params : List Name) (type : Expr) (solved : List (Option Level)) :
    (∃ body, ∀ env n Γ a args, solveLevels env n Γ params type (a :: args) solved =
      solveLevels env n Γ params body args solved) ∨
    (∃ body, ∃ next : Level → List (Option Level), ∀ env n Γ a args,
      solveLevels env n Γ params type (a :: args) solved = do
      let l ← sortLevel env n Γ a
      solveLevels env n Γ params body args (next l)) ∨
    ∀ env n Γ a args, solveLevels env n Γ params type (a :: args) solved = pure solved := by
  cases type with
  | pi info dom body =>
    cases hdom : unsettled? params solved dom with
    | none => exact .inl ⟨body, fun env n Γ a args => by rw [solveLevels_pi, hdom]⟩
    | some i =>
      exact .inr (.inl ⟨body, fun l => solved.set i (some l), fun env n Γ a args => by
        rw [solveLevels_pi, hdom]⟩)
  | _ => exact .inr (.inr fun env n Γ a args => rfl)

/-- Where all arguments have the same universes in two contexts, the same
universe parameters are read off them. -/
theorem returns_solveLevels_map {Γ' : LocalContext} {f : Expr → Expr} (params : List Name)
    (type : Expr) {args : List Expr} {solved ls : List (Option Level)} {s s' : UInt64}
    (hargs : ∀ a ∈ args, ∀ {l : Level} {s s' : UInt64}, (sortLevel env fuel Γ a).Returns s l s' →
      s' = s ∧ ∀ u, (sortLevel env fuel Γ' (f a)).Returns u l u)
    (h : (solveLevels env fuel Γ params type args solved).Returns s ls s') :
    s' = s ∧ ∀ u, (solveLevels env fuel Γ' params type (args.map f) solved).Returns u ls u := by
  induction args generalizing type solved s with
  | nil =>
    rw [solveLevels_nil] at h
    obtain ⟨rfl, rfl⟩ := returns_pure.mp h
    refine ⟨rfl, fun u => ?_⟩
    rw [List.map_nil, solveLevels_nil]
    exact returns_pure.mpr ⟨rfl, rfl⟩
  | cons a args ih =>
    obtain ⟨ha, hargs⟩ := List.forall_mem_cons.mp hargs
    rw [List.map_cons]
    rcases solveLevels_cons params type solved with
      ⟨body, hstep⟩ | ⟨body, next, hstep⟩ | hstep
    · rw [hstep] at h ⊢
      exact ih body hargs h
    · rw [hstep] at h ⊢
      obtain ⟨l, v, hl, hrest⟩ := returns_bind.mp h
      obtain ⟨rfl, hl'⟩ := ha hl
      obtain ⟨rfl, hls'⟩ := ih body hargs hrest
      exact ⟨rfl, fun u => returns_bind.mpr ⟨l, u, hl' u, hls' u⟩⟩
    · rw [hstep] at h ⊢
      obtain ⟨rfl, rfl⟩ := returns_pure.mp h
      exact ⟨rfl, fun u => returns_pure.mpr ⟨rfl, rfl⟩⟩

/-- What is settled stays settled. -/
theorem unsettled?_set {params : List Name} {solved : List (Option Level)} {dom : Expr} {i : Nat}
    (l : Level) (h : unsettled? params solved dom = none ∨ unsettled? params solved dom = some i) :
    unsettled? params (solved.set i (some l)) dom = none := by
  unfold unsettled? at h ⊢
  split
  · rename_i p
    cases hp : params.idxOf? p with
    | none => rfl
    | some j =>
      simp only [hp, Option.filter_some, decide_eq_true_eq] at h ⊢
      have hset : (solved.set i (some l))[j]? ≠ some none := by
        rw [List.getElem?_set]
        by_cases hij : i = j
        · rw [if_pos hij]
          split <;> simp
        · rw [if_neg hij]
          intro hj
          simp [hj, Ne.symm hij] at h
      rw [if_neg hset]
  · rfl

/-- A parameter that the first arguments of a constant do not settle is not settled by the
further ones either. -/
theorem unsettled?_of_settles {c : Constant} {given total : Nat} {p : Name}
    (h : c.settles given total) (hp : p ∈ c.type.sortParams total)
    (hnot : p ∉ c.type.sortParams given) (solved : List (Option Level)) :
    unsettled? c.levelParams solved (.sort (.param p)) = none := by
  have hsettles := List.all_eq_true.mp h p hp
  have hparam : p ∉ c.levelParams := by simpa [hnot] using hsettles
  rw [unsettled?, List.idxOf?_eq_none_iff.mpr hparam, Option.filter_none]

/-- Arguments that settle nothing are not looked at. -/
theorem solveLevels_of_settled (env : Environment) (n : Nat) (Γ : LocalContext)
    {params : List Name} {type : Expr} {args : List Expr} {solved : List (Option Level)}
    (h : ∀ p ∈ type.sortParams args.length, unsettled? params solved (.sort (.param p)) = none) :
    solveLevels env n Γ params type args solved = pure solved := by
  induction args generalizing type with
  | nil => exact solveLevels_nil env n Γ params type solved
  | cons a args ih =>
    cases type with
    | pi info dom body =>
      have hdom : unsettled? params solved dom = none := by
        unfold unsettled?
        split
        · exact h _ (Expr.mem_sortParams_pi.mpr (.inl rfl))
        · rfl
      rw [solveLevels_pi, hdom]
      exact ih fun p hp => h p (Expr.mem_sortParams_pi.mpr (.inr hp))
    | _ => rfl

/-- Further arguments that settle no parameter leave those that were read off the first
arguments. -/
theorem returns_solveLevels_append {params : List Name} {type : Expr} {args more : List Expr}
    {solved ls : List (Option Level)} {s s' : UInt64}
    (hmore : ∀ p ∈ type.sortParams (args.length + more.length), p ∉ type.sortParams args.length →
      unsettled? params solved (.sort (.param p)) = none)
    (h : (solveLevels env fuel Γ params type args solved).Returns s ls s') :
    (solveLevels env fuel Γ params type (args ++ more) solved).Returns s ls s' := by
  induction args generalizing type solved s with
  | nil =>
    rw [solveLevels_nil] at h
    rw [List.nil_append, solveLevels_of_settled env fuel Γ fun p hp => hmore p ?_ ?_]
    · exact h
    · simpa using hp
    · simp [Expr.sortParams]
  | cons a args ih =>
    cases type with
    | pi info dom body =>
      -- A parameter that only the further arguments could settle is settled already, or it is
      -- the one that the first argument settles.
      have hrest : ∀ p ∈ body.sortParams (args.length + more.length),
          p ∉ body.sortParams args.length →
            unsettled? params solved (.sort (.param p)) = none ∨
              unsettled? params solved (.sort (.param p)) = unsettled? params solved dom := by
        intro p hp hnot
        by_cases hdom : dom = .sort (.param p)
        · exact .inr (by rw [hdom])
        · refine .inl (hmore p ?_ ?_)
          · rw [List.length_cons, Nat.succ_add]
            exact Expr.mem_sortParams_pi.mpr (.inr hp)
          · exact fun hp' => (Expr.mem_sortParams_pi.mp hp').elim hdom hnot
      rw [List.cons_append, solveLevels_pi]
      rw [solveLevels_pi] at h
      cases hdom : unsettled? params solved dom with
      | none =>
        rw [hdom] at h hrest
        exact ih (fun p hp hnot => (hrest p hp hnot).elim id id) h
      | some i =>
        rw [hdom] at h hrest
        obtain ⟨l, t, hl, h⟩ := returns_bind.mp h
        exact returns_bind.mpr ⟨l, t, hl,
          ih (fun p hp hnot => unsettled?_set l (hrest p hp hnot)) h⟩
    | _ => exact h

/-- A constant without universe parameters is resolved without levels. -/
theorem levels_eq_nil_of_resolve {name : String} {args : List Expr} {m : Name} {ls : List Level}
    {s s' : UInt64} (hparams : ∀ c, env.find? (.ofString name) = some c → c.levelParams = [])
    (h : (resolve env fuel Γ name args).Returns s (.const m ls) s') : ls = [] := by
  unfold resolve at h
  split at h
  · cases (returns_pure.mp h).1
  · dsimp only at h
    split at h
    · exact absurd h not_returns_throw
    · rename_i c hc
      rw [hparams c hc, List.map_nil, solveLevels_of_settled env fuel Γ fun p _ => rfl,
        pure_bind] at h
      exact (Expr.const.inj (returns_pure.mp h).1).2.symm

/-- What an operation is put together from. -/
theorem returns_operation {op : Operator} {lhs rhs : Expr} {s s' : UInt64} :
    (operation env fuel Γ op lhs rhs).Returns s e s' ↔
      (op = .iff ∧ .mkIff lhs rhs = e ∧ s = s') ∨
        (op ≠ .iff ∧ env.contains op.constant ∧ ∃ T t l, (inferType env fuel Γ lhs).Returns s T t ∧
          (sortLevel env fuel Γ T).Returns t l s' ∧
          .mkApp (.const op.constant [l]) [T, lhs, rhs] = e) := by
  by_cases hop : op = .iff
  · subst hop
    simpa [operation] using returns_pure
  · have hoperation : operation env fuel Γ op lhs rhs =
        if env.contains op.constant then do
          let T ← inferType env fuel Γ lhs
          let l ← sortLevel env fuel Γ T
          return .mkApp (.const op.constant [l]) [T, lhs, rhs]
        else throw (.unknownIdent op.constant.render) := by
      cases op <;> first | rfl | exact absurd rfl hop
    rw [hoperation]
    split
    · rename_i hcontains
      simp only [returns_bind, returns_pure]
      constructor
      · rintro ⟨T, t, hT, l, u, hl, rfl, rfl⟩
        exact .inr ⟨hop, hcontains, T, t, l, hT, hl, rfl⟩
      · rintro (⟨h, -⟩ | ⟨-, -, T, t, l, hT, hl, rfl⟩)
        · exact absurd h hop
        · exact ⟨T, t, hT, l, s', hl, rfl, rfl⟩
    · rename_i hcontains
      constructor
      · exact fun h => absurd h not_returns_throw
      · rintro (⟨h, -⟩ | ⟨-, h, -⟩)
        · exact absurd h hop
        · exact absurd h hcontains

/-- What a binder is put together from. -/
theorem returns_openBinder {mk : BinderInfo → Expr → Expr → Expr} {name : String} {T : Expr}
    {inside : LocalContext → ElabM Expr} {s t : UInt64} :
    (openBinder env fuel mk Γ name T inside).Returns s e t ↔ ∃ l u b,
      (sortLevel env fuel Γ T).Returns s l u ∧
        (inside (Γ.push ⟨u⟩ (.ofString name) T)).Returns (u + 1) b t ∧
        mk .default T (b.abstractFVar ⟨u⟩) = e := by
  unfold openBinder
  simp only [returns_bind, returns_pure, returns_fresh]
  constructor
  · rintro ⟨l, u, hl, x, v, ⟨rfl, rfl⟩, b, w, hb, rfl, rfl⟩
    exact ⟨l, u, b, hl, hb, rfl⟩
  · rintro ⟨l, u, b, hl, hb, rfl⟩
    exact ⟨l, u, hl, ⟨u⟩, u + 1, ⟨rfl, rfl⟩, b, t, hb, rfl, rfl⟩

/-- What a checker of its own finds. -/
theorem ofCheck_yields {α : Type} {m : CheckM α} {Q : α → Prop}
    (h : ∀ a t, m.Returns Checker.firstFresh a t → Q a) : (ofCheck m).Yields Q := by
  refine Yields.bind (yields_lift fun r hr => hr) fun r hr => ?_
  cases r with
  | error e => exact yields_throw _
  | ok a =>
    obtain ⟨t, ht⟩ := CheckM.runFresh_eq_ok.mp hr
    exact yields_pure (h a t ht)

section
variable (henv : env.FVarsIn p) (hΓ : Γ.FVarsIn p)
include henv hΓ

theorem inferType_fvarsIn (he : e.FVarsIn p) :
    (inferType env fuel Γ e).Yields (Expr.FVarsIn p) :=
  ofCheck_yields fun _ _ h => henv.inferType (fun _ => id) (fun _ _ _ => hΓ.find?) he h

theorem operation_fvarsIn (op : Operator) {lhs rhs : Expr} (hl : lhs.FVarsIn p)
    (hr : rhs.FVarsIn p) : (operation env fuel Γ op lhs rhs).Yields (Expr.FVarsIn p) := by
  unfold operation
  split
  · exact yields_pure ⟨⟨trivial, hl⟩, hr⟩
  · split
    · refine (inferType_fvarsIn henv hΓ hl).bind fun type htype =>
        (yields_true _).bind fun level _ => ?_
      exact yields_pure ⟨⟨⟨trivial, htype⟩, hl⟩, hr⟩
    · exact yields_throw _

end

theorem resolve_yields {Q : Expr → Prop} (hvar : ∀ entry ∈ Γ.entries, Q (.fvar entry.fvar))
    (hconst : ∀ n ls, Q (.const n ls)) (name : String) (args : List Expr) :
    (resolve env fuel Γ name args).Yields Q := by
  unfold resolve
  split
  · rename_i entry hentry
    split at hentry
    · cases hentry
    · exact yields_pure (hvar entry (List.mem_of_find?_eq_some hentry))
  · dsimp only
    split
    · exact yields_throw _
    · exact (yields_true _).bind fun solved _ => yields_pure (hconst _ _)

theorem resolve_fvarsIn (hΓ : Γ.FVarsIn p) (name : String) (args : List Expr) :
    (resolve env fuel Γ name args).Yields (Expr.FVarsIn p) :=
  resolve_yields (fun entry hentry => (hΓ entry hentry).1) (fun _ _ => trivial) name args

/-- The variable of a binder that is opened is abstracted again. -/
theorem openBinder_fvarsIn {mk : BinderInfo → Expr → Expr → Expr}
    (hmk : ∀ {i t b}, t.FVarsIn p → b.FVarsIn p → (mk i t b).FVarsIn p) (name : String)
    {type : Expr} (htype : type.FVarsIn p) {inside : LocalContext → ElabM Expr}
    (hinside : ∀ x, (inside (Γ.push x (.ofString name) type)).Yields
      (Expr.FVarsIn fun y => y = x ∨ p y)) :
    (openBinder env fuel mk Γ name type inside).Yields (Expr.FVarsIn p) := by
  refine (yields_true _).bind fun _ _ => (yields_true _).bind fun x _ => ?_
  exact (hinside x).bind fun body hbody => yields_pure (hmk htype hbody.abstractFVar)

theorem Reading.fvarsIn {k : Nat} {m : LocalContext → ElabM Expr} (h : Reading env fuel k m)
    {p : FVarId → Prop} {Γ : LocalContext} (henv : env.FVarsIn p) (hΓ : Γ.FVarsIn p) :
    (m Γ).Yields (Expr.FVarsIn p) := by
  induction h generalizing p Γ with
  | atom he => rcases he with rfl | rfl | ⟨v, rfl⟩ <;> exact yields_pure trivial
  | name text _ ih =>
    refine (yields_mapM fun a ha => ih a ha henv hΓ).bind fun as has => ?_
    exact (resolve_fvarsIn hΓ text as).bind fun f hf => yields_pure (FVarsIn.mkApp.mpr ⟨hf, has⟩)
  | app _ _ ih ihhead =>
    refine (yields_mapM fun a ha => ih a ha henv hΓ).bind fun as has => ?_
    exact (ihhead henv hΓ).bind fun f hf => yields_pure (FVarsIn.mkApp.mpr ⟨hf, has⟩)
  | arrow _ _ ihdom ihcod =>
    exact (ihdom henv hΓ).bind fun _ hdom => (ihcod henv hΓ).bind fun _ hcod =>
      yields_pure ⟨hdom, hcod.lift 1⟩
  | binder hmk text _ _ ihtype ihinside =>
    refine (ihtype henv hΓ).bind fun T hT => openBinder_fvarsIn ?_ text hT fun x => ?_
    · rcases hmk with rfl | rfl <;> exact fun ht hb => ⟨ht, hb⟩
    · exact ihinside (henv.mono fun _ => .inr)
        ((hΓ.mono fun _ => .inr).push (.inl rfl) _ (hT.mono fun _ => .inr))
  | operation op _ _ ihlhs ihrhs =>
    exact (ihlhs henv hΓ).bind fun _ hl => (ihrhs henv hΓ).bind fun _ hr =>
      operation_fvarsIn henv hΓ op hl hr

/-- The free variables of an elaborated term are those of the context and of
the constants. -/
theorem elaborate_fvarsIn {p : FVarId → Prop} {Γ : LocalContext} (henv : env.FVarsIn p)
    (hΓ : Γ.FVarsIn p) (t : Surface.Term) : (elaborate env fuel Γ t).Yields (Expr.FVarsIn p) :=
  (elaborate_reading t).fvarsIn henv hΓ

/-! ### Variables at heads -/

/-- An operator is a constant, whatever its operands are. -/
theorem operation_headFVarsIn (op : Operator) (lhs rhs : Expr) :
    (operation env fuel Γ op lhs rhs).Yields (HeadFVarsIn p) := by
  unfold operation
  split
  · exact yields_pure trivial
  · split
    · exact (yields_true _).bind fun _ _ => (yields_true _).bind fun _ _ => yields_pure trivial
    · exact yields_throw _

theorem openBinder_headFVarsIn {mk : BinderInfo → Expr → Expr → Expr}
    (hmk : ∀ {i t b}, b.HeadFVarsIn p → (mk i t b).HeadFVarsIn p)
    (hΓ : ∀ entry ∈ Γ.entries, p entry.fvar) (name : String) (type : Expr)
    {inside : LocalContext → ElabM Expr}
    (hinside : ∀ {q : FVarId → Prop} {Γ : LocalContext}, (∀ entry ∈ Γ.entries, q entry.fvar) →
      (inside Γ).Yields (HeadFVarsIn q)) :
    (openBinder env fuel mk Γ name type inside).Yields (HeadFVarsIn p) := by
  refine (yields_true _).bind fun _ _ => (yields_true _).bind fun x _ => ?_
  have hpush : ∀ entry ∈ (Γ.push x (.ofString name) type).entries,
      entry.fvar = x ∨ p entry.fvar :=
    List.forall_mem_cons.mpr ⟨.inl rfl, fun entry hentry => .inr (hΓ entry hentry)⟩
  exact (hinside hpush).bind fun body hbody => yields_pure (hmk hbody.abstractFVar)

theorem Reading.headFVarsIn {k : Nat} {m : LocalContext → ElabM Expr} (h : Reading env fuel k m)
    {p : FVarId → Prop} {Γ : LocalContext} (hΓ : ∀ entry ∈ Γ.entries, p entry.fvar) :
    (m Γ).Yields (HeadFVarsIn p) := by
  induction h generalizing p Γ with
  | atom he => rcases he with rfl | rfl | ⟨v, rfl⟩ <;> exact yields_pure trivial
  | name text _ _ =>
    refine (yields_true _).bind fun as _ => ?_
    exact (resolve_yields hΓ (fun _ _ => trivial) text as).bind fun f hf =>
      yields_pure (headFVarsIn_mkApp.mpr hf)
  | app _ _ _ ihhead =>
    exact (yields_true _).bind fun as _ => (ihhead hΓ).bind fun f hf =>
      yields_pure (headFVarsIn_mkApp.mpr hf)
  | arrow _ _ _ _ =>
    exact (yields_true _).bind fun _ _ => (yields_true _).bind fun _ _ => yields_pure trivial
  | binder hmk text _ _ _ ihinside =>
    refine (yields_true _).bind fun T _ => openBinder_headFVarsIn ?_ hΓ text T ihinside
    rcases hmk with rfl | rfl
    · exact fun _ => trivial
    · exact id
  | operation op _ _ _ _ =>
    exact (yields_true _).bind fun lhs _ => (yields_true _).bind fun rhs _ =>
      operation_headFVarsIn op lhs rhs

/-- The variables at the heads of an elaborated term are those that the context
declares: what is inserted are operands, and no heads. -/
theorem elaborate_headFVarsIn {p : FVarId → Prop} {Γ : LocalContext}
    (hΓ : ∀ entry ∈ Γ.entries, p entry.fvar) (t : Surface.Term) :
    (elaborate env fuel Γ t).Yields (HeadFVarsIn p) :=
  (elaborate_reading t).headFVarsIn hΓ

/-! ### Bound variables -/

theorem operation_scoped (henv : env.Closed) (hΓ : Γ.Closed) (op : Operator) {lhs rhs : Expr}
    (hl : lhs.Scoped 0) (hr : rhs.Scoped 0) :
    (operation env fuel Γ op lhs rhs).Yields (Scoped 0) := by
  unfold operation
  split
  · exact yields_pure ⟨⟨trivial, hl⟩, hr⟩
  · split
    · have htype : (inferType env fuel Γ lhs).Yields (Scoped 0) :=
        ofCheck_yields fun _ _ h => Environment.inferType_scoped henv hΓ h
      exact htype.bind fun type htype => (yields_true _).bind fun level _ =>
        yields_pure ⟨⟨⟨trivial, htype⟩, hl⟩, hr⟩
    · exact yields_throw _

theorem Reading.scoped (henv : env.Closed) {k : Nat} {m : LocalContext → ElabM Expr}
    (h : Reading env fuel k m) {Γ : LocalContext} (hΓ : Γ.Closed) :
    (m Γ).Yields (Scoped 0) := by
  have hresolve : ∀ (Γ : LocalContext) (text : String) (as : List Expr),
      (resolve env fuel Γ text as).Yields (Scoped 0) :=
    fun Γ => resolve_yields (fun _ _ => trivial) (fun _ _ => trivial)
  induction h generalizing Γ with
  | atom he => rcases he with rfl | rfl | ⟨v, rfl⟩ <;> exact yields_pure trivial
  | name text _ ih =>
    refine (yields_mapM fun a ha => ih a ha hΓ).bind fun as has => ?_
    exact (hresolve Γ text as).bind fun f hf => yields_pure (scoped_mkApp.mpr ⟨hf, has⟩)
  | app _ _ ih ihhead =>
    refine (yields_mapM fun a ha => ih a ha hΓ).bind fun as has => ?_
    exact (ihhead hΓ).bind fun f hf => yields_pure (scoped_mkApp.mpr ⟨hf, has⟩)
  | arrow _ _ ihdom ihcod =>
    exact (ihdom hΓ).bind fun _ hdom => (ihcod hΓ).bind fun _ hcod =>
      yields_pure ⟨hdom, hcod.lift_ofNat 1⟩
  | binder hmk text _ _ ihtype ihinside =>
    refine (ihtype hΓ).bind fun T hT => (yields_true _).bind fun _ _ =>
      (yields_true _).bind fun x _ => ?_
    refine (ihinside (hΓ.push _ _ hT)).bind fun b hb => yields_pure ?_
    -- the variable that was opened is the only one that is loose under the binder
    rcases hmk with rfl | rfl <;> exact ⟨hT, hb.abstractFVar x⟩
  | operation op _ _ ihlhs ihrhs =>
    exact (ihlhs hΓ).bind fun _ hl => (ihrhs hΓ).bind fun _ hr =>
      operation_scoped henv hΓ op hl hr

/-- An elaborated term has no loose bound variables. -/
theorem elaborate_scoped (henv : env.Closed) (hΓ : Γ.Closed) (t : Surface.Term) :
    (elaborate env fuel Γ t).Yields (Scoped 0) :=
  (elaborate_reading t).scoped henv hΓ

end Elaboration

end Pinpoint
