/-
A side of a statement and the whole of it.

Asking for a side restricts the search to it, and a rewrite there goes through
two functions: one around the position in the side, and one around the side in
the statement.  A rewrite of the whole goes through one function.  Both find the
same and do the same.

* `findAll_part` — what is found in a part of a term is what is found in the
  term at the paths that go through the part;
* `Scope.prove_side` — the equations of the two rewrites say the same, up to
  metadata;
* `rewrite_side_iff` — so a side is searched like the whole statement, and one
  of its matches can be rewritten just if it can be as a match of the whole,
  with the same result;
* `captured_match_of_side_alone` — a statement about a variable that a checker
  draws, with a match that is found in its side only.
-/
import Mathlib.Data.List.Sort
import Pinpoint.Proofs.Enumeration
import Pinpoint.Proofs.Listing
import Pinpoint.Proofs.Locality

namespace Pinpoint

/-- The path from a statement to one of its sides. -/
def Side.path : Side → Path
  | .lhs => [.appFn, .appArg]
  | .rhs => [.appArg]

namespace Match

/-- The match of a part, in a term that has the part at a position. -/
def beneath (π : Path) (m : Match) : Match := { m with path := π ++ m.path }

/-- A match as it is seen from a position, if it is there or below. -/
def seenFrom? (π : Path) (m : Match) : Option Match :=
  (m.path.dropPrefix? π).map fun ρ => { m with path := ρ }

theorem seenFrom?_eq_some {π : Path} {m m' : Match} :
    m.seenFrom? π = some m' ↔ m = m'.beneath π := by
  obtain ⟨path, subterm, subst⟩ := m
  obtain ⟨path', subterm', subst'⟩ := m'
  simp [seenFrom?, beneath, List.dropPrefix?_eq_some_iff]

end Match

/-- The matches of several rules that are at a position or below, as they are
seen from there. -/
def matchesFrom (π : Path) (found : List (Nat × Match)) : List (Nat × Match) :=
  found.filterMap fun entry => (entry.2.seenFrom? π).map (entry.1, ·)

/-! ### Searching a part -/

theorem Step.Before.asymm : Std.Asymm Step.Before := ⟨fun _ _ h h' => by cases h <;> cases h'⟩

/-- The order of two paths from one position is that of what follows it. -/
theorem Path.Before.of_append {π ρ ρ' : Path} (h : Path.Before (π ++ ρ) (π ++ ρ')) :
    ρ.Before ρ' := by
  have := Step.Before.asymm
  induction π with
  | nil => exact h
  | cons s π ih => exact ih (List.lex_cons_iff.mp h)

section
variable {checker : Checker} {e part : Expr} {π : Path} {r : Rule} {rules : List Rule}

/-- What a rule matches in a part is what it matches in the whole below the
position of the part, in the same order. -/
theorem Rule.candidates_part (hpart : ∀ ρ, e.subterm? (π ++ ρ) = part.subterm? ρ) :
    (r.candidates e).filterMap (Match.seenFrom? π) = r.candidates part := by
  have := Step.Before.asymm
  have : Std.Asymm fun m m' : Match => m.path.Before m'.path :=
    ⟨fun m m' => (List.Lex.asymm Step.Before).asymm m.path m'.path⟩
  -- both lists are in pre-order, so it is enough that they have the same elements
  refine List.Pairwise.eq_of_mem_iff (r := fun m m' : Match => m.path.Before m'.path)
    (List.Pairwise.filterMap _ (fun m m' h n hn n' hn' => ?_) (r.candidates_pairwise e))
    (r.candidates_pairwise part) fun m => ?_
  · obtain rfl := Match.seenFrom?_eq_some.mp hn
    obtain rfl := Match.seenFrom?_eq_some.mp hn'
    exact Path.Before.of_append h
  · rw [List.mem_filterMap]
    simp only [Match.seenFrom?_eq_some, exists_eq_right, mem_candidates_iff]
    rw [← hpart]
    rfl

theorem Rule.occurrences_part (hpart : ∀ ρ, e.subterm? (π ++ ρ) = part.subterm? ρ) :
    (r.occurrences checker e).filterMap (Match.seenFrom? π) = r.occurrences checker part := by
  rw [occurrences, occurrences, ← candidates_part hpart, List.filter_filterMap,
    List.filterMap_filter]
  congr 1
  funext m
  cases hm : m.seenFrom? π with
  | none => simp
  | some m' =>
    obtain rfl := Match.seenFrom?_eq_some.mp hm
    rw [Option.filter_some]
    rfl

/-- A search in a part draws no more variables than one in the whole. -/
theorem Rule.draws_part_le (hpart : ∀ ρ, e.subterm? (π ++ ρ) = part.subterm? ρ) :
    r.draws checker none part ≤ r.draws checker none e := by
  have hall : ∀ host, r.candidatesWithin none host = r.candidates host :=
    fun host => List.filter_true _
  rw [draws, draws, hall, hall, ← candidates_part hpart]
  induction r.candidates e with
  | nil => exact Nat.le_refl 0
  | cons m ms ih =>
    rw [List.filterMap_cons]
    cases hm : m.seenFrom? π with
    | none =>
      rw [List.map_cons, List.sum_cons]
      exact Nat.le_add_left_of_le ih
    | some m' =>
      obtain rfl := Match.seenFrom?_eq_some.mp hm
      rw [List.map_cons, List.sum_cons, List.map_cons, List.sum_cons]
      exact Nat.add_le_add_left ih _

/-- A search in a part finds what a search in the whole finds there, in the same
order and by the same values, if the term has none of the variables that the
checker draws. -/
theorem findAll_part (henv : checker.env.FVarFree)
    (hlocals : checker.locals.FVarsIn FVarId.IsOuter) (he : e.FVarsIn FVarId.IsOuter)
    (hpartIn : part.FVarsIn FVarId.IsOuter)
    (hpart : ∀ ρ, e.subterm? (π ++ ρ) = part.subterm? ρ)
    (hroom : (rules.map fun r => r.draws checker none e).sum < 3 * 2 ^ 62)
    {found : List (Nat × Match)} (h : (findAll checker none rules e).runFresh = some found) :
    (findAll checker none rules part).runFresh = some (matchesFrom π found) := by
  have hle : (rules.map fun r => r.draws checker none part).sum ≤
      (rules.map fun r => r.draws checker none e).sum :=
    List.sum_le_sum fun r _ => r.draws_part_le hpart
  obtain ⟨hends, rfl⟩ := (findAllFrom_runFresh_iff henv hlocals he 0 hroom).mp h
  refine (findAllFrom_runFresh_iff henv hlocals hpartIn 0 (by omega)).mpr ⟨fun r hr m hm => ?_, ?_⟩
  · -- the checker is asked about the same values
    have hm := List.mem_of_mem_filter hm
    rw [← Rule.candidates_part hpart, List.mem_filterMap] at hm
    obtain ⟨m', hm', hseen⟩ := hm
    obtain rfl := Match.seenFrom?_eq_some.mp hseen
    exact hends r hr (m.beneath π) (List.mem_filter.mpr ⟨hm', rfl⟩)
  · rw [matchesFrom, List.filterMap_flatMap]
    congr 1
    funext entry
    rw [← Rule.occurrences_part hpart, List.filterMap_map]
    simp [Path.within, List.map_filterMap]

end

/-! ### The position in a side and in the statement -/

namespace Expr

/-- Metadata around a term stays around the body of the new binder. -/
theorem abstractAt?_mdata (d : List (Name × MDataValue)) (e : Expr) (π : Path) :
    (Expr.mdata d e).abstractAt? π = (e.abstractAt? π).map (.mdata d) := rfl

/-- What is made at a position does not depend on the metadata around the
term. -/
theorem map_skeleton_abstractAt?_stripMData (e v : Expr) (π : Path) :
    ((e.stripMData.abstractAt? π).map fun body => (body.instantiate v).skeleton) =
      (e.abstractAt? π).map fun body => (body.instantiate v).skeleton := by
  induction e with
  | mdata d e ih =>
    rw [abstractAt?_mdata, Option.map_map, stripMData, ih]
    rfl
  | _ => rfl

/-- At the root all but metadata is replaced. -/
theorem map_skeleton_abstractAt?_nil (e v : Expr) :
    ((e.abstractAt? []).map fun body => (body.instantiate v).skeleton) = some v.skeleton := by
  have hvar : (instantiate (.bvar 0) v).skeleton = v.skeleton := congrArg skeleton (lift_zero v)
  induction e with
  | mdata d e ih =>
    rw [abstractAt?_mdata, Option.map_map]
    exact ih
  | bvar i =>
    rw [abstractAt?, lift, liftAt, mapVars]
    split <;> exact congrArg some hvar
  | _ => exact congrArg some hvar

theorem abstractAt?_nil (e : Expr) : ∃ body, e.abstractAt? [] = some body := by
  obtain ⟨body, hbody, -⟩ := Option.map_eq_some_iff.mp (e.map_skeleton_abstractAt?_nil .prop)
  exact ⟨body, hbody⟩

end Expr

namespace Statement

variable {s : Statement} {side : Side}

theorem skeleton_withSide {e e' : Expr} (h : e.skeleton = e'.skeleton) :
    (s.withSide e side).skeleton = (s.withSide e' side).skeleton := by
  cases side <;> simp only [withSide, rebuild] <;> cases s.relation <;>
    simp [Expr.mkEq, Expr.mkIff, Expr.skeleton, h]

/-- What is around a side is not lifted if it is closed. -/
theorem abstractAt?_toExpr (hcarrier : s.carrier.hasLooseBVars = false)
    (hother : (s.otherSide side).hasLooseBVars = false) (π : Path) :
    s.toExpr.abstractAt? (side.path ++ π) =
      ((s.side side).abstractAt? π).map (s.withSide · side) := by
  obtain ⟨relation, level, carrier, lhs, rhs⟩ := s
  have happ : ∀ f a, (Expr.app f a).lift 1 = .app (f.lift 1) (a.lift 1) := fun _ _ => rfl
  have hconst : ∀ n ls, (Expr.const n ls).lift 1 = .const n ls := fun _ _ => rfl
  cases relation <;> cases side <;> simp only [otherSide] at hcarrier hother <;>
    simp only [Expr.abstractAt?, toExpr, rebuild, withSide, Statement.side, Side.path, Expr.mkEq,
      Expr.mkIff, Expr.mkApp_cons, Expr.mkApp_nil, List.cons_append, List.nil_append, happ, hconst,
      Expr.lift_eq_self hcarrier, Expr.lift_eq_self hother, Expr.replaceWith?, Option.map_map] <;>
    rfl

/-- What is made at a position in a side is made there in the statement. -/
theorem map_skeleton_abstractAt?_side {target : Expr} (htarget : target.stripMData = s.toExpr)
    (hcarrier : s.carrier.closedUnder 0) (hother : (s.otherSide side).closedUnder 0) (π : Path)
    (v : Expr) :
    ((target.abstractAt? (side.path ++ π)).map fun body => (body.instantiate v).skeleton) =
      ((s.side side).abstractAt? π).map fun body =>
        (s.withSide (body.instantiate v) side).skeleton := by
  rw [← Expr.map_skeleton_abstractAt?_stripMData, htarget,
    abstractAt?_toExpr (Expr.hasLooseBVars_of_closedUnder hcarrier)
      (Expr.hasLooseBVars_of_closedUnder hother), Option.map_map]
  congr 1
  funext body
  have hinst : (s.withSide body side).instantiate v =
      (s.instantiate v).withSide (body.instantiate v) side := by
    cases side <;> rw [withSide, instantiate_rebuild] <;> rfl
  rw [Function.comp_apply, hinst, instantiate_eq_self hcarrier hother]

end Statement

/-! ### The two equations -/

/-- Whether two equations have the same sides, up to metadata, in the same
type. -/
structure Equation.Agrees (eq eq' : Equation) : Prop where
  lhs : eq.lhs.skeleton = eq'.lhs.skeleton
  rhs : eq.rhs.skeleton = eq'.rhs.skeleton
  carrier : eq.carrier = eq'.carrier

theorem Equation.Agrees.symm {eq eq' : Equation} (h : eq.Agrees eq') : eq'.Agrees eq :=
  ⟨h.lhs.symm, h.rhs.symm, h.carrier.symm⟩

/-- An equation is lifted through a function if the constant for that is
declared. -/
theorem Equation.congruence_lam_eq_ok_iff {env : Environment} {eq eq' : Equation}
    {dom body codomain : Expr} {level : Level} :
    eq.congruence env (.lam .default dom body) codomain level = .ok eq' ↔
      env.contains Vocabulary.congrArg ∧ eq' = eq.under dom body codomain level := by
  unfold congruence Environment.constant
  simp only [Expr.stripMData]
  by_cases hcongr : env.contains Vocabulary.congrArg
  · simp only [hcongr, if_true, bind, Except.bind, pure, Except.pure, Except.ok.injEq, true_and]
    exact eq_comm
  · simp [hcongr, bind, Except.bind]

namespace Scope

variable {env : Environment} {r : Rule} {m : Match} {eq eq' : Equation} {target : Expr}
  {s : Statement} {side : Side}

/-- The equation between statements of a match in what is searched. -/
def prove (env : Environment) (scope : Scope) (r : Rule) (m : Match) :
    Except ProofError Equation := do
  scope.justify env (← scope.evaluate env r m)

theorem prove_eq_ok_iff {scope : Scope} :
    scope.prove env r m = .ok eq ↔
      ∃ eq₀, scope.evaluate env r m = .ok eq₀ ∧ scope.justify env eq₀ = .ok eq := by
  unfold prove
  cases scope.evaluate env r m <;> simp [bind, Except.bind]

/-- A match evaluates to what its rule states of the values, which below the
root is lifted to what is searched. -/
theorem evaluate_eq_ok_iff {scope : Scope} :
    scope.evaluate env r m = .ok eq ↔
      ∃ eq₀, r.instantiate env m.subst = .ok eq₀ ∧
        if m.path = [] then eq = eq₀
        else ∃ body, scope.host.abstractAt? m.path = some body ∧
          env.contains Vocabulary.congrArg ∧
            eq = eq₀.under eq₀.carrier body scope.type scope.level := by
  unfold evaluate
  cases r.instantiate env m.subst with
  | error e => simp [bind, Except.bind]
  | ok eq₀ =>
    simp only [bind, Except.bind, Except.ok.injEq, exists_eq_left', List.isEmpty_iff]
    by_cases hpath : m.path = []
    · rw [if_pos hpath, if_pos hpath]
      exact ⟨fun h => (Except.ok.inj h).symm, fun h => congrArg Except.ok h.symm⟩
    · rw [if_neg hpath, if_neg hpath]
      cases scope.host.abstractAt? m.path with
      | none => simp [throw, throwThe, MonadExceptOf.throw]
      | some body => simp [Equation.congruence_lam_eq_ok_iff]

/-- Below the root, a match of the whole is proved by one function. -/
theorem prove_whole_eq_ok_iff (hpath : m.path ≠ []) :
    (whole target).prove env r m = .ok eq ↔
      ∃ eq₀ body, r.instantiate env m.subst = .ok eq₀ ∧ env.contains Vocabulary.congrArg ∧
        target.abstractAt? m.path = some body ∧ eq = eq₀.under eq₀.carrier body .prop .one := by
  rw [prove_eq_ok_iff]
  simp only [evaluate_eq_ok_iff, if_neg hpath]
  constructor
  · rintro ⟨eq₁, ⟨eq₀, hinst, body, hbody, hcongr, rfl⟩, hjust⟩
    exact ⟨eq₀, body, hinst, hcongr, hbody, (Except.ok.inj hjust).symm⟩
  · rintro ⟨eq₀, body, hinst, hcongr, hbody, rfl⟩
    exact ⟨_, ⟨eq₀, hinst, body, hbody, hcongr, rfl⟩, rfl⟩

/-- A match of a side is proved by a function around the position and one around
the side; at the root of the side there is no first one. -/
theorem prove_side_eq_ok_iff :
    (ofSide s side).prove env r m = .ok eq ↔
      ∃ eq₀ body, r.instantiate env m.subst = .ok eq₀ ∧ env.contains Vocabulary.congrArg ∧
        (s.side side).abstractAt? m.path = some body ∧
          eq = (if m.path = [] then eq₀ else eq₀.under eq₀.carrier body s.carrier s.level).under
            s.carrier (s.withSide (.bvar 0) side) .prop .one := by
  have hjust : ∀ eq₁, (ofSide s side).justify env eq₁ = .ok eq ↔
      env.contains Vocabulary.congrArg ∧
        eq = eq₁.under s.carrier (s.withSide (.bvar 0) side) .prop .one := by
    intro eq₁
    cases side <;> exact Equation.congruence_lam_eq_ok_iff
  rw [prove_eq_ok_iff]
  simp only [evaluate_eq_ok_iff, hjust, host_ofSide, type_ofSide, level_ofSide]
  by_cases hpath : m.path = []
  · simp only [if_pos hpath]
    obtain ⟨body, hbody⟩ := (s.side side).abstractAt?_nil
    constructor
    · rintro ⟨eq₁, ⟨eq₀, hinst, rfl⟩, hcongr, rfl⟩
      exact ⟨eq₁, body, hinst, hcongr, hpath ▸ hbody, rfl⟩
    · rintro ⟨eq₀, body, hinst, hcongr, -, rfl⟩
      exact ⟨eq₀, ⟨eq₀, hinst, rfl⟩, hcongr, rfl⟩
  · simp only [if_neg hpath]
    constructor
    · rintro ⟨eq₁, ⟨eq₀, hinst, body, hbody, -, rfl⟩, hcongr, rfl⟩
      exact ⟨eq₀, body, hinst, hcongr, hbody, rfl⟩
    · rintro ⟨eq₀, body, hinst, hcongr, hbody, rfl⟩
      exact ⟨_, ⟨eq₀, hinst, body, hbody, hcongr, rfl⟩, hcongr, rfl⟩

section
variable (htarget : target.stripMData = s.toExpr) (hcarrier : s.carrier.closedUnder 0)
  (hother : (s.otherSide side).closedUnder 0)
include htarget hcarrier hother

/-- The function of the whole and the two of a side make the same. -/
theorem under_agrees {eq₀ : Equation} {π : Path} {body body' : Expr}
    (hbody : target.abstractAt? (side.path ++ π) = some body)
    (hbody' : (s.side side).abstractAt? π = some body') :
    (eq₀.under eq₀.carrier body .prop .one).Agrees
      ((if π = [] then eq₀ else eq₀.under eq₀.carrier body' s.carrier s.level).under
        s.carrier (s.withSide (.bvar 0) side) .prop .one) := by
  have hside : ∀ v, (body.instantiate v).skeleton =
      (s.withSide (body'.instantiate v) side).skeleton := by
    intro v
    have h := Statement.map_skeleton_abstractAt?_side htarget hcarrier hother π v
    rw [hbody, hbody'] at h
    exact Option.some.inj h
  have hroot : π = [] → ∀ v, (body'.instantiate v).skeleton = v.skeleton := by
    rintro rfl v
    have h := (s.side side).map_skeleton_abstractAt?_nil v
    rw [hbody'] at h
    exact Option.some.inj h
  have hwhole : ∀ v v', (body'.instantiate v).skeleton = v'.skeleton →
      (body.instantiate v).skeleton = ((s.withSide (.bvar 0) side).instantiate v').skeleton := by
    intro v v' hv
    rw [hside, Statement.instantiate_withSide, Statement.instantiate_eq_self hcarrier hother]
    exact Statement.skeleton_withSide hv
  split
  · rename_i hπ
    exact ⟨hwhole _ _ (hroot hπ _), hwhole _ _ (hroot hπ _), rfl⟩
  · exact ⟨hwhole _ _ rfl, hwhole _ _ rfl, rfl⟩

/-- A match of a side is proved just if it is as a match of the whole, and the
equations agree. -/
theorem prove_side :
    (∀ eq, (whole target).prove env r (m.beneath side.path) = .ok eq →
      ∃ eq', (ofSide s side).prove env r m = .ok eq' ∧ eq.Agrees eq') ∧
    ∀ eq', (ofSide s side).prove env r m = .ok eq' →
      ∃ eq, (whole target).prove env r (m.beneath side.path) = .ok eq ∧ eq'.Agrees eq := by
  have hpath : (m.beneath side.path).path ≠ [] := by
    cases side <;> simp [Match.beneath, Side.path]
  have hsome : (target.abstractAt? (side.path ++ m.path)).isSome =
      ((s.side side).abstractAt? m.path).isSome := by
    have h := congrArg Option.isSome
      (Statement.map_skeleton_abstractAt?_side htarget hcarrier hother m.path .prop)
    simpa only [Option.isSome_map] using h
  constructor
  · intro eq h
    obtain ⟨eq₀, body, hinst, hcongr, hbody, rfl⟩ := (prove_whole_eq_ok_iff hpath).mp h
    have hbody : target.abstractAt? (side.path ++ m.path) = some body := hbody
    rw [hbody] at hsome
    obtain ⟨body', hbody'⟩ := Option.isSome_iff_exists.mp hsome.symm
    exact ⟨_, prove_side_eq_ok_iff.mpr ⟨eq₀, body', hinst, hcongr, hbody', rfl⟩,
      under_agrees htarget hcarrier hother hbody hbody'⟩
  · intro eq' h
    obtain ⟨eq₀, body', hinst, hcongr, hbody', rfl⟩ := prove_side_eq_ok_iff.mp h
    rw [hbody'] at hsome
    obtain ⟨body, hbody⟩ := Option.isSome_iff_exists.mp hsome
    exact ⟨_, (prove_whole_eq_ok_iff hpath).mpr ⟨eq₀, body, hinst, hcongr, hbody, rfl⟩,
      (under_agrees htarget hcarrier hother hbody hbody').symm⟩

end

end Scope

/-! ### The two states -/

namespace Equation.Agrees

variable {env : Environment} {eq eq' : Equation}

theorem castGoal_eq_ok (h : eq.Agrees eq') {new proof : Expr}
    (hcast : eq.castGoal env new = .ok proof) : ∃ proof', eq'.castGoal env new = .ok proof' := by
  unfold castGoal at hcast ⊢
  rw [← h.carrier]
  split at hcast
  · rename_i hprop
    rw [if_pos hprop]
    cases hmpr : env.constant Vocabulary.eqMpr [.zero] with
    | error e => simp [hmpr, bind, Except.bind] at hcast
    | ok mpr => exact ⟨_, rfl⟩
  · cases hcast

theorem castHyp_eq_ok (h : eq.Agrees eq') {old value : Expr}
    (hcast : eq.castHyp env old = .ok value) : ∃ value', eq'.castHyp env old = .ok value' := by
  unfold castHyp at hcast ⊢
  rw [← h.carrier]
  split at hcast
  · rename_i hprop
    rw [if_pos hprop]
    cases hmp : env.constant Vocabulary.eqMp [.zero] with
    | error e => simp [hmp, bind, Except.bind] at hcast
    | ok mp => exact ⟨_, rfl⟩
  · cases hcast

theorem eqModMData_lhs (h : eq.Agrees eq') {e : Expr} (he : eq.lhs.eqModMData e = true) :
    eq'.lhs.eqModMData e = true := by
  rw [Expr.eqModMData_iff] at he ⊢
  rw [← h.lhs, he]

end Equation.Agrees

namespace ProofState

variable {fuel : Nat} {st st' : ProofState} {loc : Location} {site : Site} {target : Expr}
  {eq eq' : Equation} {s : Statement} {side : Side} {rules : List Rule}
  {found : List (Nat × Match)}

/-- Whether two states hold the same statements, up to metadata. -/
def HoldsAlike (st st' : ProofState) : Prop :=
  ∀ loc, (st.storedAt? loc).map Expr.skeleton = (st'.storedAt? loc).map Expr.skeleton

/-- What a goal holds under a name depends on the names and the statements
only. -/
theorem map_findHyp?_eq {hyps hyps' : List Hypothesis}
    (h : hyps.map (fun h => (h.name, h.type.skeleton)) =
      hyps'.map fun h => (h.name, h.type.skeleton)) (m m' : MetaId) (t t' : Expr) (n : String) :
    ((Goal.findHyp? ⟨m, t, hyps⟩ n).map fun h => h.type.skeleton) =
      (Goal.findHyp? ⟨m', t', hyps'⟩ n).map fun h => h.type.skeleton := by
  have hfind : ∀ (m : MetaId) (t : Expr) (hyps : List Hypothesis),
      ((Goal.findHyp? ⟨m, t, hyps⟩ n).map fun h => h.type.skeleton) =
        ((hyps.map fun h => (h.name, h.type.skeleton)).reverse.find? fun p => p.1 = n).map
          Prod.snd := by
    intro m t hyps
    rw [← List.map_reverse, List.find?_map, Option.map_map]
    rfl
  rw [hfind, hfind, h]

/-- Agreeing equations replace the same statements, by the same. -/
theorem replace_agrees (hagrees : eq.Agrees eq') (h : (st.replace site eq).run = some (.ok st')) :
    ∃ st'', (st.replace site eq').run = some (.ok st'') ∧ st'.HoldsAlike st'' := by
  cases site with
  | goal =>
    obtain ⟨g, target, proof, hg, htarget, hlhs, hcast, rfl⟩ := replaceTarget_eq_ok h
    -- The checks look at the left side up to metadata only, and both casts can be built.
    obtain ⟨proof', hcast'⟩ := hagrees.castGoal_eq_ok hcast
    refine ⟨{ st with
        goals := ⟨st.metas.nextId, eq'.rhs, g.hyps⟩ :: st.goals.tail
        metas := (st.metas.push eq'.rhs).assign g.metaId proof' }, ?_, fun loc => ?_⟩
    · exact replaceTarget_of hg htarget (hagrees.eqModMData_lhs hlhs) hcast'
    · cases loc with
      | goal => exact congrArg some hagrees.rhs
      | hyp n => exact Eq.refl _
      | everywhere => exact Eq.refl _
  | hyp x =>
    obtain ⟨g, old, type, value, hg, hold, htype, hlhs, hunused, hcast, rfl⟩ := replaceHyp_eq_ok h
    obtain ⟨value', hcast'⟩ := hagrees.castHyp_eq_ok hcast
    refine ⟨{ st with
        goals := { g with
          hyps := g.hyps.set (g.hyps.findIdx fun h => h.fvar = x) <|
            Hypothesis.mk ⟨st.nextFVar⟩ old.name eq'.rhs (some value') } :: st.goals.tail
        nextFVar := st.nextFVar + 1
        hypValues := st.hypValues ++ [(⟨st.nextFVar⟩, value')] }, ?_, fun loc => ?_⟩
    · have hused : ((g.hyps.eraseIdx (g.hyps.findIdx fun h => h.fvar = x)).any (mentions x) ||
          g.target.hasFVar x) = false := by
        simpa using hunused
      have hhyp : (hypOf g x).run = some (.ok old) := by
        unfold hypOf
        rw [hold]
        exact Eq.refl _
      exact replaceHyp_of hg hhyp htype (hagrees.eqModMData_lhs hlhs) hused hcast'
    · cases loc with
      | goal => exact Eq.refl _
      | hyp n =>
        -- The new hypothesis has the same name, and its type is the same up to metadata.
        show Option.map _ (Option.map _ _) = Option.map _ (Option.map _ _)
        rw [Option.map_map, Option.map_map]
        refine map_findHyp?_eq ?_ _ _ _ _ n
        rw [List.map_set, List.map_set, hagrees.rhs]
      | everywhere => exact Eq.refl _

/-- There is a statement at a location after the one there was replaced. -/
theorem isSome_storedAt?_replace (hloc : (st.resolve loc).run = some (.ok site))
    (h : (st.replace site eq).run = some (.ok st')) : (st'.storedAt? loc).isSome := by
  obtain ⟨g, hg, hsite⟩ := QueryM.run_bind_eq_ok.mp hloc
  have hg := mainGoal_eq_ok.mp hg
  cases loc with
  | everywhere => exact absurd hsite QueryM.not_run_throw_eq_ok
  | goal =>
    obtain rfl := QueryM.run_pure_eq_ok.mp hsite
    obtain ⟨-, -, -, -, -, -, -, rfl⟩ := replaceTarget_eq_ok h
    exact Eq.refl _
  | hyp n =>
    cases hfind : g.findHyp? n with
    | none => simp [hfind] at hsite
    | some old =>
      simp only [hfind] at hsite
      obtain rfl := QueryM.run_pure_eq_ok.mp hsite
      obtain ⟨pos, old', new, v, -, -, hreplaced⟩ := hypReplaced_of_replaceHyp h
      obtain ⟨g₁, g', rest, hg₁, hg', hchange⟩ := hreplaced.goals
      obtain rfl : g = g₁ := by
        rw [currentGoal?, hg₁] at hg
        exact (Option.some.inj hg).symm
      have hmem : n ∈ g'.hyps.map Hypothesis.name := by
        have hold := List.find?_some hfind
        have hn : old.name = n := by simpa using hold
        rw [hchange.names, ← hn]
        exact List.mem_map_of_mem (List.mem_reverse.mp (List.mem_of_find?_eq_some hfind))
      have hfound : (g'.findHyp? n).isSome := by
        unfold Goal.findHyp?
        simpa [List.find?_isSome] using hmem
      rw [storedAt?, currentGoal?, hg']
      simpa using hfound

/-- A rewrite of what is searched succeeds just if the selected match is proved
and the store accepts the equation. -/
theorem rewriteAtLocation_eq_ok_iff {sel : Selection} {scope : Scope}
    (hdepth : sel.maxDepth = none)
    (hsurvey : (st.surveyAt sel.side loc).run = some (.ok (site, target, scope)))
    (hfound : st.foundIn? fuel sel.rules scope = some found) :
    (st.rewriteAtLocation fuel sel loc).run = some (.ok st') ↔
      ∃ i m r eq, found[sel.index]? = some (i, m) ∧ sel.rules[i]? = some r ∧
        scope.prove st.env r m = .ok eq ∧ (st.replace site eq).run = some (.ok st') := by
  rw [rewriteAtLocation_of_found hdepth hsurvey hfound]
  constructor
  · intro h
    cases hequation : sel.equation st.env scope found with
    | error e => simp [hequation] at h
    | ok eq =>
      simp only [hequation] at h
      obtain ⟨i, m, r, eq₀, hi, hr, heval, hjust⟩ := Selection.equation_eq_ok.mp hequation
      refine ⟨i, m, r, eq, hi, hr, Scope.prove_eq_ok_iff.mpr ⟨eq₀, heval, hjust⟩, ?_⟩
      obtain ⟨_ | st₁, hst₁, heq⟩ := Option.map_eq_some_iff.mp h
      · cases heq
      · rw [hst₁, ← Except.ok.inj heq]
  · rintro ⟨i, m, r, eq, hi, hr, hprove, hreplace⟩
    obtain ⟨eq₀, heval, hjust⟩ := Scope.prove_eq_ok_iff.mp hprove
    rw [Selection.equation_eq_ok.mpr ⟨i, m, r, eq₀, hi, hr, heval, hjust⟩]
    dsimp only
    rw [hreplace]
    exact Eq.refl _

end ProofState

theorem matchesFrom_cons (π : Path) (i : Nat) (m : Match) (found : List (Nat × Match)) :
    matchesFrom π ((i, m) :: found) =
      ((m.seenFrom? π).map (i, ·)).toList ++ matchesFrom π found := by
  unfold matchesFrom
  rw [List.filterMap_cons]
  cases m.seenFrom? π <;> rfl

/-- The matches that are seen from a position are counted by those in front. -/
theorem exists_of_getElem?_matchesFrom {π : Path} {found : List (Nat × Match)} {i j : Nat}
    {m : Match} (h : (matchesFrom π found)[j]? = some (i, m)) :
    ∃ k : Nat, found[k]? = some (i, m.beneath π) ∧
      (matchesFrom π (found.take k)).length = j := by
  induction found generalizing j with
  | nil => cases h
  | cons entry found ih =>
    obtain ⟨i', m'⟩ := entry
    rw [matchesFrom_cons] at h
    -- The first match is seen from the position and counts, or it does not.
    cases hseen : m'.seenFrom? π with
    | none =>
      rw [hseen] at h
      obtain ⟨k, hk, hlen⟩ := ih h
      refine ⟨k + 1, hk, ?_⟩
      rw [List.take_succ_cons, matchesFrom_cons, hseen]
      exact hlen
    | some m'' =>
      rw [hseen] at h
      obtain rfl := Match.seenFrom?_eq_some.mp hseen
      cases j with
      | zero =>
        obtain ⟨rfl, rfl⟩ := Prod.mk.inj (Option.some.inj h)
        exact ⟨0, rfl, rfl⟩
      | succ j =>
        obtain ⟨k, hk, hlen⟩ := ih h
        refine ⟨k + 1, hk, ?_⟩
        rw [List.take_succ_cons, matchesFrom_cons, hseen, List.length_append, hlen]
        exact Nat.add_comm 1 j

/-! ### Typed statements -/

/-- A typed term has a type without the metadata around it. -/
theorem Environment.exists_inferType_stripMData {env : Environment} {n : Nat} {Γ : LocalContext}
    {e T : Expr} {u u' : UInt64} (h : (env.inferType n Γ e).Returns u T u') :
    ∃ n', (env.inferType n' Γ e.stripMData).Returns u T u' := by
  induction e generalizing n with
  | mdata m e ih =>
    cases n with
    | zero => exact absurd h not_inferType_zero_returns
    | succ n => exact ih (inferType_mdata_returns_iff.mp h)
  | _ => exact ⟨n, h⟩

/-- A typed statement is what it was read as, if the constant of equivalences has
no universe parameters. -/
theorem Statement.toExpr_of_inferType {env : Environment} {n : Nat} {Γ : LocalContext}
    {target T : Expr} {u u' : UInt64} {s : Statement}
    (hiff : ∀ c, env.find? Vocabulary.iff = some c → c.levelParams = [])
    (hs : target.statement? = some s) (h : (env.inferType n Γ target).Returns u T u') :
    target.stripMData = s.toExpr := by
  rcases Expr.statement?_eq_some hs with ⟨-, ht⟩ | ⟨hr, -, -, ls, ht⟩
  · exact ht
  · obtain ⟨n, h⟩ := Environment.exists_inferType_stripMData h
    rw [ht, Expr.mkApp_cons, Expr.mkApp_cons, Expr.mkApp_nil] at h
    -- A term that has a type gives a constant as many levels as it has parameters.
    obtain ⟨⟨⟨info, hinfo, hlen⟩, -⟩, -⟩ := Environment.constsIn_of_inferType h
    rw [hiff info hinfo, List.length_nil] at hlen
    obtain rfl := List.length_eq_zero_iff.mp hlen.symm
    rw [ht, Statement.toExpr, Statement.rebuild, hr]
    rfl

/-- What is around a side of a well-scoped statement is closed. -/
theorem Statement.closedUnder_of_scoped {target : Expr} {s : Statement}
    (hs : target.statement? = some s) (htarget : target.stripMData = s.toExpr)
    (hscoped : target.Scoped 0) (hwidth : target.nesting < 2 ^ 32) (side : Side) :
    s.carrier.closedUnder 0 ∧ (s.otherSide side).closedUnder 0 := by
  have hscoped := hscoped.stripMData
  rw [← Expr.nesting_stripMData] at hwidth
  rw [htarget, toExpr, rebuild] at hscoped hwidth
  rcases Expr.statement?_eq_some hs with ⟨hr, -⟩ | ⟨hr, -, hcarrier, -⟩
  · simp only [hr, Expr.mkEq, Expr.mkApp_cons, Expr.mkApp_nil, Expr.Scoped, Expr.nesting]
      at hscoped hwidth
    refine ⟨hscoped.1.1.2.closedUnder (by omega), ?_⟩
    cases side
    · exact hscoped.2.closedUnder (by omega)
    · exact hscoped.1.2.closedUnder (by omega)
  · simp only [hr, Expr.mkIff, Expr.mkApp_cons, Expr.mkApp_nil, Expr.Scoped, Expr.nesting]
      at hscoped hwidth
    refine ⟨hcarrier ▸ rfl, ?_⟩
    cases side
    · exact hscoped.2.closedUnder (by omega)
    · exact hscoped.1.2.closedUnder (by omega)

/-- A path from a side is one from the statement that goes through the side. -/
theorem Statement.subterm?_side {target : Expr} {s : Statement}
    (htarget : target.stripMData = s.toExpr) (side : Side) (ρ : Path) :
    target.subterm? (side.path ++ ρ) = (s.side side).subterm? ρ := by
  rw [← Expr.subterm?_stripMData, htarget, toExpr, rebuild]
  cases s.relation <;> cases side <;> rfl

theorem Statement.fvarsIn_side {target : Expr} {s : Statement} {p : FVarId → Prop}
    (htarget : target.stripMData = s.toExpr) (h : target.FVarsIn p) (side : Side) :
    (s.side side).FVarsIn p := by
  have h := h.stripMData
  rw [htarget, toExpr, rebuild] at h
  cases hr : s.relation <;>
    simp only [hr, Expr.mkEq, Expr.mkIff, Expr.mkApp_cons, Expr.mkApp_nil, Expr.FVarsIn] at h <;>
    cases side
  · exact h.1.2
  · exact h.2
  · exact h.1.2
  · exact h.2

/-! ### A side and the whole -/

/-- A match that is found is rewritten by its rule where it is. -/
theorem ProofState.rewriteAtLocation_found_iff {fuel : Nat} {st : ProofState} {loc : Location}
    {site : Site} {target : Expr} {side : Option Side} {scope : Scope} {rules : List Rule}
    {found : List (Nat × Match)} {k i : Nat} {m : Match}
    (hsite : (st.resolve loc).run = some (.ok site))
    (htarget : (st.statementAt site).run = some (.ok target))
    (hscope : Scope.select target side = .ok scope)
    (hfound : st.foundIn? fuel rules scope = some found) (hk : found[k]? = some (i, m))
    (st' : ProofState) :
    (st.rewriteAtLocation fuel ⟨side, k, rules, none⟩ loc).run = some (.ok st') ↔
      ∃ r eq, rules[i]? = some r ∧ scope.prove st.env r m = .ok eq ∧
        (st.replace site eq).run = some (.ok st') := by
  rw [rewriteAtLocation_eq_ok_iff (Eq.refl none)
    (surveyAt_eq_ok.mpr ⟨hsite, htarget, hscope⟩) hfound]
  simp [hk]

/-- Replacements by equations that agree are stored alike. -/
theorem ProofState.storedAt?_agrees {st st₁ st₂ : ProofState} {loc : Location} {site : Site}
    {eq eq' : Equation} (hsite : (st.resolve loc).run = some (.ok site)) (h : eq.Agrees eq')
    (h₁ : (st.replace site eq).run = some (.ok st₁))
    (h₂ : (st.replace site eq').run = some (.ok st₂)) :
    ∃ new₁ new₂, st₁.storedAt? loc = some new₁ ∧ st₂.storedAt? loc = some new₂ ∧
      new₁.eqModMData new₂ = true := by
  obtain ⟨st', hst', halike⟩ := replace_agrees h h₁
  obtain rfl := Except.ok.inj (Option.some.inj (h₂.symm.trans hst'))
  obtain ⟨new₁, hnew₁⟩ := Option.isSome_iff_exists.mp (isSome_storedAt?_replace hsite h₁)
  have hskel := halike loc
  rw [hnew₁, Option.map_some, eq_comm] at hskel
  obtain ⟨new₂, hnew₂, heq⟩ := Option.map_eq_some_iff.mp hskel
  exact ⟨new₁, new₂, hnew₁, hnew₂, (Expr.eqModMData_iff _ _).mpr heq.symm⟩

/-- A side of a typed statement is searched like the whole of it: what is found
is what is found in the whole at the paths through the side, in the same order
and with the same rules and values.  A match of the side can be rewritten just if
it can be rewritten as a match of the whole, and that has the same result up to
metadata.  This is so of every statement about variables that a checker does not
draw, in which the counts of binders and of variables do not come to their
end. -/
theorem rewrite_side_iff {fuel : Nat} {st : ProofState} {loc : Location} {site : Site}
    {g : Goal} {Γ : LocalContext} {target T : Expr} {s : Statement} {side : Side}
    {rules : List Rule} {n : Nat} {u u' : UInt64} {found : List (Nat × Match)}
    (hfree : st.env.FVarFree)
    (hiff : ∀ c, st.env.find? Vocabulary.iff = some c → c.levelParams = [])
    (hg : st.currentGoal? = some g) (hΓ : st.localContext? g = some Γ)
    (hsite : (st.resolve loc).run = some (.ok site))
    (htarget : (st.statementAt site).run = some (.ok target)) (hs : target.statement? = some s)
    (htyped : (st.env.inferType n Γ target).Returns u T u')
    (hlocals : Γ.FVarsIn FVarId.IsOuter) (hfvars : target.FVarsIn FVarId.IsOuter)
    (hwidth : target.nesting < 2 ^ 32)
    (hroom : (rules.map fun r => r.draws ⟨st.env, Γ, fuel⟩ none target).sum < 3 * 2 ^ 62)
    (hfound : st.foundIn? fuel rules (.whole target) = some found) :
    st.foundIn? fuel rules (.ofSide s side) = some (matchesFrom side.path found) ∧
      ∀ (j i : Nat) (m : Match), (matchesFrom side.path found)[j]? = some (i, m) →
        ∃ k : Nat, found[k]? = some (i, m.beneath side.path) ∧
          (matchesFrom side.path (found.take k)).length = j ∧
          ((∃ st', (st.rewriteAtLocation fuel ⟨some side, j, rules, none⟩ loc).run =
              some (.ok st')) ↔
            ∃ st', (st.rewriteAtLocation fuel ⟨none, k, rules, none⟩ loc).run = some (.ok st')) ∧
          ∀ st₁ st₂, (st.rewriteAtLocation fuel ⟨some side, j, rules, none⟩ loc).run =
              some (.ok st₁) →
            (st.rewriteAtLocation fuel ⟨none, k, rules, none⟩ loc).run = some (.ok st₂) →
            ∃ new₁ new₂, st₁.storedAt? loc = some new₁ ∧ st₂.storedAt? loc = some new₂ ∧
              new₁.eqModMData new₂ = true := by
  have hread := Statement.toExpr_of_inferType hiff hs htyped
  obtain ⟨hcarrier, hother⟩ :=
    Statement.closedUnder_of_scoped hs hread (Environment.scoped_of_inferType htyped) hwidth side
  -- The side is searched with the checker of the whole.
  have hsearches : ∀ scope, st.foundIn? fuel rules scope =
      (findAll ⟨st.env, Γ, fuel⟩ none rules scope.host).runFresh := by
    intro scope
    rw [ProofState.foundIn?, hg]
    simp [ProofState.checker?, hΓ]
  have hfoundSide : st.foundIn? fuel rules (.ofSide s side) =
      some (matchesFrom side.path found) := by
    rw [hsearches] at hfound ⊢
    rw [Scope.host_ofSide]
    exact findAll_part hfree hlocals hfvars (Statement.fvarsIn_side hread hfvars side)
      (Statement.subterm?_side hread side) hroom hfound
  refine ⟨hfoundSide, fun j i m hj => ?_⟩
  obtain ⟨k, hk, hcount⟩ := exists_of_getElem?_matchesFrom hj
  -- Both rewrites prove an equation of the whole statement, and the two agree.
  have hselect : Scope.select target (some side) = .ok (.ofSide s side) := by
    simp [Scope.select, hs]
  have hwhole := ProofState.rewriteAtLocation_found_iff hsite htarget
    (show Scope.select target none = .ok _ from rfl) hfound hk
  have hside := ProofState.rewriteAtLocation_found_iff hsite htarget hselect hfoundSide hj
  have hprove := fun r => @Scope.prove_side st.env r m target s side hread hcarrier hother
  refine ⟨k, hk, hcount, ⟨?_, ?_⟩, ?_⟩
  · rintro ⟨st', h⟩
    obtain ⟨r, eq, hr, heq, hreplace⟩ := (hside st').mp h
    obtain ⟨eq', heq', hagrees⟩ := (hprove r).2 eq heq
    obtain ⟨st'', hst'', -⟩ := ProofState.replace_agrees hagrees hreplace
    exact ⟨st'', (hwhole st'').mpr ⟨r, eq', hr, heq', hst''⟩⟩
  · rintro ⟨st', h⟩
    obtain ⟨r, eq, hr, heq, hreplace⟩ := (hwhole st').mp h
    obtain ⟨eq', heq', hagrees⟩ := (hprove r).1 eq heq
    obtain ⟨st'', hst'', -⟩ := ProofState.replace_agrees hagrees hreplace
    exact ⟨st'', (hside st'').mpr ⟨r, eq', hr, heq', hst''⟩⟩
  · intro st₁ st₂ h₁ h₂
    obtain ⟨r, eq, hr, heq, hreplace⟩ := (hside st₁).mp h₁
    obtain ⟨r', eq', hr', heq', hreplace'⟩ := (hwhole st₂).mp h₂
    obtain rfl := Option.some.inj (hr.symm.trans hr')
    obtain ⟨eq'', heq'', hagrees⟩ := (hprove r).2 eq heq
    obtain rfl := Except.ok.inj (heq'.symm.trans heq'')
    exact ProofState.storedAt?_agrees hsite hagrees hreplace hreplace'

/-! ### The number of a function -/

namespace BySide

/-- The natural numbers. -/
def nat : Expr := .const Vocabulary.nat []

/-- The functions from numbers to texts. -/
def functions : Expr := .arrow nat (.const Vocabulary.string [])

/-- The function with one value. -/
def constantly (e : Expr) : Expr := .lam .default nat e

/-- The text that is a constant. -/
def text : Expr := .const (.simple "t") []

/-- The number of a function. -/
def number (f : Expr) : Expr := .app (.const (.simple "K") []) f

/-- The prelude with numbers of functions, a text, a number, and the rule that
all functions have that number. -/
def env : Environment := ⟨Prelude.constants ++
  [⟨.simple "K", [], .arrow functions nat, none⟩, ⟨.simple "t", [], .const Vocabulary.string [], none⟩,
    ⟨.simple "c", [], nat, none⟩,
    ⟨.simple "r", [], .pi .default functions
      (.mkEq .one nat (number (.bvar 0)) (.const (.simple "c") [])), none⟩,
    ⟨.simple "G", [], .arrow functions (.arrow nat nat), none⟩]⟩

/-- The equation of a number and that of the function of a text. -/
def statement (x : FVarId) : Statement :=
  ⟨.eq, .one, nat, .mkApp (.const (.simple "G") []) [constantly text, number (constantly text)],
    number (constantly (.fvar x))⟩

def target (x : FVarId) : Expr := (statement x).toExpr

/-- The text that is a variable. -/
def hyps (x : FVarId) : List Hypothesis := [⟨x, "F", .const Vocabulary.string [], none⟩]

def start (x : FVarId) : ProofState := .start env (target x) (hyps x)

def goal (x : FVarId) : Goal := ⟨⟨0⟩, target x, hyps x⟩

/-- The rule. -/
def rule : Rule :=
  ⟨.const (.simple "r") [], [functions],
    ⟨.eq, .one, nat, number (.bvar 0), .const (.simple "c") []⟩, false, "r"⟩

/-- The number of a function as it is found. -/
def occurrence (π : Path) (e : Expr) : Nat × Match :=
  (0, ⟨π, number (constantly e), [some (constantly e)]⟩)

theorem extendsPrelude_env : env.ExtendsPrelude := by
  have h : Environment.declareAll ⟨Prelude.constants⟩ 50
      (env.constants.drop Prelude.constants.length) = some (env, .ok ()) := by rfl
  exact Environment.of_declareAll .declare Environment.extendsPrelude_prelude h

/-- The context of the goal: the text and the hole. -/
def context (x : FVarId) : LocalContext :=
  (LocalContext.empty.push x (.simple "F") (.const Vocabulary.string [])).push
    (MetaId.toFVar ⟨0⟩) (.simple "?m0") (target x)

/-- The second variable that a checker draws. -/
def captured : FVarId := ⟨Checker.firstFresh + 1⟩

theorem localContext?_start {x : FVarId} (hx : x = ⟨0⟩ ∨ x = captured) :
    (start x).localContext? (goal x) = some (context x) := by
  rcases hx with rfl | rfl <;> rfl

theorem inferType_target {x : FVarId} (hx : x = ⟨0⟩ ∨ x = captured) :
    (env.inferType 8 (context x) (target x)).Returns Checker.firstFresh .prop
      (Checker.firstFresh + 3) := by
  rcases hx with rfl | rfl <;> rfl

/-- The statements are types, whether or not a checker draws the variable. -/
theorem wellTyped {x : FVarId} (hx : x = ⟨0⟩ ∨ x = captured) : (start x).WellTyped where
  env := extendsPrelude_env.checked
  context g Γ hg hΓ entry hentry := by
    obtain rfl := Option.some.inj hg
    obtain rfl := Option.some.inj ((localContext?_start hx).symm.trans hΓ)
    rcases List.mem_cons.mp hentry with rfl | hentry
    · exact ⟨8, _, _, _, _, inferType_target hx, by rfl⟩
    · obtain rfl := List.mem_singleton.mp hentry
      rcases hx with rfl | rfl <;> exact ⟨8, Checker.firstFresh, _, _, _, by rfl, by rfl⟩
  target g Γ e hg hΓ he := by
    obtain rfl := Option.some.inj hg
    obtain rfl := Option.some.inj ((localContext?_start hx).symm.trans hΓ)
    obtain rfl : target x = e := by
      rcases hx with rfl | rfl <;> exact Option.some.inj he
    exact ⟨8, _, _, _, _, inferType_target hx, by rfl⟩
  values v hv e he := by
    obtain rfl := List.mem_singleton.mp hv
    cases he
  nodup g hg := by
    obtain rfl := Option.some.inj hg
    exact List.pairwise_singleton _ x

end BySide

open BySide in
/-- The number of the function of a variable is found in the statement after
another one, and by itself in the right side; both rewrites succeed, and lead to
one statement. -/
theorem number_rewritten_by_side :
    (start ⟨0⟩).foundIn? 20 [rule] (.ofSide (statement ⟨0⟩) .rhs) =
        some [occurrence [] (.fvar ⟨0⟩)] ∧
      ∃ st₁ st₂ new₁ new₂,
        ((start ⟨0⟩).rewriteAtLocation 20 ⟨some .rhs, 0, [rule], none⟩ .goal).run =
            some (.ok st₁) ∧
          ((start ⟨0⟩).rewriteAtLocation 20 ⟨none, 1, [rule], none⟩ .goal).run =
            some (.ok st₂) ∧
          st₁.storedAt? .goal = some new₁ ∧ st₂.storedAt? .goal = some new₂ ∧
            new₁.eqModMData new₂ = true := by
  have hfree : env.FVarFree := Environment.fvarFree_prelude_append (by decide)
  have hfound : (start ⟨0⟩).foundIn? 20 [rule] (.whole (target ⟨0⟩)) =
      some [occurrence [.appFn, .appArg, .appArg] text, occurrence [.appArg] (.fvar ⟨0⟩)] := by
    decide +kernel
  have hiff : ∀ c, env.find? Vocabulary.iff = some c → c.levelParams = [] := by
    intro c hc
    rw [extendsPrelude_env.find?_eq (n := Vocabulary.iff) rfl] at hc
    exact Option.some.inj hc ▸ rfl
  obtain ⟨hside, hrewrites⟩ := @rewrite_side_iff 20 (start ⟨0⟩) .goal .goal (goal ⟨0⟩) _ _ _
    (statement ⟨0⟩) .rhs [rule] _ _ _ _ hfree hiff rfl (localContext?_start (.inl rfl)) rfl rfl
    rfl (inferType_target (.inl rfl)) (by decide) (by decide) (by decide) (by decide +kernel) hfound
  refine ⟨hside, ?_⟩
  obtain ⟨k, hk, -, hiff, hsame⟩ := hrewrites 0 0 _ rfl
  -- the first number of the statement is another one
  obtain rfl : k = 1 := by
    rcases k with _ | _ | k
    · exact absurd (Option.some.inj hk) (by decide)
    · rfl
    · cases hk
  have hok : ((start ⟨0⟩).rewriteAtLocation 20 ⟨none, 1, [rule], none⟩ .goal).run.map
      Except.isOk = some true := by
    decide +kernel
  obtain ⟨_ | st₂, h₂, hst₂⟩ := Option.map_eq_some_iff.mp hok
  · cases hst₂
  obtain ⟨st₁, h₁⟩ := hiff.mpr ⟨st₂, h₂⟩
  obtain ⟨new₁, new₂, hnew₁, hnew₂, hnew⟩ := hsame st₁ st₂ h₁ h₂
  exact ⟨st₁, st₂, new₁, new₂, h₁, h₂, hnew₁, hnew₂, hnew⟩

open BySide in
/-- If the variable is the one that a checker draws next, after the first number,
then a search of the whole statement takes the second function for one of
numbers, and passes over it; a search of the side does not. -/
theorem captured_match_of_side_alone :
    ¬ ∀ {fuel : Nat} {st : ProofState} {loc : Location} {site : Site} {target : Expr}
      {s : Statement} {side : Side} {rules : List Rule} {found found' : List (Nat × Match)},
      st.env.ExtendsPrelude → st.WellTyped → (st.resolve loc).run = some (.ok site) →
      (st.statementAt site).run = some (.ok target) → target.statement? = some s →
      st.foundIn? fuel rules (.whole target) = some found →
      st.foundIn? fuel rules (.ofSide s side) = some found' →
      found' = matchesFrom side.path found := by
  intro h
  have hwhole : (start captured).foundIn? 20 [rule] (.whole (target captured)) =
      some [occurrence [.appFn, .appArg, .appArg] text] := by
    decide +kernel
  have hside : (start captured).foundIn? 20 [rule] (.ofSide (statement captured) .rhs) =
      some [occurrence [] (.fvar captured)] := by
    decide +kernel
  have hfound := @h 20 (start captured) .goal .goal _ _ .rhs _ _ _ extendsPrelude_env
    (wellTyped (.inr rfl)) rfl rfl rfl hwhole hside
  exact absurd hfound (by decide)

end Pinpoint
