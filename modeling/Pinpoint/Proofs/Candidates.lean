/-
The order of a search.

The paths of a term are enumerated in pre-order (`Expr.positions`): a path
before those that go on from it, and the parts of a term in the order function,
argument; type, value, body (`Path.Before`).  Metadata takes no step.  What a
rule finds at a path without asking the checker is a candidate.

* `Expr.mem_positions_iff`, `Expr.positions_pairwise` — the enumeration has each
  path that leads to a subterm, in order;
* `Rule.mem_candidates_iff`, `Rule.candidates_pairwise` — so have the candidates
  of a rule;
* `Rule.findMatches_eq_keep` — a search is a walk through the candidates that
  are no deeper than its limit, which asks the checker about each in turn.
-/
import Mathlib.Data.List.Lex
import Pinpoint.Rewrite.Matching

namespace Pinpoint

/-- The order of the steps from one term. -/
inductive Step.Before : Step → Step → Prop
  | appFn_appArg : Before .appFn .appArg
  | binderType_binderBody : Before .binderType .binderBody
  | letType_letValue : Before .letType .letValue
  | letType_letBody : Before .letType .letBody
  | letValue_letBody : Before .letValue .letBody

namespace Path

/-- Pre-order: a path comes before those that go on from it, and two paths that
part come in the order of the steps with which they do. -/
def Before : Path → Path → Prop := List.Lex Step.Before

/-- Whether a path is no longer than a limit, if there is one. -/
def within (limit : Option Nat) (π : Path) : Bool := limit.all (π.length ≤ ·)

theorem pairwise_under {πs : List Path} (h : πs.Pairwise Before) (s : Step) :
    (πs.map (s :: ·)).Pairwise Before :=
  List.pairwise_map.mpr (h.imp .cons)

theorem before_under {s s' : Step} (hs : s.Before s') (πs πs' : List Path) :
    ∀ π ∈ πs.map (s :: ·), ∀ π' ∈ πs'.map (s' :: ·), Before π π' := by
  intro π hπ π' hπ'
  obtain ⟨ρ, -, rfl⟩ := List.mem_map.mp hπ
  obtain ⟨ρ', -, rfl⟩ := List.mem_map.mp hπ'
  exact .rel hs

theorem nil_before_under (s : Step) (πs : List Path) :
    ∀ π ∈ πs.map (s :: ·), Before [] π := by
  intro π hπ
  obtain ⟨ρ, -, rfl⟩ := List.mem_map.mp hπ
  exact .nil

end Path

/-! ### The paths of a term -/

namespace Expr

/-- The paths to the subterms of a term. -/
def positions : Expr → List Path
  | .mdata _ e => e.positions
  | .app f a => [] :: (f.positions.map (.appFn :: ·) ++ a.positions.map (.appArg :: ·))
  | .lam _ t b => [] :: (t.positions.map (.binderType :: ·) ++ b.positions.map (.binderBody :: ·))
  | .pi _ t b => [] :: (t.positions.map (.binderType :: ·) ++ b.positions.map (.binderBody :: ·))
  | .letE t v b =>
    [] :: (t.positions.map (.letType :: ·) ++
      (v.positions.map (.letValue :: ·) ++ b.positions.map (.letBody :: ·)))
  | _ => [[]]

theorem mem_positions_iff {e : Expr} {π : Path} : π ∈ e.positions ↔ (e.subterm? π).isSome := by
  induction e generalizing π with
  | mdata m e ih => rw [positions, ih, subterm?_mdata]
  | app f a ihf iha =>
    rcases π with _ | ⟨s, π⟩
    · simp [positions, subterm?]
    · cases s <;> simp [positions, subterm?, ihf, iha]
  | lam i t b iht ihb | pi i t b iht ihb =>
    rcases π with _ | ⟨s, π⟩
    · simp [positions, subterm?]
    · cases s <;> simp [positions, subterm?, iht, ihb]
  | letE t v b iht ihv ihb =>
    rcases π with _ | ⟨s, π⟩
    · simp [positions, subterm?]
    · cases s <;> simp [positions, subterm?, iht, ihv, ihb]
  | _ => rcases π with _ | ⟨s, π⟩ <;> simp [positions, subterm?]

/-- Two parts in a row, after the term itself. -/
theorem pairwise_parts {s s' : Step} {πs πs' : List Path} (hs : s.Before s')
    (h : πs.Pairwise Path.Before) (h' : πs'.Pairwise Path.Before) :
    ([] :: (πs.map (s :: ·) ++ πs'.map (s' :: ·))).Pairwise Path.Before := by
  refine List.pairwise_cons.mpr ⟨fun π hπ => ?_, List.pairwise_append.mpr
    ⟨Path.pairwise_under h s, Path.pairwise_under h' s', Path.before_under hs πs πs'⟩⟩
  rcases List.mem_append.mp hπ with hπ | hπ
  · exact Path.nil_before_under s πs π hπ
  · exact Path.nil_before_under s' πs' π hπ

theorem positions_pairwise (e : Expr) : e.positions.Pairwise Path.Before := by
  induction e with
  | mdata m e ih => exact ih
  | app f a ihf iha => exact pairwise_parts .appFn_appArg ihf iha
  | lam i t b iht ihb | pi i t b iht ihb => exact pairwise_parts .binderType_binderBody iht ihb
  | letE t v b iht ihv ihb =>
    have hrest := List.pairwise_cons.mp (pairwise_parts .letValue_letBody ihv ihb)
    refine List.pairwise_cons.mpr ⟨fun π hπ => ?_, List.pairwise_append.mpr
      ⟨Path.pairwise_under iht _, hrest.2, fun π hπ π' hπ' => ?_⟩⟩
    · rcases List.mem_append.mp hπ with hπ | hπ
      · exact Path.nil_before_under _ _ π hπ
      · exact hrest.1 π hπ
    · rcases List.mem_append.mp hπ' with hπ' | hπ'
      · exact Path.before_under .letType_letValue _ _ π hπ π' hπ'
      · exact Path.before_under .letType_letBody _ _ π hπ π' hπ'
  | _ => exact List.pairwise_singleton _ _

end Expr

/-! ### Candidates -/

namespace Rule

variable {r : Rule} {e : Expr} {m : Match} {π : Path}

/-- What a rule matches at a path, whatever the types of the values. -/
def candidate? (r : Rule) (e : Expr) (π : Path) : Option Match :=
  (e.subterm? π).bind fun t =>
    if t.hasLooseBVars then none else (r.match? t).map fun subst => ⟨π, t, subst⟩

/-- What a rule matches in a term, in pre-order. -/
def candidates (r : Rule) (e : Expr) : List Match := e.positions.filterMap (r.candidate? e)

theorem candidate?_eq_some :
    r.candidate? e π = some m ↔
      m.path = π ∧ e.subterm? m.path = some m.subterm ∧ m.subterm.hasLooseBVars = false ∧
        r.match? m.subterm = some m.subst := by
  obtain ⟨path, subterm, subst⟩ := m
  unfold candidate?
  rw [Option.bind_eq_some_iff]
  constructor
  · rintro ⟨t, ht, h⟩
    split at h
    · cases h
    · rename_i hloose
      obtain ⟨subst, hsubst, heq⟩ := Option.map_eq_some_iff.mp h
      cases heq
      exact ⟨rfl, ht, by simpa using hloose, hsubst⟩
  · rintro ⟨rfl, ht, hloose, hsubst⟩
    refine ⟨subterm, ht, ?_⟩
    rw [if_neg (by simp [hloose]), hsubst]
    rfl

/-- A rule has one candidate for each path to a closed subterm that it matches. -/
theorem mem_candidates_iff :
    m ∈ r.candidates e ↔
      e.subterm? m.path = some m.subterm ∧ m.subterm.hasLooseBVars = false ∧
        r.match? m.subterm = some m.subst := by
  unfold candidates
  rw [List.mem_filterMap]
  constructor
  · rintro ⟨π, -, h⟩
    exact (candidate?_eq_some.mp h).2
  · intro h
    exact ⟨m.path, Expr.mem_positions_iff.mpr (by rw [h.1]; rfl), candidate?_eq_some.mpr ⟨rfl, h⟩⟩

theorem candidates_pairwise (r : Rule) (e : Expr) :
    (r.candidates e).Pairwise fun m m' => m.path.Before m'.path := by
  refine List.Pairwise.filterMap _ (fun π π' hπ m hm m' hm' => ?_) e.positions_pairwise
  rw [(candidate?_eq_some.mp hm).1, (candidate?_eq_some.mp hm').1]
  exact hπ

/-- The candidates in a part are those of the whole, one step deeper. -/
theorem filterMap_candidate? {p : Expr} {s : Step}
    (hstep : ∀ π, e.subterm? (s :: π) = p.subterm? π) :
    (p.positions.map (s :: ·)).filterMap (r.candidate? e) =
      (r.candidates p).map (Match.under s) := by
  have hcandidate : r.candidate? e ∘ (s :: ·) =
      fun π => (r.candidate? p π).map (Match.under s) := by
    funext π
    show r.candidate? e (s :: π) = _
    unfold candidate?
    rw [hstep]
    cases p.subterm? π with
    | none => rfl
    | some t =>
      show (if t.hasLooseBVars then none else _) = Option.map _ (if t.hasLooseBVars then none else _)
      split
      · rfl
      · rw [Option.map_map]
        rfl
  rw [List.filterMap_map, hcandidate, candidates, List.map_filterMap]

end Rule

/-! ### The walk through the candidates -/

/-- The elements that a test accepts; all are tested, in order. -/
def Supply.keep {α : Type} (test : α → Supply Bool) : List α → Supply (List α)
  | [] => pure []
  | a :: as => do
    let accepted ← test a
    let rest ← keep test as
    return if accepted then a :: rest else rest

namespace Supply

variable {α β : Type} {test : α → Supply Bool}

theorem keep_append (as bs : List α) :
    keep test (as ++ bs) = do return (← keep test as) ++ (← keep test bs) := by
  induction as with
  | nil => simp [keep]
  | cons a as ih =>
    simp only [List.cons_append, keep, ih, bind_assoc, pure_bind]
    refine bind_congr fun accepted => bind_congr fun kept => bind_congr fun rest => ?_
    cases accepted <;> rfl

theorem keep_map {test : β → Supply Bool} (f : α → β) (as : List α) :
    keep test (as.map f) = do return (← keep (fun a => test (f a)) as).map f := by
  induction as with
  | nil => simp [keep]
  | cons a as ih =>
    simp only [List.map_cons, keep, ih, bind_assoc, pure_bind]
    refine bind_congr fun accepted => bind_congr fun kept => ?_
    cases accepted <;> rfl

end Supply

namespace Rule

open Supply (keep keep_append keep_map)

variable {checker : Checker} {r : Rule} {e : Expr} {limit : Option Nat}

/-- The candidates that are no deeper than a limit. -/
def candidatesWithin (r : Rule) (limit : Option Nat) (e : Expr) : List Match :=
  (r.candidates e).filter (·.path.within limit)

/-- Asks the checker about a candidate. -/
def accepts (checker : Checker) (r : Rule) (m : Match) : Supply Bool := r.wellTyped checker m.subst

theorem matchRoot_eq_keep (he : e.stripMData = e) :
    r.matchRoot checker e = keep (r.accepts checker) (r.candidate? e []).toList := by
  unfold matchRoot candidate?
  rw [Expr.subterm?_nil, he, Option.bind_some]
  split
  · rfl
  · split
    · rename_i hmatch
      rw [hmatch]
      rfl
    · rename_i subst hmatch
      rw [hmatch]
      simp only [Option.map_some, Option.toList_some, keep, pure_bind, accepts]
      refine bind_congr fun accepted => ?_
      cases accepted <;> rfl

/-- The search in a part, for the candidates of the whole that lie there. -/
theorem inPart_eq_keep {part : Expr} {s : Step} {search : Option Nat → Supply (List Match)}
    (hsearch : ∀ limit, search limit = keep (r.accepts checker) (r.candidatesWithin limit part)) :
    inPart limit s search = keep (r.accepts checker)
      (((r.candidates part).map (Match.under s)).filter (·.path.within limit)) := by
  have hkeep : ∀ limit', (∀ m : Match, (m.under s).path.within limit = m.path.within limit') →
      (do return (← search limit').map (Match.under s)) = keep (r.accepts checker)
        (((r.candidates part).map (Match.under s)).filter (·.path.within limit)) := by
    intro limit' hlimit
    have hfilter : ((·.path.within limit) ∘ Match.under s) = (·.path.within limit') :=
      funext hlimit
    rw [List.filter_map, hfilter, keep_map, hsearch]
    rfl
  rcases limit with _ | _ | d
  · exact hkeep none fun m => rfl
  · have hnil : ((r.candidates part).map (Match.under s)).filter (·.path.within (some 0)) = [] := by
      rw [List.filter_eq_nil_iff]
      intro m hm
      obtain ⟨m, -, rfl⟩ := List.mem_map.mp hm
      simp [Path.within, Match.under]
    rw [hnil]
    rfl
  · exact hkeep (some d) fun m => by simp [Path.within, Match.under]

/-- A root that is no deeper than any limit. -/
theorem filter_candidate?_nil :
    (r.candidate? e []).toList.filter (·.path.within limit) = (r.candidate? e []).toList := by
  rw [List.filter_eq_self]
  intro m hm
  rw [(candidate?_eq_some.mp (Option.mem_toList.mp hm)).1]
  cases limit <;> rfl

theorem candidates_eq_append {πs : List Path} (h : e.positions = [] :: πs) :
    r.candidates e = (r.candidate? e []).toList ++ πs.filterMap (r.candidate? e) := by
  rw [candidates, h, List.filterMap_cons]
  cases r.candidate? e [] <;> rfl

/-- A term with two parts: it is asked about before them. -/
theorem parts_eq_keep {part part' : Expr} {s s' : Step}
    {search search' : Option Nat → Supply (List Match)} (he : e.stripMData = e)
    (hpositions : e.positions =
      [] :: (part.positions.map (s :: ·) ++ part'.positions.map (s' :: ·)))
    (hstep : ∀ π, e.subterm? (s :: π) = part.subterm? π)
    (hstep' : ∀ π, e.subterm? (s' :: π) = part'.subterm? π)
    (h : ∀ limit, search limit = keep (r.accepts checker) (r.candidatesWithin limit part))
    (h' : ∀ limit, search' limit = keep (r.accepts checker) (r.candidatesWithin limit part')) :
    (do
      let here ← r.matchRoot checker e
      let found ← inPart limit s search
      let found' ← inPart limit s' search'
      return here ++ found ++ found') = keep (r.accepts checker) (r.candidatesWithin limit e) := by
  rw [matchRoot_eq_keep he, inPart_eq_keep h, inPart_eq_keep h', candidatesWithin,
    candidates_eq_append hpositions, List.filterMap_append, filterMap_candidate? hstep,
    filterMap_candidate? hstep']
  simp only [List.filter_append, filter_candidate?_nil, keep_append, bind_assoc, pure_bind,
    List.append_assoc]

/-- A search asks the checker about each candidate within its limit, in order,
and keeps those that are accepted. -/
theorem findMatches_eq_keep (checker : Checker) (r : Rule) (e : Expr) (limit : Option Nat) :
    r.findMatches checker e limit = keep (r.accepts checker) (r.candidatesWithin limit e) := by
  induction e generalizing limit with
  | mdata m e ih =>
    simp only [findMatches, ih]
    unfold candidatesWithin candidates candidate?
    simp only [Expr.subterm?_mdata, Expr.positions]
  | app f a ihf iha =>
    simp only [findMatches]
    exact parts_eq_keep rfl rfl (fun π => by rw [Expr.subterm?]) (fun π => by rw [Expr.subterm?])
      ihf iha
  | lam i t b iht ihb | pi i t b iht ihb =>
    simp only [findMatches]
    exact parts_eq_keep rfl rfl (fun π => by rw [Expr.subterm?]) (fun π => by rw [Expr.subterm?])
      iht ihb
  | letE t v b iht ihv ihb =>
    simp only [findMatches]
    rw [matchRoot_eq_keep rfl, inPart_eq_keep iht, inPart_eq_keep ihv, inPart_eq_keep ihb,
      candidatesWithin, candidates_eq_append (e := .letE t v b) rfl, List.filterMap_append,
      List.filterMap_append, filterMap_candidate? (p := t) fun π => by rw [Expr.subterm?],
      filterMap_candidate? (p := v) fun π => by rw [Expr.subterm?],
      filterMap_candidate? (p := b) fun π => by rw [Expr.subterm?]]
    simp only [List.filter_append, filter_candidate?_nil, keep_append, bind_assoc, pure_bind,
      List.append_assoc]
  | _ =>
    simp only [findMatches]
    rw [matchRoot_eq_keep rfl, candidatesWithin, candidates_eq_append rfl, List.filterMap_nil,
      List.append_nil, filter_candidate?_nil]

end Rule

end Pinpoint
