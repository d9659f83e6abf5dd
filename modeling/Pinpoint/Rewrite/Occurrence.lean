/-
Rewriting one chosen occurrence.

All rules are matched against the statement, or against one side of it; the
matches are counted in the order of the rules and then of the positions, and
the one with the requested number is rewritten.  Only that occurrence changes,
because the equation that justifies the step abstracts no other.

At a single location a rewrite either succeeds or leaves the state as it was.
Everywhere, it passes over the hypotheses at which it does not apply, and over
those that a rule uses; it fails if it applies nowhere, or goes wrong at the
target, and then keeps what it did to hypotheses before.
-/
import Pinpoint.Rewrite.Reflexivity
import Pinpoint.Rewrite.Scope
import Pinpoint.Rewrite.Site

namespace Pinpoint

/-- Options of a rewrite. -/
structure RewriteOptions where
  /-- Whether reflexivity is tried on the new goal. -/
  tryRfl : Bool := true
  /-- How many steps below the root occurrences are looked for. -/
  maxDepth : Option Nat := none
deriving DecidableEq, Repr

/-- A location that was passed over, and why. -/
structure Skipped where
  location : Location
  reason : String
deriving DecidableEq, Repr

/-- Where a rewrite took place and where it did not. -/
structure RewriteOutcome where
  rewritten : List Location
  skipped : List Skipped
deriving DecidableEq, Repr

/-- Which occurrence of which rules is rewritten. -/
structure Selection where
  side : Option Side
  index : Nat
  rules : List Rule
  maxDepth : Option Nat
deriving DecidableEq, Repr

namespace ProofState

/-- The equation between the statement at a site and the same statement with
the selected occurrence rewritten. -/
def selectedEquation (fuel : Nat) (st : ProofState) (sel : Selection) (site : Site) :
    QueryM Equation := do
  let target ← st.statementAt site
  let scope ← MonadExcept.ofExcept (Scope.select target sel.side)
  let checker ← st.mainChecker fuel
  let found ← (findAll checker sel.maxDepth sel.rules scope.host).runFresh
  match found[sel.index]? with
  | none => throw (.noMatch sel.index found.length)
  | some (i, m) =>
    match sel.rules[i]? with
    | none => throw (.noMatch sel.index found.length)
    | some r =>
      match scope.evaluate st.env r m with
      | .error e => throw (.evaluation sel.index e)
      | .ok eq =>
        match scope.side with
        | none => return eq
        | some (side, s) =>
          match Scope.lift st.env s eq side with
          | .error e => throw (.congruence side e)
          | .ok eq => return eq

end ProofState

/-- Rewrites the selected occurrence at a site. -/
def RewriteM.rewriteAt (fuel : Nat) (sel : Selection) (site : Site) : RewriteM Unit := do
  let eq ← ChangeM.ofQuery fun st => st.selectedEquation fuel sel site
  RewriteM.replace site eq

/-- The state with the selected occurrence at a site rewritten. -/
def ProofState.rewriteAt (fuel : Nat) (sel : Selection) (site : Site) (st : ProofState) :
    QueryM ProofState :=
  (RewriteM.rewriteAt fuel sel site).outcome st

namespace Selection

/-- Rewrites at one location. -/
def rewriteOne (fuel : Nat) (sel : Selection) (loc : Location) : RewriteM RewriteOutcome := do
  ExceptT.adapt (RewriteError.at loc) do
    let site ← ChangeM.ofQuery fun st => st.resolve loc
    RewriteM.rewriteAt fuel sel site
  return ⟨[loc], []⟩

/-- Rewrites at the given hypotheses, and passes over those at which that
fails and those that a rule uses. -/
def rewriteHyps (fuel : Nat) (sel : Selection) : List (String × FVarId) → RewriteM RewriteOutcome
  | [] => return ⟨[], []⟩
  | (name, x) :: hyps => do
    let skipReason : Option String ←
      if sel.rules.any fun r => r.proof.hasFVar x then pure (some "used by a rewrite rule")
      else
        try
          RewriteM.rewriteAt fuel sel (.hyp x)
          pure none
        catch e => pure (some e.message)
    let others ← rewriteHyps fuel sel hyps
    match skipReason with
    | none => return { others with rewritten := .hyp name :: others.rewritten }
    | some reason => return { others with skipped := ⟨.hyp name, reason⟩ :: others.skipped }

/-- Rewrites at the target after the hypotheses, and passes over it if there
is nothing to rewrite. -/
def rewriteGoal (fuel : Nat) (sel : Selection) : RewriteM RewriteOutcome := do
  try
    RewriteM.rewriteAt fuel sel .goal
    return ⟨[.goal], []⟩
  catch e =>
    if e.isNoMatch then return ⟨[], [⟨.goal, e.message⟩]⟩
    else throw (.at .goal e)

/-- Rewrites at every hypothesis and at the target. -/
def rewriteEverywhere (fuel : Nat) (sel : Selection) : RewriteM RewriteOutcome := do
  let hyps := (← get).hypotheses
  let atHyps ← sel.rewriteHyps fuel hyps
  let atGoal ← sel.rewriteGoal fuel
  let rewritten := atHyps.rewritten ++ atGoal.rewritten
  if rewritten.isEmpty then throw .nothingRewritten
  else return ⟨rewritten, atHyps.skipped ++ atGoal.skipped⟩

/-- Rewrites at a location. -/
def rewrite (fuel : Nat) (sel : Selection) : Location → RewriteM RewriteOutcome
  | .everywhere => sel.rewriteEverywhere fuel
  | loc => sel.rewriteOne fuel loc

end Selection

/-- Closes the goal by reflexivity, if that is possible. -/
def tryReflexivity (fuel : Nat) : RewriteM Unit := do
  let _ ← ChangeM.attempt (closeByReflexivity fuel)

/-- Rewrites one occurrence at a location with rules as they are given, and
then tries reflexivity if the options say so. -/
def nthRewrite (fuel : Nat) (side : Option Side) (index : Nat) (specs : List RuleSpec)
    (loc : Location) (options : RewriteOptions) : RewriteM RewriteOutcome := do
  let rules ← ChangeM.ofQuery fun st => do
    st.elaborateRules fuel (← st.mainGoal) specs
  let outcome ← Selection.rewrite fuel ⟨side, index, rules, options.maxDepth⟩ loc
  if options.tryRfl then tryReflexivity fuel
  return outcome

/-! ### Listing -/

/-- An occurrence in a list: where it is, the number that selects it, the
place of its rule, and its position and subterm in what is searched. -/
structure Occurrence where
  location : Location
  index : Nat
  rule : Nat
  path : Path
  subterm : Expr
deriving DecidableEq, Repr

/-- The statements that a location means; for all of them, those hypotheses
that no rule uses, and the target. -/
def ProofState.sites (st : ProofState) (rules : List Rule) :
    Location → QueryM (List (Location × Site))
  | .everywhere =>
    let hyps := st.hypotheses.filter fun (_, x) => !rules.any fun r => r.proof.hasFVar x
    return hyps.map (fun (n, x) => (.hyp n, .hyp x)) ++ [(.goal, .goal)]
  | loc => do
    let site ← ExceptT.adapt (RewriteError.at loc) (st.resolve loc)
    return [(loc, site)]

/-- What is searched at a site; none where a side is asked for of a statement
without sides, if such statements are left out. -/
def ProofState.scopeAt? (st : ProofState) (side : Option Side) (leaveOut : Bool) (site : Site) :
    QueryM (Option Scope) := do
  let target ← st.statementAt site
  match Scope.select target side with
  | .ok scope => return some scope
  | .error e => if leaveOut then return none else throw e

/-- The occurrences at each of the given sites. -/
def occurrencesAt (checker : Checker) (rules : List Rule) :
    List (Location × Scope) → Supply (List Occurrence)
  | [] => pure []
  | (loc, scope) :: rest => do
    let found ← findAll checker none rules scope.host
    let here := found.zipIdx.map fun ((r, m), i) => ⟨loc, i, r, m.path, m.subterm⟩
    return here ++ (← occurrencesAt checker rules rest)

/-- The occurrences that `nthRewrite` counts, at each location by
themselves. -/
def occurrences (fuel : Nat) (st : ProofState) (side : Option Side) (specs : List RuleSpec)
    (loc : Location) : QueryM (List Occurrence) := do
  let g ← st.mainGoal
  let rules ← st.elaborateRules fuel g specs
  let sites ← st.sites rules loc
  let scopes ← sites.filterMapM fun (loc', site) => do
    let scope ← ExceptT.adapt (RewriteError.at loc')
      (st.scopeAt? side (loc = .everywhere) site)
    return scope.map (loc', ·)
  let checker ← st.checker? fuel g
  (occurrencesAt checker rules scopes).runFresh

end Pinpoint
