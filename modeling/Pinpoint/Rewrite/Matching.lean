/-
Occurrences of a pattern.

A pattern is matched against a term part by part; a variable of the pattern
takes the term that it meets first, if no bound variable is loose in it, and
has to meet the same term again.  A match counts only if the value of each
variable has the variable's type.

`findMatches` tries all subterms in which no bound variable is loose: a term
before its parts, and the parts in the order function, argument; type, value,
body.
-/
import Pinpoint.Expr.Metadata
import Pinpoint.Expr.Position
import Pinpoint.Rewrite.Rule
import Pinpoint.Typing.Inference

namespace Pinpoint

/-- Values of the variables of a pattern, the outermost variable first; a
variable that the pattern does not mention has none. -/
abbrev Substitution := List (Option Expr)

/-- An occurrence of a pattern: where it is, what stands there, and the values
of the variables. -/
structure Match where
  path : Path
  subterm : Expr
  subst : Substitution
deriving DecidableEq, Repr

/-- The match in a term that has this one's host as a part. -/
def Match.under (s : Step) (m : Match) : Match := { m with path := s :: m.path }

/-! ### Matching -/

/-- Gives variable `k`, counted from the innermost one, the value `e`; a
variable with a value keeps it, and `e` has to be the same. -/
def Substitution.bind? (s : Substitution) (k : Nat) (e : Expr) : Option Substitution :=
  if k < s.length then
    let slot := s.length - 1 - k
    match s[slot]? with
    | some (some old) => if old.eqModMData e then some s else none
    | _ => some (s.set slot (some e))
  else none

/-- Matches a pattern under `depth` binders against a term under as many. -/
def matchAt? : Expr → UInt32 → Expr → Substitution → Option Substitution
  | .mdata _ p, d, e, s => matchAt? p d e s
  | .bvar i, d, e, s =>
    let e := e.stripMData
    if d ≤ i then if e.hasLooseBVars then none else s.bind? (i - d).toNat e
    else if e = .bvar i then some s
    else none
  | .app pf pa, d, e, s =>
    match e.stripMData with
    | .app f a => (matchAt? pf d f s).bind (matchAt? pa d a)
    | _ => none
  | .lam _ pt pb, d, e, s =>
    match e.stripMData with
    | .lam _ t b => (matchAt? pt d t s).bind (matchAt? pb (d + 1) b)
    | _ => none
  | .pi _ pt pb, d, e, s =>
    match e.stripMData with
    | .pi _ t b => (matchAt? pt d t s).bind (matchAt? pb (d + 1) b)
    | _ => none
  | .letE pt pv pb, d, e, s =>
    match e.stripMData with
    | .letE t v b =>
      ((matchAt? pt d t s).bind (matchAt? pv d v)).bind (matchAt? pb (d + 1) b)
    | _ => none
  | .sort l, _, e, s =>
    match e.stripMData with
    | .sort l' => if l.simplify = l'.simplify then some s else none
    | _ => none
  | .const n ls, _, e, s =>
    match e.stripMData with
    | .const n' ls' =>
      if n = n' ∧ ls.map Level.simplify = ls'.map Level.simplify then some s else none
    | _ => none
  | p, _, e, s => if p = e.stripMData then some s else none

/-- The values of a rule's variables that turn its pattern into the term. -/
def Rule.match? (r : Rule) (e : Expr) : Option Substitution :=
  matchAt? r.pattern 0 e (r.varTypes.map fun _ => none)

/-! ### Types of the values -/

/-- Whether a type mentions one of the variables before it that have no
value; `earlier` holds the values of the variables before it. -/
def dependsOnUnbound (type : Expr) (earlier : Substitution) : Bool :=
  earlier.reverse.zipIdx.any fun (v, i) =>
    v.isNone && type.hasLooseBVarInRange (UInt32.ofNat i) (UInt32.ofNat i + 1)

/-- Whether the values have the types of their variables, given the values of
the variables before them.  A type that depends on a variable without a value
is not checked. -/
def valuesHaveTypes (checker : Checker) (earlier : Substitution) :
    List Expr → Substitution → Supply Bool
  | type :: types, value :: values => do
    let fits ←
      match value with
      | none => pure true
      | some v =>
        if dependsOnUnbound type earlier then pure true
        else
          let expected := type.instantiateRev (earlier.map fun v => v.getD .prop)
          match ← (checker.inferType v).run with
          | .error _ => pure false
          | .ok actual => checker.isDefEq .all actual expected
    if fits then valuesHaveTypes checker (earlier ++ [value]) types values else pure false
  | _, _ => pure true

/-- Whether the values have the types of the rule's variables. -/
def Rule.wellTyped (checker : Checker) (r : Rule) (subst : Substitution) : Supply Bool :=
  valuesHaveTypes checker [] r.varTypes subst

/-! ### Searching -/

/-- The match at the root of a term, if there is one. -/
def Rule.matchRoot (checker : Checker) (r : Rule) (e : Expr) : Supply (List Match) :=
  if e.hasLooseBVars then pure []
  else
    match r.match? e with
    | none => pure []
    | some subst => do
      if ← r.wellTyped checker subst then pure [⟨[], e, subst⟩] else pure []

/-- The matches in a part, which lies one step deeper than its whole. -/
def inPart (limit : Option Nat) (s : Step) (search : Option Nat → Supply (List Match)) :
    Supply (List Match) :=
  match limit with
  | some 0 => pure []
  | some (d + 1) => do return (← search (some d)).map (Match.under s)
  | none => do return (← search none).map (Match.under s)

/-- All matches in a term, at most `limit` steps deep if there is a limit. -/
def Rule.findMatches (checker : Checker) (r : Rule) : Expr → Option Nat → Supply (List Match)
  | .mdata _ e, limit => r.findMatches checker e limit
  | .app f a, limit => do
    let here ← r.matchRoot checker (.app f a)
    let inFn ← inPart limit .appFn (r.findMatches checker f)
    let inArg ← inPart limit .appArg (r.findMatches checker a)
    return here ++ inFn ++ inArg
  | .lam i t b, limit => do
    let here ← r.matchRoot checker (.lam i t b)
    let inType ← inPart limit .binderType (r.findMatches checker t)
    let inBody ← inPart limit .binderBody (r.findMatches checker b)
    return here ++ inType ++ inBody
  | .pi i t b, limit => do
    let here ← r.matchRoot checker (.pi i t b)
    let inType ← inPart limit .binderType (r.findMatches checker t)
    let inBody ← inPart limit .binderBody (r.findMatches checker b)
    return here ++ inType ++ inBody
  | .letE t v b, limit => do
    let here ← r.matchRoot checker (.letE t v b)
    let inType ← inPart limit .letType (r.findMatches checker t)
    let inValue ← inPart limit .letValue (r.findMatches checker v)
    let inBody ← inPart limit .letBody (r.findMatches checker b)
    return here ++ inType ++ inValue ++ inBody
  | e, _ => r.matchRoot checker e

/-- The matches of several rules, those of the first rule first, each with the
place of its rule. -/
def findAllFrom (checker : Checker) (limit : Option Nat) (host : Expr) :
    Nat → List Rule → Supply (List (Nat × Match))
  | _, [] => pure []
  | i, r :: rules => do
    let found ← r.findMatches checker host limit
    return found.map (i, ·) ++ (← findAllFrom checker limit host (i + 1) rules)

/-- The matches of several rules, each with the place of its rule. -/
def findAll (checker : Checker) (limit : Option Nat) (rules : List Rule) (host : Expr) :
    Supply (List (Nat × Match)) :=
  findAllFrom checker limit host 0 rules

end Pinpoint
