/-
Problems: constants to declare on top of the prelude, hypotheses and a goal,
all as written terms.

`Problem.parse?` reads a problem from a document.  `Problem.toState` declares
the constants, gives the hypotheses the free variables `0`, `1`, … in order,
and starts a proof of the goal; a hypothesis may mention the ones before it,
and the goal has to be a proposition.
-/
import Pinpoint.Elaboration
import Pinpoint.Json.Parser
import Pinpoint.Prelude
import Pinpoint.Proof.State
import Pinpoint.Surface.Parser

namespace Pinpoint

/-- A name and a written term that is its type. -/
structure ProblemItem where
  name : String
  type : String
deriving DecidableEq, Repr

/-- A problem as it is given. -/
structure Problem where
  constants : List ProblemItem
  hypotheses : List ProblemItem
  goal : String
deriving DecidableEq, Repr

/-! ### Reading a document -/

/-- The values that a record gives for some keys.  A record is an object, in
which each of the keys stands at most once and other keys do not matter, or an
array of the values in the order of the keys, of which the last may be
missing. -/
def Json.fields? (keys : List String) : Json → Option (List (Option Json))
  | .array items =>
    if items.length ≤ keys.length then some (keys.zipIdx.map fun (_, i) => items[i]?) else none
  | .object members => do
    let members ← members.mapM fun (written, v) => return (← decode? written, v)
    keys.mapM fun key =>
      match members.filter fun (k, _) => k = key with
      | [] => some none
      | [(_, v)] => some (some v)
      | _ => none
  | _ => none

/-- A name and its type, both of which have to be there. -/
def ProblemItem.ofJson? (j : Json) : Option ProblemItem := do
  match ← j.fields? ["name", "type"] with
  | [some name, some type] => return ⟨← name.string?, ← type.string?⟩
  | _ => none

/-- A list of items, which is empty if it is left out. -/
def ProblemItem.listOfJson? : Option Json → Option (List ProblemItem)
  | none => some []
  | some (.array items) => items.mapM ofJson?
  | some _ => none

namespace Problem

/-- A problem; the lists may be left out, the goal not. -/
def ofJson? (j : Json) : Option Problem := do
  match ← j.fields? ["constants", "hypotheses", "goal"] with
  | [constants, hypotheses, some goal] =>
    return ⟨← ProblemItem.listOfJson? constants, ← ProblemItem.listOfJson? hypotheses,
      ← goal.string?⟩
  | _ => none

/-- The problem that a text describes. -/
def parse? (text : String) : Option Problem := (Json.parse? text).bind ofJson?

/-! ### What a problem means -/

/-- A part of a problem that holds a term. -/
inductive Part where
  | constant (name : String)
  | hypothesis (name : String)
  | goal
deriving DecidableEq, Repr

/-- The part in words. -/
def Part.describe : Part → String
  | .constant n => "in the type of constant " ++ n
  | .hypothesis n => "in hypothesis " ++ n
  | .goal => "in the goal"

end Problem

/-- Causes for which a problem means nothing. -/
inductive ProblemError where
  /-- The prelude is refused. -/
  | prelude (cause : CheckError)
  /-- A text that is no term. -/
  | parse (part : Problem.Part) (cause : Surface.ParseError)
  /-- A written term that means nothing. -/
  | elaboration (part : Problem.Part) (cause : ElaborationError)
  /-- A constant that is refused. -/
  | declaration (name : String) (cause : CheckError)
deriving DecidableEq, Repr

/-- What went wrong and why, each in words. -/
def ProblemError.chain : ProblemError → List String
  | .prelude e => ["cannot build the prelude", e.message]
  | .parse part e => [part.describe, e.message]
  | .elaboration part e => [part.describe, e.message]
  | .declaration n e => ["cannot declare " ++ n, e.message]

/-- Computations on problems, which may fail. -/
abbrev ProblemM := ExceptT ProblemError Option

namespace Problem

/-- The meaning of the text of a part: what it is read as, given to a reader
of written terms. -/
def readPart (part : Part) (text : String) (meaning : Surface.Term → ElabM Expr) :
    ProblemM Expr :=
  match Surface.Term.parse text with
  | .error e => throw (.parse part e)
  | .ok t => do
    match ← Elaboration.runFresh (meaning t) with
    | .error e => throw (.elaboration part e)
    | .ok e => return e

/-- Declares constants in order. -/
def declareConstants (fuel : Nat) : Catalogue → List ProblemItem → ProblemM Catalogue
  | k, [] => return k
  | k, item :: items => do
    let type ← readPart (.constant item.name) item.type
      (Elaboration.elaborate k.listing fuel .empty)
    match ← ((Catalogue.declare fuel ⟨.ofString item.name, [], type, none⟩).outcome k).run with
    | .error e => throw (.declaration item.name e)
    | .ok k => declareConstants fuel k items

/-- Reads hypotheses in order, each in the context of the ones before it, and
gives them free variables from `next` on. -/
def readHypotheses (fuel : Nat) (env : Environment) :
    UInt64 → LocalContext → List ProblemItem → ProblemM (LocalContext × List Hypothesis)
  | _, Γ, [] => return (Γ, [])
  | next, Γ, item :: items => do
    let type ← readPart (.hypothesis item.name) item.type (Elaboration.elaborate env fuel Γ)
    let Γ := Γ.push ⟨next⟩ (.ofString item.name) type
    let (Γ, hyps) ← readHypotheses fuel env (next + 1) Γ items
    return (Γ, ⟨⟨next⟩, item.name, type, none⟩ :: hyps)

/-- The environment of a problem. -/
def environment (fuel : Nat) (p : Problem) : ProblemM Environment := do
  match ← (Catalogue.ofPrelude fuel).run with
  | .error e => throw (.prelude e)
  | .ok k => return (← declareConstants fuel k p.constants).listing

/-- The proof state that a problem asks to work on. -/
def toState (fuel : Nat) (p : Problem) : ProblemM ProofState := do
  let env ← p.environment fuel
  let (Γ, hyps) ← readHypotheses fuel env 0 .empty p.hypotheses
  let target ← readPart .goal p.goal (Elaboration.elaborateProp env fuel Γ)
  return .start env target hyps

end Problem

end Pinpoint
