/-
What the commands print when they succeed, as text or as JSON.
-/
import Pinpoint.Json.Printer
import Pinpoint.Rewrite.Occurrence

namespace Pinpoint

/-- A location in JSON. -/
def Location.toJson : Location → Json
  | .goal => .ofString "goal"
  | .hyp n => .ofMembers [("hyp", .ofString n)]
  | .everywhere => .ofString "wildcard"

/-- A location that was passed over, in JSON. -/
def Skipped.toJson (s : Skipped) : Json :=
  .ofMembers [("location", s.location.toJson), ("reason", .ofString s.reason)]

namespace RewriteOutcome

/-- The members of an outcome in JSON. -/
def members (o : RewriteOutcome) : List (String × Json) :=
  [("rewritten", .array (o.rewritten.map Location.toJson)),
   ("skipped", .array (o.skipped.map Skipped.toJson))]

/-- An outcome and the state after it, in JSON. -/
def report (o : RewriteOutcome) (st : ProofState) : Json :=
  .ofMembers (o.members ++
    [("goals", .array (st.goals.map fun g => .ofString g.render)),
     ("complete", .bool st.isComplete)])

/-- An outcome and the state after it, as text. -/
def reportText (o : RewriteOutcome) (st : ProofState) : String :=
  "rewrote at: " ++ String.intercalate ", " (o.rewritten.map Location.render) ++ "\n" ++
    String.join (o.skipped.map fun s =>
      "skipped " ++ s.location.render ++ ": " ++ s.reason ++ "\n") ++
    "\n" ++ st.render

end RewriteOutcome

namespace Occurrence

/-- An occurrence in a goal, in JSON. -/
def report (g : Goal) (o : Occurrence) : Json :=
  .ofMembers [("location", o.location.toJson), ("index", .ofNat o.index),
    ("rule", .ofNat o.rule), ("path", .ofString o.path.render),
    ("subterm", .ofString (g.pretty o.subterm))]

/-- An occurrence in a goal, as a line of text. -/
def reportLine (g : Goal) (o : Occurrence) : String :=
  o.location.render ++ " #" ++ toString o.index ++ "  rule " ++ toString o.rule ++ "  at " ++
    o.path.render ++ ": " ++ g.pretty o.subterm ++ "\n"

/-- A list of occurrences in a goal, as text. -/
def reportText (g : Goal) (os : List Occurrence) : String :=
  if os.isEmpty then "no occurrences\n" else String.join (os.map (reportLine g))

end Occurrence

end Pinpoint
