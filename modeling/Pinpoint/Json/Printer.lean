/-
Writing JSON, on one line or with one value a line.
-/
import Pinpoint.Json.Basic

namespace Pinpoint.Json

mutual

/-- The value on one line, without blanks. -/
def compact : Json → String
  | .null => "null"
  | .bool b => if b then "true" else "false"
  | .number t => t
  | .text t => "\"" ++ t ++ "\""
  | .array vs => "[" ++ String.intercalate "," (compactItems vs) ++ "]"
  | .object ms => "\x7b" ++ String.intercalate "," (compactMembers ms) ++ "\x7d"

/-- Each item on one line. -/
def compactItems : List Json → List String
  | [] => []
  | v :: vs => v.compact :: compactItems vs

/-- Each member on one line. -/
def compactMembers : List (String × Json) → List String
  | [] => []
  | (k, v) :: ms => ("\"" ++ k ++ "\":" ++ v.compact) :: compactMembers ms

end

/-- A line break and the indentation of a nesting depth. -/
def newline (depth : Nat) : String :=
  "\n" ++ String.ofList (List.replicate (2 * depth) ' ')

/-- Parts on lines of their own between brackets; just the brackets if there
are none. -/
def block (opening closing : String) (depth : Nat) (parts : List String) : String :=
  if parts.isEmpty then opening ++ closing
  else
    opening ++ newline (depth + 1) ++ String.intercalate ("," ++ newline (depth + 1)) parts ++
      newline depth ++ closing

mutual

/-- The value with its parts on lines of their own, indented by two more
blanks than the value. -/
def pretty (depth : Nat) : Json → String
  | .array vs => block "[" "]" depth (prettyItems (depth + 1) vs)
  | .object ms => block "\x7b" "\x7d" depth (prettyMembers (depth + 1) ms)
  | .null => "null"
  | .bool b => if b then "true" else "false"
  | .number t => t
  | .text t => "\"" ++ t ++ "\""

/-- Each item of an array. -/
def prettyItems (depth : Nat) : List Json → List String
  | [] => []
  | v :: vs => v.pretty depth :: prettyItems depth vs

/-- Each member of an object. -/
def prettyMembers (depth : Nat) : List (String × Json) → List String
  | [] => []
  | (k, v) :: ms => ("\"" ++ k ++ "\": " ++ v.pretty depth) :: prettyMembers depth ms

end

end Pinpoint.Json
