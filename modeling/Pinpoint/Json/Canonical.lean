/-
Documents in which a text has one spelling.

`Json.canonical?` spells every text and key of a document in the way in which
`encode` does, so that values can be compared as they are written; a document
with a text that says nothing has no such spelling.
-/
import Pinpoint.Json.Basic

namespace Pinpoint.Json

/-- The canonical spelling of a written text. -/
def respell? (written : String) : Option String := (decode? written).map encode

mutual

/-- The document with its texts and keys in their canonical spelling. -/
def canonical? : Json → Option Json
  | .text t => (respell? t).map .text
  | .array vs => (canonicalItems? vs).map .array
  | .object ms => (canonicalMembers? ms).map .object
  | j => some j

/-- The items of an array in their canonical spelling. -/
def canonicalItems? : List Json → Option (List Json)
  | [] => some []
  | v :: vs => do return (← canonical? v) :: (← canonicalItems? vs)

/-- The members of an object in their canonical spelling. -/
def canonicalMembers? : List (String × Json) → Option (List (String × Json))
  | [] => some []
  | (k, v) :: ms => do return (← respell? k, ← canonical? v) :: (← canonicalMembers? ms)

end

mutual

/-- How many brackets are open around the innermost value. -/
def nesting : Json → Nat
  | .array vs => 1 + itemNesting vs
  | .object ms => 1 + memberNesting ms
  | _ => 0

/-- The deepest nesting among items. -/
def itemNesting : List Json → Nat
  | [] => 0
  | v :: vs => max v.nesting (itemNesting vs)

/-- The deepest nesting among members. -/
def memberNesting : List (String × Json) → Nat
  | [] => 0
  | (_, v) :: ms => max v.nesting (memberNesting ms)

end

end Pinpoint.Json
