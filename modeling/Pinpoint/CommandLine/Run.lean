/-
Running a command on the text of its problem file.

A failure names its causes from the outside to the inside; the first is
printed on a line of its own and the others below it, indented, and numbered
if there are several.
-/
import Pinpoint.CommandLine.Help
import Pinpoint.CommandLine.Report
import Pinpoint.Problem

namespace Pinpoint.CommandLine

/-- Causes for which a command fails. -/
inductive Failure where
  /-- The problem file cannot be read, for a reason that the system gives. -/
  | unreadable (file reason : String)
  /-- The problem file does not describe a problem. -/
  | invalidProblem (file : String)
  /-- The problem means nothing. -/
  | problem (cause : ProblemError)
  | rewrite (cause : RewriteError)
  | occurrences (cause : RewriteError)
deriving DecidableEq, Repr

namespace Failure

/-- The failure and its causes, from the outside to the inside. -/
def chain : Failure → List String
  | .unreadable file reason => ["cannot read " ++ file, reason]
  | .invalidProblem file => ["in " ++ file, "invalid problem file"]
  | .problem e => e.chain
  | .rewrite e => "nth_rewrite failed" :: e.chain
  | .occurrences e => "cannot list occurrences" :: e.chain

/-- A cause below the failure: its first line after `lead`, and the others
after `indent`. -/
def renderCause (lead indent : String) (cause : String) : String :=
  let lines := (Text.splitAt '\n' cause.toList).map String.ofList
  "\n" ++ lead ++ String.intercalate ("\n" ++ indent) lines

/-- The causes below the failure. -/
def renderCauses : List String → String
  | [] => ""
  | [cause] => "\n\nCaused by:" ++ renderCause "    " "    " cause
  | causes =>
    "\n\nCaused by:" ++
      String.join (causes.zipIdx.map fun (cause, i) =>
        let number := toString i
        let blanks := String.ofList (List.replicate (5 - number.length) ' ')
        renderCause (blanks ++ number ++ ": ") "       " cause)

/-- What is printed about a failure. -/
def render (f : Failure) : String :=
  match f.chain with
  | [] => ""
  | first :: causes => "Error: " ++ first ++ renderCauses causes ++ "\n"

end Failure

/-- Computations of a command, which may fail. -/
abbrev RunM := ExceptT Failure Option

/-- The state that a problem file asks to work on, given what reading the file
gave. -/
def Target.load (fuel : Nat) (t : Target) (contents : Except String String) :
    RunM ProofState :=
  match contents with
  | .error reason => throw (.unreadable t.file reason)
  | .ok text =>
    match Problem.parse? text with
    | none => throw (.invalidProblem t.file)
    | some p => ExceptT.adapt Failure.problem (p.toState fuel)

/-- The rules of a target. -/
def Target.specs (t : Target) : List RuleSpec := t.rules.map RuleSpec.ofText

namespace Command

/-- What a command prints, before the blanks at its end are taken off. -/
def report (fuel : Nat) (contents : Except String String) : Command → RunM String
  | .rewrite t index options => do
    let st ← t.load fuel contents
    let (answer, st) ←
      (nthRewrite fuel t.side index t.specs t.location options).answer st
    match answer with
    | .error e => throw (.rewrite e)
    | .ok o =>
      if t.json then return (o.report st).pretty 0
      else return o.reportText st
  | .occurrences t => do
    let st ← t.load fuel contents
    let os ← ExceptT.adapt Failure.occurrences
      (Pinpoint.occurrences fuel st t.side t.specs t.location)
    let g ← ExceptT.adapt Failure.occurrences st.mainGoal
    if t.json then return (Json.array (os.map (Occurrence.report g))).pretty 0
    else return Occurrence.reportText g os

/-- What a command prints, given what reading its problem file gave. -/
def run (fuel : Nat) (c : Command) (contents : Except String String) :
    Option (Except Failure String) := do
  match ← (c.report fuel contents).run with
  | .error f => return .error f
  | .ok text => return .ok (Text.trimEnd text ++ "\n")

end Command

end Pinpoint.CommandLine
