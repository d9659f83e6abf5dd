/-
Help on the program and its commands.
-/
import Pinpoint.CommandLine.Request

namespace Pinpoint.CommandLine

/-- The name of the program. -/
def programName : String := "nthrw"

/-- The version of the program. -/
def versionText : String := programName ++ " 0.1.0"

/-- What a command does. -/
def Verb.summary : Verb → String
  | .rewrite => "Rewrite one occurrence and print the new proof state"
  | .occurrences => "List the occurrences \x60rewrite\x60 would count"

/-- What the help command does. -/
def helpSummary : String := "Print this message or the help of the given subcommand(s)"

namespace Opt

/-- What stands for the value of an option. -/
def placeholder? : Opt → Option String
  | .rule => some "<RULES>"
  | .side => some "<SIDE>"
  | .at => some "<LOCATION>"
  | .index => some "<INDEX>"
  | .maxDepth => some "<MAX_DEPTH>"
  | _ => none

/-- What an option does. -/
def summary : Opt → String
  | .rule => "Rewrite rule, e.g. \x60h\x60 or \x60← h\x60; repeat for several rules"
  | .side => "Only look at one side of the equation (\x60lhs\x60 or \x60rhs\x60)"
  | .at =>
    "\x60goal\x60, a hypothesis name, or \x60*\x60 for every hypothesis and the goal [default: goal]"
  | .json => "Print JSON instead of text"
  | .index => "Zero-based occurrence index, counted across all rules [default: 0]"
  | .noRfl => "Do not try to close the goal by reflexivity afterwards"
  | .maxDepth => "Do not look for occurrences deeper than this"
  | .help => "Print help"

/-- How an option is written. -/
def form (o : Opt) : String :=
  (match o.letter? with
    | some c => "-" ++ String.singleton c ++ ", --"
    | none => "    --") ++
    o.long ++
    match o.placeholder? with
    | some p => " " ++ p
    | none => ""

end Opt

/-- A text followed by as many blanks as it is shorter than the width. -/
def padRight (width : Nat) (s : String) : String :=
  s ++ String.ofList (List.replicate (width - s.length) ' ')

/-- A heading, and a line for each entry with its explanation in a column of
its own. -/
def helpTable (heading : String) (entries : List (String × String)) : String :=
  let width := (entries.map fun (entry, _) => entry.length).foldl max 0 + 2
  heading ++ ":\n" ++
    String.join (entries.map fun (entry, explanation) =>
      "  " ++ padRight width entry ++ explanation ++ "\n")

/-- A summary, the usage, and tables, with empty lines between them. -/
def helpPage (summary usage : String) (tables : List String) : String :=
  String.intercalate "\n"
    ((summary ++ "\n") :: ("Usage: " ++ programName ++ " " ++ usage ++ "\n") :: tables)

/-- What is printed about a topic. -/
def Topic.text : Topic → String
  | .program =>
    helpPage "Rewrite the n-th occurrence of an equation in a goal" "<COMMAND>" [
      helpTable "Commands"
        ([Verb.rewrite, Verb.occurrences].map (fun v => (v.word, v.summary)) ++
          [("help", helpSummary)]),
      helpTable "Options" [("-h, --help", "Print help"), ("-V, --version", "Print version")]]
  | .verb v =>
    helpPage v.summary (v.word ++ " [OPTIONS] --rule <RULES> <FILE>") [
      helpTable "Arguments" [("<FILE>", "Problem file (JSON)")],
      helpTable "Options"
        ((Opt.all.filter (Opt.belongsTo v)).map fun o => (o.form, o.summary))]
  | .help =>
    helpPage helpSummary "help [COMMAND]..." [
      helpTable "Arguments" [("[COMMAND]...", "Print help for the subcommand(s)")]]

end Pinpoint.CommandLine
