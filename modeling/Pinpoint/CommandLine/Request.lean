/-
What the arguments of the program ask for.

Arguments are read from left to right.  Those that begin with a hyphen are
options, up to a separator `--`; a hyphen alone is a word.  The value of an
option follows it as the next argument, which must not look like an option,
or is attached: `--at=h`, `-rh`, `-r=h`.  Only `--rule` may be given twice.
The first fault, or request for help, that is met settles the answer; whether
anything is missing is asked at the end.
-/
import Pinpoint.Rewrite.Occurrence

namespace Pinpoint.CommandLine

/-! ### Commands -/

/-- What to rewrite, and where. -/
structure Target where
  file : String
  rules : List String
  side : Option Side
  location : Location
  json : Bool
deriving DecidableEq, Repr

/-- What the program does with a problem. -/
inductive Command where
  /-- Rewrite one occurrence and print the new proof state. -/
  | rewrite (target : Target) (index : Nat) (options : RewriteOptions)
  /-- List the occurrences that a rewrite would count. -/
  | occurrences (target : Target)
deriving DecidableEq, Repr

/-- The target of a command. -/
def Command.target : Command → Target
  | .rewrite t _ _ => t
  | .occurrences t => t

/-- The names of the commands. -/
inductive Verb where
  | rewrite
  | occurrences
deriving DecidableEq, Repr

namespace Verb

/-- The word for a command. -/
def word : Verb → String
  | .rewrite => "rewrite"
  | .occurrences => "occurrences"

/-- The command of a word. -/
def ofWord? (w : String) : Option Verb := [rewrite, occurrences].find? fun v => v.word = w

end Verb

/-- What help can be asked about. -/
inductive Topic where
  | program
  | verb (v : Verb)
  | help
deriving DecidableEq, Repr

/-- What the arguments ask for. -/
inductive Request where
  | run (command : Command)
  | help (topic : Topic)
  | version
deriving DecidableEq, Repr

/-! ### Options -/

/-- The options of the commands. -/
inductive Opt where
  | rule
  | side
  | at
  | json
  | index
  | noRfl
  | maxDepth
  | help
deriving DecidableEq, Repr

namespace Opt

/-- All options, in the order in which help shows them. -/
def all : List Opt := [.rule, .side, .at, .json, .index, .noRfl, .maxDepth, .help]

/-- The name of an option. -/
def long : Opt → String
  | .rule => "rule"
  | .side => "side"
  | .at => "at"
  | .json => "json"
  | .index => "index"
  | .noRfl => "no-rfl"
  | .maxDepth => "max-depth"
  | .help => "help"

/-- The letter of an option, if it has one. -/
def letter? : Opt → Option Char
  | .rule => some 'r'
  | .index => some 'n'
  | .help => some 'h'
  | _ => none

/-- Whether an option takes a value. -/
def takesValue : Opt → Bool
  | .json | .noRfl | .help => false
  | _ => true

/-- Whether a command has an option. -/
def belongsTo (v : Verb) : Opt → Bool
  | .index | .noRfl | .maxDepth => v = .rewrite
  | _ => true

/-- The option of a command by its name. -/
def ofLong? (v : Verb) (name : String) : Option Opt :=
  all.find? fun o => o.belongsTo v && o.long = name

/-- The option of a command by its letter. -/
def ofLetter? (v : Verb) (c : Char) : Option Opt :=
  all.find? fun o => o.belongsTo v && o.letter? = some c

end Opt

/-- Faults of the arguments. -/
inductive UsageError where
  | missingCommand
  | unknownCommand (word : String)
  | unknownOption (argument : String)
  | missingValue (option : Opt)
  | unexpectedValue (option : String)
  | invalidValue (option : Opt) (value reason : String)
  | repeated (option : Opt)
  | emptyFile
  | unexpectedWord (word : String)
  | missingFile
  | missingRule
deriving DecidableEq, Repr

/-- The fault in words. -/
def UsageError.message : UsageError → String
  | .missingCommand => "a command is required"
  | .unknownCommand w => "unrecognized command '" ++ w ++ "'"
  | .unknownOption a => "unexpected argument '" ++ a ++ "'"
  | .missingValue o => "a value is required for '--" ++ o.long ++ "'"
  | .unexpectedValue o => "no value is expected for '" ++ o ++ "'"
  | .invalidValue o v reason =>
    "invalid value '" ++ v ++ "' for '--" ++ o.long ++ "': " ++ reason
  | .repeated o => "the argument '--" ++ o.long ++ "' cannot be used multiple times"
  | .emptyFile => "the name of the problem file is empty"
  | .unexpectedWord w => "unexpected argument '" ++ w ++ "'"
  | .missingFile => "a problem file is required"
  | .missingRule => "at least one '--rule' is required"

/-! ### Arguments -/

/-- An argument by its form. -/
inductive Argument where
  /-- After it, all arguments are words. -/
  | separator
  | long (name : String) (value : Option String)
  | short (letter : Char) (attached : List Char)
  | word
deriving DecidableEq, Repr

namespace Argument

/-- The name and the value of a long option. -/
def ofLong (cs : List Char) : Argument :=
  match cs.dropWhile (· != '=') with
  | [] => .long (String.ofList cs) none
  | _ :: value => .long (String.ofList (cs.takeWhile (· != '='))) (some (String.ofList value))

/-- The form of an argument. -/
def ofString (a : String) : Argument :=
  match a.toList with
  | ['-', '-'] => .separator
  | '-' :: '-' :: cs => ofLong cs
  | '-' :: c :: cs => .short c cs
  | _ => .word

/-- The value attached to a letter. -/
def attachedValue? : List Char → Option String
  | [] => none
  | '=' :: cs => some (String.ofList cs)
  | cs => some (String.ofList cs)

end Argument

/-! ### Reading the arguments of a command -/

/-- What has been given so far. -/
structure Draft where
  file : Option String := none
  rules : List String := []
  side : Option Side := none
  location : Option Location := none
  json : Bool := false
  index : Option Nat := none
  noRfl : Bool := false
  maxDepth : Option Nat := none

/-- The location that a word names. -/
def locationOfWord (w : String) : Except String Location :=
  if w = "" then .error "empty location"
  else if w = "goal" ∨ w = "⊢" then .ok .goal
  else if w = "*" then .ok .everywhere
  else .ok (.hyp w)

/-- The number that a word is. -/
def countOfWord (w : String) : Except String Nat :=
  match Text.Numeral.parse? UInt64.size w.toList with
  | some n => .ok n
  | none => .error "not a number"

/-- The value of an option that must not have one yet. -/
def onlyValue {α : Type} (o : Opt) (old : Option α) (value : String)
    (read : String → Except String α) : Except UsageError α :=
  if old.isSome then .error (.repeated o)
  else (read value).mapError (UsageError.invalidValue o value)

namespace Draft

/-- One more option with its value, or without one if it takes none. -/
def addOption (d : Draft) (o : Opt) (value : String) : Except UsageError Draft :=
  match o with
  | .rule => .ok { d with rules := d.rules ++ [value] }
  | .side => return { d with side := some (← onlyValue o d.side value Side.parse) }
  | .at => return { d with location := some (← onlyValue o d.location value locationOfWord) }
  | .index => return { d with index := some (← onlyValue o d.index value countOfWord) }
  | .maxDepth => return { d with maxDepth := some (← onlyValue o d.maxDepth value countOfWord) }
  | .json => if d.json then .error (.repeated o) else .ok { d with json := true }
  | .noRfl => if d.noRfl then .error (.repeated o) else .ok { d with noRfl := true }
  | .help => .ok d

/-- One more word, which is the problem file. -/
def addWord (d : Draft) (w : String) : Except UsageError Draft :=
  if d.file.isSome then .error (.unexpectedWord w)
  else if w = "" then .error .emptyFile
  else .ok { d with file := some w }

/-- The command, once all arguments are read. -/
def toCommand (v : Verb) (d : Draft) : Except UsageError Command :=
  match d.file with
  | none => .error .missingFile
  | some file =>
    if d.rules.isEmpty then .error .missingRule
    else
      let target : Target := ⟨file, d.rules, d.side, d.location.getD .goal, d.json⟩
      match v with
      | .rewrite => .ok (.rewrite target (d.index.getD 0) ⟨!d.noRfl, d.maxDepth⟩)
      | .occurrences => .ok (.occurrences target)

end Draft

/-- Reads the arguments of a command; `pending` is an option whose value comes
next. -/
def readArguments (v : Verb) : Draft → Option Opt → List String → Except UsageError Request
  | d, none, [] => return .run (← d.toCommand v)
  | _, some o, [] => .error (.missingValue o)
  | d, some o, a :: as => do
    match Argument.ofString a with
    | .word => readArguments v (← d.addOption o a) none as
    | _ => .error (.missingValue o)
  | d, none, a :: as => do
    match Argument.ofString a with
    | .word => readArguments v (← d.addWord a) none as
    | .separator => return .run (← (← as.foldlM Draft.addWord d).toCommand v)
    | .long name value =>
      match Opt.ofLong? v name with
      | none => .error (.unknownOption a)
      | some o =>
        if o.takesValue then
          match value with
          | none => readArguments v d (some o) as
          | some value => readArguments v (← d.addOption o value) none as
        else if value.isSome then .error (.unexpectedValue a)
        else if o = .help then return .help (.verb v)
        else readArguments v (← d.addOption o "") none as
    | .short letter attached =>
      match Opt.ofLetter? v letter with
      | none => .error (.unknownOption a)
      | some o =>
        if o.takesValue then
          match Argument.attachedValue? attached with
          | none => readArguments v d (some o) as
          | some value => readArguments v (← d.addOption o value) none as
        else return .help (.verb v)

/-- The topic that the words after `help` name. -/
def topicOfWords : List String → Except UsageError Topic
  | [] => .ok .program
  | [w] =>
    if w = "help" then .ok .help
    else
      match Verb.ofWord? w with
      | some v => .ok (.verb v)
      | none => .error (.unknownCommand w)
  | _ :: w :: _ => .error (.unknownCommand w)

/-- What the arguments of the program ask for. -/
def Request.ofArguments : List String → Except UsageError Request
  | [] => .error .missingCommand
  | a :: as =>
    match Argument.ofString a with
    | .word =>
      if a = "help" then (topicOfWords as).map .help
      else
        match Verb.ofWord? a with
        | some v => readArguments v {} none as
        | none => .error (.unknownCommand a)
    | .long "help" none | .short 'h' _ => .ok (.help .program)
    | .long "version" none | .short 'V' _ => .ok .version
    | .separator =>
      match as with
      | [] => .error .missingCommand
      | w :: _ => .error (.unexpectedWord w)
    | _ => .error (.unknownOption a)

end Pinpoint.CommandLine
