/-!
# Arguments of the command

An option takes its value from the same argument, or from the next one that does not begin
with a dash. An option waits for its value until another argument settles it, so that a fault
of a later argument can come before that of a missing value.
-/

namespace Devicetree

structure Arguments where
  /-- The root file. -/
  input : String
  /-- The file with the settings. -/
  config : Option String
  includePaths : List String
  common : List String
  dumpTree : Bool
  logLevel : String
deriving DecidableEq, Repr

/-- Why arguments are not taken; to ask for help or for the version is a reason too. -/
inductive UsageError
  | help
  | version
  | missingInput
  | unknownArgument
  | missingValue
  | unexpectedValue
  | repeatedOption
deriving DecidableEq, Repr

namespace UsageError

/-- To ask for help or for the version is no fault. -/
def isFault : UsageError → Bool
  | help => false
  | version => false
  | _ => true

def message : UsageError → String
  | help => "help was asked for"
  | version => "the version was asked for"
  | missingInput => "error: the input file is not given"
  | unknownArgument => "error: an argument is not known"
  | missingValue => "error: an option has no value"
  | unexpectedValue => "error: a value is given to an option that takes none"
  | repeatedOption => "error: an option is given more than once"

end UsageError

/-- An option with a value. -/
inductive ValueOption
  | config
  | includePath
  | common
  | logLevel
deriving DecidableEq, Repr

/-- An option without a value. -/
inductive Switch
  | dumpTree
  | help
  | version
deriving DecidableEq, Repr

inductive OptionName
  | valued (option : ValueOption)
  | switch (switch : Switch)
deriving DecidableEq, Repr

namespace OptionName

/-- The option with a name after two dashes. -/
def ofLong? : String → Option OptionName
  | "config" => some (.valued .config)
  | "include-path" => some (.valued .includePath)
  | "common" => some (.valued .common)
  | "log-level" => some (.valued .logLevel)
  | "dump-tree" => some (.switch .dumpTree)
  | "help" => some (.switch .help)
  | "version" => some (.switch .version)
  | _ => none

/-- The option with a letter after one dash. -/
def ofShort? : Char → Option OptionName
  | 'c' => some (.valued .config)
  | 'I' => some (.valued .includePath)
  | 'h' => some (.switch .help)
  | 'V' => some (.switch .version)
  | _ => none

end OptionName

namespace Arguments

/-- The arguments taken so far. -/
structure Draft where
  input : Option String
  config : Option String
  includePaths : List String
  common : List String
  dumpTree : Bool
  logLevel : Option String
  /-- The option that is not settled yet, and its value. -/
  pending : Option (ValueOption × Option String)
  /-- Whether no more options follow. -/
  closed : Bool

namespace Draft

def empty : Draft where
  input := none
  config := none
  includePaths := []
  common := []
  dumpTree := false
  logLevel := none
  pending := none
  closed := false

/-- Gives an option its value. Some options take one only once. -/
def assign (d : Draft) (o : ValueOption) (value : String) : Except UsageError Draft :=
  match o with
  | .config =>
    if d.config.isSome then .error .repeatedOption else .ok { d with config := some value }
  | .logLevel =>
    if d.logLevel.isSome then .error .repeatedOption else .ok { d with logLevel := some value }
  | .includePath => .ok { d with includePaths := d.includePaths ++ [value] }
  | .common => .ok { d with common := d.common ++ [value] }

/-- Settles the option that waits. -/
def settle (d : Draft) : Except UsageError Draft :=
  match d.pending with
  | none => .ok d
  | some (_, none) => .error .missingValue
  | some (o, some value) => { d with pending := none }.assign o value

/-- Takes an option, with the value given in the same argument. -/
def takeValued (d : Draft) (o : ValueOption) (value : Option String) : Except UsageError Draft := do
  let d ← d.settle
  match value with
  | some value => d.assign o value
  | none => return { d with pending := some (o, none) }

def takeSwitch (d : Draft) (s : Switch) : Except UsageError Draft := do
  let d ← d.settle
  match s with
  | .help => throw .help
  | .version => throw .version
  | .dumpTree => if d.dumpTree then throw .repeatedOption else return { d with dumpTree := true }

/-- Takes an argument that begins with two dashes. -/
def takeLong (d : Draft) (cs : List Char) : Except UsageError Draft :=
  let name := String.ofList (cs.takeWhile (· ≠ '='))
  let value := match cs.dropWhile (· ≠ '=') with
    | '=' :: value => some (String.ofList value)
    | _ => none
  match OptionName.ofLong? name with
  | none => .error .unknownArgument
  | some (.valued o) => d.takeValued o value
  | some (.switch s) => if value.isSome then .error .unexpectedValue else d.takeSwitch s

/-- Takes an argument that begins with one dash. What follows the letter of an option is its
value. -/
def takeShort (d : Draft) (letter : Char) (rest : List Char) : Except UsageError Draft :=
  match OptionName.ofShort? letter with
  | none => .error .unknownArgument
  | some (.switch s) => d.takeSwitch s
  | some (.valued o) =>
    d.takeValued o <| match rest with
      | [] => none
      | '=' :: value => some (String.ofList value)
      | value => some (String.ofList value)

/-- Takes the root file. -/
def takeInput (d : Draft) (argument : String) : Except UsageError Draft := do
  if d.input.isSome then throw .unknownArgument
  return { ← d.settle with input := some argument }

/-- Takes an argument that is no option. -/
def takePlain (d : Draft) (argument : String) : Except UsageError Draft :=
  match d.pending with
  | some (o, none) => .ok { d with pending := some (o, some argument) }
  | _ => d.takeInput argument

def take (d : Draft) (argument : String) : Except UsageError Draft :=
  if d.closed then d.takeInput argument
  else
    match argument.toList with
    | ['-', '-'] => .ok { d with closed := true }
    | '-' :: '-' :: cs => d.takeLong cs
    | '-' :: letter :: rest => d.takeShort letter rest
    | _ => d.takePlain argument

/-- The arguments when there are no more. -/
def finish (d : Draft) : Except UsageError Arguments := do
  let d ← d.settle
  match d.input with
  | none => throw .missingInput
  | some input =>
    return {
      input := input
      config := d.config
      includePaths := d.includePaths
      common := d.common
      dumpTree := d.dumpTree
      logLevel := d.logLevel.getD "info" }

end Draft

def read (arguments : List String) : Except UsageError Arguments := do
  (← arguments.foldlM Draft.take .empty).finish

end Arguments

end Devicetree
