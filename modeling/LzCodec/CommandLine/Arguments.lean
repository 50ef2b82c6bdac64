import LzCodec.CommandLine.Report
import LzCodec.Level
import LzCodec.Powers

/-!
# Arguments

Options, switches and the two paths may come in any order. An option takes its value from the same
argument or from the next one that does not start with a dash; such a value, like a path, is checked
only when the next option or path comes, or at the end.
-/

namespace LzCodec

/-- Why there is nothing to run. -/
inductive UsageError where
  | help (topic : Option Direction)
  | version
  | noCommand
  | unknownCommand
  | unknownArgument
  | missingPath
  | conflict
  | missingValue
  | badValue
  | surplusValue
  deriving DecidableEq, Repr

/-- Asking for help or the version is no mistake. -/
def UsageError.exitCode : UsageError → Nat
  | help _ => 0
  | version => 0
  | _ => 2

structure Command where
  direction : Direction
  verbosity : Nat
  input : String
  output : String
  level : Option Nat := none
  here : Option Nat := none
  oneAhead : Option Nat := none
  twoAhead : Option Nat := none
  deriving DecidableEq, Repr

/-- The effort that is asked for, where the variable for the default level has this value. -/
def Command.effort (c : Command) (environment? : Option String) : Effort :=
  let preset := (Effort.ofLevel? (c.level.getD (Level.ofEnvironment environment?))).getD default
  ⟨c.here.getD preset.here, c.oneAhead.getD preset.oneAhead, c.twoAhead.getD preset.twoAhead⟩

namespace Arguments

/-- An option with a value. -/
inductive Setting where
  | level
  | here
  | oneAhead
  | twoAhead
  deriving DecidableEq, Repr

/-- An option without a value. -/
inductive Switch where
  | silent
  | verbose
  | help
  deriving DecidableEq, Repr

inductive Flag where
  | setting (s : Setting)
  | switch (s : Switch)
  deriving DecidableEq, Repr

def longName? (direction : Direction) (name : String) : Option Flag :=
  match direction, name with
  | _, "silent" => some (.switch .silent)
  | _, "verbose" => some (.switch .verbose)
  | _, "help" => some (.switch .help)
  | .encode, "level" => some (.setting .level)
  | .encode, "match-depth" => some (.setting .here)
  | .encode, "lazy-depth1" => some (.setting .oneAhead)
  | .encode, "lazy-depth2" => some (.setting .twoAhead)
  | _, _ => none

def shortName? (direction : Direction) (name : Char) : Option Flag :=
  match direction, name with
  | _, 's' => some (.switch .silent)
  | _, 'v' => some (.switch .verbose)
  | _, 'h' => some (.switch .help)
  | .encode, 'l' => some (.setting .level)
  | _, _ => none

/-- The number of bits of a count of positions. -/
def countBits : Nat := 64

/-- A level lies within the presets, a count of positions within `countBits` bits. -/
def Setting.value? (s : Setting) (text : String) : Option Nat :=
  match s with
  | level =>
    match Text.integer? text.toList with
    | some n => if 0 ≤ n ∧ n ≤ Effort.maxLevel then some n.toNat else none
    | none => none
  | _ =>
    match Text.natural? text.toList with
    | some n => if n < 2 ^ countBits then some n else none
    | none => none

/-- What a value is for. -/
inductive Target where
  | setting (s : Setting)
  | input
  | output
  deriving DecidableEq, Repr

/-- What the arguments so far have said. -/
structure Draft where
  silent : Bool := false
  verbose : Nat := 0
  settings : List (Setting × Nat) := []
  input : Option String := none
  output : Option String := none
  /-- A value that is not checked yet, or still to come. -/
  pending : Option (Target × Option String) := none
  /-- The number of paths. -/
  paths : Nat := 0
  /-- Whether all that follows are paths. -/
  pathsOnly : Bool := false

namespace Draft

def assign (d : Draft) (target : Target) (value : String) : Except UsageError Draft :=
  match target with
  | .setting s =>
    if (d.settings.lookup s).isSome then
      .error .conflict
    else
      match s.value? value with
      | some n => .ok { d with settings := (s, n) :: d.settings }
      | none => .error .badValue
  | .input => if value = "" then .error .missingValue else .ok { d with input := some value }
  | .output => if value = "" then .error .missingValue else .ok { d with output := some value }

/-- Checks the pending value. -/
def settle (d : Draft) : Except UsageError Draft :=
  match d.pending with
  | none => .ok d
  | some (_, none) => .error .missingValue
  | some (target, some value) => { d with pending := none }.assign target value

def flip (direction : Direction) (s : Switch) (d : Draft) : Except UsageError Draft := do
  let d ← d.settle
  match s with
  | .silent => if d.silent then throw .conflict else return { d with silent := true }
  | .verbose => return { d with verbose := min 255 (d.verbose + 1) }
  | .help => throw (.help (some direction))

/-- Takes an option with the value from its own argument, if there is one. -/
def set (s : Setting) (value? : Option String) (d : Draft) : Except UsageError Draft := do
  let d ← d.settle
  match value? with
  | some value => d.assign (.setting s) value
  | none => return { d with pending := some (.setting s, none) }

def long (direction : Direction) (name : String) (value? : Option String) (d : Draft) :
    Except UsageError Draft :=
  match longName? direction name with
  | none => .error .unknownArgument
  | some (.setting s) => d.set s value?
  | some (.switch s) => if value?.isSome then .error .surplusValue else d.flip direction s

/-- Takes the short options of one argument. What stands behind an option is its value, without an
equals sign at the start. -/
def short (direction : Direction) (d : Draft) : List Char → Except UsageError Draft
  | [] => .ok d
  | c :: rest =>
    match shortName? direction c with
    | none => .error .unknownArgument
    | some (.switch s) => do short direction (← d.flip direction s) rest
    | some (.setting s) =>
      match rest with
      | [] => d.set s none
      | '=' :: value => d.set s (some (String.ofList value))
      | value => d.set s (some (String.ofList value))

/-- Takes a path: the first is the input, the second the output. -/
def path (d : Draft) (value : String) : Except UsageError Draft :=
  match d.paths with
  | 0 => do
    let d ← d.settle
    return { d with pending := some (.input, some value), paths := 1 }
  | 1 => do
    let d ← d.settle
    return { d with pending := some (.output, some value), paths := 2 }
  | _ => .error .unknownArgument

/-- The name and the value of a long option. -/
def splitValue (text : List Char) : String × Option String :=
  match text.dropWhile (· ≠ '=') with
  | [] => (String.ofList text, none)
  | _ :: value => (String.ofList (text.takeWhile (· ≠ '=')), some (String.ofList value))

def take (direction : Direction) (d : Draft) (argument : String) : Except UsageError Draft :=
  if d.pathsOnly then
    d.path argument
  else
    match argument.toList with
    | ['-', '-'] => .ok { d with pathsOnly := true }
    | '-' :: '-' :: text => let (name, value?) := splitValue text; d.long direction name value?
    | '-' :: c :: rest => d.short direction (c :: rest)
    | _ =>
      match d.pending with
      | some (target, none) => .ok { d with pending := some (target, some argument) }
      | _ => d.path argument

def finish (direction : Direction) (d : Draft) : Except UsageError Command := do
  let d ← d.settle
  if d.silent ∧ 0 < d.verbose then
    throw .conflict
  match d.input, d.output with
  | some input, some output =>
    return {
      direction, input, output
      verbosity := if d.silent then 0 else 2 + d.verbose
      level := d.settings.lookup .level
      here := d.settings.lookup .here
      oneAhead := d.settings.lookup .oneAhead
      twoAhead := d.settings.lookup .twoAhead
    }
  | _, _ => throw .missingPath

end Draft

def direction? : String → Option Direction
  | "encode" => some .encode
  | "decode" => some .decode
  | _ => none

def isCommand (name : String) : Bool := (direction? name).isSome || name == "help"

/-- Each word after `help` must name a command, and commands have none of their own. -/
def helpOn : List String → UsageError
  | [] => .help none
  | [name] => if isCommand name then .help (direction? name) else .unknownCommand
  | _ => .unknownCommand

/-- What the options before the command ask for. -/
def leading (text : List Char) : UsageError :=
  match text with
  | '-' :: rest =>
    match Draft.splitValue rest with
    | ("help", none) => .help none
    | ("version", none) => .version
    | ("help", some _) => .surplusValue
    | ("version", some _) => .surplusValue
    | _ => .unknownArgument
  | 'h' :: _ => .help none
  | 'V' :: _ => .version
  | _ => .unknownArgument

/-- Reads the arguments of the program. -/
def parse : List String → Except UsageError Command
  | [] => .error .noCommand
  | ["--"] => .error .noCommand
  | "--" :: name :: _ => .error (if isCommand name then .unknownArgument else .unknownCommand)
  | "help" :: rest => .error (helpOn rest)
  | name :: rest =>
    match direction? name with
    | some direction => do (← rest.foldlM (Draft.take direction) {}).finish direction
    | none =>
      match name.toList with
      | '-' :: c :: text => .error (leading (c :: text))
      | _ => .error .unknownCommand

end Arguments

end LzCodec
