import LzCodec.CommandLine.Usage
import LzCodec.Files.Codec

/-!
# Running a command

A command reads the default level if it needs one, calls the codec, and reports the sizes. A failure
is told as one line: what was tried, the failure, and its cause.
-/

namespace LzCodec

/-- A failure and what was tried. -/
structure RunFailure where
  command : Command
  failure : Failure

namespace RunFailure

def attempt (c : Command) : String :=
  (match c.direction with
    | .encode => "encoding failed: "
    | .decode => "decoding failed: ") ++ c.input ++ " -> " ++ c.output

def message (f : RunFailure) : String :=
  attempt f.command ++ ": " ++ f.failure.message ++ ": " ++ f.failure.cause

end RunFailure

namespace Command

variable {m : Type → Type} {η : Type} [Monad m] [Host m η]

/-- The effort of a command, with a warning where the environment names no level. -/
def chooseEffort (c : Command) : m Effort := do
  if c.level.isSome then
    return c.effort none
  let value ← Host.environment Level.variableName
  match Level.warning? value with
  | some text => Files.tell c.verbosity 2 text
  | none => pure ()
  return c.effort value

def call (c : Command) : m (Except Failure Sizes) := do
  match c.direction with
  | .encode =>
    let effort ← c.chooseEffort
    Files.tell c.verbosity 4 ("match_depth=" ++ toString effort.here ++ " lazy_match_depth1=" ++
      toString effort.oneAhead ++ " lazy_match_depth2=" ++ toString effort.twoAhead ++ "\n")
    Files.encode c.verbosity c.input c.output effort
  | .decode => Files.decode c.verbosity c.input c.output

def run (c : Command) : m (Except RunFailure Unit) := do
  let start ← Host.now
  match ← c.call with
  | .error f => return .error ⟨c, f⟩
  | .ok sizes =>
    let elapsed := (← Host.now) - start
    Files.tell c.verbosity 2 (Report.text sizes c.direction
      (Report.seconds (elapsed / 1000000000) (elapsed % 1000000000)))
    return .ok ()

end Command

section
variable {m : Type → Type} {η : Type} [Monad m] [Host m η]

/-- Runs the program and returns its exit code. -/
def program (arguments : List String) : m Nat := do
  match Arguments.parse arguments with
  | .error e =>
    if e.exitCode = 0 then
      let _ ← Host.writeOutput (Usage.text e).toUTF8.data
    else
      Host.message (Usage.text e)
    return e.exitCode
  | .ok command =>
    match ← command.run with
    | .ok _ => return 0
    | .error f =>
      Files.tell command.verbosity 1 ("orz: " ++ f.message ++ "\n")
      return 1

end

end LzCodec
