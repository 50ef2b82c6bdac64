import LzCodec.Effort
import LzCodec.Text.Blank
import LzCodec.Text.Numeral

/-!
# Default level

An environment variable may name the level that is used where none is asked for. A value that names
no level is ignored with a warning.
-/

namespace LzCodec

namespace Level

def variableName : String := "ORZ_LEVEL"

/-- The level that the value of the variable names. -/
def ofText? (text : String) : Option Nat :=
  match Text.natural? (Text.trim text.toList) with
  | some level => if level ≤ Effort.maxLevel then some level else none
  | none => none

def ofEnvironment (value : Option String) : Nat :=
  (value.bind ofText?).getD Effort.defaultLevel

/-- The warning that a value of the variable calls for. -/
def warning? (value : Option String) : Option String :=
  match value with
  | none => none
  | some text =>
    match ofText? text with
    | some _ => none
    | none => some ("Ignore environment variable setting " ++ variableName ++ "=" ++ text ++
        ": not a level in 0..=" ++ toString Effort.maxLevel ++ " \n")

end Level

end LzCodec
