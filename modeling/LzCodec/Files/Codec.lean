import LzCodec.Files.Host
import LzCodec.Frame.Decode
import LzCodec.Frame.Encode
import LzCodec.Sizes

/-!
# Calls on files

A call reads the whole source and runs the codec before it creates the target, and a target that
cannot be written to the end is removed again. The names `stdin` and `stdout` stand for the standard
streams.
-/

namespace LzCodec

namespace Files

variable {m : Type → Type} {η : Type} [Monad m] [Host m η]

/-- Shows a message if the verbosity is at least `level`. -/
def tell (verbosity level : Nat) (text : String) : m Unit :=
  if level ≤ verbosity then Host.message text else pure ()

def inputName : String := "stdin"
def outputName : String := "stdout"

def readSource (verbosity : Nat) (path : String) : m (Except SystemError Bytes) := do
  if path = inputName then
    tell verbosity 4 "Using stdin for input\n"
    Host.readInput
  else
    match ← Host.readFile path with
    | .ok bytes => return .ok bytes
    | .error e =>
      tell verbosity 3 (path ++ ": " ++ e.message ++ "\n")
      return .error e

def writeTarget (verbosity : Nat) (path : String) (bytes : Bytes) :
    m (Except SystemError Unit) := do
  if path = outputName then
    tell verbosity 4 "Using stdout for output\n"
    Host.writeOutput bytes
  else
    match ← Host.createFile path with
    | .error e => return .error e
    | .ok handle =>
      match ← Host.writeFile handle bytes with
      | .ok _ => return .ok ()
      | .error e =>
        Host.removeFile path
        tell verbosity 3 (path ++ ": " ++ e.message ++ "\n")
        return .error e

/-- Reports each block of a frame as it was written, of a source of `size` bytes. -/
def tellEncoded (verbosity size : Nat) (blocks : List BlockHeader) (number pos : Nat) : m Unit := do
  match blocks with
  | [] => if 0 < number then tell verbosity 3 "\n"
  | b :: rest =>
    let number := number + 1
    let pos := pos + b.rawSize
    tell verbosity 4 ("block " ++ toString number ++ ": " ++ toString b.rawSize ++ " bytes, " ++
      toString b.tokenCount ++ " tokens => " ++ toString b.payloadSize ++ " bytes\n")
    tell verbosity 3 ("\rencoded " ++ toString pos ++ " / " ++ toString size ++ " bytes")
    tellEncoded verbosity size rest number pos

/-- Reports each block of a frame that was read. -/
def tellDecoded (verbosity : Nat) (blocks : List BlockHeader) : m Unit :=
  blocks.forM fun b =>
    tell verbosity 4 ("block: " ++ toString b.tokenCount ++ " tokens => " ++ toString b.rawSize ++
      " bytes\n")

/-- Writes the result of a call that read `size` bytes. -/
def deliver (verbosity size : Nat) (target : String) (bytes : Bytes) :
    m (Except Failure Sizes) := do
  match ← writeTarget verbosity target bytes with
  | .error e => return .error (.system e)
  | .ok _ => return .ok ⟨size, bytes.size⟩

/-- Writes the frame of the source to the target. -/
def encode (verbosity : Nat) (source target : String) (effort : Effort) :
    m (Except Failure Sizes) := do
  match ← readSource verbosity source with
  | .error e => return .error (.system e)
  | .ok src =>
    let frame := Frame.encode src effort
    tellEncoded verbosity src.size frame.blocks.toList 0 0
    deliver verbosity src.size target frame.bytes

/-- Writes the content of the frame in the source to the target. -/
def decode (verbosity : Nat) (source target : String) : m (Except Failure Sizes) := do
  match ← readSource verbosity source with
  | .error e => return .error (.system e)
  | .ok src =>
    let frame := Frame.decode src
    tellDecoded verbosity frame.blocks.toList
    match frame.result with
    | .error e => return .error (.corrupt e)
    | .ok content => deliver verbosity src.size target content

end Files

end LzCodec
