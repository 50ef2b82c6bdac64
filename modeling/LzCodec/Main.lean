import LzCodec.CommandLine.Run

/-!
# The program

The real file system and the standard streams as a host.
-/

namespace LzCodec

namespace Native

/-- A refusal by its number and text in the system. -/
def numbered (number : UInt32) (text : String) : SystemError :=
  match number.toNat with
  | 2 => .notFound
  | 20 => .notADirectory
  | 21 => .isADirectory
  | 22 => .invalidArgument
  | 28 => .storageFull
  | 36 => .nameTooLong
  | 40 => .tooManyLinks
  | n => .other (text ++ " (os error " ++ toString n ++ ")")

def systemError : IO.Error → SystemError
  | .noFileOrDirectory _ n t | .interrupted _ n t | .alreadyExists _ n t | .invalidArgument _ n t
  | .permissionDenied _ n t | .resourceExhausted _ n t | .inappropriateType _ n t
  | .noSuchThing _ n t | .otherError n t | .resourceBusy n t | .resourceVanished n t
  | .unsupportedOperation n t | .hardwareFault n t | .unsatisfiedConstraints n t
  | .illegalOperation n t | .protocolError n t | .timeExpired n t => numbered n t
  | .unexpectedEof => .other "unexpected end of file"
  | .userError text => .other text

def attempt {α : Type} (action : IO α) : IO (Except SystemError α) := do
  match ← action.toBaseIO with
  | .ok a => return .ok a
  | .error e => return .error (systemError e)

partial def readToEnd (stream : IO.FS.Stream) (acc : ByteArray) : IO ByteArray := do
  let chunk ← stream.read 65536
  if chunk.isEmpty then
    return acc
  readToEnd stream (acc ++ chunk)

def writeStream (stream : IO.FS.Stream) (bytes : Bytes) : IO Unit := do
  stream.write ⟨bytes⟩
  stream.flush

instance : Host IO IO.FS.Handle where
  readFile path := attempt do return (← (← IO.FS.Handle.mk path .read).readBinToEnd).data
  createFile path := attempt (IO.FS.Handle.mk path .write)
  writeFile handle bytes := attempt do
    handle.write ⟨bytes⟩
    handle.flush
  removeFile path := do
    let _ ← attempt (IO.FS.removeFile path)
  readInput := attempt do return (← readToEnd (← IO.getStdin) .empty).data
  writeOutput bytes := attempt do writeStream (← IO.getStdout) bytes
  message text := IO.eprint text
  now := IO.monoNanosNow
  environment name := IO.getEnv name

end Native

end LzCodec

def main (arguments : List String) : IO UInt32 := do
  let code : Nat ← LzCodec.program arguments
  return code.toUInt32
