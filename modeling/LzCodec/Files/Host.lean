import LzCodec.Bytes
import LzCodec.Failure

/-!
# Host

What the calls on files and the command line need from the system that they run on.
-/

namespace LzCodec

/-- A system whose files are written through handles of type `η`. -/
class Host (m : Type → Type) (η : outParam Type) where
  readFile : String → m (Except SystemError Bytes)
  /-- Opens a file for writing and empties it. -/
  createFile : String → m (Except SystemError η)
  writeFile : η → Bytes → m (Except SystemError Unit)
  removeFile : String → m Unit
  readInput : m (Except SystemError Bytes)
  writeOutput : Bytes → m (Except SystemError Unit)
  message : String → m Unit
  /-- Nanoseconds since some moment. -/
  now : m Nat
  environment : String → m (Option String)

end LzCodec
