import LzCodec.Files.Host
import LzCodec.Files.Store

/-!
# World

A host in memory: a file store, the standard streams, and the faults that calls on files may meet.
-/

namespace LzCodec

/-- What goes wrong in the system, if anything does. -/
structure Faults where
  /-- Why no file can be read. -/
  read : Option SystemError := none
  /-- Why no file can be made or emptied. -/
  create : Option SystemError := none
  /-- How many bytes a write to a file keeps before it fails, and why it does. -/
  write : Option (Nat × SystemError) := none

structure World where
  store : FileStore := {}
  faults : Faults := {}
  input : Bytes := #[]
  output : Bytes := #[]
  messages : String := ""
  environment : List (String × String) := []

namespace World

def readFile (path : String) : StateM World (Except SystemError Bytes) := fun w =>
  match w.faults.read with
  | some e => (.error e, w)
  | none => (w.store.content path, w)

def createFile (path : String) : StateM World (Except SystemError Place) := fun w =>
  match w.faults.create with
  | some e => (.error e, w)
  | none =>
    match w.store.createFile path with
    | .error e => (.error e, w)
    | .ok (place, store) => (.ok place, { w with store })

def writeFile (place : Place) (bytes : Bytes) : StateM World (Except SystemError Unit) := fun w =>
  match w.faults.write with
  | none =>
    let (result, store) := w.store.writeFile place bytes
    (result, { w with store })
  | some (count, e) =>
    let (_, store) := w.store.writeFile place (bytes.take count)
    (.error e, { w with store })

def removeFile (path : String) : StateM World Unit := fun w =>
  ((), { w with store := w.store.removeFile path })

end World

instance : Host (StateM World) Place where
  readFile := World.readFile
  createFile := World.createFile
  writeFile := World.writeFile
  removeFile := World.removeFile
  readInput := fun w => (.ok w.input, w)
  writeOutput bytes := fun w => (.ok (), { w with output := w.output ++ bytes })
  message text := fun w => ((), { w with messages := w.messages ++ text })
  now := pure 0
  environment name := fun w => (w.environment.lookup name, w)

end LzCodec
