import LzCodec.Files.Codec
import LzCodec.Sizes

/-!
# Foreign calls

Calls as they arrive through a C interface: each argument may be missing, a path may be no valid text,
and a target is memory with room for a given number of bytes. A call that fails says nothing more than
that, and leaves the memory as it is.
-/

namespace LzCodec

namespace Foreign

/-- The path in the bytes before the first zero byte. -/
def path? (argument : Option Bytes) : Option String := do
  let bytes ← argument
  String.fromUTF8? ⟨bytes.takeWhile (· ≠ 0)⟩

/-- The verbosity of a caller that has set none. -/
def verbosity : Nat := 1

section
variable {m : Type → Type} {η : Type} [Monad m] [Host m η]

def encodePath (source target : Option Bytes) (effort : Option Effort) : m (Option Sizes) := do
  match path? source, path? target, effort with
  | some source, some target, some effort =>
    return (← Files.encode verbosity source target effort).toOption
  | _, _, _ => return none

def decodePath (source target : Option Bytes) : m (Option Sizes) := do
  match path? source, path? target with
  | some source, some target => return (← Files.decode verbosity source target).toOption
  | _, _ => return none

end

/-- Copies `bytes` to the start of the memory, if they fit in the room. -/
def copyOut (size : Nat) (bytes memory : Bytes) (room : Nat) : Option Sizes × Bytes :=
  if bytes.size ≤ room then
    (some ⟨size, bytes.size⟩, bytes ++ memory.drop bytes.size)
  else
    (none, memory)

/-- Writes the frame of `source` to the memory. -/
def encodeBuffer (source target : Option Bytes) (room : Nat) (effort : Option Effort) :
    Option Sizes × Option Bytes :=
  match source, target, effort with
  | some source, some memory, some effort =>
    let (sizes, memory) := copyOut source.size (compress source effort) memory room
    (sizes, some memory)
  | _, _, _ => (none, target)

/-- Writes the content of the frame `source` to the memory. -/
def decodeBuffer (source target : Option Bytes) (room : Nat) : Option Sizes × Option Bytes :=
  match source, target with
  | some source, some memory =>
    match decompress source with
    | .error _ => (none, target)
    | .ok content =>
      let (sizes, memory) := copyOut source.size content memory room
      (sizes, some memory)
  | _, _ => (none, target)

end Foreign

end LzCodec
