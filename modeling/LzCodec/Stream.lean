import LzCodec.Failure
import LzCodec.Frame.Decode
import LzCodec.Frame.Encode
import LzCodec.Sizes

/-!
# Streams

A call on streams reads its source to the end, runs the codec, and only then writes. Nothing is
written when the source breaks off or is corrupt.
-/

namespace LzCodec

/-- What a source gives, read by read, and the error it may end with. A read that gives nothing is
the end. -/
structure Source where
  chunks : List Bytes
  error : Option SystemError := none

/-- A writer that may be full, or refuse to flush. -/
structure Sink where
  written : Bytes := #[]
  /-- The number of bytes it can hold in all. -/
  capacity : Option Nat := none
  fullError : SystemError := .storageFull
  flushError : Option SystemError := none

namespace Source

/-- Reads on to the end, behind the bytes in `acc`. -/
def readFrom (error : Option SystemError) (acc : Bytes) : List Bytes → Except SystemError Bytes
  | [] =>
    match error with
    | some e => .error e
    | none => .ok acc
  | chunk :: rest => if chunk.isEmpty then .ok acc else readFrom error (acc ++ chunk) rest

def readAll (s : Source) : Except SystemError Bytes := readFrom s.error #[] s.chunks

end Source

namespace Sink

/-- Writes as many of the bytes as there is room for. -/
def write (bytes : Bytes) : EStateM SystemError Sink Unit := fun sink =>
  match sink.capacity with
  | none => .ok () { sink with written := sink.written ++ bytes }
  | some capacity =>
    let room := capacity - sink.written.size
    if bytes.size ≤ room then
      .ok () { sink with written := sink.written ++ bytes }
    else
      .error sink.fullError { sink with written := sink.written ++ bytes.take room }

def flush : EStateM SystemError Sink Unit := fun sink =>
  match sink.flushError with
  | some e => .error e sink
  | none => .ok () sink

end Sink

namespace Stream

/-- Writes and flushes `bytes`, which came from a source of `size` bytes. -/
def deliver (size : Nat) (bytes : Bytes) (sink : Sink) : Except Failure Sizes × Sink :=
  match (do Sink.write bytes; Sink.flush : EStateM SystemError Sink Unit) sink with
  | .ok _ sink => (.ok ⟨size, bytes.size⟩, sink)
  | .error e sink => (.error (.system e), sink)

/-- Writes the frame of everything that the source gives. -/
def encode (source : Source) (effort : Effort) (sink : Sink) : Except Failure Sizes × Sink :=
  match source.readAll with
  | .error e => (.error (.system e), sink)
  | .ok bytes => deliver bytes.size (compress bytes effort) sink

/-- Writes the content of the frame that the source gives. -/
def decode (source : Source) (sink : Sink) : Except Failure Sizes × Sink :=
  match source.readAll with
  | .error e => (.error (.system e), sink)
  | .ok bytes =>
    match decompress bytes with
    | .error e => (.error (.corrupt e), sink)
    | .ok content => deliver bytes.size content sink

end Stream

end LzCodec
