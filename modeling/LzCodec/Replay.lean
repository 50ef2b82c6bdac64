import LzCodec.Bytes
import LzCodec.Corruption
import LzCodec.Token

/-!
# Replay

Tokens are applied to the bytes that earlier tokens produced. A block announces its size first, and no
token may write past its end.
-/

namespace LzCodec

structure Output where
  bytes : Bytes := #[]
  /-- The size at which the current block ends. -/
  blockEnd : Nat := 0
  size_le : bytes.size ≤ blockEnd := by simp

theorem Bytes.sub_lt_of_reach {bytes : Bytes} {distance : Nat}
    (h : 0 < distance ∧ distance ≤ bytes.size) : bytes.size - distance < bytes.size := by
  omega

theorem Bytes.reach_push {bytes : Bytes} {distance : Nat}
    (h : 0 < distance ∧ distance ≤ bytes.size) (byte : UInt8) :
    0 < distance ∧ distance ≤ (bytes.push byte).size := by
  rw [Array.size_push]
  omega

/-- Appends `count` bytes, each equal to the one that stands `distance` before it. -/
def Bytes.repeatBack (bytes : Bytes) (distance : Nat)
    (h : 0 < distance ∧ distance ≤ bytes.size) : Nat → Bytes
  | 0 => bytes
  | count + 1 =>
    have := Bytes.sub_lt_of_reach h
    Bytes.repeatBack (bytes.push bytes[bytes.size - distance]) distance (Bytes.reach_push h _) count

@[simp] theorem Bytes.size_repeatBack (bytes : Bytes) (distance : Nat)
    (h : 0 < distance ∧ distance ≤ bytes.size) (count : Nat) :
    (bytes.repeatBack distance h count).size = bytes.size + count := by
  induction count generalizing bytes with
  | zero => rfl
  | succ count ih => rw [Bytes.repeatBack, ih, Array.size_push]; omega

/-- An output that refuses a token stays as it is. -/
abbrev Replay := EStateM Corruption Output

namespace Output

def empty : Output := {}

/-- An empty output, with memory for `size` bytes. An element of an array takes eight bytes. -/
def withCapacity (size : Nat) : Output := { bytes := .emptyWithCapacity (size / 8) }

theorem withCapacity_eq (size : Nat) : withCapacity size = empty := rfl

def size (out : Output) : Nat := out.bytes.size

/-- Announces a block of `size` bytes. -/
def beginBlock (out : Output) (size : Nat) : Output :=
  match out with
  | ⟨bytes, _, _⟩ => ⟨bytes, bytes.size + size, Nat.le_add_right _ _⟩

def endBlock (out : Output) : Except Corruption Unit :=
  if out.bytes.size = out.blockEnd then .ok () else .error .blockSizeMismatch

def literal (byte : UInt8) : Replay Unit := fun out =>
  match out with
  | ⟨bytes, blockEnd, size_le⟩ =>
    if h : bytes.size < blockEnd then
      .ok () ⟨bytes.push byte, blockEnd, by rw [Array.size_push]; exact h⟩
    else
      .error .lengthOverrun ⟨bytes, blockEnd, size_le⟩

def copy (distance length : Nat) : Replay Unit := fun out =>
  match out with
  | ⟨bytes, blockEnd, size_le⟩ =>
    if h : 0 < distance ∧ distance ≤ bytes.size then
      if hl : length ≤ blockEnd - bytes.size then
        .ok () ⟨bytes.repeatBack distance h length, blockEnd,
          by rw [Bytes.size_repeatBack]; omega⟩
      else
        .error .lengthOverrun ⟨bytes, blockEnd, size_le⟩
    else
      .error (.distanceTooFar distance bytes.size) ⟨bytes, blockEnd, size_le⟩

def apply : Token → Replay Unit
  | .literal byte => literal byte
  | .copy length distance => copy distance length

def applyAll : List Token → Replay Unit
  | [] => pure ()
  | t :: rest => do apply t; applyAll rest

end Output

/-- The bytes that the tokens stand for. -/
def replay (tokens : Array Token) : Except Corruption Bytes :=
  let total := Token.totalSize tokens
  match Output.applyAll tokens.toList ((Output.withCapacity total).beginBlock total) with
  | .error e _ => .error e
  | .ok _ out =>
    match out.endBlock with
    | .error e => .error e
    | .ok _ => .ok out.bytes

end LzCodec
