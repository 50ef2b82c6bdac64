import LzCodec.Bytes
import LzCodec.Corruption
import LzCodec.Powers

/-!
# Bit reader

A position in the bits of a byte string. Looking ahead sees zeros behind the last byte, but only bits
that are there can be consumed.
-/

namespace LzCodec

structure BitReader where
  data : Bytes
  /-- The number of bits consumed. -/
  pos : Nat := 0
  pos_le : pos ≤ 8 * data.size := by exact Nat.zero_le _

/-- A reader that fails keeps what it consumed. -/
abbrev BitParser := EStateM Corruption BitReader

namespace BitReader

def byteAt (data : Bytes) (i : Nat) : Nat := if h : i < data.size then data[i].toNat else 0

/-- `acc` followed by the `count` bytes from `i` on, as one number. -/
def bigEndian (data : Bytes) (i acc : Nat) : Nat → Nat
  | 0 => acc
  | count + 1 => bigEndian data (i + 1) (acc * 256 + byteAt data i) count

def remaining (r : BitReader) : Nat := 8 * r.data.size - r.pos

/-- The next `count` bits as a number. -/
def peek (r : BitReader) (count : Nat) : Nat :=
  let start := r.pos % 8
  let bytes := (start + count + 7) / 8
  bigEndian r.data (r.pos / 8) 0 bytes >>> (8 * bytes - start - count) % 2 ^ count

def skip (count : Nat) : BitParser Unit := fun r =>
  if h : count ≤ r.remaining then
    .ok () ⟨r.data, r.pos + count, by have := r.pos_le; unfold remaining at h; omega⟩
  else
    .error .truncated r

def get (count : Nat) : BitParser Nat := fun r =>
  let value := r.peek count
  match skip count r with
  | .ok _ r => .ok value r
  | .error e r => .error e r

def maxVarintGroups : Nat := 32

/-- Reads on in a number of which the groups so far have the value `value`, with `left` more groups
allowed; the next bit counts `weight` times. -/
def getGroups (value weight : Nat) : Nat → BitParser Nat
  | 0 => throw .varintOverflow
  | left + 1 => do
    let group ← get 2
    let value := value + group % 2 * weight
    if group < 2 then
      return value
    getGroups value (weight * 2) left

def getVarint : BitParser Nat := getGroups 0 1 maxVarintGroups

/-- Accepts the end of the data: less than a byte is left, and all of it is zero. -/
def finish (r : BitReader) : Except Corruption Unit :=
  if r.remaining < 8 ∧ r.peek r.remaining = 0 then .ok () else .error .trailingData

end BitReader

end LzCodec
