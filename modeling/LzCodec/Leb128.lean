import LzCodec.Bytes
import LzCodec.Corruption

/-!
# LEB128

A number is written seven bits to a byte, lowest first, and every byte but the last has its high bit
set. A reader accepts any number below `2 ^ 64` in at most ten bytes, padded or not.
-/

namespace LzCodec

namespace Leb128

def maxBytes : Nat := 10

def write (dst : Bytes) (value : Nat) : Bytes :=
  if value < 128 then
    dst.push value.toUInt8
  else
    write (dst.push (value % 128 + 128).toUInt8) (value / 128)
termination_by value

/-- Reads on with `left` bytes allowed. The bytes so far have the value `value`, and the next one
counts `weight` times. The tenth byte may only add the last bit of a 64-bit number. -/
def readFrom (src : Bytes) (left value weight : Nat) : EStateM Corruption Nat Nat := fun pos =>
  match left with
  | 0 => .error .varintOverflow pos
  | left + 1 =>
    if h : pos < src.size then
      let byte := src[pos].toNat
      let payload := byte % 128
      if left = 0 ∧ 1 < payload then
        .error .varintOverflow (pos + 1)
      else if byte < 128 then
        .ok (value + payload * weight) (pos + 1)
      else
        readFrom src left (value + payload * weight) (weight * 128) (pos + 1)
    else
      .error .truncated pos

/-- Reads the number at the current position and moves past it. After an error the position is
behind the last byte that was looked at. -/
def read (src : Bytes) : EStateM Corruption Nat Nat := readFrom src maxBytes 0 1

theorem readFrom_pos {src : Bytes} {left value weight pos v next : Nat}
    (h : readFrom src left value weight pos = .ok v next) : pos < next ∧ next ≤ src.size := by
  induction left generalizing value weight pos with
  | zero => simp [readFrom] at h
  | succ left ih =>
    simp only [readFrom] at h
    split at h
    · split at h
      · cases h
      · split at h
        · cases h; omega
        · have := ih h; omega
    · cases h

theorem read_pos {src : Bytes} {pos v next : Nat} (h : read src pos = .ok v next) :
    pos < next ∧ next ≤ src.size :=
  readFrom_pos h

end Leb128

end LzCodec
