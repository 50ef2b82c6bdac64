import LzCodec.Bytes
import LzCodec.Powers

/-!
# Bit writer

Bits fill each byte from its highest end. Between two writes fewer than eight bits are pending, and
`finish` pads them with zeros.
-/

namespace LzCodec

structure BitWriter where
  bytes : Bytes := #[]
  /-- The bits behind the last full byte, as a number of `width` bits. -/
  pending : Nat := 0
  width : Nat := 0
  width_lt : width < 8 := by decide
  pending_lt : pending < 2 ^ width := by decide

namespace BitWriter

/-- Moves the full bytes of the `width` bits in `acc` to `bytes`. -/
def drain (bytes : Bytes) (acc width : Nat) (h : acc < 2 ^ width) : BitWriter :=
  if hw : width < 8 then
    ⟨bytes, acc, width, hw, h⟩
  else
    drain (bytes.push (acc >>> (width - 8)).toUInt8) (acc % 2 ^ (width - 8)) (width - 8)
      (Nat.mod_lt _ (Nat.two_pow_pos _))
termination_by width

theorem append_lt {pending width value count : Nat} (hp : pending < 2 ^ width)
    (hv : value < 2 ^ count) : pending * 2 ^ count + value < 2 ^ (width + count) := by
  rw [Nat.pow_add]
  calc
    pending * 2 ^ count + value < (pending + 1) * 2 ^ count := by rw [Nat.add_mul]; omega
    _ ≤ 2 ^ width * 2 ^ count := Nat.mul_le_mul_right _ hp

/-- Appends the low `count` bits of `value`, highest first. -/
def put (w : BitWriter) (value count : Nat) : BitWriter :=
  match w with
  | ⟨bytes, pending, width, _, h⟩ =>
    drain bytes (pending * 2 ^ count + value % 2 ^ count) (width + count)
      (append_lt h (Nat.mod_lt _ (Nat.two_pow_pos _)))

/-- Appends a number in groups of two bits, its lowest bit first. The first bit of a group says
whether another group follows, the second one is a bit of the number. -/
def putVarint (w : BitWriter) (value : Nat) : BitWriter :=
  if value < 2 then
    w.put value 2
  else
    (w.put (2 + value % 2) 2).putVarint (value / 2)
termination_by value

def finish (w : BitWriter) : Bytes :=
  if w.width = 0 then w.bytes else w.bytes.push (w.pending * 2 ^ (8 - w.width)).toUInt8

end BitWriter

end LzCodec
