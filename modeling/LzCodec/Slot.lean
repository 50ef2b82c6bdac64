import LzCodec.Powers

/-!
# Slots

A number below 4 is its own slot. Any other number shares a slot with those that agree with it in
their two highest bits; the bits behind these follow the slot as they are.
-/

namespace LzCodec

/-- A number as its slot and the `width` bits that follow. -/
structure SlotCode where
  slot : Nat
  width : Nat
  extra : Nat
  deriving DecidableEq, Repr

namespace Slot

def encode (value : Nat) : SlotCode :=
  if value < 4 then
    ⟨value, 0, 0⟩
  else
    let top := value.log2
    ⟨2 * top + value / 2 ^ (top - 1) % 2, top - 1, value % 2 ^ (top - 1)⟩

/-- The number of bits that follow a slot. -/
def width (slot : Nat) : Nat := if slot < 4 then 0 else slot / 2 - 1

/-- The smallest number in a slot. -/
def base (slot : Nat) : Nat := if slot < 4 then slot else (2 + slot % 2) * 2 ^ (slot / 2 - 1)

/-- The number of bits that follow the slot of `value`. -/
def extraBits (value : Nat) : Nat := if value < 4 then 0 else value.log2 - 1

end Slot

end LzCodec
