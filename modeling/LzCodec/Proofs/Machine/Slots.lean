import LzCodec.Proofs.Machine.Parser
import LzCodec.Proofs.Machine.Unpack

/-!
# Slots on machine words

Writing, reading and weighing a number each compute with a formula of their own. All of them have the
same code of a number, up to the highest slots of 32 bits, and each code is that of one number
(`slots_code_words`).
-/

namespace LzCodec

/-- A number and its code, where the slot alone gives the width and the range, and the number alone the
width. -/
structure Slot.Codes (value : Nat) (c : SlotCode) : Prop where
  encode : Slot.encode value = c
  width : Slot.width c.slot = c.width
  extraBits : Slot.extraBits value = c.width
  extra_lt : c.extra < 2 ^ c.width
  base_add : Slot.base c.slot + c.extra = value

theorem Slot.codes_encode (value : Nat) : Codes value (Slot.encode value) where
  encode := rfl
  width := width_encode value
  extraBits := extraBits_eq_width value
  extra_lt := Slot.extra_lt value
  base_add := base_add_extra value

theorem Slot.codes_base_add {slot extra : Nat} (h : extra < 2 ^ Slot.width slot) :
    Codes (base slot + extra) ⟨slot, Slot.width slot, extra⟩ := by
  rw [← encode_base_add h]
  exact codes_encode (base slot + extra)

namespace Machine

/-- A number of 32 bits and its code, as they are computed without an overflow. -/
structure Codes (value : Nat) (c : SlotCode) : Prop extends Slot.Codes value c where
  slot_lt : c.slot < 64
  encodeWord : encodeSlot value = pure c
  widthWord : slotWidth c.slot = pure c.width
  extraBitsWord : Machine.extraBits value = pure c.width
  sumWord : (do add 32 (← slotBase c.slot) c.extra) = pure value

theorem codes_of_lt {value : Nat} {c : SlotCode} (h : Slot.Codes value c) (hvalue : value < 2 ^ 32) :
    Codes value c := by
  have hslot : c.slot < 64 := h.encode ▸ Slot.slot_lt (by decide) hvalue
  refine ⟨h, hslot, ?_, ?_, ?_, ?_⟩
  · rw [encodeSlot_eq hvalue, h.encode]
  · rw [(slotWidth_eq hslot).1, h.width]
  · rw [extraBits_eq hvalue, h.extraBits]
  · have hsum := h.base_add
    rw [slotBase_of_lt hslot, pure_bind, add_of_lt (by omega), hsum]

theorem base_add_lt_of_slot_lt {slot extra : Nat} (h : slot < 64) (hextra : extra < 2 ^ Slot.width slot) :
    Slot.base slot + extra < 2 ^ 32 := by
  have hend : Slot.base 64 = 2 ^ 32 := rfl
  have hnext : Slot.base (slot + 1) ≤ Slot.base 64 := Slot.base_le_base h
  rw [Slot.base_succ] at hnext
  omega

/-- **Slots are a coding of the numbers of 32 bits.** Each number has a code, on which all functions
agree, and each slot below 64 with each choice of its extra bits is the code of the number that they add
up to. Larger numbers have no smaller slots, lengths fit into 32 slots and distances into 48. -/
theorem slots_code_words :
    (∀ value < UInt32.size, Codes value (Slot.encode value)) ∧
      (∀ slot < 64, ∀ extra < 2 ^ Slot.width slot,
        Codes (Slot.base slot + extra) ⟨slot, Slot.width slot, extra⟩) ∧
      (Monotone fun value => (Slot.encode value).slot) ∧
      (∀ value ≤ 65532, (Slot.encode value).slot < 32) ∧
      ∀ value < 2 ^ 24, (Slot.encode value).slot < 48 := by
  refine ⟨?_, ?_, fun _ _ => Slot.slot_le_slot, ?_, fun value => Slot.slot_lt (by decide)⟩
  · intro value hvalue
    exact codes_of_lt (Slot.codes_encode value) hvalue
  · intro slot hslot extra hextra
    exact codes_of_lt (Slot.codes_base_add hextra) (base_add_lt_of_slot_lt hslot hextra)
  · intro value hvalue
    exact Slot.slot_lt (n := 16) (by decide) (by omega)

/-- The largest number has the highest slot with all its extra bits set. -/
theorem slots_code_words_largest :
    Codes 4294967295 ⟨63, 30, 1073741823⟩ ∧ (Slot.encode 65532).slot < 32 := by
  obtain ⟨-, hcodes, -, hlengths, -⟩ := slots_code_words
  exact ⟨hcodes 63 (by decide) 1073741823 (by decide), hlengths 65532 (by decide)⟩

end Machine

end LzCodec
