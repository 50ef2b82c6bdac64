import LzCodec.Slot

/-!
# Slots are a coding of numbers

A slot and its extra bits give the number back, and the number of extra bits follows from the slot.
The ranges of the slots follow each other without a gap (`base_succ`), so no slot and no choice of extra
bits is left over (`encode_base_add`).
-/

namespace LzCodec

namespace Slot

theorem pow_log2_le {value : Nat} (h : 4 ≤ value) : 2 ^ value.log2 ≤ value :=
  Nat.log2_self_le (by omega)

theorem two_le_log2 {value : Nat} (h : 4 ≤ value) : 2 ≤ value.log2 :=
  (Nat.le_log2 (by omega)).2 h

theorem log2_lt {value n : Nat} (h : 4 ≤ value) (hv : value < 2 ^ n) : value.log2 < n :=
  (Nat.log2_lt (by omega)).2 hv

/-- The two highest bits of a number. -/
theorem top_bits {value : Nat} (h : 4 ≤ value) :
    value / 2 ^ (value.log2 - 1) = 2 + value / 2 ^ (value.log2 - 1) % 2 := by
  have htop := two_le_log2 h
  have hpow : 2 ^ value.log2 = 2 * 2 ^ (value.log2 - 1) := by
    rw [← Nat.pow_succ', Nat.succ_eq_add_one, Nat.sub_add_cancel (by omega)]
  have hlow : 2 ≤ value / 2 ^ (value.log2 - 1) := by
    rw [Nat.le_div_iff_mul_le (Nat.two_pow_pos _), ← hpow]
    exact pow_log2_le h
  have hhigh : value / 2 ^ (value.log2 - 1) < 4 := by
    apply Nat.div_lt_of_lt_mul
    have hlt := Nat.lt_log2_self (n := value)
    rw [Nat.pow_succ, hpow] at hlt
    omega
  omega

theorem encode_of_lt {value : Nat} (h : value < 4) : encode value = ⟨value, 0, 0⟩ := by
  rw [encode, if_pos h]

theorem encode_of_le {value : Nat} (h : 4 ≤ value) :
    encode value = ⟨2 * value.log2 + value / 2 ^ (value.log2 - 1) % 2, value.log2 - 1,
      value % 2 ^ (value.log2 - 1)⟩ := by
  rw [encode, if_neg (Nat.not_lt_of_le h)]

theorem width_encode (value : Nat) : width (encode value).slot = (encode value).width := by
  by_cases h : value < 4
  · rw [encode_of_lt h, width, if_pos h]
  · have htop := two_le_log2 (Nat.le_of_not_lt h)
    rw [encode_of_le (Nat.le_of_not_lt h), width]
    dsimp only
    rw [if_neg (by omega)]
    omega

theorem extra_lt (value : Nat) : (encode value).extra < 2 ^ (encode value).width := by
  by_cases h : value < 4
  · rw [encode_of_lt h]
    exact Nat.one_pos
  · rw [encode_of_le (Nat.le_of_not_lt h)]
    exact Nat.mod_lt _ (Nat.two_pow_pos _)

theorem base_add_extra (value : Nat) : base (encode value).slot + (encode value).extra = value := by
  by_cases h : value < 4
  · rw [encode_of_lt h, base, if_pos h]
    rfl
  · have htop := two_le_log2 (Nat.le_of_not_lt h)
    rw [encode_of_le (Nat.le_of_not_lt h), base]
    dsimp only
    generalize hm : value / 2 ^ (value.log2 - 1) % 2 = m
    have hm2 : m < 2 := hm ▸ Nat.mod_lt _ (by decide)
    have hbits := top_bits (Nat.le_of_not_lt h)
    rw [hm] at hbits
    rw [if_neg (by omega), show (2 * value.log2 + m) / 2 = value.log2 by omega,
      show (2 * value.log2 + m) % 2 = m by omega, ← hbits]
    exact Nat.div_add_mod' _ _

/-- A number of `n` bits has a slot below `2 * n`. -/
theorem slot_lt {value n : Nat} (hn : 2 ≤ n) (h : value < 2 ^ n) : (encode value).slot < 2 * n := by
  by_cases h4 : value < 4
  · rw [encode_of_lt h4]
    dsimp only
    omega
  · have htop := log2_lt (Nat.le_of_not_lt h4) h
    rw [encode_of_le (Nat.le_of_not_lt h4)]
    have hm := Nat.mod_lt (value / 2 ^ (value.log2 - 1)) (show 0 < 2 by decide)
    dsimp only
    omega

/-- Fewer bits follow the slot of a number than it has. -/
theorem width_lt {value n : Nat} (hn : 0 < n) (h : value < 2 ^ n) : (encode value).width < n := by
  by_cases h4 : value < 4
  · rw [encode_of_lt h4]
    exact hn
  · have htop := log2_lt (Nat.le_of_not_lt h4) h
    rw [encode_of_le (Nat.le_of_not_lt h4)]
    exact Nat.lt_of_le_of_lt (Nat.sub_le _ _) htop

theorem extraBits_eq_width (value : Nat) : extraBits value = (encode value).width := by
  unfold extraBits
  split
  · rw [encode_of_lt ‹_›]
  · rw [encode_of_le (Nat.le_of_not_lt ‹_›)]

/-! ## Ranges -/

/-- Each slot ends where the next one begins. -/
theorem base_succ (slot : Nat) : base (slot + 1) = base slot + 2 ^ width slot := by
  by_cases hsmall : slot < 4
  · have hcases : slot = 0 ∨ slot = 1 ∨ slot = 2 ∨ slot = 3 := by omega
    rcases hcases with rfl | rfl | rfl | rfl <;> rfl
  · have hparity : slot % 2 = 0 ∨ slot % 2 = 1 := by omega
    unfold base width
    rw [if_neg (by omega), if_neg hsmall, if_neg hsmall]
    rcases hparity with heven | hodd
    · rw [show (slot + 1) / 2 = slot / 2 by omega, show (slot + 1) % 2 = 1 by omega, heven]
      omega
    · rw [show (slot + 1) / 2 - 1 = slot / 2 - 1 + 1 by omega, show (slot + 1) % 2 = 0 by omega, hodd,
        Nat.pow_succ]
      omega

theorem base_lt_base {slot slot' : Nat} (h : slot < slot') : base slot < base slot' := by
  induction h with
  | refl =>
    rw [base_succ]
    exact Nat.lt_add_of_pos_right (Nat.two_pow_pos _)
  | step _ ih =>
    rw [base_succ]
    exact Nat.lt_of_lt_of_le ih (Nat.le_add_right _ _)

theorem base_le_base {slot slot' : Nat} (h : slot ≤ slot') : base slot ≤ base slot' := by
  rcases Nat.lt_or_eq_of_le h with hlt | rfl
  · exact Nat.le_of_lt (base_lt_base hlt)
  · exact Nat.le_refl _

/-- A number lies in its slot. -/
theorem base_le_and_lt (value : Nat) :
    base (encode value).slot ≤ value ∧ value < base ((encode value).slot + 1) := by
  have hsum := base_add_extra value
  have hextra := extra_lt value
  rw [base_succ, width_encode]
  omega

/-- A number lies in no other slot, since slots are apart. -/
theorem slot_eq {value slot : Nat} (hlow : base slot ≤ value) (hhigh : value < base (slot + 1)) :
    (encode value).slot = slot := by
  obtain ⟨hlow', hhigh'⟩ := base_le_and_lt value
  rcases Nat.lt_trichotomy (encode value).slot slot with hlt | heq | hgt
  · have hbefore : base ((encode value).slot + 1) ≤ base slot := base_le_base hlt
    omega
  · exact heq
  · have hbehind : base (slot + 1) ≤ base (encode value).slot := base_le_base hgt
    omega

/-- Each slot with each choice of its extra bits is the code of a number. -/
theorem encode_base_add {slot extra : Nat} (h : extra < 2 ^ width slot) :
    encode (base slot + extra) = ⟨slot, width slot, extra⟩ := by
  have hslot : (encode (base slot + extra)).slot = slot := by
    apply slot_eq (Nat.le_add_right _ _)
    rw [base_succ]
    omega
  have hwidth := width_encode (base slot + extra)
  have hsum := base_add_extra (base slot + extra)
  rw [hslot] at hwidth hsum
  have hextra : (encode (base slot + extra)).extra = extra := Nat.add_left_cancel hsum
  cases hcode : encode (base slot + extra) with
  | mk s w e =>
    rw [hcode] at hslot hwidth hextra
    dsimp only at hslot hwidth hextra
    rw [hslot, hwidth, hextra]

/-- Larger numbers have no smaller slots. -/
theorem slot_le_slot {value value' : Nat} (h : value ≤ value') :
    (encode value).slot ≤ (encode value').slot := by
  obtain ⟨hlow, -⟩ := base_le_and_lt value
  obtain ⟨-, hhigh⟩ := base_le_and_lt value'
  apply Nat.le_of_not_lt
  intro hback
  have hbefore : base ((encode value').slot + 1) ≤ base (encode value).slot := base_le_base hback
  omega

end Slot

end LzCodec
