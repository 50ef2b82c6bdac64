import Mathlib.Tactic.Ring
import LzCodec.Bytes
import LzCodec.Leb128
import LzCodec.Powers

/-!
# Numbers in a frame

A number below `2 ^ 64` is read from wherever its digits stand, padded or not (`Leb128.read_of_numeral`),
and so from where it was written (`Leb128.read_encoding`). Of what is written, only zero starts with a zero
byte. A word of four bytes is read back as well (`Bytes.word32_of_drop`).
-/

namespace LzCodec

/-- What stands at `pos` begins with a byte, and goes on behind it. -/
theorem Bytes.drop_eq_cons {data : Bytes} {pos : Nat} {byte : UInt8} {rest : List UInt8}
    (h : data.toList.drop pos = byte :: rest) :
    ∃ hpos : pos < data.size, data[pos] = byte ∧ data.toList.drop (pos + 1) = rest := by
  have hpos : pos < data.size := by
    by_contra hend
    rw [List.drop_of_length_le (by simpa using hend)] at h
    cases h
  have hpos' : pos < data.toList.length := hpos
  rw [List.drop_eq_getElem_cons hpos'] at h
  obtain ⟨hbyte, hrest⟩ := List.cons.inj h
  exact ⟨hpos, hbyte, hrest⟩

/-- What stands behind a part of the data. -/
theorem Bytes.drop_append {data : Bytes} {pos : Nat} {part rest : List UInt8}
    (h : data.toList.drop pos = part ++ rest) : data.toList.drop (pos + part.length) = rest := by
  rw [← List.drop_drop, h, List.drop_left]

/-- A word is made of its bytes. -/
theorem Bytes.word32_bytes (w : UInt32) :
    w.toUInt8.toUInt32 ||| (w >>> 8).toUInt8.toUInt32 <<< 8 ||| (w >>> 16).toUInt8.toUInt32 <<< 16 |||
      (w >>> 24).toUInt8.toUInt32 <<< 24 = w := by
  apply UInt32.toNat_inj.1
  have hw : w.toNat < 2 ^ 32 := w.toNat_lt
  apply Nat.eq_of_testBit_eq
  intro i
  simp only [UInt32.toNat_or, UInt32.toNat_shiftLeft, UInt8.toNat_toUInt32, UInt32.toNat_toUInt8,
    UInt32.toNat_shiftRight, UInt32.toNat_ofNat, Nat.testBit_or]
  have byte (k : Nat) (hk : k ≤ 24) : ((w.toNat >>> k % 2 ^ 8) <<< k % 2 ^ 32).testBit i =
      (decide (k ≤ i ∧ i < k + 8) && w.toNat.testBit i) := by
    rw [Nat.testBit_mod_two_pow, Nat.testBit_shiftLeft, Nat.testBit_mod_two_pow,
      Nat.testBit_shiftRight]
    by_cases hin : k ≤ i ∧ i < k + 8
    · have hback : k + (i - k) = i := by omega
      have hrange : i < 32 ∧ i ≥ k ∧ i - k < 8 := by omega
      simp [hin, hback, hrange]
    · have hout : ¬ ((i < 32 ∧ i ≥ k) ∧ i - k < 8) := by omega
      rw [decide_eq_false hin, Bool.false_and, ← Bool.and_assoc, ← Bool.and_assoc,
        ← Bool.decide_and, ← Bool.decide_and, decide_eq_false hout, Bool.false_and]
  have h₀ := byte 0 (by decide)
  simp only [Nat.shiftRight_zero, Nat.shiftLeft_zero] at h₀
  have hsmall : w.toNat % 2 ^ 8 % 2 ^ 32 = w.toNat % 2 ^ 8 := by omega
  rw [hsmall] at h₀
  rw [h₀, byte 8 (by decide), byte 16 (by decide), byte 24 (by decide)]
  cases hbit : w.toNat.testBit i with
  | false => simp
  | true =>
    have hi : i < 32 := by
      by_contra hge
      have hpow : 2 ^ 32 ≤ 2 ^ i := Nat.pow_le_pow_right (by decide) (Nat.le_of_not_lt hge)
      rw [Nat.testBit_lt_two_pow (Nat.lt_of_lt_of_le hw hpow)] at hbit
      cases hbit
    simp only [Bool.and_true, Bool.or_eq_true, decide_eq_true_eq]
    omega

/-- A word is read back from where its bytes stand. -/
theorem Bytes.word32_of_drop {data : Bytes} {w : UInt32} {pos : Nat}
    (h : pos + 4 ≤ data.size)
    (hd : data.toList.drop pos =
      [w.toUInt8, (w >>> 8).toUInt8, (w >>> 16).toUInt8, (w >>> 24).toUInt8]) :
    data.word32 pos h = w := by
  have byte (i : Nat) : data[pos + i]? = (data.toList.drop pos)[i]? := by
    rw [List.getElem?_drop, Array.getElem?_toList]
  rw [hd] at byte
  have h₀ : data[pos] = w.toUInt8 := by
    simpa [Array.getElem?_eq_getElem (show pos < data.size by omega)] using byte 0
  have h₁ : data[pos + 1] = (w >>> 8).toUInt8 := by
    simpa [Array.getElem?_eq_getElem (show pos + 1 < data.size by omega)] using byte 1
  have h₂ : data[pos + 2] = (w >>> 16).toUInt8 := by
    simpa [Array.getElem?_eq_getElem (show pos + 2 < data.size by omega)] using byte 2
  have h₃ : data[pos + 3] = (w >>> 24).toUInt8 := by
    simpa [Array.getElem?_eq_getElem (show pos + 3 < data.size by omega)] using byte 3
  rw [Bytes.word32, h₀, h₁, h₂, h₃, word32_bytes]

namespace Leb128

/-- The bytes of a number. -/
def encoding (value : Nat) : List UInt8 :=
  if value < 128 then [value.toUInt8] else (value % 128 + 128).toUInt8 :: encoding (value / 128)
termination_by value

theorem toList_write (dst : Bytes) (value : Nat) :
    (write dst value).toList = dst.toList ++ encoding value := by
  induction value using Nat.strongRecOn generalizing dst with
  | ind value ih =>
    unfold write encoding
    split
    · rw [Array.toList_push]
    · rw [ih _ (by omega), Array.toList_push, List.append_assoc, List.singleton_append]

theorem toNat_toUInt8 {n : Nat} (h : n < 256) : n.toUInt8.toNat = n :=
  Nat.mod_eq_of_lt h

/-- Only zero starts with a zero byte. -/
theorem encoding_eq_cons {value : Nat} (h : 0 < value) :
    ∃ byte rest, encoding value = byte :: rest ∧ byte ≠ 0 := by
  have hne {n : Nat} (hn : n < 256) (hpos : 0 < n) : n.toUInt8 ≠ 0 := by
    intro hzero
    have := congrArg UInt8.toNat hzero
    rw [toNat_toUInt8 hn] at this
    exact Nat.ne_of_gt hpos this
  unfold encoding
  split
  · rename_i hlt
    exact ⟨_, _, rfl, hne (by omega) h⟩
  · exact ⟨_, _, rfl, hne (by omega) (by omega)⟩

/-- A number of `7 * n` bits has `n` bytes at most. -/
theorem length_encoding_le {value n : Nat} (hn : 0 < n) (h : value < 2 ^ (7 * n)) :
    (encoding value).length ≤ n := by
  induction n generalizing value with
  | zero => cases hn
  | succ n ih =>
    unfold encoding
    split
    · exact hn
    · rename_i hlarge
      have hn' : 0 < n := by
        cases n with
        | zero => exact absurd h hlarge
        | succ n => exact Nat.succ_pos n
      rw [Nat.mul_succ, Nat.pow_add] at h
      exact Nat.succ_le_succ (ih hn' (by omega))

/-- Seven bits to a byte, lowest first. Every byte but the last has its high bit set. -/
inductive Digits : List UInt8 → Nat → Prop
  | last {byte : UInt8} (h : byte.toNat < 128) : Digits [byte] byte.toNat
  | more {byte : UInt8} {rest : List UInt8} {value : Nat} (h : 128 ≤ byte.toNat)
      (hrest : Digits rest value) : Digits (byte :: rest) (byte.toNat % 128 + value * 128)

/-- The bytes of a number of 64 bits, padded or not. -/
structure Numeral (bytes : List UInt8) (value : Nat) : Prop where
  digits : Digits bytes value
  length_le : bytes.length ≤ maxBytes
  value_lt : value < UInt64.size

theorem Digits.exists_cons {bytes : List UInt8} {value : Nat} (h : Digits bytes value) :
    ∃ byte rest, bytes = byte :: rest := by
  cases h with
  | last _ => exact ⟨_, _, rfl⟩
  | more _ _ => exact ⟨_, _, rfl⟩

/-- What is written are the digits of the number, and none too many. -/
theorem digits_encoding (value : Nat) : Digits (encoding value) value := by
  induction value using Nat.strongRecOn with
  | ind value ih =>
    unfold encoding
    split
    · rename_i hsmall
      have hbyte : value.toUInt8.toNat = value := toNat_toUInt8 (by omega)
      have hlast := Digits.last (hbyte.symm ▸ hsmall)
      rwa [hbyte] at hlast
    · rename_i hlarge
      have hbyte : (value % 128 + 128).toUInt8.toNat = value % 128 + 128 := toNat_toUInt8 (by omega)
      have hmore := Digits.more (hbyte.symm ▸ Nat.le_add_left _ _) (ih (value / 128) (by omega))
      rwa [hbyte, Nat.add_mod_right, Nat.mod_mod, Nat.mul_comm, Nat.mod_add_div] at hmore

theorem numeral_encoding {value : Nat} (h : value < UInt64.size) : Numeral (encoding value) value where
  digits := digits_encoding value
  length_le := length_encoding_le (by decide) (Nat.lt_of_lt_of_le h (by decide))
  value_lt := h

variable {src : Bytes} {bytes rest : List UInt8}

/-- Digits are read where they stand, in as many bytes and bits as are allowed. -/
theorem readFrom_of_digits {left value pos : Nat} (acc weight : Nat) (h : Digits bytes value)
    (hlen : bytes.length ≤ left) (hvalue : value < 2 ^ (7 * left - 6))
    (hdrop : src.toList.drop pos = bytes ++ rest) :
    readFrom src left acc weight pos = .ok (acc + value * weight) (pos + bytes.length) := by
  induction h generalizing left acc weight pos with
  | @last byte hlast =>
    obtain ⟨left, rfl⟩ := Nat.exists_eq_add_one_of_ne_zero (Nat.ne_of_gt hlen)
    obtain ⟨hpos, hbyte, -⟩ := Bytes.drop_eq_cons hdrop
    have hroom : ¬ (left = 0 ∧ 1 < byte.toNat) := by
      rintro ⟨rfl, hone⟩
      exact absurd hvalue (Nat.not_lt.2 hone)
    unfold readFrom
    simp only [dif_pos hpos, hbyte, Nat.mod_eq_of_lt hlast, if_neg hroom, if_pos hlast,
      List.length_singleton]
  | @more byte digits value hmore hdigits ih =>
    obtain ⟨left, rfl⟩ := Nat.exists_eq_add_one_of_ne_zero (Nat.ne_of_gt (Nat.zero_lt_of_lt hlen))
    obtain ⟨hpos, hbyte, hnext⟩ := Bytes.drop_eq_cons hdrop
    obtain ⟨_, _, rfl⟩ := hdigits.exists_cons
    have hlen' := Nat.le_of_succ_le_succ hlen
    have hleft : 0 < left := Nat.zero_lt_of_lt hlen'
    have hroom : ¬ (left = 0 ∧ 1 < byte.toNat % 128) := fun hzero => Nat.ne_of_gt hleft hzero.1
    have hvalue' : value < 2 ^ (7 * left - 6) := by
      have hexp : 7 * (left + 1) - 6 = 7 * left - 6 + 7 := by omega
      rw [hexp, Nat.pow_add] at hvalue
      omega
    have hread := ih (acc + byte.toNat % 128 * weight) (weight * 128) hlen' hvalue' hnext
    have hsum : acc + byte.toNat % 128 * weight + value * (weight * 128) =
        acc + (byte.toNat % 128 + value * 128) * weight := by ring
    unfold readFrom
    simp only [dif_pos hpos, hbyte, if_neg hroom, if_neg (Nat.not_lt.2 hmore), hread, hsum,
      List.length_cons]
    rw [Nat.add_assoc, Nat.add_comm 1]

/-- Every numeral is read, padded or not. -/
theorem read_of_numeral {value pos : Nat} (h : Numeral bytes value)
    (hdrop : src.toList.drop pos = bytes ++ rest) :
    read src pos = .ok value (pos + bytes.length) := by
  have hread := readFrom_of_digits 0 1 h.digits h.length_le h.value_lt hdrop
  rwa [Nat.zero_add, Nat.mul_one] at hread

theorem read_encoding {value pos : Nat} (hvalue : value < UInt64.size)
    (h : src.toList.drop pos = encoding value ++ rest) :
    read src pos = .ok value (pos + (encoding value).length) :=
  read_of_numeral (numeral_encoding hvalue) h

end Leb128

end LzCodec
