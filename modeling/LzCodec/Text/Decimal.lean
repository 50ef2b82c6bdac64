import LzCodec.Powers

/-!
# Decimals with fixed places

A binary number is rounded to the nearest decimal with the given number of places, from its exact
value; of two that are equally near, the one with the even last digit is taken.
-/

namespace LzCodec

namespace Text

/-- The whole number nearest to `num / den`, the even one of two. -/
def roundQuotient (num den : Nat) : Nat :=
  let q := num / den
  let r := num % den
  if 2 * r < den ∨ (2 * r = den ∧ q % 2 = 0) then q else q + 1

theorem roundQuotient_near (num : Nat) {den : Nat} (h : 0 < den) :
    2 * (roundQuotient num den * den) ≤ 2 * num + den ∧
      2 * num ≤ 2 * (roundQuotient num den * den) + den := by
  have hd := Nat.div_add_mod num den
  have hm := Nat.mod_lt num h
  have hc : num / den * den = den * (num / den) := Nat.mul_comm _ _
  simp only [roundQuotient]
  split
  · omega
  · rw [Nat.add_mul, Nat.one_mul]
    omega

theorem roundQuotient_tie {num den : Nat} (h : 2 * (num % den) = den) :
    roundQuotient num den % 2 = 0 := by
  simp only [roundQuotient]
  split <;> omega

/-- The digits of a number, filled up with zeros to at least `width`. -/
def padded (width n : Nat) : String :=
  let digits := Nat.toDigits 10 n
  String.ofList (List.replicate (width - digits.length) '0' ++ digits)

/-- A number of units of the last of `places` places. -/
def withPoint (places n : Nat) : String :=
  toString (n / 10 ^ places) ++ "." ++ padded places (n % 10 ^ places)

/-- The number of bits that a float keeps of its fraction. -/
def fractionBits : Nat := 52

/-- How far the exponent that a float keeps is above that of its last bit. -/
def exponentBias : Nat := 1075

/-- The fraction `m * 2 ^ (q - exponentBias)` of a float that is not negative. -/
def fraction (x : Float) : Nat × Nat :=
  let bits := x.toBits.toNat
  let exponent := bits / 2 ^ fractionBits % 2048
  let mantissa := bits % 2 ^ fractionBits
  if exponent = 0 then (mantissa, 1) else (mantissa + 2 ^ fractionBits, exponent)

/-- Writes a finite float that is not negative. -/
def fixed (places : Nat) (x : Float) : String :=
  let (m, q) := fraction x
  withPoint places (roundQuotient (m * 2 ^ q * 10 ^ places) (2 ^ exponentBias))

end Text

end LzCodec
