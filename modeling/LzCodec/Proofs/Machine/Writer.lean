import LzCodec.Bits.Writer
import LzCodec.Proofs.Machine.Words

/-!
# The bit writer on machine words

Pending bits stand at the low end of a word of 64 bits. A writer on words that stands for a bit writer
stays so with every write of at most 32 bits (`put_eq`, `putVarint_eq`), and both end with the same
bytes (`finish_eq`).
-/

namespace LzCodec

namespace Machine

structure Writer where
  out : Bytes := #[]
  acc : Nat := 0
  nbits : Nat := 0

namespace Writer

/-- The writer on words that stands for `w`. -/
def of (w : BitWriter) : Writer := ⟨w.bytes, w.pending, w.width⟩

/-- Moves full bytes out of the low bits of the word. The word itself stays as it is. -/
def drain (w : Writer) : Machine Writer := do
  if 8 ≤ w.nbits then
    let nbits ← sub w.nbits 8
    let byte ← shiftRight 64 w.acc nbits
    (⟨w.out.push byte.toUInt8, w.acc, nbits⟩ : Writer) |>.drain
  else
    return w
partial_fixpoint

/-- The low `count` bits of a word. -/
def lowBits (value count : Nat) : Machine Nat := do
  return value &&& (← sub (← shiftLeft 64 1 count) 1)

def put (w : Writer) (value count : Nat) : Machine Writer := do
  require (count ≤ 32)
  if count = 0 then
    return w
  let masked ← lowBits value count
  let acc := (← shiftLeft 64 w.acc count) ||| masked
  let w ← drain ⟨w.out, acc, ← add 32 w.nbits count⟩
  return ⟨w.out, ← lowBits w.acc w.nbits, w.nbits⟩

def putVarint (w : Writer) (value : Nat) : Machine Writer := do
  let bit := value &&& 1
  let value ← shiftRight 32 value 1
  let more := if value ≠ 0 then 1 else 0
  let w ← w.put (bit ||| (← shiftLeft 32 more 1)) 2
  if more = 0 then
    return w
  else
    w |>.putVarint value
partial_fixpoint

def finish (w : Writer) : Machine Bytes := do
  if 0 < w.nbits then
    return w.out.push (← shiftLeft 64 w.acc (← sub 8 w.nbits)).toUInt8
  else
    return w.out

theorem lowBits_eq {count : Nat} (h : count < 64) (value : Nat) :
    lowBits value count = pure (value % 2 ^ count) := by
  have hfit : 1 * 2 ^ count % 2 ^ 64 = 2 ^ count := by
    rw [Nat.one_mul]
    exact Nat.mod_eq_of_lt (Nat.pow_lt_pow_right (by decide) h)
  have hpos := Nat.two_pow_pos count
  rw [lowBits, shiftLeft_of_lt h, pure_bind, hfit, sub_of_le hpos, pure_bind,
    Nat.and_two_pow_sub_one_eq_mod]

theorem toUInt8_mod (n : Nat) : (n % 2 ^ 8).toUInt8 = n.toUInt8 := by
  apply UInt8.toNat_inj.1
  exact Nat.mod_mod n (2 ^ 8)

/-- Bits above the low `width` bits are shifted out of every byte. -/
theorem drain_eq {width : Nat} (hwidth : width ≤ 64) (bytes : Bytes) (acc : Nat)
    (h : acc % 2 ^ width < 2 ^ width) :
    drain ⟨bytes, acc, width⟩ = pure ⟨(BitWriter.drain bytes (acc % 2 ^ width) width h).bytes, acc,
        (BitWriter.drain bytes (acc % 2 ^ width) width h).width⟩ ∧
      (BitWriter.drain bytes (acc % 2 ^ width) width h).pending =
        acc % 2 ^ (BitWriter.drain bytes (acc % 2 ^ width) width h).width := by
  induction width using Nat.strongRecOn generalizing bytes with
  | ind width ih =>
    rw [drain, BitWriter.drain]
    by_cases hsmall : width < 8
    · rw [if_neg (Nat.not_le_of_lt hsmall), dif_pos hsmall]
      exact ⟨rfl, rfl⟩
    · have hge := Nat.le_of_not_lt hsmall
      have hexp : width = width - 8 + 8 := by omega
      have hrest : acc % 2 ^ width % 2 ^ (width - 8) = acc % 2 ^ (width - 8) :=
        Nat.mod_mod_of_dvd _ (Nat.pow_dvd_pow 2 (by omega))
      have hbyte : (acc % 2 ^ width) >>> (width - 8) = acc / 2 ^ (width - 8) % 2 ^ 8 := by
        rw [Nat.shiftRight_eq_div_pow]
        generalize hlow : width - 8 = low at hexp
        rw [hexp, Nat.pow_add, Nat.mod_mul_right_div_self]
      rw [if_pos hge, dif_neg hsmall, sub_of_le hge, pure_bind, shiftRight_of_lt (by omega), pure_bind]
      simp only [hbyte, toUInt8_mod, hrest]
      exact ih _ (by omega) (by omega) _ (Nat.mod_lt _ (Nat.two_pow_pos _))

theorem put_zero (w : BitWriter) (value : Nat) : w.put value 0 = w := by
  cases w with | mk bytes pending width width_lt pending_lt =>
  have hsmall : width + 0 < 8 := width_lt
  rw [BitWriter.put, BitWriter.drain, dif_pos hsmall]
  simp only [Nat.pow_zero, Nat.mul_one, Nat.mod_one, Nat.add_zero]

theorem put_eq {count : Nat} (h : count ≤ 32) (w : BitWriter) (value : Nat) :
    (of w).put value count = pure (of (w.put value count)) := by
  unfold put
  rw [require_of h, pure_bind]
  by_cases hzero : count = 0
  · subst hzero
    rw [if_pos rfl, put_zero]
  · cases w with | mk bytes pending width width_lt pending_lt =>
    rw [if_neg hzero, lowBits_eq (by omega)]
    simp only [of, pure_bind]
    have happend : pending * 2 ^ count + value % 2 ^ count < 2 ^ (width + count) :=
      BitWriter.append_lt pending_lt (Nat.mod_lt _ (Nat.two_pow_pos _))
    have hword : 2 ^ (width + count) ≤ 2 ^ 64 := Nat.pow_le_pow_right (by decide) (by omega)
    have hfit : pending * 2 ^ count % 2 ^ 64 = pending * 2 ^ count := Nat.mod_eq_of_lt (by omega)
    have hor : pending * 2 ^ count ||| value % 2 ^ count = pending * 2 ^ count + value % 2 ^ count := by
      rw [Nat.mul_comm, Nat.two_pow_add_eq_or_of_lt (Nat.mod_lt _ (Nat.two_pow_pos _))]
    have hacc := Nat.mod_eq_of_lt happend
    obtain ⟨hrun, hpending⟩ := drain_eq (show width + count ≤ 64 by omega) bytes
      (pending * 2 ^ count + value % 2 ^ count) (Nat.mod_lt _ (Nat.two_pow_pos _))
    simp only [hacc] at hrun hpending
    rw [shiftLeft_of_lt (by omega), pure_bind, hfit, hor, add_of_lt (by omega), pure_bind, hrun,
      pure_bind, lowBits_eq (Nat.lt_of_lt_of_le (BitWriter.width_lt _) (by decide)), pure_bind, ← hpending,
      BitWriter.put]

theorem putVarint_eq (w : BitWriter) (value : Nat) :
    (of w).putVarint value = pure (of (w.putVarint value)) := by
  induction value using Nat.strongRecOn generalizing w with
  | ind value ih =>
    have hhalf : value / 2 ^ 1 = value / 2 := rfl
    rw [putVarint, BitWriter.putVarint, shiftRight_of_lt (by decide), pure_bind, hhalf,
      Nat.and_one_is_mod]
    by_cases hlast : value < 2
    · have hzero : ¬ value / 2 ≠ 0 := by omega
      have hbit : value % 2 ||| 0 = value := by
        rw [Nat.or_zero]
        exact Nat.mod_eq_of_lt hlast
      rw [if_neg hzero, if_pos hlast]
      dsimp only
      rw [shiftLeft_of_lt (by decide), pure_bind, Nat.zero_mul, Nat.zero_mod,
        hbit, put_eq (by decide), pure_bind, if_pos rfl]
    · have hmore : value / 2 ≠ 0 := by omega
      have hbit : value % 2 ||| 1 * 2 ^ 1 % 2 ^ 32 = 2 + value % 2 := by
        have hcases : value % 2 = 0 ∨ value % 2 = 1 := by omega
        rcases hcases with hcase | hcase <;> rw [hcase] <;> rfl
      rw [if_pos hmore, if_neg hlast]
      dsimp only
      rw [shiftLeft_of_lt (by decide), pure_bind, hbit, put_eq (by decide), pure_bind, if_neg Nat.one_ne_zero]
      exact ih _ (by omega) _

theorem finish_eq (w : BitWriter) : (of w).finish = pure w.finish := by
  have hwidth := w.width_lt
  unfold finish BitWriter.finish
  by_cases hzero : w.width = 0
  · rw [if_pos hzero, if_neg (show ¬ 0 < (of w).nbits from Nat.not_lt_of_le (Nat.le_of_eq hzero))]
    rfl
  · have hpos : 0 < (of w).nbits := Nat.pos_of_ne_zero hzero
    have hsub : sub 8 (of w).nbits = pure (8 - w.width) := sub_of_le (Nat.le_of_lt hwidth)
    have hsmall : w.pending * 2 ^ (8 - w.width) < 2 ^ 64 := by
      have hpending := w.pending_lt
      calc
        w.pending * 2 ^ (8 - w.width) < 2 ^ w.width * 2 ^ (8 - w.width) :=
          Nat.mul_lt_mul_of_pos_right hpending (Nat.two_pow_pos _)
        _ = 2 ^ 8 := by rw [← Nat.pow_add, Nat.add_sub_cancel' (Nat.le_of_lt hwidth)]
        _ ≤ 2 ^ 64 := by decide
    have hshift : shiftLeft 64 (of w).acc (8 - w.width) = pure (w.pending * 2 ^ (8 - w.width)) := by
      rw [shiftLeft_of_lt (by omega)]
      exact congrArg pure (Nat.mod_eq_of_lt hsmall)
    rw [if_neg hzero, if_pos hpos, hsub, pure_bind, hshift, pure_bind]
    rfl

end Writer

end Machine

end LzCodec
