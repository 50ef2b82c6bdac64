import LzCodec.Bytes
import LzCodec.Powers

/-!
# Bit strings

Numbers and byte strings as lists of bits, highest bit first. Two bit strings of one length are equal
if they stand for the same number (`toNat_inj`), so facts about bits reduce to arithmetic.
-/

namespace LzCodec

namespace BitString

/-- The low `count` bits of a number. -/
def ofNat (value : Nat) : Nat → List Bool
  | 0 => []
  | count + 1 => ofNat (value / 2) count ++ [decide (value % 2 = 1)]

def toNat (bits : List Bool) : Nat := bits.foldl (fun n b => 2 * n + b.toNat) 0

/-- The first `count` bits of a string that goes on with zeros. -/
def front (bits : List Bool) : Nat → List Bool
  | 0 => []
  | count + 1 => bits.headD false :: front bits.tail count

@[simp] theorem length_ofNat (value count : Nat) : (ofNat value count).length = count := by
  induction count generalizing value with
  | zero => rfl
  | succ count ih => simp [ofNat, ih]

@[simp] theorem length_front (bits : List Bool) (count : Nat) :
    (front bits count).length = count := by
  induction count generalizing bits with
  | zero => rfl
  | succ count ih => simp [front, ih]

@[simp] theorem toNat_nil : toNat [] = 0 := rfl

theorem foldl_eq (bits : List Bool) (n : Nat) :
    bits.foldl (fun n b => 2 * n + b.toNat) n = n * 2 ^ bits.length + toNat bits := by
  induction bits generalizing n with
  | nil => simp
  | cons b rest ih =>
    have hb := ih (2 * n + b.toNat)
    have h0 := ih (2 * 0 + b.toNat)
    simp only [toNat, List.foldl_cons, List.length_cons] at hb h0 ⊢
    rw [hb, h0, Nat.pow_succ, Nat.add_mul, Nat.mul_zero, Nat.zero_add, Nat.mul_comm 2 n,
      Nat.mul_assoc, Nat.mul_comm 2 (2 ^ rest.length)]
    omega

theorem toNat_append (a b : List Bool) : toNat (a ++ b) = toNat a * 2 ^ b.length + toNat b := by
  rw [toNat, List.foldl_append, foldl_eq]
  rfl

theorem toNat_cons (b : Bool) (rest : List Bool) :
    toNat (b :: rest) = b.toNat * 2 ^ rest.length + toNat rest := by
  have h := toNat_append [b] rest
  simpa [toNat] using h

theorem toNat_lt (bits : List Bool) : toNat bits < 2 ^ bits.length := by
  induction bits with
  | nil => exact Nat.one_pos
  | cons b rest ih =>
    rw [toNat_cons, List.length_cons, Nat.pow_succ]
    cases b <;> simp only [Bool.toNat_false, Bool.toNat_true] <;> omega

theorem toNat_inj {a b : List Bool} (hl : a.length = b.length) (h : toNat a = toNat b) : a = b := by
  induction a generalizing b with
  | nil => exact (List.eq_nil_of_length_eq_zero hl.symm).symm
  | cons x a ih =>
    cases b with
    | nil => cases hl
    | cons y b =>
      have hl' : a.length = b.length := Nat.succ.inj hl
      have ha := toNat_lt a
      have hb := toNat_lt b
      rw [toNat_cons, toNat_cons, hl'] at h
      rw [hl'] at ha
      have hxy : x = y := by
        cases x <;> cases y <;> simp only [Bool.toNat_false, Bool.toNat_true] at h <;>
          first | rfl | omega
      subst hxy
      rw [ih hl' (Nat.add_left_cancel h)]

theorem toNat_ofNat (value count : Nat) : toNat (ofNat value count) = value % 2 ^ count := by
  induction count generalizing value with
  | zero => simp [ofNat, Nat.mod_one]
  | succ count ih =>
    rw [ofNat, toNat_append, ih, Nat.pow_succ, Nat.mul_comm (2 ^ count) 2, Nat.mod_mul]
    have hb : toNat [decide (value % 2 = 1)] = value % 2 := by
      rcases Nat.mod_two_eq_zero_or_one value with h | h <;> simp [h, toNat]
    rw [hb, List.length_singleton, Nat.pow_one]
    omega

theorem ofNat_mod (value count : Nat) : ofNat (value % 2 ^ count) count = ofNat value count := by
  apply toNat_inj (by simp)
  rw [toNat_ofNat, toNat_ofNat, Nat.mod_mod]

theorem ofNat_append (a n : Nat) {b m : Nat} (hb : b < 2 ^ m) :
    ofNat (a * 2 ^ m + b) (n + m) = ofNat a n ++ ofNat b m := by
  apply toNat_inj (by simp)
  rw [toNat_append, toNat_ofNat, toNat_ofNat, toNat_ofNat, length_ofNat, Nat.mod_eq_of_lt hb,
    Nat.add_comm n m, Nat.pow_add, Nat.mod_mul, Nat.add_comm, Nat.mul_add_mod_self_right,
    Nat.mod_eq_of_lt hb]
  have hdiv : (a * 2 ^ m + b) / 2 ^ m = a := by
    rw [Nat.mul_comm, Nat.mul_add_div (Nat.two_pow_pos m), Nat.div_eq_of_lt hb, Nat.add_zero]
  rw [hdiv, Nat.mul_comm]

theorem ofNat_zero (count : Nat) : ofNat 0 count = List.replicate count false := by
  induction count with
  | zero => rfl
  | succ count ih => simp [ofNat, ih, List.replicate_succ']

@[simp] theorem front_nil (count : Nat) : front [] count = List.replicate count false := by
  induction count with
  | zero => rfl
  | succ count ih => simp [front, ih, List.replicate_succ]

theorem front_add (bits : List Bool) (n m : Nat) :
    front bits (n + m) = front bits n ++ front (bits.drop n) m := by
  induction n generalizing bits with
  | zero => simp [front]
  | succ n ih =>
    rw [Nat.succ_add, front, front, ih, List.drop_tail, List.cons_append]

theorem front_append (a b : List Bool) (m : Nat) :
    front (a ++ b) (a.length + m) = a ++ front b m := by
  induction a with
  | nil => simp
  | cons x a ih => simp [Nat.succ_add, front, ih]

theorem front_of_le {bits : List Bool} {count : Nat} (h : count ≤ bits.length) :
    front bits count = bits.take count := by
  have split := front_append (bits.take count) (bits.drop count) 0
  rw [List.take_append_drop, List.length_take, Nat.min_eq_left h] at split
  simpa [front] using split

end BitString

namespace Bytes

def bits (data : Bytes) : List Bool := data.toList.flatMap fun b => BitString.ofNat b.toNat 8

@[simp] theorem bits_push (data : Bytes) (b : UInt8) :
    Bytes.bits (data.push b) = data.bits ++ BitString.ofNat b.toNat 8 := by
  simp [bits]

@[simp] theorem bits_append (a b : Bytes) : Bytes.bits (a ++ b) = a.bits ++ b.bits := by
  simp [bits]

theorem length_flatMap_bits (bytes : List UInt8) :
    (bytes.flatMap fun b => BitString.ofNat b.toNat 8).length = 8 * bytes.length := by
  induction bytes with
  | nil => rfl
  | cons b rest ih =>
    rw [List.flatMap_cons, List.length_append, ih, BitString.length_ofNat, List.length_cons]
    omega

@[simp] theorem length_bits (data : Bytes) : data.bits.length = 8 * data.size := by
  rw [bits, length_flatMap_bits, Array.length_toList]

theorem drop_bits {data : Bytes} {i : Nat} (h : i < data.size) :
    data.bits.drop (8 * i) = BitString.ofNat data[i].toNat 8 ++ data.bits.drop (8 * (i + 1)) := by
  have split (k : Nat) : data.bits.drop (8 * k) =
      (data.toList.drop k).flatMap fun b => BitString.ofNat b.toNat 8 := by
    by_cases hk : k ≤ data.size
    · have hlen : ((data.toList.take k).flatMap fun b => BitString.ofNat b.toNat 8).length
          = 8 * k := by
        rw [length_flatMap_bits, List.length_take, Array.length_toList, Nat.min_eq_left hk]
      rw [bits, ← List.take_append_drop k data.toList, List.flatMap_append,
        List.drop_left' hlen, List.take_append_drop]
    · rw [List.drop_of_length_le (by rw [length_bits]; omega),
        List.drop_of_length_le (by rw [Array.length_toList]; omega)]
      rfl
  have hd : data.toList.drop i = data[i] :: data.toList.drop (i + 1) := by
    rw [List.drop_eq_getElem_cons (by simpa using h), Array.getElem_toList]
  rw [split, split, hd, List.flatMap_cons]

end Bytes

end LzCodec
