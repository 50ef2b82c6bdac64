import LzCodec.Proofs.Machine.Words
import LzCodec.Proofs.Search.Longest

/-!
# Comparing and hashing on machine words

Two places of a source are compared eight bytes at a time, and the first byte in which two words differ
is told by the zeros below their lowest difference. What comes out is how long the places agree
(`commonPrefix_eq`).
-/

namespace LzCodec

namespace Machine

/-- The number of zeros below the lowest one, of at most `width`. -/
def trailingZeros (n : Nat) : Nat → Nat
  | 0 => 0
  | width + 1 => if n % 2 = 1 then 0 else trailingZeros (n / 2) width + 1

/-- The number whose lowest byte comes first. -/
def littleEndian : List UInt8 → Nat
  | [] => 0
  | byte :: rest => byte.toNat + 256 * littleEndian rest

def readWord (src : Bytes) (pos count : Nat) : Machine Nat := do
  return littleEndian (← slice src pos (← add 64 pos count)).toList

/-- The bucket of the four bytes at `pos`, by their product in 32 bits. -/
def hash (src : Bytes) (hashLog pos : Nat) : Machine Nat := do
  let product := (← readWord src pos 4) * 2654435761 % UInt32.size
  shiftRight 32 product (← sub 32 hashLog)

/-- Two places of a source, which are compared in at most `limit` bytes. -/
structure Places where
  src : Bytes
  earlier : Nat
  later : Nat
  limit : Nat

namespace Places

/-- Compares byte by byte from the byte `n` on. -/
def commonBytes (p : Places) (n : Nat) : Machine Nat := do
  if n < p.limit then
    let a ← load p.src (← add 64 p.earlier n)
    let b ← load p.src (← add 64 p.later n)
    if a = b then
      p |>.commonBytes (← add 64 n 1)
    else
      return n
  else
    return n
partial_fixpoint

/-- Compares in words of eight bytes from the byte `n` on, as long as another one fits. -/
def commonWords (p : Places) (n : Nat) : Machine Nat := do
  let stop ← add 64 n 8
  if stop ≤ p.limit then
    let a ← readWord p.src (← add 64 p.earlier n) 8
    let b ← readWord p.src (← add 64 p.later n) 8
    if a ^^^ b ≠ 0 then
      add 64 n (trailingZeros (a ^^^ b) 64 / 8)
    else
      p |>.commonWords stop
  else
    p.commonBytes n
partial_fixpoint

end Places

def commonPrefix (src : Bytes) (earlier later limit : Nat) : Machine Nat := do
  require (earlier < later)
  require ((← add 64 later limit) ≤ src.size)
  Places.commonWords ⟨src, earlier, later, limit⟩ 0

/-! ## Differences of words -/

theorem littleEndian_xor (x y : UInt8) (xs ys : List UInt8) :
    (littleEndian (x :: xs) ^^^ littleEndian (y :: ys)) % 256 = x.toNat ^^^ y.toNat ∧
      (littleEndian (x :: xs) ^^^ littleEndian (y :: ys)) / 256 = littleEndian xs ^^^ littleEndian ys := by
  have hx : x.toNat < 256 := x.toNat_lt
  have hy : y.toNat < 256 := y.toNat_lt
  have hmod (byte : UInt8) (rest : List UInt8) : littleEndian (byte :: rest) % 2 ^ 8 = byte.toNat := by
    have hbyte : byte.toNat < 256 := byte.toNat_lt
    rw [littleEndian]
    omega
  have hdiv (byte : UInt8) (rest : List UInt8) :
      littleEndian (byte :: rest) / 2 ^ 8 = littleEndian rest := by
    have hbyte : byte.toNat < 256 := byte.toNat_lt
    rw [littleEndian]
    omega
  constructor
  · have h : (littleEndian (x :: xs) ^^^ littleEndian (y :: ys)) % 2 ^ 8 =
      littleEndian (x :: xs) % 2 ^ 8 ^^^ littleEndian (y :: ys) % 2 ^ 8 := Nat.xor_mod_two_pow
    rwa [hmod, hmod] at h
  · have h : (littleEndian (x :: xs) ^^^ littleEndian (y :: ys)) / 2 ^ 8 =
      littleEndian (x :: xs) / 2 ^ 8 ^^^ littleEndian (y :: ys) / 2 ^ 8 := Nat.xor_div_two_pow
    rwa [hdiv, hdiv] at h

theorem eq_of_xor_eq_zero {a b : Nat} (h : a ^^^ b = 0) : a = b := by
  calc
    a = a ^^^ (a ^^^ b) := by rw [h, Nat.xor_zero]
    _ = b := by rw [← Nat.xor_assoc, Nat.xor_self, Nat.zero_xor]

/-- Words are equal only if all their bytes are. -/
theorem littleEndian_inj {xs ys : List UInt8} (hl : xs.length = ys.length)
    (h : littleEndian xs ^^^ littleEndian ys = 0) : xs = ys := by
  induction xs generalizing ys with
  | nil => exact (List.eq_nil_of_length_eq_zero hl.symm).symm
  | cons x xs ih =>
    cases ys with
    | nil => cases hl
    | cons y ys =>
      obtain ⟨hbyte, hrest⟩ := littleEndian_xor x y xs ys
      rw [h] at hbyte hrest
      rw [UInt8.toNat_inj.1 (eq_of_xor_eq_zero hbyte.symm), ih (Nat.succ.inj hl) hrest.symm]

theorem trailingZeros_of_mod_eq_zero {n k : Nat} (h : n % 2 ^ k = 0) (width : Nat) :
    trailingZeros n (width + k) = trailingZeros (n / 2 ^ k) width + k := by
  induction k generalizing n with
  | zero => rw [Nat.pow_zero, Nat.div_one, Nat.add_zero, Nat.add_zero]
  | succ k ih =>
    have hsplit : n % (2 * 2 ^ k) = n % 2 + 2 * (n / 2 % 2 ^ k) := Nat.mod_mul
    rw [Nat.pow_succ, Nat.mul_comm, hsplit] at h
    have heven : ¬ n % 2 = 1 := by omega
    rw [← Nat.add_assoc, trailingZeros, if_neg heven, ih (by omega), Nat.pow_succ, Nat.mul_comm,
      Nat.div_div_eq_div_mul, Nat.add_assoc]

theorem trailingZeros_lt {n k : Nat} (h : n % 2 ^ k ≠ 0) (width : Nat) :
    trailingZeros n (width + k) < k := by
  induction k generalizing n with
  | zero => exact absurd (Nat.mod_one n) h
  | succ k ih =>
    have hsplit : n % (2 * 2 ^ k) = n % 2 + 2 * (n / 2 % 2 ^ k) := Nat.mod_mul
    rw [Nat.pow_succ, Nat.mul_comm, hsplit] at h
    rw [← Nat.add_assoc, trailingZeros]
    by_cases hodd : n % 2 = 1
    · rw [if_pos hodd]
      exact Nat.succ_pos k
    · rw [if_neg hodd]
      exact Nat.succ_lt_succ (ih (by omega))

/-- The lowest difference of two words lies in the first byte in which they differ. -/
theorem trailingZeros_xor {xs ys : List UInt8} (hl : xs.length = ys.length)
    (h : littleEndian xs ^^^ littleEndian ys ≠ 0) :
    ∃ k, trailingZeros (littleEndian xs ^^^ littleEndian ys) (8 * xs.length) / 8 = k ∧ k < xs.length ∧
      (∀ i < k, xs[i]? = ys[i]?) ∧ xs[k]? ≠ ys[k]? := by
  induction xs generalizing ys with
  | nil =>
    rw [List.eq_nil_of_length_eq_zero hl.symm] at h
    exact absurd (Nat.xor_self _) h
  | cons x xs ih =>
    cases ys with
    | nil => cases hl
    | cons y ys =>
      obtain ⟨hbyte, hrest⟩ := littleEndian_xor x y xs ys
      have hwidth : 8 * (x :: xs).length = 8 * xs.length + 8 := by
        rw [List.length_cons, Nat.mul_succ]
      rw [hwidth]
      by_cases hxy : x = y
      · subst hxy
        rw [Nat.xor_self] at hbyte
        have hne : littleEndian xs ^^^ littleEndian ys ≠ 0 := by
          intro hzero
          omega
        obtain ⟨k, hk, hlt, hsame, hdiff⟩ := ih (Nat.succ.inj hl) hne
        have hdiv : (littleEndian (x :: xs) ^^^ littleEndian (x :: ys)) / 2 ^ 8 =
          littleEndian xs ^^^ littleEndian ys := hrest
        have hbyte : (littleEndian (x :: xs) ^^^ littleEndian (x :: ys)) % 2 ^ 8 = 0 := hbyte
        have hzeros := trailingZeros_of_mod_eq_zero hbyte (8 * xs.length)
        refine ⟨k + 1, ?_, Nat.succ_lt_succ hlt, ?_, hdiff⟩
        · rw [hzeros, hdiv]
          omega
        · intro i hi
          cases i with
          | zero => rfl
          | succ i => exact hsame i (Nat.lt_of_succ_lt_succ hi)
      · have hne : (littleEndian (x :: xs) ^^^ littleEndian (y :: ys)) % 2 ^ 8 ≠ 0 := by
          intro hzero
          exact hxy (UInt8.toNat_inj.1 (eq_of_xor_eq_zero (hbyte.symm.trans hzero)))
        have hlt := trailingZeros_lt hne (8 * xs.length)
        refine ⟨0, by omega, Nat.succ_pos _, ?_, ?_⟩
        · intro i hi
          cases hi
        · intro heq
          exact hxy (Option.some.inj heq)

theorem trailingZeros_two_pow {k width : Nat} (h : k < width) : trailingZeros (2 ^ k) width = k := by
  induction k generalizing width with
  | zero =>
    cases width with
    | zero => cases h
    | succ width => rfl
  | succ k ih =>
    cases width with
    | zero => cases h
    | succ width =>
      have heven : ¬ 2 ^ (k + 1) % 2 = 1 := by
        rw [Nat.pow_succ]
        omega
      rw [trailingZeros, if_neg heven, Nat.pow_succ, Nat.mul_div_cancel _ (by decide),
        ih (Nat.lt_of_succ_lt_succ h)]

/-! ## Common prefixes -/

section

variable {src : Bytes} {earlier later limit : Nat}

theorem readWord_eq (small : src.size < 2 ^ maxArrayLog) {pos count : Nat} (h : pos + count ≤ src.size) :
    readWord src pos count = pure (littleEndian (src.extract pos (pos + count)).toList) := by
  simp only [maxArrayLog] at small
  rw [readWord, add_of_lt (by omega), pure_bind, slice_of_le (Nat.le_add_right _ _) h, pure_bind]

theorem getElem?_part {pos count i : Nat} (hi : i < count) (h : pos + count ≤ src.size) :
    (src.extract pos (pos + count)).toList[i]? = src[pos + i]? := by
  rw [Array.getElem?_toList, Array.getElem?_extract, if_pos (by omega)]

theorem length_part {pos count : Nat} (h : pos + count ≤ src.size) :
    (src.extract pos (pos + count)).toList.length = count := by
  rw [Array.length_toList, Array.size_extract]
  omega

theorem commonBytes_eq (small : src.size < 2 ^ maxArrayLog) (h : earlier < later)
    (hl : later + limit ≤ src.size) {n : Nat} (hn : n ≤ limit)
    (known : ∀ i < n, src[earlier + i]? = src[later + i]?) :
    Places.commonBytes ⟨src, earlier, later, limit⟩ n = pure (src.common earlier later limit) := by
  induction hm : limit - n using Nat.strongRecOn generalizing n with
  | ind m ih =>
    rw [Places.commonBytes]
    dsimp only
    simp only [maxArrayLog] at small
    by_cases hlt : n < limit
    · have he : earlier + n < src.size := by omega
      have hla : later + n < src.size := by omega
      rw [if_pos hlt, add_of_lt (by omega), pure_bind, load_of_lt he, pure_bind, add_of_lt (by omega),
        pure_bind, load_of_lt hla, pure_bind]
      by_cases hsame : src[earlier + n] = src[later + n]
      · have known' : ∀ i < n + 1, src[earlier + i]? = src[later + i]? := by
          intro i hi
          by_cases hlast : i = n
          · rw [hlast, Array.getElem?_eq_getElem he, Array.getElem?_eq_getElem hla, hsame]
          · exact known i (by omega)
        rw [if_pos hsame, add_of_lt (by omega), pure_bind]
        exact ih _ (by omega) hlt known' rfl
      · have hdiff : src[earlier + n]? ≠ src[later + n]? := by
          rw [Array.getElem?_eq_getElem he, Array.getElem?_eq_getElem hla]
          exact fun heq => hsame (Option.some.inj heq)
        rw [if_neg hsame, Bytes.common_eq hn known fun _ => hdiff]
    · rw [if_neg hlt, Bytes.common_eq hn known fun hlt' => absurd hlt' hlt]

theorem commonWords_eq (small : src.size < 2 ^ maxArrayLog) (h : earlier < later)
    (hl : later + limit ≤ src.size) {n : Nat} (hn : n ≤ limit)
    (known : ∀ i < n, src[earlier + i]? = src[later + i]?) :
    Places.commonWords ⟨src, earlier, later, limit⟩ n = pure (src.common earlier later limit) := by
  induction hm : limit - n using Nat.strongRecOn generalizing n with
  | ind m ih =>
    have hsmall := small
    simp only [maxArrayLog] at hsmall
    rw [Places.commonWords, add_of_lt (by omega), pure_bind]
    dsimp only
    by_cases hfits : n + 8 ≤ limit
    · have he : earlier + n + 8 ≤ src.size := by omega
      have hla : later + n + 8 ≤ src.size := by omega
      have hword (i : Nat) (hi : i < 8) :
          (src.extract (earlier + n) (earlier + n + 8)).toList[i]? =
              (src.extract (later + n) (later + n + 8)).toList[i]? ↔
            src[earlier + (n + i)]? = src[later + (n + i)]? := by
        rw [getElem?_part hi he, getElem?_part hi hla, Nat.add_assoc, Nat.add_assoc]
      have hlene := length_part he
      have hlenl := length_part hla
      rw [if_pos hfits, add_of_lt (by omega), pure_bind, readWord_eq small he, pure_bind,
        add_of_lt (by omega), pure_bind, readWord_eq small hla, pure_bind]
      generalize (src.extract (earlier + n) (earlier + n + 8)).toList = xs at hword hlene
      generalize (src.extract (later + n) (later + n + 8)).toList = ys at hword hlenl
      have known' (k : Nat) (hk : ∀ i < k, i < 8 ∧ xs[i]? = ys[i]?) :
          ∀ i < n + k, src[earlier + i]? = src[later + i]? := by
        intro i hi
        by_cases hold : i < n
        · exact known i hold
        · obtain ⟨hi8, hsame⟩ := hk (i - n) (by omega)
          have hnew := (hword (i - n) hi8).1 hsame
          rwa [Nat.add_sub_cancel' (Nat.le_of_not_lt hold)] at hnew
      by_cases hzero : littleEndian xs ^^^ littleEndian ys = 0
      · have heq := littleEndian_inj (hlene.trans hlenl.symm) hzero
        rw [if_neg (not_not_intro hzero)]
        exact ih _ (by omega) hfits (known' 8 fun i hi => ⟨hi, by rw [heq]⟩) rfl
      · obtain ⟨k, hk, hlt, hsame, hdiff⟩ := trailingZeros_xor (hlene.trans hlenl.symm) hzero
        rw [hlene] at hk hlt
        have hnew := known' k fun i hi => ⟨by omega, hsame i hi⟩
        have hne : src[earlier + (n + k)]? ≠ src[later + (n + k)]? :=
          fun heq => hdiff ((hword k hlt).2 heq)
        rw [if_pos hzero, hk, add_of_lt (by omega),
          Bytes.common_eq (show n + k ≤ limit by omega) hnew fun _ => hne]
    · rw [if_neg hfits]
      exact commonBytes_eq small h hl hn known

/-- Comparing in words, and at the end in bytes, finds how long two places agree. -/
theorem commonPrefix_eq (small : src.size < 2 ^ maxArrayLog) (h : earlier < later)
    (hl : later + limit ≤ src.size) :
    commonPrefix src earlier later limit = pure (src.agree earlier later limit h hl) := by
  have known : ∀ i < 0, src[earlier + i]? = src[later + i]? := by
    intro i hi
    cases hi
  have hwords := commonWords_eq small h hl (Nat.zero_le limit) known
  simp only [maxArrayLog] at small
  rw [commonPrefix, require_of h, pure_bind, add_of_lt (by omega), pure_bind, require_of hl, pure_bind,
    hwords, Bytes.agree_eq_common]

end

/-! ## Buckets -/

theorem or_shifted {low high k : Nat} (h : low < 2 ^ k) : low ||| high * 2 ^ k = low + high * 2 ^ k := by
  rw [Nat.or_comm, Nat.add_comm, Nat.mul_comm, Nat.two_pow_add_eq_or_of_lt h]

/-- A word of four bytes is the number that they make. -/
theorem toNat_word32 {src : Bytes} {pos : Nat} (h : pos + 4 ≤ src.size) :
    (src.word32 pos h).toNat = littleEndian (src.extract pos (pos + 4)).toList := by
  have hpart : (src.extract pos (pos + 4)).toList = [src[pos], src[pos + 1], src[pos + 2], src[pos + 3]] := by
    apply List.ext_getElem?
    intro i
    by_cases hi : i < 4
    · rw [getElem?_part hi h]
      have hcases : i = 0 ∨ i = 1 ∨ i = 2 ∨ i = 3 := by omega
      rcases hcases with rfl | rfl | rfl | rfl <;> exact Array.getElem?_eq_getElem _
    · rw [List.getElem?_eq_none (by rw [length_part h]; omega),
        List.getElem?_eq_none (by simp only [List.length_cons, List.length_nil]; omega)]
  have hshift (byte : UInt8) (k : UInt32) (hk : k.toNat ≤ 24) :
      (byte.toUInt32 <<< k).toNat = byte.toNat * 2 ^ k.toNat := by
    have hbyte : byte.toNat < 2 ^ 8 := byte.toNat_lt
    have hmod : k.toNat % 32 = k.toNat := Nat.mod_eq_of_lt (by omega)
    rw [UInt32.toNat_shiftLeft, UInt8.toNat_toUInt32, hmod, Nat.shiftLeft_eq]
    refine Nat.mod_eq_of_lt ?_
    calc
      byte.toNat * 2 ^ k.toNat < 2 ^ 8 * 2 ^ k.toNat :=
        Nat.mul_lt_mul_of_pos_right hbyte (Nat.two_pow_pos _)
      _ = 2 ^ (8 + k.toNat) := (Nat.pow_add _ _ _).symm
      _ ≤ 2 ^ 32 := Nat.pow_le_pow_right (by decide) (by omega)
  have h₀ : src[pos].toNat < 2 ^ 8 := UInt8.toNat_lt _
  have h₁ : src[pos + 1].toNat < 2 ^ 8 := UInt8.toNat_lt _
  have h₂ : src[pos + 2].toNat < 2 ^ 8 := UInt8.toNat_lt _
  rw [hpart, Bytes.word32, UInt32.toNat_or, UInt32.toNat_or, UInt32.toNat_or,
    hshift _ 8 (by decide), hshift _ 16 (by decide), hshift _ 24 (by decide), UInt8.toNat_toUInt32]
  have k₁ : (8 : UInt32).toNat = 8 := rfl
  have k₂ : (16 : UInt32).toNat = 16 := rfl
  have k₃ : (24 : UInt32).toNat = 24 := rfl
  have hlow : src[pos].toNat + src[pos + 1].toNat * 2 ^ 8 < 2 ^ 16 := by omega
  have hmid : src[pos].toNat + src[pos + 1].toNat * 2 ^ 8 + src[pos + 2].toNat * 2 ^ 16 < 2 ^ 24 := by omega
  rw [k₁, k₂, k₃, or_shifted h₀, or_shifted hlow, or_shifted hmid]
  simp only [littleEndian]
  omega

theorem hash_eq {src : Bytes} (small : src.size < 2 ^ maxArrayLog) {hashLog pos : Nat}
    (hlog : 0 < hashLog ∧ hashLog ≤ 32) (h : pos + 4 ≤ src.size) :
    hash src hashLog pos = pure (src.bucket hashLog pos h) := by
  have hprime : (2654435761 : UInt32).toNat = 2654435761 := rfl
  rw [hash, readWord_eq small h, pure_bind, ← toNat_word32 h]
  dsimp only
  rw [sub_of_le hlog.2, pure_bind, shiftRight_of_lt (by omega), Bytes.bucket, UInt32.toNat_mul, hprime,
    Nat.shiftRight_eq_div_pow]

end Machine

end LzCodec
