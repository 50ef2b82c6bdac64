import LzCodec.Bits.Reader
import LzCodec.Bits.Writer
import LzCodec.Proofs.Bits.Strings

/-!
# Writers and readers as bit strings

A writer holds the bits put into it, and a reader stands before the rest of its bits. `Reads p bits a`
says that the parser `p` takes exactly `bits` off the front and returns `a`, whatever follows; it
composes along `bind`, so a format is read back piece by piece (`reads_get`, `Reads.bind`).
-/

namespace LzCodec

open BitString

namespace BitWriter

/-- Everything written so far. -/
def bits (w : BitWriter) : List Bool := w.bytes.bits ++ ofNat w.pending w.width

@[simp] theorem bits_empty : ({} : BitWriter).bits = [] := rfl

theorem bits_drain (bytes : Bytes) (acc width : Nat) (h : acc < 2 ^ width) :
    (drain bytes acc width h).bits = bytes.bits ++ ofNat acc width := by
  induction width using Nat.strongRecOn generalizing bytes acc with
  | ind width ih =>
    rw [drain]
    split
    · rfl
    · rename_i hw
      have hhigh : acc >>> (width - 8) < 2 ^ 8 := by
        rw [Nat.shiftRight_eq_div_pow]
        apply Nat.div_lt_of_lt_mul
        rwa [← Nat.pow_add, Nat.sub_add_cancel (Nat.le_of_not_lt hw)]
      have hbyte : (acc >>> (width - 8)).toUInt8.toNat = acc >>> (width - 8) :=
        Nat.mod_eq_of_lt hhigh
      have hsplit := ofNat_append (acc >>> (width - 8)) 8
        (Nat.mod_lt acc (Nat.two_pow_pos (width - 8)))
      rw [Nat.shiftRight_eq_div_pow, Nat.div_add_mod', Nat.add_comm 8,
        Nat.sub_add_cancel (Nat.le_of_not_lt hw), ← Nat.shiftRight_eq_div_pow] at hsplit
      rw [ih _ (by omega), Bytes.bits_push, hbyte, List.append_assoc, ← hsplit]

@[simp] theorem bits_put (w : BitWriter) (value count : Nat) :
    (w.put value count).bits = w.bits ++ ofNat value count := by
  cases w with | mk bytes pending width _ h =>
  simp only [put, bits]
  rw [← bits, bits_drain, Nat.add_comm width,
    Nat.add_comm count, ofNat_append _ _ (Nat.mod_lt _ (Nat.two_pow_pos _)), ofNat_mod,
    List.append_assoc]

theorem bits_finish (w : BitWriter) :
    ∃ pad, pad < 8 ∧ w.finish.bits = w.bits ++ List.replicate pad false := by
  cases w with | mk bytes pending width hw h =>
  simp only [finish, bits]
  split
  · rename_i h0
    subst h0
    exact ⟨0, by decide, by simp [ofNat]⟩
  · have hlt : pending * 2 ^ (8 - width) < 2 ^ 8 := by
      calc
        pending * 2 ^ (8 - width) < 2 ^ width * 2 ^ (8 - width) :=
          Nat.mul_lt_mul_of_pos_right h (Nat.two_pow_pos _)
        _ = 2 ^ 8 := by rw [← Nat.pow_add, Nat.add_sub_cancel' (Nat.le_of_lt hw)]
    have hbyte : (pending * 2 ^ (8 - width)).toUInt8.toNat = pending * 2 ^ (8 - width) :=
      Nat.mod_eq_of_lt hlt
    have hsplit := ofNat_append pending width (Nat.two_pow_pos (8 - width))
    rw [Nat.add_zero, Nat.add_sub_cancel' (Nat.le_of_lt hw)] at hsplit
    refine ⟨8 - width, by omega, ?_⟩
    rw [Bytes.bits_push, hbyte, hsplit, ofNat_zero, List.append_assoc]

/-- The bits of a number in groups of two. -/
def varintBits (value : Nat) : List Bool :=
  if value < 2 then ofNat value 2 else ofNat (2 + value % 2) 2 ++ varintBits (value / 2)
termination_by value

/-- A number of `width` bits has as many groups at most. -/
theorem length_varintBits_le {value width : Nat} (hwidth : 0 < width) (h : value < 2 ^ width) :
    (varintBits value).length ≤ 2 * width := by
  induction width generalizing value with
  | zero => cases hwidth
  | succ width ih =>
    unfold varintBits
    split
    · rw [length_ofNat]
      omega
    · rename_i hlarge
      have hwidth' : 0 < width := by
        cases width with
        | zero => exact absurd h hlarge
        | succ width => exact Nat.succ_pos width
      have hhalf : value / 2 < 2 ^ width := by
        rw [Nat.pow_succ] at h
        omega
      rw [List.length_append, length_ofNat]
      have := ih hwidth' hhalf
      omega

theorem length_varintBits_le_two_mul {value : Nat} (h : 1 ≤ value) :
    (varintBits value).length ≤ 2 * value := by
  induction value using Nat.strongRecOn with
  | ind value ih =>
    unfold varintBits
    split
    · rw [length_ofNat]
      omega
    · have := ih (value / 2) (by omega) (by omega)
      rw [List.length_append, length_ofNat]
      omega

@[simp] theorem bits_putVarint (w : BitWriter) (value : Nat) :
    (w.putVarint value).bits = w.bits ++ varintBits value := by
  induction value using Nat.strongRecOn generalizing w with
  | ind value ih =>
    rw [putVarint, varintBits]
    split
    · exact bits_put _ _ _
    · rw [ih _ (by omega), bits_put, List.append_assoc]

end BitWriter

namespace BitReader

/-- The bits that are still to come. -/
def rest (r : BitReader) : List Bool := r.data.bits.drop r.pos

@[simp] theorem length_rest (r : BitReader) : r.rest.length = r.remaining := by
  rw [rest, List.length_drop, Bytes.length_bits, remaining]

/-- Where a reader stands in its data follows from what is still to come. -/
theorem eq_of_rest {r r' : BitReader} (hdata : r.data = r'.data) (hrest : r.rest = r'.rest) : r = r' := by
  have hlen := congrArg List.length hrest
  have hpos := r.pos_le
  have hpos' := r'.pos_le
  rw [length_rest, length_rest, remaining, remaining, hdata] at hlen
  rw [hdata] at hpos
  cases r with | mk data pos _ =>
  cases r' with | mk data' pos' _ =>
  cases hdata
  obtain rfl : pos = pos' := by
    dsimp only at hlen hpos hpos'
    omega
  rfl

theorem front_byte (data : Bytes) (i : Nat) :
    front (data.bits.drop (8 * i)) 8 = ofNat (byteAt data i) 8 := by
  rw [byteAt]
  split
  · rename_i h
    have hfront := front_append (ofNat data[i].toNat 8) (data.bits.drop (8 * (i + 1))) 0
    rw [length_ofNat] at hfront
    rw [Bytes.drop_bits h]
    simpa [front] using hfront
  · rw [List.drop_of_length_le (by rw [Bytes.length_bits]; omega), front_nil, ofNat_zero]

theorem bigEndian_eq (data : Bytes) (i acc count : Nat) :
    bigEndian data i acc count =
      acc * 2 ^ (8 * count) + toNat (front (data.bits.drop (8 * i)) (8 * count)) := by
  induction count generalizing i acc with
  | zero => simp [bigEndian, front]
  | succ count ih =>
    have hb : byteAt data i < 2 ^ 8 := by
      rw [byteAt]; split
      · exact UInt8.toNat_lt _
      · decide
    rw [bigEndian, ih, show 8 * (count + 1) = 8 + 8 * count by omega, front_add, toNat_append,
      front_byte, toNat_ofNat, Nat.mod_eq_of_lt hb, length_front, List.drop_drop, ← Nat.mul_succ,
      Nat.pow_add, Nat.add_mul, Nat.mul_assoc, Nat.add_assoc]

theorem middle_digit {a b c n t : Nat} (hb : b < 2 ^ n) (hc : c < 2 ^ t) :
    (a * 2 ^ (n + t) + (b * 2 ^ t + c)) / 2 ^ t % 2 ^ n = b := by
  have hsum : a * 2 ^ (n + t) + (b * 2 ^ t + c) = 2 ^ t * (a * 2 ^ n + b) + c := by
    rw [Nat.pow_add, Nat.mul_add, Nat.mul_comm (2 ^ t) b, Nat.mul_comm (2 ^ t), Nat.mul_assoc,
      Nat.add_assoc]
  rw [hsum, Nat.mul_add_div (Nat.two_pow_pos t), Nat.div_eq_of_lt hc, Nat.add_zero,
    Nat.mul_comm, Nat.mul_add_mod, Nat.mod_eq_of_lt hb]

/-- Looking ahead sees the rest, followed by zeros. -/
theorem peek_eq (r : BitReader) (count : Nat) : r.peek count = toNat (front r.rest count) := by
  have hbytes : 8 * ((r.pos % 8 + count + 7) / 8) = r.pos % 8 + (count +
      (8 * ((r.pos % 8 + count + 7) / 8) - r.pos % 8 - count)) := by omega
  generalize htail : 8 * ((r.pos % 8 + count + 7) / 8) - r.pos % 8 - count = tail at hbytes
  have hpos : 8 * (r.pos / 8) + r.pos % 8 = r.pos := Nat.div_add_mod _ _
  have hlt (bits : List Bool) (n : Nat) : toNat (front bits n) < 2 ^ n := by
    simpa using toNat_lt (front bits n)
  simp only [peek]
  rw [bigEndian_eq, Nat.zero_mul, Nat.zero_add, htail, hbytes, front_add, front_add,
    List.drop_drop, hpos, toNat_append, toNat_append, List.length_append, length_front,
    length_front, Nat.shiftRight_eq_div_pow, middle_digit (hlt _ _) (hlt _ _), rest]

theorem peek_lt (r : BitReader) (count : Nat) : r.peek count < 2 ^ count := by
  have h := toNat_lt (front r.rest count)
  rwa [length_front, ← peek_eq] at h

/-- The reader after the next `count` bits. -/
def advance (r : BitReader) (count : Nat) (h : count ≤ r.remaining) : BitReader :=
  ⟨r.data, r.pos + count, by have := r.pos_le; unfold remaining at h; omega⟩

@[simp] theorem rest_advance (r : BitReader) (count : Nat) (h : count ≤ r.remaining) :
    (r.advance count h).rest = r.rest.drop count := by
  rw [rest, rest, List.drop_drop]
  rfl

@[simp] theorem data_advance (r : BitReader) (count : Nat) (h : count ≤ r.remaining) :
    (r.advance count h).data = r.data := rfl

theorem skip_of_le {r : BitReader} {count : Nat} (h : count ≤ r.remaining) :
    skip count r = .ok () (r.advance count h) := by
  rw [skip, dif_pos h]
  rfl

theorem skip_of_lt {r : BitReader} {count : Nat} (h : r.remaining < count) :
    skip count r = .error .truncated r := by
  rw [skip, dif_neg (Nat.not_le_of_lt h)]

theorem get_of_le {r : BitReader} {count : Nat} (h : count ≤ r.remaining) :
    get count r = .ok (toNat (r.rest.take count)) (r.advance count h) := by
  rw [← length_rest] at h
  simp only [get, skip_of_le (length_rest r ▸ h), peek_eq, front_of_le h]

theorem get_of_lt {r : BitReader} {count : Nat} (h : r.remaining < count) :
    get count r = .error .truncated r := by
  simp only [get, skip_of_lt h]

/-- Takes exactly `bits` off the front and returns `a`. -/
def Reads {α : Type} (p : BitParser α) (bits : List Bool) (a : α) : Prop :=
  ∀ (r : BitReader) (tail : List Bool), r.rest = bits ++ tail →
    ∃ r', p r = .ok a r' ∧ r'.data = r.data ∧ r'.rest = tail

section
variable {α β : Type}

theorem reads_pure (a : α) : Reads (pure a) [] a :=
  fun r _ h => ⟨r, rfl, rfl, h⟩

theorem Reads.bind {p : BitParser α} {f : α → BitParser β} {b₁ b₂ : List Bool} {a : α} {b : β}
    (hp : Reads p b₁ a) (hf : Reads (f a) b₂ b) : Reads (p >>= f) (b₁ ++ b₂) b := by
  intro r tail h
  rw [List.append_assoc] at h
  obtain ⟨r₁, run₁, data₁, rest₁⟩ := hp r _ h
  obtain ⟨r₂, run₂, data₂, rest₂⟩ := hf r₁ _ rest₁
  refine ⟨r₂, ?_, data₂.trans data₁, rest₂⟩
  rw [← run₂]
  simp only [Bind.bind, EStateM.bind, run₁]

theorem Reads.map {p : BitParser α} {bits : List Bool} {a : α} (hp : Reads p bits a) (f : α → β) :
    Reads (do return f (← p)) bits (f a) := by
  have h := hp.bind (f := fun a => pure (f a)) (reads_pure (f a))
  rwa [List.append_nil] at h

end

theorem le_remaining {r : BitReader} {bits tail : List Bool} (h : r.rest = bits ++ tail) :
    bits.length ≤ r.remaining := by
  rw [← length_rest, h, List.length_append]
  exact Nat.le_add_right _ _

theorem reads_skip (bits : List Bool) : Reads (skip bits.length) bits () := by
  intro r tail h
  refine ⟨r.advance _ (le_remaining h), skip_of_le _, rfl, ?_⟩
  rw [rest_advance, h, List.drop_left]

theorem reads_get (bits : List Bool) : Reads (get bits.length) bits (toNat bits) := by
  intro r tail h
  refine ⟨r.advance _ (le_remaining h), ?_, rfl, ?_⟩
  · rw [get_of_le (le_remaining h), h, List.take_left]
  · rw [rest_advance, h, List.drop_left]

theorem reads_get_ofNat (value count : Nat) :
    Reads (get count) (ofNat value count) (value % 2 ^ count) := by
  have h := reads_get (ofNat value count)
  rwa [length_ofNat, toNat_ofNat] at h

theorem finish_of_padding {r : BitReader} {pad : Nat} (hpad : pad < 8)
    (h : r.rest = List.replicate pad false) : r.finish = .ok () := by
  have hrem : r.remaining = pad := by rw [← length_rest, h, List.length_replicate]
  have hfront : front r.rest pad = ofNat 0 pad := by
    rw [front_of_le (Nat.le_of_eq (r.length_rest.trans hrem).symm), h, ofNat_zero,
      List.take_replicate, Nat.min_self]
  have hpeek : r.peek r.remaining = 0 := by
    rw [peek_eq, hrem, hfront, toNat_ofNat, Nat.zero_mod]
  rw [finish, if_pos ⟨by omega, hpeek⟩]

end BitReader

end LzCodec
