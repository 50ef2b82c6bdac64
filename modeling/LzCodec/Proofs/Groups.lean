import Mathlib.Algebra.BigOperators.Ring.Finset
import Mathlib.Order.Bounds.Basic
import LzCodec.Proofs.Grammar
import LzCodec.Proofs.Machine.Compress
import LzCodec.Proofs.Machine.Decompress

/-!
# Groups of seven bits

A number is written in as few bytes as hold it. What is read from some position on is decided by the high
bits of the next ten bytes: the number ends at the first one whose high bit is clear, or is too large, or
is cut short by the end of the source (`written_and_read`).
-/

namespace LzCodec

namespace Leb128

/-- The seven bits of the byte at `pos`; none behind the end. -/
def payload (src : Bytes) (pos : Nat) : Nat := (src[pos]?.map (·.toNat % 128)).getD 0

/-- There is a byte at `pos`, and its high bit is set. -/
def Continues (src : Bytes) (pos : Nat) : Prop := ∃ byte, src[pos]? = some byte ∧ 128 ≤ byte.toNat

/-- There is a byte at `pos`, and its high bit is clear. -/
def Stops (src : Bytes) (pos : Nat) : Prop := ∃ byte, src[pos]? = some byte ∧ byte.toNat < 128

instance (src : Bytes) (pos : Nat) : Decidable (Continues src pos) :=
  inferInstanceAs (Decidable (∃ byte ∈ src[pos]?, 128 ≤ byte.toNat))

instance (src : Bytes) (pos : Nat) : Decidable (Stops src pos) :=
  inferInstanceAs (Decidable (∃ byte ∈ src[pos]?, byte.toNat < 128))

/-- The first byte from `pos` on whose high bit is clear stands `last` bytes further. If it is the last
one allowed, it adds one bit. -/
structure EndsAt (src : Bytes) (pos last : Nat) : Prop where
  allowed : last < maxBytes
  continues : ∀ i < last, Continues src (pos + i)
  stops : Stops src (pos + last)
  room : last + 1 = maxBytes → payload src (pos + last) ≤ 1

/-- All bytes are there, none before the last one ends the number, and the last one does not end it
either or adds more than a bit. -/
structure Overflows (src : Bytes) (pos : Nat) : Prop where
  present : pos + maxBytes ≤ src.size
  continues : ∀ i < maxBytes - 1, Continues src (pos + i)
  large : Continues src (pos + (maxBytes - 1)) ∨ 1 < payload src (pos + (maxBytes - 1))

/-- The number in `count` groups from `pos` on, lowest first. -/
def groupSum (src : Bytes) (pos count : Nat) : Nat :=
  ∑ i ∈ Finset.range count, payload src (pos + i) * 128 ^ i

variable {src : Bytes} {pos : Nat}

theorem payload_of_getElem? {byte : UInt8} (h : src[pos]? = some byte) :
    payload src pos = byte.toNat % 128 := by
  simp [payload, h]

theorem Continues.lt_size (h : Continues src pos) : pos < src.size := by
  obtain ⟨byte, hbyte, -⟩ := h
  exact (Array.getElem?_eq_some_iff.1 hbyte).1

/-- A byte ends a number or not, and otherwise there is none. -/
theorem continues_or_stops (src : Bytes) (pos : Nat) :
    Continues src pos ∨ Stops src pos ∨ src.size ≤ pos := by
  by_cases hpos : pos < src.size
  · have hget : src[pos]? = some src[pos] := Array.getElem?_eq_getElem hpos
    rcases Nat.lt_or_ge src[pos].toNat 128 with hclear | hset
    · exact .inr (.inl ⟨_, hget, hclear⟩)
    · exact .inl ⟨_, hget, hset⟩
  · exact .inr (.inr (Nat.le_of_not_lt hpos))

theorem groupSum_succ (src : Bytes) (pos count : Nat) :
    groupSum src pos (count + 1) = payload src pos + groupSum src (pos + 1) count * 128 := by
  rw [groupSum, Finset.sum_range_succ', groupSum, Finset.sum_mul, Nat.add_comm]
  simp only [Nat.add_zero, Nat.pow_zero, Nat.mul_one]
  congr 1
  refine Finset.sum_congr rfl fun i _ => ?_
  rw [Nat.pow_succ, Nat.mul_assoc, Nat.add_assoc pos 1, Nat.add_comm 1]

/-! ## One byte -/

section

variable {left value weight : Nat}

theorem readFrom_of_continues (h : Continues src pos) (room : left = 0 → payload src pos ≤ 1) :
    readFrom src (left + 1) value weight pos =
      readFrom src left (value + payload src pos * weight) (weight * 128) (pos + 1) := by
  obtain ⟨byte, hbyte, hset⟩ := h
  obtain ⟨hpos, rfl⟩ := Array.getElem?_eq_some_iff.1 hbyte
  rw [payload_of_getElem? hbyte] at room ⊢
  have hroom : ¬ (left = 0 ∧ 1 < src[pos].toNat % 128) := fun h => absurd (room h.1) (by omega)
  rw [readFrom]
  simp [hpos, hroom, Nat.not_lt.2 hset]

theorem readFrom_of_stops (h : Stops src pos) (room : left = 0 → payload src pos ≤ 1) :
    readFrom src (left + 1) value weight pos = .ok (value + payload src pos * weight) (pos + 1) := by
  obtain ⟨byte, hbyte, hclear⟩ := h
  obtain ⟨hpos, rfl⟩ := Array.getElem?_eq_some_iff.1 hbyte
  rw [payload_of_getElem? hbyte] at room ⊢
  have hroom : ¬ (left = 0 ∧ 1 < src[pos].toNat % 128) := fun h => absurd (room h.1) (by omega)
  rw [readFrom]
  simp [hpos, hroom, hclear]

theorem readFrom_of_large (hpos : pos < src.size) (h : 1 < payload src pos) :
    readFrom src 1 value weight pos = .error .varintOverflow (pos + 1) := by
  rw [payload_of_getElem? (Array.getElem?_eq_getElem hpos)] at h
  rw [readFrom]
  simp [hpos, h]

theorem readFrom_of_end (h : src.size ≤ pos) :
    readFrom src (left + 1) value weight pos = .error .truncated pos := by
  rw [readFrom, dif_neg (Nat.not_lt.2 h)]

end

/-! ## All bytes -/

/-- What holds of the bytes behind the first one. -/
theorem continues_behind {count : Nat} (h : ∀ i < count + 1, Continues src (pos + i)) :
    Continues src pos ∧ ∀ i < count, Continues src (pos + 1 + i) := by
  refine ⟨h 0 (Nat.succ_pos _), ?_⟩
  intro i hi
  rw [Nat.add_assoc, Nat.add_comm 1]
  exact h (i + 1) (Nat.succ_lt_succ hi)

theorem readFrom_of_ends {left last : Nat} (value weight : Nat) (hlast : last < left)
    (continues : ∀ i < last, Continues src (pos + i)) (stops : Stops src (pos + last))
    (room : last + 1 = left → payload src (pos + last) ≤ 1) :
    readFrom src left value weight pos =
      .ok (value + groupSum src pos (last + 1) * weight) (pos + last + 1) := by
  induction last generalizing left value weight pos with
  | zero =>
    obtain ⟨left, rfl⟩ := Nat.exists_eq_add_one_of_ne_zero (Nat.ne_of_gt hlast)
    have hstops : Stops src pos := stops
    have hroom : left = 0 → payload src pos ≤ 1 := by
      rintro rfl
      exact room rfl
    rw [readFrom_of_stops hstops hroom, groupSum_succ]
    simp [groupSum]
  | succ last ih =>
    obtain ⟨left, rfl⟩ := Nat.exists_eq_add_one_of_ne_zero (Nat.ne_of_gt (Nat.zero_lt_of_lt hlast))
    obtain ⟨hfirst, hbehind⟩ := continues_behind continues
    have hplace : pos + (last + 1) = pos + 1 + last := by omega
    rw [hplace] at stops room ⊢
    rw [readFrom_of_continues hfirst (by omega),
      ih _ _ (Nat.lt_of_succ_lt_succ hlast) hbehind stops fun h => room (by omega),
      groupSum_succ src pos (last + 1)]
    congr 1
    ring

theorem readFrom_of_overflows {last : Nat} (value weight : Nat) (present : pos + last < src.size)
    (continues : ∀ i < last, Continues src (pos + i))
    (large : Continues src (pos + last) ∨ 1 < payload src (pos + last)) :
    readFrom src (last + 1) value weight pos = .error .varintOverflow (pos + last + 1) := by
  induction last generalizing value weight pos with
  | zero =>
    rcases Nat.lt_or_ge 1 (payload src pos) with hlarge | hroom
    · exact readFrom_of_large present hlarge
    · have hfirst : Continues src pos := large.resolve_right (Nat.not_lt.2 hroom)
      rw [readFrom_of_continues hfirst fun _ => hroom]
      rfl
  | succ last ih =>
    obtain ⟨hfirst, hbehind⟩ := continues_behind continues
    have hplace : pos + (last + 1) = pos + 1 + last := by omega
    rw [hplace] at present large ⊢
    rw [readFrom_of_continues hfirst (by omega)]
    exact ih _ _ present hbehind large

theorem readFrom_of_cut {left count : Nat} (value weight : Nat) (hcount : count < left)
    (cut : pos + count = src.size) (continues : ∀ i < count, Continues src (pos + i)) :
    readFrom src left value weight pos = .error .truncated src.size := by
  induction count generalizing left value weight pos with
  | zero =>
    obtain ⟨left, rfl⟩ := Nat.exists_eq_add_one_of_ne_zero (Nat.ne_of_gt hcount)
    rw [← cut]
    exact readFrom_of_end (Nat.le_of_eq cut.symm)
  | succ count ih =>
    obtain ⟨left, rfl⟩ := Nat.exists_eq_add_one_of_ne_zero (Nat.ne_of_gt (Nat.zero_lt_of_lt hcount))
    obtain ⟨hfirst, hbehind⟩ := continues_behind continues
    rw [readFrom_of_continues hfirst (by omega)]
    exact ih _ _ (Nat.lt_of_succ_lt_succ hcount) (by omega) hbehind

theorem EndsAt.read {last : Nat} (h : EndsAt src pos last) :
    read src pos = .ok (groupSum src pos (last + 1)) (pos + last + 1) := by
  rw [Leb128.read, readFrom_of_ends 0 1 h.allowed h.continues h.stops h.room, Nat.zero_add, Nat.mul_one]

theorem Overflows.read (h : Overflows src pos) :
    read src pos = .error .varintOverflow (pos + maxBytes) :=
  readFrom_of_overflows 0 1 h.present h.continues h.large

/-- A number ends, is too large, or is cut short within ten bytes that all continue it. -/
theorem ends_or_overflows_or_cut (src : Bytes) {pos : Nat} (hpos : pos ≤ src.size) :
    (∃ last, EndsAt src pos last) ∨ Overflows src pos ∨
      ∃ count < maxBytes, pos + count = src.size ∧ ∀ i < count, Continues src (pos + i) := by
  have first (limit : Nat) : (∀ i < limit, Continues src (pos + i)) ∨
      ∃ count < limit, (∀ i < count, Continues src (pos + i)) ∧ ¬ Continues src (pos + count) := by
    induction limit with
    | zero => exact .inl fun i hi => absurd hi (Nat.not_lt_zero i)
    | succ limit ih =>
      rcases ih with hall | ⟨count, hcount, hfront, hnext⟩
      · by_cases hnext : Continues src (pos + limit)
        · refine .inl fun i hi => ?_
          rcases Nat.lt_succ_iff_lt_or_eq.1 hi with hi | rfl
          · exact hall i hi
          · exact hnext
        · exact .inr ⟨limit, Nat.lt_succ_self _, hall, hnext⟩
      · exact .inr ⟨count, Nat.lt_succ_of_lt hcount, hfront, hnext⟩
  have hbytes : maxBytes = 10 := rfl
  rcases first maxBytes with hall | ⟨count, hcount, hfront, hnext⟩
  · have hlast := hall (maxBytes - 1) (by decide)
    refine .inr (.inl ⟨?_, fun i hi => hall i (by omega), .inl hlast⟩)
    have := hlast.lt_size
    omega
  · rcases continues_or_stops src (pos + count) with hset | hstops | hend
    · exact absurd hset hnext
    · by_cases hroom : count + 1 = maxBytes → payload src (pos + count) ≤ 1
      · exact .inl ⟨count, hcount, hfront, hstops, hroom⟩
      · obtain ⟨htenth, hlarge⟩ := Classical.not_imp.1 hroom
        obtain rfl : count = maxBytes - 1 := by omega
        obtain ⟨byte, hbyte, -⟩ := hstops
        have hsize := (Array.getElem?_eq_some_iff.1 hbyte).1
        exact .inr (.inl ⟨by omega, hfront, .inr (Nat.lt_of_not_le hlarge)⟩)
    · refine .inr (.inr ⟨count, hcount, ?_, hfront⟩)
      cases count with
      | zero => omega
      | succ count =>
        have := (hfront count (Nat.lt_succ_self _)).lt_size
        omega

theorem read_of_cut {count : Nat} (hcount : count < maxBytes) (cut : pos + count = src.size)
    (continues : ∀ i < count, Continues src (pos + i)) : read src pos = .error .truncated src.size :=
  readFrom_of_cut 0 1 hcount cut continues

theorem read_cases (src : Bytes) {pos : Nat} (hpos : pos ≤ src.size) :
    (∃ last, EndsAt src pos last ∧
      read src pos = .ok (groupSum src pos (last + 1)) (pos + last + 1)) ∨
    (Overflows src pos ∧ read src pos = .error .varintOverflow (pos + maxBytes)) ∨
    ∃ count < maxBytes, pos + count = src.size ∧ (∀ i < count, Continues src (pos + i)) ∧
      read src pos = .error .truncated src.size := by
  rcases ends_or_overflows_or_cut src hpos with ⟨last, hends⟩ | hoverflows | ⟨count, hcount, hcut, hall⟩
  · exact .inl ⟨last, hends, hends.read⟩
  · exact .inr (.inl ⟨hoverflows, hoverflows.read⟩)
  · exact .inr (.inr ⟨count, hcount, hcut, hall, read_of_cut hcount hcut hall⟩)

theorem read_eq_ok_iff {value next : Nat} (hpos : pos ≤ src.size) :
    read src pos = .ok value next ↔
      ∃ last, EndsAt src pos last ∧ next = pos + last + 1 ∧ value = groupSum src pos (last + 1) := by
  constructor
  · intro h
    rcases read_cases src hpos with ⟨last, hends, hread⟩ | ⟨-, hread⟩ | ⟨_, -, -, -, hread⟩ <;>
      cases h.symm.trans hread
    exact ⟨last, hends, rfl, rfl⟩
  · rintro ⟨last, hends, rfl, rfl⟩
    exact hends.read

theorem read_eq_overflow_iff {next : Nat} (hpos : pos ≤ src.size) :
    read src pos = .error .varintOverflow next ↔ Overflows src pos ∧ next = pos + maxBytes := by
  constructor
  · intro h
    rcases read_cases src hpos with ⟨_, -, hread⟩ | ⟨hoverflows, hread⟩ | ⟨_, -, -, -, hread⟩ <;>
      cases h.symm.trans hread
    exact ⟨hoverflows, rfl⟩
  · rintro ⟨hoverflows, rfl⟩
    exact hoverflows.read

/-! ## Writing -/

theorem lt_pow_length_encoding (value : Nat) : value < 128 ^ (encoding value).length := by
  induction value using Nat.strongRecOn with
  | ind value ih =>
    unfold encoding
    split
    · simpa
    · have hrest := ih (value / 128) (by omega)
      rw [List.length_cons, Nat.pow_succ]
      omega

/-- As many bytes are written as groups of seven bits are needed, and at least one. -/
theorem isLeast_length_encoding (value : Nat) :
    IsLeast {count | 0 < count ∧ value < 128 ^ count} (encoding value).length := by
  refine ⟨⟨?_, lt_pow_length_encoding value⟩, ?_⟩
  · unfold encoding
    split <;> exact Nat.succ_pos _
  · rintro count ⟨hcount, hvalue⟩
    refine length_encoding_le hcount ?_
    rwa [Nat.pow_mul]

/-- What was written anywhere is read back from there, and reading ends behind it. -/
theorem read_write {value : Nat} (hvalue : value < UInt64.size) (dst rest : Bytes) :
    read (write dst value ++ rest) dst.size = .ok value (dst.size + (encoding value).length) := by
  refine read_encoding hvalue (?_ : _ = _ ++ rest.toList)
  rw [Array.toList_append, toList_write, List.append_assoc, ← Array.length_toList, List.drop_left]

/-! ## On words -/

/-- No bit of a number is lost on words, and no position overflows. -/
theorem readLeb128_eq {src : Bytes} (small : src.size < 2 ^ Machine.maxSizeLog) (pos : Nat) :
    Machine.readLeb128 src pos = Machine.ofExcept (match read src pos with
      | .ok value next => .ok (value, next)
      | .error cause _ => .error cause) := by
  have hspec := Machine.readLeb128_spec small pos
  cases hread : read src pos with
  | ok value next =>
    rw [hread] at hspec
    exact hspec.1
  | error cause next =>
    rw [hread] at hspec
    exact hspec

/-- **Numbers are exact.** A number below `2 ^ 64` is written behind any bytes in as few groups of seven bits
as hold it, which are ten at most, and read back in front of any bytes. From any position on, a number is
read exactly if a byte ends it, and then it is the sum of its groups and below `2 ^ 64`; it is too large
exactly if ten bytes do not end it or add too much; in all other cases the source is found cut short, at
its end. On words the same is written and read. -/
theorem written_and_read :
    (∀ value < UInt64.size, ∀ dst rest : Bytes, ∃ bytes : Bytes, write dst value = dst ++ bytes ∧
      IsLeast {count | 0 < count ∧ value < 128 ^ count} bytes.size ∧ bytes.size ≤ maxBytes ∧
      read (write dst value ++ rest) dst.size = .ok value (dst.size + bytes.size) ∧
      Machine.writeLeb128 dst value = write dst value) ∧
    ∀ (src : Bytes) (pos : Nat), pos ≤ src.size →
      (∀ value next, read src pos = .ok value next ↔
        ∃ last, EndsAt src pos last ∧ next = pos + last + 1 ∧
          value = ∑ i ∈ Finset.range (last + 1), payload src (pos + i) * 128 ^ i) ∧
      (∀ value next, read src pos = .ok value next → value < UInt64.size) ∧
      (∀ next, read src pos = .error .varintOverflow next ↔ Overflows src pos ∧ next = pos + maxBytes) ∧
      ((¬ ∃ last, EndsAt src pos last) → ¬ Overflows src pos →
        read src pos = .error .truncated src.size) ∧
      (src.size < 2 ^ Machine.maxSizeLog →
        Machine.readLeb128 src pos = Machine.ofExcept (match read src pos with
          | .ok value next => .ok (value, next)
          | .error cause _ => .error cause)) := by
  constructor
  · intro value hvalue dst rest
    have hlength : (encoding value).toArray.size = (encoding value).length := List.size_toArray
    refine ⟨(encoding value).toArray, ?_, ?_, ?_, ?_, Machine.writeLeb128_eq dst value⟩
    · apply Array.toList_inj.1
      rw [toList_write, Array.toList_append]
    · rw [hlength]
      exact isLeast_length_encoding value
    · rw [hlength]
      exact (numeral_encoding hvalue).length_le
    · rw [hlength]
      exact read_write hvalue dst rest
  · intro src pos hpos
    refine ⟨fun _ _ => read_eq_ok_iff hpos, ?_, fun _ => read_eq_overflow_iff hpos, ?_,
      fun small => readLeb128_eq small pos⟩
    · intro value next hread
      obtain ⟨bytes, hnumeral, -⟩ := exists_numeral_of_read hread
      exact hnumeral.value_lt
    · intro hends hoverflows
      rcases read_cases src hpos with ⟨last, hlast, -⟩ | ⟨hlarge, -⟩ | ⟨_, -, -, -, hread⟩
      · exact absurd ⟨last, hlast⟩ hends
      · exact absurd hlarge hoverflows
      · exact hread

/-- The largest number between two other bytes takes all ten bytes. A padded 3 is read; with a bit more in
the tenth byte a number is too large, and behind its first byte a number of two bytes is cut short. -/
theorem written_and_read_largest :
    (∃ bytes : Bytes, write #[7] (2 ^ 64 - 1) = #[7] ++ bytes ∧ bytes.size = 10 ∧
      read (write #[7] (2 ^ 64 - 1) ++ #[200]) 1 = .ok (2 ^ 64 - 1) 11) ∧
    read #[0x83, 0x80, 0x00] 0 = .ok 3 3 ∧
    read #[255, 255, 255, 255, 255, 255, 255, 255, 255, 3] 0 = .error .varintOverflow 10 ∧
    read #[255, 255] 1 = .error .truncated 2 ∧
    Machine.readLeb128 #[255, 255] 1 = Machine.corrupt .truncated := by
  obtain ⟨hwrite, hread⟩ := written_and_read
  have hends : EndsAt #[0x83, 0x80, 0x00] 0 2 := ⟨by decide, by decide, by decide, by decide⟩
  have hoverflows : Overflows #[255, 255, 255, 255, 255, 255, 255, 255, 255, 3] 0 :=
    ⟨by decide, by decide, by decide⟩
  have hnot : ¬ ∃ last, EndsAt #[255, 255] 1 last := by
    rintro ⟨last, -, hcontinues, hstops, -⟩
    cases last with
    | zero => exact absurd hstops (by decide)
    | succ last =>
      cases last with
      | zero => exact absurd hstops (by decide)
      | succ last => exact absurd (hcontinues 1 (by omega)) (by decide)
  have hcut := (hread #[255, 255] 1 (by decide)).2.2.2.1 hnot fun h => absurd h.present (by decide)
  refine ⟨?_, ?_, ?_, hcut, ?_⟩
  · obtain ⟨bytes, hbytes, ⟨⟨-, hlarge⟩, -⟩, hsize, hback, -⟩ := hwrite (2 ^ 64 - 1) (by decide) #[7] #[200]
    have hten : bytes.size = 10 := by
      by_contra hne
      have hpow : 128 ^ bytes.size ≤ 128 ^ 9 :=
        Nat.pow_le_pow_right (by decide) (Nat.le_of_lt_succ (Nat.lt_of_le_of_ne hsize hne))
      exact absurd (Nat.lt_of_lt_of_le hlarge hpow) (by decide)
    rw [hten] at hback
    exact ⟨bytes, hbytes, hten, hback⟩
  · exact ((hread #[0x83, 0x80, 0x00] 0 (by decide)).1 3 3).2 ⟨2, hends, rfl, rfl⟩
  · exact ((hread _ 0 (by decide)).2.2.1 10).2 ⟨hoverflows, rfl⟩
  · have hwords := (hread #[255, 255] 1 (by decide)).2.2.2.2 (by decide)
    rw [hcut] at hwords
    exact hwords

end Leb128

end LzCodec
