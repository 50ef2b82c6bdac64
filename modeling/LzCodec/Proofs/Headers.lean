import LzCodec.Proofs.Groups

/-!
# What a header is

A header is a text of its own: magic bytes, version, and a number that may be padded. Reading a source from
its start tells apart whether it starts with a header, whether it breaks off inside of one, or whether no
more bytes can make it start with one (`readHeader_decides`).
-/

namespace LzCodec

namespace Leb128

variable {src : Bytes} {pos : Nat}

/-- A numeral is what is read in full. -/
theorem numeral_iff_read (bytes : List UInt8) (value : Nat) :
    Numeral bytes value ↔ read bytes.toArray 0 = .ok value bytes.length := by
  constructor
  · intro h
    have hdrop : bytes.toArray.toList.drop 0 = bytes ++ [] := by simp
    have hread := read_of_numeral h hdrop
    rwa [Nat.zero_add] at hread
  · intro h
    obtain ⟨digits, hdigits, hdrop⟩ := exists_numeral_of_read h
    have hall : bytes = digits := by simpa using hdrop
    exact hall ▸ hdigits

/-- A number that is cut short by the end of the source is one without its last byte. -/
theorem exists_numeral_of_truncated {next : Nat} (hpos : pos ≤ src.size)
    (h : read src pos = .error .truncated next) :
    ∃ value, Numeral (src.toList.drop pos ++ [0]) value := by
  rcases read_cases src hpos with ⟨_, -, hread⟩ | ⟨-, hread⟩ | ⟨count, hcount, hcut, hall, -⟩
  · cases h.symm.trans hread
  · cases h.symm.trans hread
  · -- with a zero byte behind it, the number ends
    have hlast : (src.push 0)[pos + count]? = some 0 := by simp [hcut]
    have hends : EndsAt (src.push 0) pos count := by
      refine ⟨hcount, ?_, ⟨0, hlast, by decide⟩, fun _ => ?_⟩
      · intro i hi
        obtain ⟨byte, hbyte, hset⟩ := hall i hi
        have hlt := (hall i hi).lt_size
        exact ⟨byte, by rw [Array.getElem?_push_lt hlt, ← hbyte, Array.getElem?_eq_getElem hlt], hset⟩
      · rw [payload_of_getElem? hlast]
        decide
    obtain ⟨digits, hdigits, hdrop⟩ := exists_numeral_of_read hends.read
    have hrest : (src.push 0).toList.drop (pos + count + 1) = [] := by
      rw [List.drop_eq_nil_iff]
      simp [hcut]
    rw [hrest, List.append_nil, Array.toList_push, List.drop_append_of_le_length (by simpa)] at hdrop
    exact ⟨_, hdrop ▸ hdigits⟩

theorem read_error {cause : Corruption} {next : Nat} (hpos : pos ≤ src.size)
    (h : read src pos = .error cause next) : cause = .truncated ∨ cause = .varintOverflow := by
  rcases read_cases src hpos with ⟨_, -, hread⟩ | ⟨-, hread⟩ | ⟨_, -, -, -, hread⟩ <;>
    cases h.symm.trans hread
  · exact .inr rfl
  · exact .inl rfl

end Leb128

namespace Frame

/-- A header: the magic bytes, the version, and the size of the content, which may be padded. -/
def HeaderText (bytes : List UInt8) (contentSize : Nat) : Prop :=
  ∃ numeral, Leb128.Numeral numeral contentSize ∧ bytes = magic.toList ++ version :: numeral

variable {src : Bytes} {contentSize : Nat}

theorem HeaderText.of_encoding (h : contentSize < UInt64.size) :
    HeaderText (putHeader #[] contentSize).toList contentSize :=
  ⟨_, Leb128.numeral_encoding h, toList_putHeader contentSize⟩

/-- A header is read from any source that starts with it, up to its end. -/
theorem HeaderText.read {header rest : List UInt8} (h : HeaderText header contentSize)
    (hsrc : src.toList = header ++ rest) : readHeader src 0 = .ok contentSize header.length := by
  obtain ⟨numeral, hnumeral, rfl⟩ := h
  have hlength : (magic.toList ++ version :: numeral).length = magic.size + 1 + numeral.length := by
    simp only [List.length_append, List.length_cons]
    exact Nat.add_right_comm magic.size numeral.length 1
  rw [List.append_assoc, List.cons_append] at hsrc
  rw [readHeader_of_numeral hnumeral hsrc, hlength]

theorem readHeader_ok_iff {next : Nat} : readHeader src 0 = .ok contentSize next ↔
    next ≤ src.size ∧ HeaderText (src.take next).toList contentSize := by
  have htake : (src.take next).toList = src.toList.take next := by simp
  rw [htake]
  constructor
  · intro h
    obtain ⟨numeral, hnumeral, hsrc⟩ := exists_numeral_of_readHeader h
    have htext : HeaderText (magic.toList ++ version :: numeral) contentSize := ⟨numeral, hnumeral, rfl⟩
    have hfront : src.toList = (magic.toList ++ version :: numeral) ++ src.toList.drop next := by
      rw [List.append_assoc]
      exact hsrc
    have hread := htext.read hfront
    rw [h] at hread
    obtain rfl : next = _ := by
      injection hread
    refine ⟨?_, ?_⟩
    · have hlength := congrArg List.length hfront
      rw [List.length_append, Array.length_toList] at hlength
      omega
    · rw [hfront, List.take_left]
      exact htext
  · rintro ⟨hnext, htext⟩
    have hread := htext.read (List.take_append_drop next src.toList).symm
    rwa [List.length_take, Array.length_toList, Nat.min_eq_left hnext] at hread

/-- What is found cut short goes on to a header. -/
theorem exists_header_of_truncated {pos : Nat} (h : readHeader src 0 = .error .truncated pos) :
    ∃ header contentSize, HeaderText header contentSize ∧ src.toList <+: header ∧ src.toList ≠ header := by
  have shortest : HeaderText (magic.toList ++ [version, 0]) 0 :=
    ⟨[0], ⟨.last (by decide), by decide, by decide⟩, rfl⟩
  -- a part of the magic bytes
  have of_part (hpart : src.toList <+: magic.toList) :
      ∃ header contentSize, HeaderText header contentSize ∧ src.toList <+: header ∧
        src.toList ≠ header := by
    refine ⟨_, _, shortest, hpart.trans (List.prefix_append _ _), ?_⟩
    intro heq
    have hlength := hpart.length_le
    rw [heq] at hlength
    exact absurd hlength (by decide)
  rw [readHeader_apply] at h
  split at h
  · rename_i hmagic
    split at h
    · rename_i hnone
      obtain ⟨rest, hrest⟩ := (take_magic_eq_iff src).1 hmagic
      have hsize := Array.getElem?_eq_none_iff.1 hnone
      rw [← Array.length_toList, ← hrest, List.length_append, Array.length_toList] at hsize
      obtain rfl : rest = [] := List.eq_nil_of_length_eq_zero (by omega)
      rw [List.append_nil] at hrest
      exact of_part (hrest ▸ List.prefix_refl _)
    · rename_i v hv
      split at h
      · rename_i hversion
        have hsize := (Array.getElem?_eq_some_iff.1 hv).1
        obtain ⟨value, hnumeral⟩ := Leb128.exists_numeral_of_truncated hsize h
        have hsrc := toList_eq_of_version hmagic hv
        rw [hversion] at hsrc
        have hheader : magic.toList ++ version :: (src.toList.drop (magic.size + 1) ++ [0]) =
            src.toList ++ [0] := by
          conv_rhs => rw [hsrc]
          simp
        refine ⟨src.toList ++ [0], value, ⟨_, hnumeral, hheader.symm⟩, List.prefix_append _ _, ?_⟩
        simp
      · cases h
  · split at h
    · rename_i hpart
      exact of_part ((isPrefixOf_magic_iff src).1 hpart)
    · cases h

theorem readHeader_error {cause : Corruption} {pos : Nat} (h : readHeader src 0 = .error cause pos) :
    cause = .truncated ∨ cause = .badMagic ∨ (∃ v, cause = .unsupportedVersion v) ∨
      cause = .varintOverflow := by
  rw [readHeader_apply] at h
  split at h
  · split at h
    · cases h
      exact .inl rfl
    · rename_i v hv
      have hsize := (Array.getElem?_eq_some_iff.1 hv).1
      split at h
      · exact (Leb128.read_error hsize h).imp_right fun hoverflow => .inr (.inr hoverflow)
      · cases h
        exact .inr (.inr (.inl ⟨v, rfl⟩))
  · cases h
    split
    · exact .inl rfl
    · exact .inr (.inl rfl)

/-- Of a source that goes on to one that starts with a header, this header is read, or the source is
found cut short. -/
theorem read_or_truncated_of_header {header more : List UInt8} (h : HeaderText header contentSize)
    (hmore : header <+: src.toList ++ more) :
    (∃ pos, readHeader src 0 = .error .truncated pos) ∨
      readHeader src 0 = .ok contentSize header.length := by
  obtain ⟨rest, hrest⟩ := hmore
  have hwhole : (src ++ more.toArray).toList = header ++ rest := by
    rw [Array.toList_append, hrest]
  have hread := h.read hwhole
  rw [← hread]
  exact agrees_readHeader src more.toArray 0

theorem readHeader_truncated_iff : (∃ pos, readHeader src 0 = .error .truncated pos) ↔
    ∃ header contentSize, HeaderText header contentSize ∧ src.toList <+: header ∧ src.toList ≠ header := by
  constructor
  · rintro ⟨pos, h⟩
    exact exists_header_of_truncated h
  · rintro ⟨header, contentSize, htext, ⟨rest, hrest⟩, hne⟩
    have hmore : header <+: src.toList ++ rest := hrest ▸ List.prefix_refl _
    rcases read_or_truncated_of_header htext hmore with hcut | hread
    · exact hcut
    · -- a header that is read lies in the source
      have hsize := (readHeader_ok_iff.1 hread).1
      have hlength := congrArg List.length hrest
      rw [List.length_append, Array.length_toList] at hlength
      obtain rfl : rest = [] := List.eq_nil_of_length_eq_zero (by omega)
      rw [List.append_nil] at hrest
      exact absurd hrest hne

/-- Nothing can be added to a source that is refused for another cause. -/
theorem readHeader_refused_iff :
    (∃ cause pos, readHeader src 0 = .error cause pos ∧ (cause = .badMagic ∨
      (∃ v, cause = .unsupportedVersion v) ∨ cause = .varintOverflow)) ↔
    ¬ ∃ header contentSize more, HeaderText header contentSize ∧ header <+: src.toList ++ more := by
  constructor
  · rintro ⟨cause, pos, h, hcause⟩ ⟨header, contentSize, more, htext, hmore⟩
    rcases read_or_truncated_of_header htext hmore with ⟨pos', hcut⟩ | hread
    · cases h.symm.trans hcut
      simp at hcause
    · cases h.symm.trans hread
  · intro hnone
    cases h : readHeader src 0 with
    | ok contentSize next =>
      have htext := (readHeader_ok_iff.1 h).2
      have hfront : (src.take next).toList <+: src.toList ++ [] := by
        simpa [List.extract_eq_take_drop] using List.take_prefix next src.toList
      exact absurd ⟨_, contentSize, [], htext, hfront⟩ hnone
    | error cause pos =>
      rcases readHeader_error h with rfl | hcause
      · obtain ⟨header, contentSize, htext, ⟨more, hmore⟩, -⟩ := exists_header_of_truncated h
        exact absurd ⟨header, contentSize, more, htext, hmore ▸ List.prefix_refl _⟩ hnone
      · exact ⟨cause, pos, rfl, hcause⟩

/-- **Reading a header decides.** A header is read up to `next` exactly if the bytes before `next` are one,
and carries its size. A source is cut short exactly if it is a strict part of a header from its start
on. One of the other three causes is found exactly if the source starts with no header, whatever follows it. A
number is accepted in a header exactly if it is read in full, and what is written as a header is read. -/
theorem readHeader_decides :
    (∀ bytes value, Leb128.Numeral bytes value ↔
      Leb128.read bytes.toArray 0 = .ok value bytes.length) ∧
    (∀ src : Bytes,
      (∀ contentSize next, readHeader src 0 = .ok contentSize next ↔
        next ≤ src.size ∧ HeaderText (src.take next).toList contentSize) ∧
      ((∃ pos, readHeader src 0 = .error .truncated pos) ↔ ∃ header contentSize,
        HeaderText header contentSize ∧ src.toList <+: header ∧ src.toList ≠ header) ∧
      ((∃ cause pos, readHeader src 0 = .error cause pos ∧ (cause = .badMagic ∨
          (∃ v, cause = .unsupportedVersion v) ∨ cause = .varintOverflow)) ↔
        ¬ ∃ header contentSize more, HeaderText header contentSize ∧ header <+: src.toList ++ more)) ∧
    ∀ contentSize < UInt64.size, ∀ rest : Bytes,
      readHeader (putHeader #[] contentSize ++ rest) 0 =
        .ok contentSize (putHeader #[] contentSize).size := by
  refine ⟨Leb128.numeral_iff_read,
    fun src => ⟨fun _ _ => readHeader_ok_iff, readHeader_truncated_iff, readHeader_refused_iff⟩, ?_⟩
  intro contentSize hsize rest
  have hsrc : (putHeader #[] contentSize ++ rest).toList =
      (putHeader #[] contentSize).toList ++ rest.toList := Array.toList_append
  have hread := (HeaderText.of_encoding hsize).read hsrc
  rwa [Array.length_toList] at hread

/-- A padded header is read up to the byte behind it, and without its last byte it is cut short. Behind
another version nothing helps. -/
theorem readHeader_decides_padded :
    readHeader #[0x4f, 0x52, 0x5a, 0x1a, 1, 0x82, 0x00, 9] 0 = .ok 2 7 ∧
    (∃ pos, readHeader #[0x4f, 0x52, 0x5a, 0x1a, 1, 0x82] 0 = .error .truncated pos) ∧
    (¬ ∃ header contentSize more,
      HeaderText header contentSize ∧ header <+: [0x4f, 0x52, 0x5a, 0x1a, 9, 0] ++ more) ∧
    300 < UInt64.size ∧ readHeader (putHeader #[] 300 ++ #[9]) 0 = .ok 300 (putHeader #[] 300).size := by
  obtain ⟨-, hread, hwritten⟩ := readHeader_decides
  have hnumeral : Leb128.Numeral [0x82, 0x00] 2 :=
    ⟨.more (by decide) (.last (by decide)), by decide, by decide⟩
  have htext : HeaderText [0x4f, 0x52, 0x5a, 0x1a, 1, 0x82, 0x00] 2 := ⟨_, hnumeral, rfl⟩
  refine ⟨?_, ?_, ?_, by decide, hwritten 300 (by decide) #[9]⟩
  · exact ((hread _).1 2 7).2 ⟨by decide, htext⟩
  · exact (hread _).2.1.2 ⟨_, 2, htext, by decide, by decide⟩
  · exact (hread #[0x4f, 0x52, 0x5a, 0x1a, 9, 0]).2.2.1 ⟨_, 0, rfl, .inr (.inl ⟨9, rfl⟩)⟩

end Frame

end LzCodec
