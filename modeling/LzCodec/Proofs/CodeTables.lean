import LzCodec.Proofs.CanonicalCodes
import LzCodec.Proofs.Huffman.Tables

/-!
# What is a code table

Bits begin with the text of a table whose codewords have room, or with something that is no such text
(`table_or_fault`). The reader of tables takes the one as what it says and nothing behind it, and refuses the
other for the first fault in it (`read_accepts_tables`).
-/

namespace LzCodec

namespace Huffman

open BitString BitReader

/-- What is wrong first with a table. Whether there is room for its codewords is asked last. -/
inductive TableFault (size : Nat) : Corruption → List Bool → Prop where
  | noWidth {cause : Corruption} {bits : List Bool} (none : NoNumeral cause bits) : TableFault size cause bits
  | tooWide {width : Nat} {first : List Bool} (rest : List Bool) (hfirst : Numeral width first)
      (hwidth : maxCodeLength < width) : TableFault size .badCodeTable (first ++ rest)
  | entries {width : Nat} {cause : Corruption} {first bits : List Bool} (hfirst : Numeral width first)
      (hwidth : width ≤ maxCodeLength) (fault : EntriesFault width size 0 cause bits) :
      TableFault size cause (first ++ bits)
  | crowded {lengths : Array Nat} {text : List Bool} (rest : List Bool) (table : TableText size lengths text)
      (crowd : 1 < totalShare lengths) : TableFault size .badCodeTable (text ++ rest)

variable {size : Nat} {lengths : Array Nat} {text bits : List Bool}

/-- No length of a table is above the limit, so that only the room for its codewords is in question. -/
theorem TableText.admissible_iff (h : TableText size lengths text) :
    Admissible lengths ↔ totalShare lengths ≤ 1 := by
  obtain ⟨-, width, _, _, -, hwidth, hentries, -⟩ := h
  have hlong : longest lengths ≤ maxCodeLength := longest_le.2 fun leaf hleaf =>
    Nat.le_trans (hentries.bounds leaf hleaf).2.2.2 hwidth
  rw [Huffman.admissible_iff, and_iff_right (longest_le_iff.1 hlong)]

theorem table_or_fault (size : Nat) (bits : List Bool) :
    (∃ lengths text rest, TableText size lengths text ∧ totalShare lengths ≤ 1 ∧ bits = text ++ rest) ∨
      ∃ cause, TableFault size cause bits := by
  rcases numeral_or_not bits with ⟨width, first, bits, hfirst, rfl⟩ | ⟨cause, none⟩
  · by_cases hwidth : width ≤ maxCodeLength
    · rcases entries_or_fault width size 0 bits with ⟨ls, entries, rest, hentries, rfl⟩ | ⟨cause, fault⟩
      · have hleaves := hentries.leaves_spread
        have table : TableText size (spread size ls) (first ++ entries) :=
          ⟨size_spread size ls, width, first, entries, hfirst, hwidth, hleaves.symm ▸ hentries, rfl⟩
        rw [← List.append_assoc]
        by_cases room : totalShare (spread size ls) ≤ 1
        · exact .inl ⟨_, _, rest, table, room, rfl⟩
        · exact .inr ⟨_, .crowded rest table (lt_of_not_ge room)⟩
      · exact .inr ⟨cause, .entries hfirst hwidth fault⟩
    · exact .inr ⟨_, .tooWide bits hfirst (Nat.lt_of_not_le hwidth)⟩
  · exact .inr ⟨cause, .noWidth none⟩

namespace Decoder

theorem fails_tableFault {cause : Corruption} (h : TableFault size cause bits) :
    Fails (Decoder.read size) bits cause := by
  cases h with
  | noWidth none => exact (fails_getVarint none).bind _
  | tooWide rest hfirst hwidth =>
    refine (reads_numeral hfirst).bind_fails ?_
    rw [if_pos hwidth]
    exact (fails_throw _ _).bind _
  | entries hfirst hwidth fault =>
    refine (reads_numeral hfirst).bind_fails ?_
    rw [if_neg (Nat.not_lt_of_le hwidth)]
    exact (fails_entries fault _).bind _
  | crowded rest table crowd =>
    have hbad := ofLengths_of_not_admissible fun h => absurd crowd (not_lt_of_ge (table.admissible_iff.1 h))
    exact fails_tableText table hbad rest

/-- A table is read to its end, or the reader fails for what is wrong with it. -/
theorem read_cases (size : Nat) (r : BitReader) :
    (∃ lengths text d stop, TableText size lengths text ∧ totalShare lengths ≤ 1 ∧ ofLengths lengths = .ok d ∧
      r.rest = text ++ stop.rest ∧ stop.data = r.data ∧ Decoder.read size r = .ok d stop) ∨
    ∃ cause stop, TableFault size cause r.rest ∧ Decoder.read size r = .error cause stop := by
  rcases table_or_fault size r.rest with ⟨lengths, text, rest, table, room, hrest⟩ | ⟨cause, fault⟩
  · have hd := ofLengths_of_admissible (table.admissible_iff.2 room)
    obtain ⟨stop, hrun, hdata, rfl⟩ := reads_tableText table hd r rest hrest
    exact .inl ⟨lengths, text, _, stop, table, room, hd, hrest, hdata, hrun⟩
  · obtain ⟨stop, hrun⟩ := fails_tableFault fault r rfl
    exact .inr ⟨cause, stop, fault, hrun⟩

theorem read_eq_ok_iff {r stop : BitReader} {d : Decoder} :
    Decoder.read size r = .ok d stop ↔ stop.data = r.data ∧
      ∃ lengths text, TableText size lengths text ∧ totalShare lengths ≤ 1 ∧ ofLengths lengths = .ok d ∧
        r.rest = text ++ stop.rest := by
  constructor
  · intro hrun
    rcases read_cases size r with ⟨lengths, text, d', stop', table, room, hd, hrest, hdata, hrun'⟩ |
      ⟨cause, stop', -, hrun'⟩
    · cases hrun.symm.trans hrun'
      exact ⟨hdata, lengths, text, table, room, hd, hrest⟩
    · cases hrun.symm.trans hrun'
  · rintro ⟨hdata, lengths, text, table, room, hd, hrest⟩
    obtain ⟨stop', hrun, hdata', hstop⟩ := reads_tableText table hd r stop.rest hrest
    rw [hrun, eq_of_rest (hdata'.trans hdata.symm) hstop]

theorem read_eq_error_iff {r : BitReader} {cause : Corruption} :
    (∃ stop, Decoder.read size r = .error cause stop) ↔ TableFault size cause r.rest := by
  constructor
  · rintro ⟨stop, hrun⟩
    rcases read_cases size r with ⟨_, _, _, _, -, -, -, -, -, hrun'⟩ | ⟨cause', stop', fault, hrun'⟩
    · cases hrun.symm.trans hrun'
    · cases hrun.symm.trans hrun'
      exact fault
  · exact fun fault => fails_tableFault fault r rfl

/-- **Tables are read as their grammar says.** Numerals give a length that none is above and, for one symbol
after the other, how far it lies behind the one before and how much shorter its codeword is, up to a zero. Where
all codewords have room, the reader ends behind that zero, with the decoder of just these lengths. All other
bits have a fault, and the reader fails for the first one; lack of room comes last. On words nothing overflows,
and each run ends in the same way. -/
theorem read_accepts_tables (hsize : size ≤ 65536) (r : BitReader) :
    (∀ d stop, Decoder.read size r = .ok d stop ↔ stop.data = r.data ∧
      ∃ lengths text, TableText size lengths text ∧ totalShare lengths ≤ 1 ∧ ofLengths lengths = .ok d ∧
        r.rest = text ++ stop.rest) ∧
    (∀ cause, (∃ stop, Decoder.read size r = .error cause stop) ↔ TableFault size cause r.rest) ∧
    ∀ s : Machine.Reader, s.Holds r →
      (∀ d stop, Decoder.read size r = .ok d stop →
        ∃ t s', Machine.readTable size s = pure (t, s') ∧ t.Holds d size ∧ s'.Holds stop) ∧
      ∀ cause stop, Decoder.read size r = .error cause stop →
        Machine.readTable size s = Machine.corrupt cause := by
  refine ⟨fun _ _ => read_eq_ok_iff, fun _ => read_eq_error_iff, ?_⟩
  intro s hs
  have hwords := Machine.refines_readTable hsize s r hs
  constructor
  · intro d stop hrun
    rw [hrun] at hwords
    exact hwords
  · intro cause stop hrun
    rw [hrun] at hwords
    exact hwords

/-- A table behind another byte, with a zero above its first number. One symbol less, and the last entry lies
outside. -/
theorem read_accepts_tables_padded :
    let r : BitReader := { data := #[7, 242, 70, 80, 255], pos := 8, pos_le := by decide }
    let stop : BitReader := { data := #[7, 242, 70, 80, 255], pos := 32, pos_le := by decide }
    4 ≤ 65536 ∧ (∃ d, ofLengths #[0, 3, 1, 3] = .ok d ∧ Decoder.read 4 r = .ok d stop) ∧
      3 ≤ 65536 ∧ ∃ s : Machine.Reader, s.Holds r ∧
        Machine.readTable 3 s = Machine.corrupt .badCodeTable := by
  intro r stop
  obtain ⟨haccept, -, -⟩ := read_accepts_tables (show 4 ≤ 65536 by decide) r
  obtain ⟨-, hrefuse, hwords⟩ := read_accepts_tables (show 3 ≤ 65536 by decide) r
  obtain ⟨s, hs⟩ := Machine.Reader.exists_holds (r := r) (by decide)
  have hfirst : Numeral 3 [true, true, true, true, false, false] := ⟨1, by decide, by decide⟩
  have hzero : Numeral 0 [false, false] := ⟨0, by decide, by decide⟩
  have hone : Numeral 1 [false, true] := ⟨0, by decide, by decide⟩
  have htwo : Numeral 2 [true, false, false, true] := ⟨0, by decide, by decide⟩
  refine ⟨by decide, ?_, by decide, s, hs, ?_⟩
  · have h : Admissible #[0, 3, 1, 3] := by decide
    have hentries : Entries 3 4 0 (leaves #[0, 3, 1, 3]) _ :=
      .entry htwo (by decide) hzero (by decide) (.entry hone (by decide) htwo (by decide)
        (.entry hone (by decide) hzero (by decide) (.stop hzero)))
    refine ⟨_, ofLengths_of_admissible h, (haccept _ _).2 ⟨rfl, _, _, ⟨rfl, 3, _, _, hfirst, by decide,
      hentries, rfl⟩, (admissible_iff.1 h).2, ofLengths_of_admissible h, ?_⟩⟩
    decide
  · have fault : TableFault 3 .badCodeTable _ :=
      .entries hfirst (by decide) (.later htwo (by decide) hzero (by decide) (.later hone (by decide) htwo
        (by decide) (.outside (List.replicate 4 false ++ List.replicate 8 true) hone (by decide))))
    obtain ⟨stop, hrun⟩ := (hrefuse _).2 fault
    exact (hwords s hs).2 _ stop hrun

end Decoder

end Huffman

end LzCodec
