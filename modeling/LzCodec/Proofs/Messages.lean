import LzCodec.Proofs.Bits.Cursor
import LzCodec.Proofs.CanonicalCodes
import LzCodec.Proofs.Machine.Pack

/-!
# Messages behind their table

A table says where it ends, and so does each codeword. So what reads a table and then as many symbols as were
written stands before whatever was written next, to the bit (`messages_read_back`).
-/

namespace LzCodec

namespace BitReader

/-- A parser that reads bits does so behind any others. -/
theorem Reads.exists_stop {α : Type} {p : BitParser α} {bits : List Bool} {a : α} (hp : Reads p bits a)
    {data : Bytes} {before tail : List Bool} (hdata : data.bits = before ++ (bits ++ tail)) :
    ∃ start stop : BitReader, start.data = data ∧ start.pos = before.length ∧ p start = .ok a stop ∧
      stop.data = data ∧ stop.pos = (before ++ bits).length ∧ stop.rest = tail := by
  have hlen := congrArg List.length hdata
  simp only [Bytes.length_bits, List.length_append] at hlen
  let start : BitReader := ⟨data, before.length, by omega⟩
  have hstart : start.rest = bits ++ tail := by
    rw [rest, hdata, List.drop_left]
  obtain ⟨stop, hrun, hkept, hstop⟩ := hp start tail hstart
  refine ⟨start, stop, rfl, rfl, hrun, hkept, ?_, hstop⟩
  have hleft := stop.length_rest
  have hpos := stop.pos_le
  rw [remaining, hkept, hstop] at hleft
  rw [hkept] at hpos
  dsimp only [start] at hleft hpos
  rw [List.length_append]
  omega

end BitReader

namespace Huffman

/-- Writes the table and then the codewords of a message. -/
def Encoder.putMessage (e : Encoder) (w : BitWriter) (message : List Nat) : BitWriter :=
  message.foldl e.put (e.putTable w)

def Decoder.decodeAll (d : Decoder) : Nat → BitParser (List Nat)
  | 0 => return []
  | count + 1 => do
    let symbol ← d.decode
    return symbol :: (← decodeAll d count)

/-- Reads the table of an alphabet of `size` symbols, and then `count` of them. -/
def Decoder.readMessage (size count : Nat) : BitParser (Decoder × List Nat) := do
  let d ← Decoder.read size
  return (d, ← d.decodeAll count)

end Huffman

namespace Machine

def putMessage (e : Huffman.Encoder) (w : Writer) (message : List Nat) : Machine Writer := do
  message.foldlM (putSymbol e) (← putTable e w)

def decodeAll (t : Table) : Nat → Parser (List Nat)
  | 0 => return []
  | count + 1 => do
    let symbol ← decode t
    return symbol :: (← decodeAll t count)

def readMessage (size count : Nat) : Parser (Table × List Nat) := do
  let t ← readTable size
  return (t, ← decodeAll t count)

end Machine

namespace Huffman

/-- Between any other bits, a message behind its table is read back, up to the first bit behind it. -/
def ReadBack (e : Encoder) (d : Decoder) (t : Machine.Table) : Prop :=
  ∀ (w : BitWriter) (message : List Nat) (more : List BitWrite),
    (∀ s ∈ message, e.lengths.getD s 0 ≠ 0) →
    Machine.putMessage e (.of w) message = pure (.of (e.putMessage w message)) ∧
    ∃ start stop : BitReader,
      start.data = (e.putMessage w message).written more ∧ start.pos = w.bits.length ∧
      Decoder.readMessage e.lengths.size message.length start = .ok (d, message) stop ∧
      stop.data = start.data ∧ stop.pos = (e.putMessage w message).bits.length ∧
      (∃ pad < 8, stop.rest = more.flatMap BitWrite.bits ++ List.replicate pad false) ∧
      ∀ s : Machine.Reader, s.Holds start → ∃ s' : Machine.Reader, s'.Holds stop ∧
        Machine.readMessage e.lengths.size message.length s = pure ((t, message), s')

/-! ## Bits -/

theorem Encoder.bits_foldl_put (lengths : Array Nat) (w : BitWriter) (message : List Nat) :
    (message.foldl (Encoder.ofLengths lengths).put w).bits = w.bits ++ message.flatMap (codeBits lengths) := by
  induction message generalizing w with
  | nil => simp
  | cons s rest ih => simp [ih, Encoder.bits_put]

theorem Encoder.bits_putMessage (lengths : Array Nat) (w : BitWriter) (message : List Nat) :
    ((Encoder.ofLengths lengths).putMessage w message).bits =
      w.bits ++ (tableBits lengths ++ message.flatMap (codeBits lengths)) := by
  simp [putMessage, bits_foldl_put, bits_putTable]

variable {lengths : Array Nat} {d : Decoder} {message : List Nat}

section
variable (h : Admissible lengths) (hsize : lengths.size ≤ 65536) (hd : Decoder.ofLengths lengths = .ok d)
  (used : ∀ s ∈ message, lengths.getD s 0 ≠ 0)
include h hsize hd used

theorem Decoder.reads_decodeAll :
    BitReader.Reads (d.decodeAll message.length) (message.flatMap (codeBits lengths)) message := by
  induction message with
  | nil => exact BitReader.reads_pure []
  | cons s rest ih =>
    obtain ⟨hs, hrest⟩ := List.forall_mem_cons.1 used
    have hleaf := leaf_of_occurring (mem_occurring.2 hs)
    have hlt := Nat.lt_of_lt_of_le (symbol_lt_size hleaf) hsize
    exact (reads_decode h hd hleaf hlt).bind ((ih hrest).map (s :: ·))

theorem Decoder.reads_readMessage :
    BitReader.Reads (readMessage lengths.size message.length)
      (tableBits lengths ++ message.flatMap (codeBits lengths)) (d, message) :=
  (reads_table h hsize hd).bind ((reads_decodeAll h hsize hd used).map (d, ·))

end

end Huffman

/-! ## Words -/

namespace Machine

variable {lengths : Array Nat} {message : List Nat}

section
variable (h : Huffman.Admissible lengths) (used : ∀ s ∈ message, lengths.getD s 0 ≠ 0)
include h used

theorem foldlM_putSymbol (w : BitWriter) :
    message.foldlM (putSymbol (.ofLengths lengths)) (Writer.of w) =
      pure (.of (message.foldl (Huffman.Encoder.ofLengths lengths).put w)) := by
  induction message generalizing w with
  | nil => rfl
  | cons s rest ih =>
    obtain ⟨hs, hrest⟩ := List.forall_mem_cons.1 used
    have hleaf := Huffman.leaf_of_occurring (Huffman.mem_occurring.2 hs)
    rw [List.foldlM_cons, putSymbol_eq h ⟨_, hleaf, rfl⟩, pure_bind, ih hrest, List.foldl_cons]

theorem putMessage_eq (hsize : lengths.size ≤ 65536) (w : BitWriter) :
    putMessage (.ofLengths lengths) (.of w) message =
      pure (.of ((Huffman.Encoder.ofLengths lengths).putMessage w message)) := by
  rw [putMessage, putTable_eq (by omega), pure_bind, foldlM_putSymbol h used, Huffman.Encoder.putMessage]

end

theorem refines_decodeAll {t : Table} {d : Huffman.Decoder} {size : Nat} (h : t.Holds d size)
    (count : Nat) : Refines Eq (decodeAll t count) (d.decodeAll count) := by
  induction count with
  | zero => exact refines_pure rfl
  | succ count ih =>
    refine (refines_decode h).bind ?_
    rintro s _ ⟨rfl, -⟩
    refine ih.bind ?_
    rintro rest _ rfl
    exact refines_pure rfl

theorem refines_readMessage {size : Nat} (hsize : size ≤ 65536) (count : Nat) :
    Refines (fun a b => a.1.Holds b.1 size ∧ a.2 = b.2) (readMessage size count)
      (Huffman.Decoder.readMessage size count) := by
  refine (refines_readTable hsize).bind ?_
  intro t d h
  refine (refines_decodeAll h count).bind ?_
  rintro message _ rfl
  exact refines_pure ⟨h, rfl⟩

/-- There is one table for a decoder. -/
theorem Table.Holds.unique {t t' : Table} {d : Huffman.Decoder} {size : Nat} (h : t.Holds d size)
    (h' : t'.Holds d size) : t = t' := by
  have hentries : t.entries = t'.entries := by
    apply Array.ext_getElem?
    intro i
    by_cases hi : i < 2 ^ d.width
    · rw [h.entries i hi, h'.entries i hi]
    · have hi := Nat.le_of_not_lt hi
      rw [Array.getElem?_eq_none (h.size_eq ▸ hi), Array.getElem?_eq_none (h'.size_eq ▸ hi)]
  cases t with | mk entries width =>
  cases t' with | mk entries' width' =>
  cases h.width
  cases h'.width
  cases hentries
  rfl

end Machine

/-! ## Both -/

namespace Huffman

theorem Encoder.readBack {lengths : Array Nat} (h : Admissible lengths) (hsize : lengths.size ≤ 65536) :
    ∃ d t, Decoder.ofLengths lengths = .ok d ∧ Machine.tableOf lengths = pure t ∧
      t.Holds d lengths.size ∧ ReadBack (.ofLengths lengths) d t := by
  have hd := Decoder.ofLengths_of_admissible h
  have hwords := Machine.tableOf_spec lengths hsize
  rw [hd] at hwords
  obtain ⟨t, htable, ht⟩ := hwords
  refine ⟨_, t, hd, htable, ht, ?_⟩
  intro w message more used
  obtain ⟨pad, hpad, hwritten⟩ :=
    BitWriter.bits_finish (more.foldl BitWriter.append ((ofLengths lengths).putMessage w message))
  rw [BitWriter.bits_foldl_append, bits_putMessage, List.append_assoc, List.append_assoc] at hwritten
  obtain ⟨start, stop, hdata, hstart, hrun, hkept, hstop, hrest⟩ :=
    (Decoder.reads_readMessage h hsize hd used).exists_stop hwritten
  refine ⟨Machine.putMessage_eq h used hsize w, start, stop, hdata, hstart, hrun, hkept.trans hdata.symm,
    ?_, ⟨pad, hpad, hrest⟩, ?_⟩
  · rw [bits_putMessage, hstop]
  · intro s hs
    have hwords := Machine.refines_readMessage hsize message.length s start hs
    rw [hrun] at hwords
    obtain ⟨⟨t', message'⟩, s', hread, ⟨ht', rfl⟩, hs'⟩ := hwords
    refine ⟨s', hs', ?_⟩
    -- the table that is read and the one that is made hold the same decoder
    rw [ht.unique ht']
    exact hread

/-- **A message is read back behind its table.** Where lengths leave room for a code, the decoder that is read
from their table is the one that is made from them, and one symbol after the other is found, whatever stands
before the table and behind the message. So it is with the lengths for any counts, where the limit leaves a
codeword for each symbol that occurs. -/
theorem messages_read_back :
    (∀ lengths : Array Nat, lengths.size ≤ 65536 → (∀ n ∈ lengths, n ≤ maxCodeLength) →
      totalShare lengths ≤ 1 →
      ∃ d t, Decoder.ofLengths lengths = .ok d ∧ Machine.tableOf lengths = pure t ∧
        t.Holds d lengths.size ∧ ReadBack (.ofLengths lengths) d t) ∧
    ∀ counts : Array Nat, counts.size ≤ 65536 → (∀ n ∈ counts, n < 2 ^ 32) →
      (occurring counts).card ≤ 2 ^ maxCodeLength →
      ∃ e, Machine.encoderOf counts = pure e ∧ Encoder.ofCounts counts = e ∧
        e.lengths.size = counts.size ∧ (∀ s, e.lengths.getD s 0 = 0 ↔ counts.getD s 0 = 0) ∧
        ∃ d t, Decoder.ofLengths e.lengths = .ok d ∧ Machine.tableOf e.lengths = pure t ∧
          t.Holds d counts.size ∧ ReadBack e d t := by
  constructor
  · intro lengths hsize short room
    exact Encoder.readBack (admissible_iff.2 ⟨short, room⟩) hsize
  · intro counts hsize hword fit
    rw [card_occurring] at fit
    have hassigned := codeLengths_spec (show 1 ≤ maxCodeLength by decide) fit
    have hlen := size_codeLengths maxCodeLength counts
    have hback := Encoder.readBack hassigned.admissible (hlen.trans_le hsize)
    rw [hlen] at hback
    exact ⟨_, Machine.encoderOf_of_fit fit hword, rfl, hlen, fun s => hassigned.getD_eq_zero_iff, hback⟩

/-- Three bits before the table and a number behind the message, with codewords that leave strings over, and
counts of which two are zero. -/
theorem messages_read_back_between :
    let lengths := #[0, 3, 1, 3]
    let counts := #[0, 4, 9, 0, 1]
    (lengths.size ≤ 65536 ∧ (∀ n ∈ lengths, n ≤ maxCodeLength) ∧ totalShare lengths ≤ 1 ∧
      ∃ (d : Decoder) (start stop : BitReader), start.data = #[187, 35, 40, 42, 90] ∧ start.pos = 3 ∧
        Decoder.readMessage 4 4 start = .ok (d, [2, 3, 2, 1]) stop ∧ stop.pos = 33 ∧
        (∃ pad, stop.rest = BitString.groups 6 ++ List.replicate pad false) ∧
        ∃ s t s', s.Holds start ∧ Machine.readMessage 4 4 s = pure ((t, [2, 3, 2, 1]), s')) ∧
    counts.size ≤ 65536 ∧ (∀ n ∈ counts, n < 2 ^ 32) ∧ (occurring counts).card ≤ 2 ^ maxCodeLength ∧
      ∃ e d t, Machine.encoderOf counts = pure e ∧ e.lengths = #[0, 2, 1, 0, 2] ∧ ReadBack e d t := by
  intro lengths counts
  have hsize : lengths.size ≤ 65536 := by decide
  obtain ⟨short, room⟩ := admissible_iff.1 (show Admissible lengths by decide)
  have hcounts : counts.size ≤ 65536 := by decide
  have hword : ∀ n ∈ counts, n < 2 ^ 32 := by decide
  have hcard : (occurring counts).card = 3 := by decide
  have fit : (occurring counts).card ≤ 2 ^ maxCodeLength := hcard.trans_le (by decide)
  obtain ⟨hlengths, hall⟩ := messages_read_back
  obtain ⟨d, t, -, -, -, hback⟩ := hlengths lengths hsize short room
  obtain ⟨e, hrun, rfl, -, -, d', t', -, -, -, hback'⟩ := hall counts hcounts hword fit
  obtain ⟨-, start, stop, hdata, hstart, hread, -, hstop, ⟨pad, -, hrest⟩, hwords⟩ :=
    hback (({} : BitWriter).put 5 3) [2, 3, 2, 1] [.varint 6] (by decide)
  have hbytes : start.data = #[187, 35, 40, 42, 90] := by
    rw [hdata]
    cbv
  obtain ⟨s, hs⟩ := Machine.Reader.exists_holds (r := start) (by rw [hbytes]; decide)
  obtain ⟨s', -, hwordRead⟩ := hwords s hs
  refine ⟨⟨hsize, short, room, d, start, stop, hbytes, hstart.trans ?_, hread, hstop.trans ?_, ⟨pad, hrest⟩,
    s, t, s', hs, hwordRead⟩, hcounts, hword, fit, _, d', t', hrun, ?_, hback'⟩
  · cbv
  · cbv
  · decide +kernel

end Huffman

end LzCodec
