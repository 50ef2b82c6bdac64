import LzCodec.Proofs.Huffman.Codewords
import LzCodec.Proofs.Huffman.Entries

/-!
# Code tables

What an encoder writes is the text of a table (`tableText_tableBits`), and so it is read back as the decoder
of the same lengths (`reads_table`), bit for bit, whatever follows it.
-/

namespace LzCodec

namespace Huffman

open BitString BitWriter BitReader

/-- The entries of symbols that are at least `next`. -/
def leavesBits (width next : Nat) : List Leaf → List Bool
  | [] => []
  | leaf :: rest =>
    varintBits (leaf.symbol + 1 - next) ++ varintBits (width - leaf.length) ++
      leavesBits width (leaf.symbol + 1) rest

def tableBits (lengths : Array Nat) : List Bool :=
  varintBits (longest lengths) ++ (leavesBits (longest lengths) 0 (leaves lengths) ++ varintBits 0)

/-- The steps from symbol to symbol take two bits for each symbol of the alphabet at most, the lengths
eight bits each. -/
theorem length_leavesBits_le {width next size : Nat} {ls : List Leaf} (hwidth : width ≤ maxCodeLength)
    (sorted : ls.Pairwise fun a b => a.symbol < b.symbol)
    (h : ∀ leaf ∈ ls, next ≤ leaf.symbol ∧ leaf.symbol < size) :
    (leavesBits width next ls).length ≤ 2 * (size - next) + 8 * ls.length := by
  induction ls generalizing next with
  | nil => exact Nat.zero_le _
  | cons leaf rest ih =>
    obtain ⟨⟨hnext, hsize⟩, hrest⟩ := List.forall_mem_cons.1 h
    obtain ⟨hfirst, sorted⟩ := List.pairwise_cons.1 sorted
    have hshort : width - leaf.length < 2 ^ 4 :=
      Nat.lt_of_le_of_lt (Nat.sub_le _ _) (Nat.lt_succ_of_le hwidth)
    have h₁ := length_varintBits_le_two_mul (show 1 ≤ leaf.symbol + 1 - next by omega)
    have h₂ := length_varintBits_le (by decide) hshort
    have h₃ : (leavesBits width (leaf.symbol + 1) rest).length ≤
        2 * (size - (leaf.symbol + 1)) + 8 * rest.length :=
      ih sorted fun next hmem => ⟨hfirst next hmem, (hrest next hmem).2⟩
    simp only [leavesBits, List.length_append, List.length_cons]
    omega

theorem length_tableBits_le {lengths : Array Nat} (h : Admissible lengths) :
    (tableBits lengths).length ≤ 10 * (lengths.size + 1) := by
  have hlong : longest lengths < 2 ^ 4 := Nat.lt_succ_of_le h.1
  have h₁ := length_varintBits_le (by decide) hlong
  have h₂ : (varintBits 0).length ≤ 2 * 1 := length_varintBits_le (by decide) (by decide)
  have h₃ : (leavesBits (longest lengths) 0 (leaves lengths)).length ≤
      2 * (lengths.size - 0) + 8 * (leaves lengths).length := by
    apply length_leavesBits_le h.1 (leaves_sorted lengths)
    intro leaf hleaf
    exact ⟨Nat.zero_le _, symbol_lt_size hleaf⟩
  have h₄ := length_leaves_le lengths
  simp only [tableBits, List.length_append]
  omega

theorem Encoder.bits_putLeaves (width next : Nat) (w : BitWriter) (ls : List Leaf) :
    (putLeaves width next w ls).bits = w.bits ++ leavesBits width next ls := by
  induction ls generalizing next w with
  | nil => simp [putLeaves, leavesBits]
  | cons leaf rest ih => simp [putLeaves, leavesBits, ih]

theorem Encoder.bits_putTable (lengths : Array Nat) (w : BitWriter) :
    ((Encoder.ofLengths lengths).putTable w).bits = w.bits ++ tableBits lengths := by
  simp only [putTable, bits_putVarint, bits_putLeaves, tableBits, List.append_assoc]
  rfl

theorem spread_leaves (lengths : Array Nat) : spread lengths.size (leaves lengths) = lengths := by
  apply Array.ext_getElem?
  intro i
  by_cases h : ∀ leaf ∈ leaves lengths, leaf.symbol ≠ i
  · rw [spread, getElem?_foldl_set_of_ne _ _ h, Array.getElem?_replicate]
    split
    · rename_i hi
      have hget := Array.getElem?_eq_getElem hi
      by_cases h0 : lengths[i] = 0
      · rw [hget, h0]
      · exact absurd rfl (h ⟨i, lengths[i]⟩ (mem_leaves.2 ⟨hget, Nat.pos_of_ne_zero h0⟩))
    · rename_i hi
      rw [Array.getElem?_eq_none (Nat.le_of_not_lt hi)]
  · simp only [ne_eq, Classical.not_forall, Classical.not_not] at h
    obtain ⟨leaf, hleaf, rfl⟩ := h
    have hget := (mem_leaves.1 hleaf).1
    rw [spread, getElem?_foldl_set _ _ (leaves_symbols_nodup lengths) hleaf
      (by simpa using symbol_lt_size hleaf), hget]

/-- The text of a table: a number that no length is above, and the entries of all leaves. -/
def TableText (size : Nat) (lengths : Array Nat) (text : List Bool) : Prop :=
  lengths.size = size ∧ ∃ width first entries, Numeral width first ∧ width ≤ maxCodeLength ∧
    Entries width size 0 (leaves lengths) entries ∧ text = first ++ entries

/-- Leaves are written as entries in the order of their symbols. -/
theorem entries_leavesBits {width size next : Nat} {ls : List Leaf} (hwidth : width ≤ maxCodeLength)
    (hsize : size ≤ 65536) (sorted : ls.Pairwise fun a b => a.symbol < b.symbol)
    (bounds : ∀ leaf ∈ ls, next ≤ leaf.symbol ∧ leaf.symbol < size ∧
      0 < leaf.length ∧ leaf.length ≤ width) :
    Entries width size next ls (leavesBits width next ls ++ varintBits 0) := by
  have hgroups : 65536 < 2 ^ maxVarintGroups := by decide
  simp only [maxCodeLength] at hwidth
  induction ls generalizing next with
  | nil => exact .stop (numeral_varintBits (by decide))
  | cons leaf rest ih =>
    cases leaf with | mk symbol length =>
    obtain ⟨⟨hnext, hlt, hpos, hlen⟩, hrest⟩ := List.forall_mem_cons.1 bounds
    obtain ⟨hfirst, hsorted⟩ := List.pairwise_cons.1 sorted
    dsimp only at hnext hlt hpos hlen
    obtain ⟨delta, rfl⟩ := Nat.exists_eq_add_of_le hnext
    have hstep : next + delta + 1 - next = delta + 1 := by omega
    have later := ih hsorted (fun l hl => ⟨hfirst l hl, (hrest l hl).2⟩)
    have entry := Entries.entry (numeral_varintBits (show delta + 1 < 2 ^ maxVarintGroups by omega)) hlt
      (numeral_varintBits (show width - length < 2 ^ maxVarintGroups by omega)) (by omega) later
    rw [Nat.sub_sub_self hlen] at entry
    rw [leavesBits, hstep, List.append_assoc, List.append_assoc]
    exact entry

theorem tableText_tableBits {lengths : Array Nat} (h : Admissible lengths)
    (hsize : lengths.size ≤ 65536) : TableText lengths.size lengths (tableBits lengths) := by
  have hlong : longest lengths < 2 ^ maxVarintGroups := Nat.lt_of_le_of_lt h.1 (by decide)
  refine ⟨rfl, longest lengths, _, _, numeral_varintBits hlong, h.1, ?_, rfl⟩
  apply entries_leavesBits h.1 hsize (leaves_sorted lengths)
  intro leaf hleaf
  exact ⟨Nat.zero_le _, symbol_lt_size hleaf, (mem_leaves.1 hleaf).2, length_le_longest hleaf⟩

namespace Decoder

/-- Reads the lengths that a table stands for. -/
def readAllLengths (size : Nat) : BitParser (Vector Nat size) := do
  let width ← getVarint
  if maxCodeLength < width then
    throw .badCodeTable
  readLengths width size 0 (Vector.replicate size 0)

theorem read_eq (size : Nat) : Decoder.read size = (do
    let lengths ← readAllLengths size
    match ofLengths lengths.toArray with
    | .ok decoder => return decoder
    | .error e => throw e) := by
  rw [Decoder.read, readAllLengths, bind_assoc]
  congr 1
  funext width
  split <;> rfl

variable {size : Nat} {lengths : Array Nat} {text : List Bool}

theorem reads_readAllLengths (h : TableText size lengths text) :
    ∃ read : Vector Nat size, read.toArray = lengths ∧ Reads (readAllLengths size) text read := by
  obtain ⟨rfl, width, first, entries, hfirst, hwidth, hentries, rfl⟩ := h
  obtain ⟨read, hread, reads⟩ := reads_entries hentries (Vector.replicate lengths.size 0)
  refine ⟨read, ?_, (reads_numeral hfirst).bind ?_⟩
  · rw [hread, Vector.toArray_replicate]
    exact spread_leaves lengths
  · rw [if_neg (Nat.not_lt_of_le hwidth)]
    exact reads

theorem reads_tableText (h : TableText size lengths text) {d : Decoder} (hd : ofLengths lengths = .ok d) :
    Reads (Decoder.read size) text d := by
  obtain ⟨read, rfl, reads⟩ := reads_readAllLengths h
  rw [read_eq, ← List.append_nil text]
  refine reads.bind ?_
  rw [hd]
  exact reads_pure d

theorem fails_tableText (h : TableText size lengths text) {cause : Corruption}
    (hbad : ofLengths lengths = .error cause) (rest : List Bool) :
    Fails (Decoder.read size) (text ++ rest) cause := by
  obtain ⟨read, rfl, reads⟩ := reads_readAllLengths h
  rw [read_eq]
  refine reads.bind_fails ?_
  rw [hbad]
  exact fails_throw cause rest

/-- A table is read back as the decoder of its lengths. -/
theorem reads_table (h : Admissible lengths) (hsize : lengths.size ≤ 65536) {d : Decoder}
    (hd : ofLengths lengths = .ok d) : Reads (Decoder.read lengths.size) (tableBits lengths) d :=
  reads_tableText (tableText_tableBits h hsize) hd

end Decoder

end Huffman

end LzCodec
