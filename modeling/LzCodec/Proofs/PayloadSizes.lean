import Mathlib
import LzCodec.Proofs.Huffman.Occurrences
import LzCodec.Proofs.Payloads

/-!
# Sizes of payloads

A payload has at most nine bits for each byte of content, beside its tables
(`Block.eight_mul_size_pack_le`): a literal costs nine bits, and a copy costs at most the nine bits of
its length symbol, the bits that follow it, and 27 bits for its distance, while it stands for four bytes
at least.
-/

namespace LzCodec

open BitString

theorem Slot.width_le (value : Nat) : (encode value).width ≤ value := by
  by_cases h : value < 4
  · rw [encode_of_lt h]
    exact Nat.zero_le _
  · rw [encode_of_le (Nat.le_of_not_lt h)]
    exact Nat.le_trans (Nat.sub_le _ _) (Nat.log2_le_self value)

/-- The number of bits that follow the symbol of a length. -/
def Token.lengthBits : Token → Nat
  | literal _ => 0
  | copy length _ => (Slot.encode (length - minMatch)).width

/-- The slots of the distances of tokens. -/
def Token.slots (tokens : List Token) : List Nat := tokens.filterMap fun t => t.code.distSymbol?

namespace CodedBlock

theorem counted_litLenCounts {tokens : Array Token} (ht : ∀ t ∈ tokens.toList, t.Encodable) :
    Huffman.Counted (ofTokens tokens).litLenCounts
      (tokens.toList.map fun t => t.code.litLenSymbol) := by
  intro s
  rw [Array.getD_eq_getD_getElem?]
  by_cases hs : s < litLenSymbols
  · rw [litLenCounts_ofTokens tokens hs]
    rfl
  · have hnone : s ∉ tokens.toList.map fun t => t.code.litLenSymbol := by
      intro hmem
      obtain ⟨t, htmem, rfl⟩ := List.mem_map.1 hmem
      exact hs (Token.litLenSymbol_lt (ht t htmem))
    rw [Array.getElem?_eq_none (by rw [size_litLenCounts]; omega), List.count_eq_zero.2 hnone]
    rfl

theorem counted_distCounts {tokens : Array Token} (ht : ∀ t ∈ tokens.toList, t.Encodable) :
    Huffman.Counted (ofTokens tokens).distCounts (Token.slots tokens.toList) := by
  intro s
  rw [Array.getD_eq_getD_getElem?]
  by_cases hs : s < distSymbols
  · rw [distCounts_ofTokens tokens hs]
    rfl
  · have hnone : s ∉ Token.slots tokens.toList := by
      intro hmem
      obtain ⟨t, htmem, hsymbol⟩ := List.mem_filterMap.1 hmem
      exact hs (Token.distSymbol_lt (ht t htmem) hsymbol)
    rw [Array.getElem?_eq_none (by rw [size_distCounts]; omega), List.count_eq_zero.2 hnone]
    rfl

end CodedBlock

namespace Block

/-- The bits of tokens: their symbols, what follows the lengths, and the distances. -/
theorem length_flatMap_tokenBits (litLen dist : Array Nat) (tokens : List Token) :
    ((tokens.map Token.code).flatMap (tokenBits litLen dist)).length =
      ((tokens.map fun t => t.code.litLenSymbol).map fun s => litLen.getD s 0).sum +
        (tokens.map Token.lengthBits).sum +
        ((Token.slots tokens).map fun s => dist.getD s 0 + Slot.width s).sum := by
  induction tokens with
  | nil => rfl
  | cons t rest ih =>
    rw [List.map_cons, List.flatMap_cons, List.length_append, ih]
    cases t with
    | literal byte =>
      simp [Token.slots, Token.code, CodedToken.litLenSymbol, CodedToken.distSymbol?, tokenBits,
        Huffman.codeBits, Token.lengthBits]
      omega
    | copy length distance =>
      simp [Token.slots, Token.code, CodedToken.litLenSymbol, CodedToken.distSymbol?, tokenBits,
        Huffman.codeBits, Token.lengthBits, Slot.width_encode]
      omega

/-- A token stands for enough bytes to pay for its bits with nine each. -/
theorem sum_bits_le {tokens : List Token} (ht : ∀ t ∈ tokens, t.Encodable) :
    9 * tokens.length + (tokens.map Token.lengthBits).sum + 27 * (Token.slots tokens).length ≤
      9 * Token.totalSize tokens.toArray := by
  induction tokens with
  | nil => exact Nat.le_refl 0
  | cons t rest ih =>
    obtain ⟨hfirst, hrest⟩ := List.forall_mem_cons.1 ht
    have hless := ih hrest
    rw [Token.totalSize_cons]
    cases t with
    | literal byte =>
      have hslots : Token.slots (.literal byte :: rest) = Token.slots rest := rfl
      simp only [hslots, List.length_cons, List.map_cons, List.sum_cons, Token.lengthBits, Token.size]
      omega
    | copy length distance =>
      have hslots : (Token.slots (.copy length distance :: rest)).length =
        (Token.slots rest).length + 1 := rfl
      have hwidth := Slot.width_le (length - minMatch)
      have hmin : 4 ≤ length := hfirst.1
      simp only [hslots, List.length_cons, List.map_cons, List.sum_cons, Token.lengthBits, Token.size,
        minMatch] at hwidth ⊢
      omega

/-- A payload has at most nine bits for each byte of content, beside its tables and the padding. -/
theorem eight_mul_size_pack_le {tokens : Array Token} (ht : ∀ t ∈ tokens.toList, t.Encodable) :
    8 * (pack (CodedBlock.ofTokens tokens)).size ≤ 9 * Token.totalSize tokens + 3387 := by
  have hlitSize := CodedBlock.size_litLenCounts tokens
  have hdistSize := CodedBlock.size_distCounts tokens
  have hlit := (Huffman.assigned_codeLengths (CodedBlock.ofTokens tokens).litLenCounts
    (by rw [hlitSize]; decide)).admissible
  have hdist := (Huffman.assigned_codeLengths (CodedBlock.ofTokens tokens).distCounts
    (by rw [hdistSize]; decide)).admissible
  have hlitTable := Huffman.length_tableBits_le hlit
  have hdistTable := Huffman.length_tableBits_le hdist
  rw [Huffman.size_codeLengths, hlitSize] at hlitTable
  rw [Huffman.size_codeLengths, hdistSize] at hdistTable
  have hlitBits := Huffman.sum_lengths_le_nine (CodedBlock.counted_litLenCounts ht)
    (Nat.le_of_eq hlitSize)
  have hdistBits := Huffman.sum_lengths_le_slot (CodedBlock.counted_distCounts ht)
    (Nat.le_of_eq hdistSize)
  have hpaid := sum_bits_le ht
  rw [Array.toArray_toList] at hpaid
  obtain ⟨pad, hpad, hbits⟩ := bits_pack (CodedBlock.ofTokens tokens)
  have hlength := congrArg List.length hbits
  rw [CodedBlock.toList_ofTokens] at hlength
  simp only [List.length_append, List.length_replicate, Bytes.length_bits,
    length_flatMap_tokenBits] at hlength
  simp only [litLenSymbols, distSymbols] at hlitTable hdistTable
  rw [List.length_map] at hlitBits
  omega

end Block

end LzCodec
