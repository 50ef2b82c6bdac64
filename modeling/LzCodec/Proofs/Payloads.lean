import LzCodec.Block
import LzCodec.Proofs.Expansion
import LzCodec.Proofs.Huffman.Tables
import LzCodec.Proofs.Slots

/-!
# Payloads

Unpacking a packed block is applying its tokens (`unpack_pack_eq_applyAll`), for any tokens in the range
of the slots and any output before them.
-/

namespace LzCodec

open BitString BitWriter BitReader

/-- The lengths and distances that slots can code. -/
def Token.Encodable : Token → Prop
  | literal _ => True
  | copy length distance =>
    minMatch ≤ length ∧ length ≤ maxMatch ∧ 1 ≤ distance ∧ distance ≤ 2 ^ maxWindowLog

instance : (t : Token) → Decidable t.Encodable
  | .literal _ => inferInstanceAs (Decidable True)
  | .copy _ _ => inferInstanceAs (Decidable (_ ∧ _ ∧ _ ∧ _))

theorem Token.litLenSymbol_lt {t : Token} (h : t.Encodable) : t.code.litLenSymbol < litLenSymbols := by
  cases t with
  | literal byte =>
    have := byte.toNat_lt
    simp only [Token.code, CodedToken.litLenSymbol, litLenSymbols]
    omega
  | copy length distance =>
    have hsmall : length - minMatch < 2 ^ 16 := by
      simp only [Encodable, minMatch, maxMatch] at h ⊢
      omega
    have hslot := Slot.slot_lt (by decide) hsmall
    simp only [Token.code, CodedToken.litLenSymbol, litLenSymbols, firstLengthSymbol]
    omega

theorem Token.distSymbol_lt {t : Token} (h : t.Encodable) {symbol : Nat}
    (hs : t.code.distSymbol? = some symbol) : symbol < distSymbols := by
  cases t with
  | literal byte => cases hs
  | copy length distance =>
    have hnear : distance - 1 < 2 ^ maxWindowLog := by
      have := h.2.2
      omega
    cases hs
    exact Slot.slot_lt (by decide) hnear

namespace CodedBlock

theorem getElem?_modify_map (counts : Array Nat) (x s n : Nat) :
    (counts.modify x (· + 1))[s]?.map (· + n) =
      counts[s]?.map (· + (n + if x = s then 1 else 0)) := by
  rw [Array.getElem?_modify]
  by_cases h : x = s
  · rw [if_pos h, if_pos h, Option.map_map]
    congr 1
    funext m
    simp only [Function.comp_apply]
    omega
  · rw [if_neg h, if_neg h, Nat.add_zero]

/-- What a run of pushes adds to a block. -/
theorem foldl_push (tokens : List Token) (block : CodedBlock) :
    (tokens.foldl push block).tokens.toList = block.tokens.toList ++ tokens.map Token.code ∧
      (∀ s, (tokens.foldl push block).litLenCounts[s]? =
        block.litLenCounts[s]?.map (· + (tokens.map fun t => t.code.litLenSymbol).count s)) ∧
      (∀ s, (tokens.foldl push block).distCounts[s]? =
        block.distCounts[s]?.map (· + (tokens.filterMap fun t => t.code.distSymbol?).count s)) := by
  induction tokens generalizing block with
  | nil => simp
  | cons t rest ih =>
    obtain ⟨htokens, hlit, hdist⟩ := ih (block.push t)
    rw [List.foldl_cons]
    refine ⟨?_, ?_, ?_⟩
    · rw [htokens]
      simp [push]
    · intro s
      rw [hlit, push, getElem?_modify_map, List.map_cons, List.count_cons]
      simp only [beq_iff_eq]
    · intro s
      rw [hdist, push]
      cases hs : t.code.distSymbol? with
      | none => rw [List.filterMap_cons_none (f := fun t : Token => t.code.distSymbol?) hs]
      | some x =>
        dsimp only
        rw [getElem?_modify_map, List.filterMap_cons_some (f := fun t : Token => t.code.distSymbol?) hs,
          List.count_cons]
        simp only [beq_iff_eq]

theorem toList_ofTokens (tokens : Array Token) :
    (ofTokens tokens).tokens.toList = tokens.toList.map Token.code := by
  rw [ofTokens, ← Array.foldl_toList, (foldl_push _ _).1]
  rfl

/-- The histogram of literals and lengths holds the number of occurrences of each symbol. -/
theorem litLenCounts_ofTokens (tokens : Array Token) {s : Nat} (h : s < litLenSymbols) :
    (ofTokens tokens).litLenCounts[s]? =
      some ((tokens.toList.map fun t => t.code.litLenSymbol).count s) := by
  rw [ofTokens, ← Array.foldl_toList, (foldl_push _ _).2.1, Array.getElem?_replicate, if_pos h,
    Option.map_some, Nat.zero_add]

theorem distCounts_ofTokens (tokens : Array Token) {s : Nat} (h : s < distSymbols) :
    (ofTokens tokens).distCounts[s]? =
      some ((tokens.toList.filterMap fun t => t.code.distSymbol?).count s) := by
  rw [ofTokens, ← Array.foldl_toList, (foldl_push _ _).2.2, Array.getElem?_replicate, if_pos h,
    Option.map_some, Nat.zero_add]

theorem size_foldl_push (tokens : List Token) (block : CodedBlock) :
    (tokens.foldl push block).litLenCounts.size = block.litLenCounts.size ∧
      (tokens.foldl push block).distCounts.size = block.distCounts.size := by
  induction tokens generalizing block with
  | nil => exact ⟨rfl, rfl⟩
  | cons t rest ih =>
    rw [List.foldl_cons]
    obtain ⟨hlit, hdist⟩ := ih (block.push t)
    rw [hlit, hdist, push]
    cases t.code.distSymbol? <;> simp

theorem size_litLenCounts (tokens : Array Token) :
    (ofTokens tokens).litLenCounts.size = litLenSymbols := by
  rw [ofTokens, ← Array.foldl_toList, (size_foldl_push _ _).1, Array.size_replicate]

theorem size_distCounts (tokens : Array Token) :
    (ofTokens tokens).distCounts.size = distSymbols := by
  rw [ofTokens, ← Array.foldl_toList, (size_foldl_push _ _).2, Array.size_replicate]

end CodedBlock

namespace Huffman

/-- The lengths for an alphabet of at most `2 ^ maxCodeLength` symbols make a code. -/
theorem assigned_codeLengths (counts : Array Nat) (h : counts.size ≤ 2 ^ maxCodeLength) :
    Assigned maxCodeLength counts (leaves (codeLengths maxCodeLength counts)) :=
  codeLengths_spec (by decide) (Nat.le_trans (length_used_le counts) h)

/-- A symbol that occurs has a codeword. -/
theorem exists_leaf {counts : Array Nat} (h : counts.size ≤ 2 ^ maxCodeLength) {symbol n : Nat}
    (hget : counts[symbol]? = some n) (hn : 0 < n) :
    ∃ leaf ∈ leaves (codeLengths maxCodeLength counts), leaf.symbol = symbol := by
  have hmem := List.mem_map_of_mem (f := Weighted.item)
    (mem_used.2 ⟨hget, hn⟩ : (⟨n, symbol⟩ : Weighted Nat) ∈ used counts)
  exact List.mem_map.1 ((assigned_codeLengths counts h).symbols.mem_iff.2 hmem)

end Huffman

namespace Block

def tokenBits (litLen dist : Array Nat) : CodedToken → List Bool
  | .literal byte => Huffman.codeBits litLen byte.toNat
  | .copy length distance =>
    Huffman.codeBits litLen (firstLengthSymbol + length.slot) ++
      (ofNat length.extra length.width ++
        (Huffman.codeBits dist distance.slot ++ ofNat distance.extra distance.width))

theorem bits_putToken (litLen dist : Array Nat) (w : BitWriter) (c : CodedToken) :
    (putToken (.ofLengths litLen) (.ofLengths dist) w c).bits =
      w.bits ++ tokenBits litLen dist c := by
  cases c with
  | literal byte => exact Huffman.Encoder.bits_put _ _ _
  | copy length distance =>
    simp only [putToken, tokenBits, bits_put, Huffman.Encoder.bits_put, List.append_assoc]

theorem bits_foldl_putToken (litLen dist : Array Nat) (cs : List CodedToken) (w : BitWriter) :
    (cs.foldl (putToken (.ofLengths litLen) (.ofLengths dist)) w).bits =
      w.bits ++ cs.flatMap (tokenBits litLen dist) := by
  induction cs generalizing w with
  | nil => simp
  | cons c rest ih => rw [List.foldl_cons, ih, bits_putToken, List.flatMap_cons, List.append_assoc]

/-- The bits of a payload: two tables, the tokens, and less than a byte of zeros. -/
theorem bits_pack (block : CodedBlock) :
    ∃ pad, pad < 8 ∧
      (pack block).bits =
        Huffman.tableBits (Huffman.codeLengths maxCodeLength block.litLenCounts) ++
        (Huffman.tableBits (Huffman.codeLengths maxCodeLength block.distCounts) ++
        (block.tokens.toList.flatMap (tokenBits
          (Huffman.codeLengths maxCodeLength block.litLenCounts)
          (Huffman.codeLengths maxCodeLength block.distCounts)) ++
        List.replicate pad false)) := by
  obtain ⟨pad, hpad, hbits⟩ := bits_finish (block.tokens.foldl
    (putToken (.ofCounts block.litLenCounts) (.ofCounts block.distCounts))
    ((Huffman.Encoder.ofCounts block.distCounts).putTable
      ((Huffman.Encoder.ofCounts block.litLenCounts).putTable {})))
  refine ⟨pad, hpad, hbits.trans ?_⟩
  rw [← Array.foldl_toList, Huffman.Encoder.ofCounts, Huffman.Encoder.ofCounts,
    bits_foldl_putToken, Huffman.Encoder.bits_putTable, Huffman.Encoder.bits_putTable, bits_empty]
  simp only [List.nil_append, List.append_assoc]

/-- A token in the range of the slots has at most 128 bits. -/
theorem length_tokenBits_le {litLen dist : Array Nat} (hlit : Huffman.longest litLen ≤ maxCodeLength)
    (hdist : Huffman.longest dist ≤ maxCodeLength) {t : Token} (ht : t.Encodable) :
    (tokenBits litLen dist t.code).length ≤ 128 := by
  simp only [maxCodeLength] at hlit hdist
  cases t with
  | literal byte =>
    have h₁ := Huffman.length_codeBits_le litLen byte.toNat
    simp only [Token.code, tokenBits]
    omega
  | copy length distance =>
    have hlength : length - minMatch < 2 ^ 16 := by
      have := ht.2.1
      simp only [minMatch, maxMatch] at this ⊢
      omega
    have hdistance : distance - 1 < 2 ^ maxWindowLog := by
      have := ht.2.2
      omega
    have h₁ := Slot.width_lt (by decide) hlength
    have h₂ := Slot.width_lt (by decide) hdistance
    have h₃ := Huffman.length_codeBits_le litLen
      (firstLengthSymbol + (Slot.encode (length - minMatch)).slot)
    have h₄ := Huffman.length_codeBits_le dist (Slot.encode (distance - 1)).slot
    simp only [maxWindowLog] at h₂
    simp only [Token.code, tokenBits, List.length_append, length_ofNat]
    omega

theorem reads_readSlot (value : Nat) :
    Reads (readSlot (Slot.encode value).slot)
      (ofNat (Slot.encode value).extra (Slot.encode value).width) value := by
  have hget := (reads_get_ofNat (Slot.encode value).extra (Slot.encode value).width).map
    (Slot.base (Slot.encode value).slot + ·)
  rw [Nat.mod_eq_of_lt (Slot.extra_lt value), Slot.base_add_extra] at hget
  rw [readSlot, Slot.width_encode]
  exact hget

/-- What a pair of decoders has to know about a token. -/
structure Codes (litLen dist : Array Nat) (c : CodedToken) : Prop where
  litLen : ∃ leaf ∈ Huffman.leaves litLen, leaf.symbol = c.litLenSymbol
  dist : ∀ s, c.distSymbol? = some s → ∃ leaf ∈ Huffman.leaves dist, leaf.symbol = s

section
variable {litLen dist : Array Nat} {litLenDecoder distDecoder : Huffman.Decoder}

theorem reads_readToken (hlit : Huffman.Admissible litLen) (hdist : Huffman.Admissible dist)
    (hl : Huffman.Decoder.ofLengths litLen = .ok litLenDecoder)
    (hd : Huffman.Decoder.ofLengths dist = .ok distDecoder) {t : Token} (ht : t.Encodable)
    (codes : Codes litLen dist t.code) :
    Reads (readToken litLenDecoder distDecoder) (tokenBits litLen dist t.code) t := by
  obtain ⟨leaf, hleaf, hsymbol⟩ := codes.litLen
  have hlt := Token.litLenSymbol_lt ht
  simp only [litLenSymbols] at hlt
  have decode := Huffman.Decoder.reads_decode hlit hl hleaf (by omega)
  rw [hsymbol] at decode
  cases t with
  | literal byte =>
    have hbyte : byte.toNat < firstLengthSymbol := byte.toNat_lt
    rw [readToken, ← List.append_nil (tokenBits _ _ _)]
    refine decode.bind ?_
    simp only [Token.code, CodedToken.litLenSymbol, if_pos hbyte]
    rw [show byte.toNat.toUInt8 = byte from UInt8.ofNat_toNat]
    exact reads_pure _
  | copy length distance =>
    obtain ⟨dleaf, hdleaf, hdsymbol⟩ := codes.dist _ rfl
    have hdlt := Token.distSymbol_lt ht rfl
    simp only [distSymbols] at hdlt
    have ddecode := Huffman.Decoder.reads_decode hdist hd hdleaf (by omega)
    rw [hdsymbol] at ddecode
    obtain ⟨hmin, hmax, hone, hfar⟩ := ht
    rw [readToken]
    refine decode.bind ?_
    simp only [Token.code, CodedToken.litLenSymbol]
    rw [if_neg (by omega), Nat.add_sub_cancel_left]
    refine (reads_readSlot _).bind ?_
    rw [if_neg (by omega)]
    refine ddecode.bind ?_
    have hread := (reads_readSlot (distance - 1)).map fun extra =>
      Token.copy (length - minMatch + minMatch) (extra + 1)
    rw [Nat.sub_add_cancel hmin, Nat.sub_add_cancel hone] at hread
    rw [Nat.sub_add_cancel hmin]
    exact hread

end

/-- Tokens are applied as they are read, and what follows the last one must be padding. -/
theorem unpackTokens_of_reads {litLen dist : Huffman.Decoder} {bits : Token → List Bool}
    {tokens : List Token} (ht : ∀ t ∈ tokens, Reads (readToken litLen dist) (bits t) t)
    {r : BitReader} {pad : Nat} (hpad : pad < 8)
    (hrest : r.rest = tokens.flatMap bits ++ List.replicate pad false) (out : Output) :
    unpackTokens litLen dist tokens.length r out = Output.applyAll tokens out := by
  induction tokens generalizing r out with
  | nil =>
    rw [List.length_nil, unpackTokens, finish_of_padding hpad hrest]
    rfl
  | cons t rest ih =>
    obtain ⟨hfirst, hothers⟩ := List.forall_mem_cons.1 ht
    rw [List.flatMap_cons, List.append_assoc] at hrest
    obtain ⟨r₁, run₁, data₁, rest₁⟩ := hfirst r _ hrest
    rw [List.length_cons, unpackTokens, run₁, Output.applyAll_cons]
    have hnext := ih hothers rest₁
    simp only [Bind.bind, EStateM.bind]
    cases Output.apply t out with
    | ok _ out₁ => exact hnext out₁
    | error e out₁ => rfl

/-- The size of a payload is at most linear in the number of its tokens. -/
theorem size_pack_le {tokens : Array Token} (ht : ∀ t ∈ tokens.toList, t.Encodable) :
    (pack (CodedBlock.ofTokens tokens)).size ≤ 4096 + 16 * tokens.size := by
  have hlit := (Huffman.assigned_codeLengths (CodedBlock.ofTokens tokens).litLenCounts
    (by rw [CodedBlock.size_litLenCounts]; decide)).admissible
  have hdist := (Huffman.assigned_codeLengths (CodedBlock.ofTokens tokens).distCounts
    (by rw [CodedBlock.size_distCounts]; decide)).admissible
  have hlitSize := (Huffman.size_codeLengths maxCodeLength _).trans
    (CodedBlock.size_litLenCounts tokens)
  have hdistSize := (Huffman.size_codeLengths maxCodeLength _).trans
    (CodedBlock.size_distCounts tokens)
  obtain ⟨pad, hpad, hbits⟩ := bits_pack (CodedBlock.ofTokens tokens)
  have hlitTable := Huffman.length_tableBits_le hlit
  have hdistTable := Huffman.length_tableBits_le hdist
  have htokens (ts : List Token) (h : ∀ t ∈ ts, t.Encodable) :
      ((ts.map Token.code).flatMap (tokenBits
        (Huffman.codeLengths maxCodeLength (CodedBlock.ofTokens tokens).litLenCounts)
        (Huffman.codeLengths maxCodeLength (CodedBlock.ofTokens tokens).distCounts))).length ≤
      128 * ts.length := by
    induction ts with
    | nil => exact Nat.le_refl _
    | cons t rest ih =>
      obtain ⟨hfirst, hrest⟩ := List.forall_mem_cons.1 h
      have h₁ := length_tokenBits_le hlit.1 hdist.1 hfirst
      have h₂ := ih hrest
      simp only [List.map_cons, List.flatMap_cons, List.length_append, List.length_cons]
      omega
  have hall := htokens tokens.toList ht
  have hlen := congrArg List.length hbits
  rw [CodedBlock.toList_ofTokens] at hlen
  simp only [List.length_append, List.length_replicate, Bytes.length_bits] at hlen
  rw [hlitSize] at hlitTable
  rw [hdistSize] at hdistTable
  have hcount : tokens.toList.length = tokens.size := Array.length_toList
  simp only [litLenSymbols] at hlitTable
  simp only [distSymbols] at hdistTable
  omega

theorem codes_ofTokens {tokens : Array Token} (ht : ∀ t ∈ tokens.toList, t.Encodable) {t : Token}
    (hmem : t ∈ tokens.toList) :
    Codes (Huffman.codeLengths maxCodeLength (CodedBlock.ofTokens tokens).litLenCounts)
      (Huffman.codeLengths maxCodeLength (CodedBlock.ofTokens tokens).distCounts) t.code where
  litLen := by
    refine Huffman.exists_leaf (by rw [CodedBlock.size_litLenCounts]; decide)
      (CodedBlock.litLenCounts_ofTokens tokens (Token.litLenSymbol_lt (ht t hmem))) ?_
    exact List.count_pos_iff.2 (List.mem_map_of_mem (f := fun t => t.code.litLenSymbol) hmem)
  dist := by
    intro s hs
    refine Huffman.exists_leaf (by rw [CodedBlock.size_distCounts]; decide)
      (CodedBlock.distCounts_ofTokens tokens (Token.distSymbol_lt (ht t hmem) hs)) ?_
    exact List.count_pos_iff.2 (List.mem_filterMap.2 ⟨t, hmem, hs⟩)

/-- Both tables of a packed block are read back, and behind them its tokens, up to the padding. -/
theorem exists_reads_pack {tokens : Array Token} (ht : ∀ t ∈ tokens.toList, t.Encodable) :
    ∃ litLen dist r r' bits pad,
      Huffman.Decoder.read litLenSymbols { data := pack (CodedBlock.ofTokens tokens) } = .ok litLen r ∧
      Huffman.Decoder.read distSymbols r = .ok dist r' ∧
      (∀ t ∈ tokens.toList, Reads (readToken litLen dist) (bits t) t) ∧ pad < 8 ∧
      r'.rest = tokens.toList.flatMap bits ++ List.replicate pad false := by
  have hlit := (Huffman.assigned_codeLengths (CodedBlock.ofTokens tokens).litLenCounts
    (by rw [CodedBlock.size_litLenCounts]; decide)).admissible
  have hdist := (Huffman.assigned_codeLengths (CodedBlock.ofTokens tokens).distCounts
    (by rw [CodedBlock.size_distCounts]; decide)).admissible
  have hlitSize := (Huffman.size_codeLengths maxCodeLength _).trans
    (CodedBlock.size_litLenCounts tokens)
  have hdistSize := (Huffman.size_codeLengths maxCodeLength _).trans
    (CodedBlock.size_distCounts tokens)
  have hl := Huffman.Decoder.ofLengths_of_admissible hlit
  have hd := Huffman.Decoder.ofLengths_of_admissible hdist
  obtain ⟨pad, hpad, hbits⟩ := bits_pack (CodedBlock.ofTokens tokens)
  have hstart : ({ data := pack (CodedBlock.ofTokens tokens) } : BitReader).rest =
      (pack (CodedBlock.ofTokens tokens)).bits := List.drop_zero
  obtain ⟨r₁, run₁, _, rest₁⟩ := Huffman.Decoder.reads_table hlit (by rw [hlitSize]; decide) hl
    _ _ (hstart.trans hbits)
  obtain ⟨r₂, run₂, _, rest₂⟩ := Huffman.Decoder.reads_table hdist (by rw [hdistSize]; decide) hd
    _ _ rest₁
  rw [hlitSize] at run₁
  rw [hdistSize] at run₂
  rw [CodedBlock.toList_ofTokens, List.flatMap_map] at rest₂
  refine ⟨_, _, r₁, r₂, _, pad, run₁, run₂, ?_, hpad, rest₂⟩
  intro t hmem
  exact reads_readToken hlit hdist hl hd (ht t hmem) (codes_ofTokens ht hmem)

/-- Unpacking a packed block does to the output what its tokens do. -/
theorem unpack_pack_eq_applyAll {tokens : Array Token} (ht : ∀ t ∈ tokens.toList, t.Encodable)
    (out : Output) :
    unpack (pack (CodedBlock.ofTokens tokens)) tokens.size out =
      Output.applyAll tokens.toList out := by
  obtain ⟨litLen, dist, r, r', bits, pad, hlitLen, hdist, hreads, hpad, hrest⟩ := exists_reads_pack ht
  rw [unpack, hlitLen]
  dsimp only
  rw [hdist]
  dsimp only
  rw [← Array.length_toList]
  exact unpackTokens_of_reads hreads hpad hrest out

/-- **Packing loses nothing.** A block of tokens is unpacked behind any output, to exactly the bytes
that the tokens stand for, and the counts behind its code tables fit into 32 bits. -/
theorem unpack_pack (out : Output) (tokens : Array Token) (few : tokens.size < UInt32.size)
    (encodable : ∀ t ∈ tokens, t.Encodable)
    (grounded : Token.Grounded out.bytes.size tokens.toList) :
    (∃ out', unpack (pack (CodedBlock.ofTokens tokens)) tokens.size
        (out.beginBlock (Token.totalSize tokens)) = .ok () out' ∧
      out'.endBlock = .ok () ∧ out.bytes.toList <+: out'.bytes.toList ∧
      out'.bytes.toList = tokens.toList.foldl Token.extend out.bytes.toList) ∧
    (∀ n ∈ (CodedBlock.ofTokens tokens).litLenCounts, n < UInt32.size) ∧
    (∀ n ∈ (CodedBlock.ofTokens tokens).distCounts, n < UInt32.size) := by
  have hlist : ∀ t ∈ tokens.toList, t.Encodable := fun t ht => encodable t (Array.mem_toList_iff.1 ht)
  have hstart : Token.Grounded (out.beginBlock (Token.totalSize tokens)).bytes.size
      tokens.toList := grounded
  obtain ⟨out', run, bytes, blockEnd⟩ := Output.applyAll_of_grounded hstart (Nat.le_refl _)
  have hend : out'.bytes.size = out'.blockEnd := by
    rw [blockEnd, ← Array.length_toList, bytes, Token.length_foldl_extend]
    rfl
  refine ⟨⟨out', ?_, ?_, ?_, bytes⟩, ?_, ?_⟩
  · rw [unpack_pack_eq_applyAll hlist, run]
  · rw [Output.endBlock, if_pos hend]
  · rw [bytes]
    exact Token.prefix_foldl_extend _ _
  · intro n hn
    obtain ⟨s, hs, rfl⟩ := Array.mem_iff_getElem.1 hn
    have hcount := CodedBlock.litLenCounts_ofTokens tokens
      (CodedBlock.size_litLenCounts tokens ▸ hs)
    rw [Array.getElem?_eq_getElem hs, Option.some.injEq] at hcount
    have hle := List.count_le_length (a := s) (l := tokens.toList.map fun t => t.code.litLenSymbol)
    rw [List.length_map, Array.length_toList] at hle
    omega
  · intro n hn
    obtain ⟨s, hs, rfl⟩ := Array.mem_iff_getElem.1 hn
    have hcount := CodedBlock.distCounts_ofTokens tokens
      (CodedBlock.size_distCounts tokens ▸ hs)
    rw [Array.getElem?_eq_getElem hs, Option.some.injEq] at hcount
    have hle := List.count_le_length (a := s)
      (l := tokens.toList.filterMap fun t => t.code.distSymbol?)
    have hfilter := List.length_filterMap_le (fun t : Token => t.code.distSymbol?) tokens.toList
    have hsize : tokens.toList.length = tokens.size := Array.length_toList
    omega

/-- A copy that runs into itself, behind output of an earlier block. -/
theorem unpack_pack_overlap :
    ∃ out', unpack (pack (CodedBlock.ofTokens #[.literal 98, .copy 7 2, .literal 99])) 3
        ((⟨#[97], 1, by decide⟩ : Output).beginBlock 9) = .ok () out' ∧
      out'.endBlock = .ok () ∧
      out'.bytes = #[97, 98, 97, 98, 97, 98, 97, 98, 97, 99] := by
  obtain ⟨⟨out', run, hend, _, bytes⟩, _⟩ := unpack_pack ⟨#[97], 1, by decide⟩
    #[.literal 98, .copy 7 2, .literal 99] (by decide) (by decide) (by decide)
  exact ⟨out', run, hend, Array.toList_inj.1 bytes⟩

end Block

end LzCodec
