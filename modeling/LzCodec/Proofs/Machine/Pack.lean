import LzCodec.Proofs.Machine.Decoder
import LzCodec.Proofs.Machine.Lengths
import LzCodec.Proofs.Machine.Writer
import LzCodec.Proofs.Payloads

/-!
# Packing on machine words

A block of fewer than `2 ^ 32` tokens is counted and packed on words as `Block.pack` does it
(`pushAll_eq`, `pack_eq`).
-/

namespace LzCodec

namespace Machine

/-- The number of zeros before the first one in `width` bits. -/
def leadingZeros (width n : Nat) : Nat := if n = 0 then width else width - 1 - n.log2

def encodeSlot (value : Nat) : Machine SlotCode := do
  if value < 4 then
    return ⟨value % 256, 0, 0⟩
  let top ← sub 31 (leadingZeros 32 value)
  let bit := (← shiftRight 32 value (← sub top 1)) &&& 1
  let width ← sub top 1
  let slot ← add 32 (← mul 32 2 top) bit
  let mask ← sub (← shiftLeft 32 1 width) 1
  return ⟨slot % 256, width % 256, value &&& mask⟩

/-- Counts one more of a symbol, in 32 bits. -/
def bump (counts : Array Nat) (symbol : Nat) : Machine (Array Nat) := do
  store counts symbol (← add 32 (← load counts symbol) 1)

def pushToken (block : CodedBlock) : Token → Machine CodedBlock
  | .literal byte => do
    let litLenCounts ← bump block.litLenCounts byte.toNat
    return ⟨block.tokens.push (.literal byte), litLenCounts, block.distCounts⟩
  | .copy length distance => do
    require (minMatch ≤ length)
    require (1 ≤ distance)
    let length ← encodeSlot (← sub length minMatch)
    let distance ← encodeSlot (← sub distance 1)
    let litLenCounts ← bump block.litLenCounts (← add 64 firstLengthSymbol length.slot)
    let distCounts ← bump block.distCounts distance.slot
    return ⟨block.tokens.push (.copy length distance), litLenCounts, distCounts⟩

def pushAll (block : CodedBlock) : List Token → Machine CodedBlock
  | [] => pure block
  | token :: rest => do pushAll (← pushToken block token) rest

def encoderOf (counts : Array Nat) : Machine Huffman.Encoder := do
  let lengths ← codeLengths maxCodeLength counts
  return ⟨lengths, ← canonicalCodes lengths⟩

def putSymbol (e : Huffman.Encoder) (w : Writer) (symbol : Nat) : Machine Writer := do
  let length ← load e.lengths symbol
  require (0 < length)
  w.put (← load e.codes symbol) length

/-- Writes the entries of symbols behind `last`. -/
def putLeaves (maxLength : Nat) (last : Int) (w : Writer) : List Huffman.Leaf → Machine Writer
  | [] => pure w
  | leaf :: rest => do
    let delta ← addSigned 63 leaf.symbol (-last)
    let w ← w.putVarint (asUnsigned delta % UInt32.size)
    let w ← w.putVarint (← sub maxLength leaf.length)
    putLeaves maxLength leaf.symbol w rest

def putTable (e : Huffman.Encoder) (w : Writer) : Machine Writer := do
  let maxLength := e.lengths.foldl max 0
  let w ← w.putVarint maxLength
  let w ← putLeaves maxLength (-1) w (Huffman.leaves e.lengths)
  w.putVarint 0

def putToken (litLen dist : Huffman.Encoder) (w : Writer) : CodedToken → Machine Writer
  | .literal byte => putSymbol litLen w byte.toNat
  | .copy length distance => do
    let w ← putSymbol litLen w (← add 64 firstLengthSymbol length.slot)
    let w ← w.put length.extra length.width
    let w ← putSymbol dist w distance.slot
    w.put distance.extra distance.width

def putTokens (litLen dist : Huffman.Encoder) (w : Writer) : List CodedToken → Machine Writer
  | [] => pure w
  | token :: rest => do putTokens litLen dist (← putToken litLen dist w token) rest

/-- The payload of a block. -/
def pack (block : CodedBlock) : Machine Bytes := do
  let litLen ← encoderOf block.litLenCounts
  let dist ← encoderOf block.distCounts
  request (← add 64 block.tokens.size 64)
  let w ← putTable litLen {}
  let w ← putTable dist w
  let w ← putTokens litLen dist w block.tokens.toList
  w.finish

/-! ## Slots -/

theorem encodeSlot_eq {value : Nat} (h : value < 2 ^ 32) :
    encodeSlot value = pure (Slot.encode value) := by
  unfold encodeSlot
  by_cases hsmall : value < 4
  · have hbyte : value % 256 = value := Nat.mod_eq_of_lt (by omega)
    rw [if_pos hsmall, Slot.encode_of_lt hsmall, hbyte]
  · have hge := Nat.le_of_not_lt hsmall
    have hlog := Slot.log2_lt hge h
    have htwo := Slot.two_le_log2 hge
    have hzeros : leadingZeros 32 value = 31 - value.log2 := if_neg (by omega)
    have htop : 31 - (31 - value.log2) = value.log2 := by omega
    have hbit : value / 2 ^ (value.log2 - 1) % 2 < 2 := Nat.mod_lt _ (by decide)
    have hone : 1 * 2 ^ (value.log2 - 1) % 2 ^ 32 = 2 ^ (value.log2 - 1) := by
      rw [Nat.one_mul]
      exact Nat.mod_eq_of_lt (Nat.pow_lt_pow_right (by decide) (by omega))
    have hslot : (2 * value.log2 + value / 2 ^ (value.log2 - 1) % 2) % 256 =
        2 * value.log2 + value / 2 ^ (value.log2 - 1) % 2 := Nat.mod_eq_of_lt (by omega)
    have hwidth : (value.log2 - 1) % 256 = value.log2 - 1 := Nat.mod_eq_of_lt (by omega)
    rw [if_neg hsmall, hzeros, sub_of_le (by omega), pure_bind, htop, sub_of_le (by omega), pure_bind,
      shiftRight_of_lt (by omega), pure_bind, Nat.and_one_is_mod]
    dsimp only
    rw [pure_bind, mul_of_lt (by omega), pure_bind, add_of_lt (by omega), pure_bind,
      shiftLeft_of_lt (by omega), pure_bind, hone, sub_of_le (Nat.two_pow_pos _), pure_bind,
      Nat.and_two_pow_sub_one_eq_mod, hslot, hwidth, Slot.encode_of_le hge]

/-! ## Counts -/

/-- The counts of `size` symbols, none of which occurs more than `limit` times. -/
def Below (counts : Array Nat) (size limit : Nat) : Prop :=
  counts.size = size ∧ ∀ n ∈ counts, n ≤ limit

theorem Below.succ {counts : Array Nat} {size limit : Nat} (h : Below counts size limit) :
    Below counts size (limit + 1) :=
  ⟨h.1, fun n hn => Nat.le_succ_of_le (h.2 n hn)⟩

theorem Below.bump {counts : Array Nat} {size limit symbol : Nat} (h : Below counts size limit)
    (hsymbol : symbol < size) (hlimit : limit + 1 < 2 ^ 32) :
    bump counts symbol = pure (counts.modify symbol (· + 1)) ∧
      Below (counts.modify symbol (· + 1)) size (limit + 1) := by
  have hlt : symbol < counts.size := by rwa [h.1]
  have hle := h.2 _ (Array.getElem_mem hlt)
  have hset : counts.set symbol (counts[symbol] + 1) hlt = counts.modify symbol (· + 1) := by
    apply Array.ext_getElem?
    intro i
    rw [Array.getElem?_modify]
    by_cases hi : symbol = i
    · subst hi
      rw [if_pos rfl, Array.getElem?_set_self hlt, Array.getElem?_eq_getElem hlt, Option.map_some]
    · rw [if_neg hi, Array.getElem?_set_ne hlt hi]
  refine ⟨?_, ?_, ?_⟩
  · rw [Machine.bump, load_of_lt hlt, pure_bind, add_of_lt (by omega), pure_bind, store_of_lt hlt, hset]
  · rw [Array.size_modify, h.1]
  · intro n hn
    rw [← hset] at hn
    rcases Array.mem_or_eq_of_mem_set hn with hn | rfl
    · exact Nat.le_succ_of_le (h.2 n hn)
    · exact Nat.succ_le_succ hle

/-- A block whose counts are no larger than the number of its tokens. -/
structure Fits (block : CodedBlock) (count : Nat) : Prop where
  litLen : Below block.litLenCounts litLenSymbols count
  dist : Below block.distCounts distSymbols count

theorem fits_empty : Fits {} 0 where
  litLen := ⟨Array.size_replicate, fun _ hn => Nat.le_of_eq (Array.eq_of_mem_replicate hn)⟩
  dist := ⟨Array.size_replicate, fun _ hn => Nat.le_of_eq (Array.eq_of_mem_replicate hn)⟩

theorem Fits.push {block : CodedBlock} {count : Nat} (h : Fits block count) {token : Token}
    (ht : token.Encodable) (hcount : count + 1 < 2 ^ 32) :
    pushToken block token = pure (block.push token) ∧ Fits (block.push token) (count + 1) := by
  have hlit := Token.litLenSymbol_lt ht
  obtain ⟨hrun, hbelow⟩ := h.litLen.bump hlit hcount
  cases block with | mk tokens litLenCounts distCounts =>
  cases token with
  | literal byte =>
    refine ⟨?_, hbelow, h.dist.succ⟩
    rw [pushToken]
    exact congrArg (· >>= _) hrun
  | copy length distance =>
    obtain ⟨hmin, hmax, hone, hwindow⟩ := ht
    have hdist := Token.distSymbol_lt (show (Token.copy length distance).Encodable from
      ⟨hmin, hmax, hone, hwindow⟩) rfl
    obtain ⟨hrun', hbelow'⟩ := h.dist.bump hdist hcount
    have hmaxMatch : maxMatch = 65536 := rfl
    have hlog : 2 ^ maxWindowLog = 16777216 := by decide
    have hlength := encodeSlot_eq (show length - minMatch < 2 ^ 32 by omega)
    have hdistance := encodeSlot_eq (show distance - 1 < 2 ^ 32 by omega)
    have hsymbol : add 64 firstLengthSymbol (Slot.encode (length - minMatch)).slot =
        pure (firstLengthSymbol + (Slot.encode (length - minMatch)).slot) := by
      refine add_of_lt (Nat.lt_trans hlit ?_)
      decide
    refine ⟨?_, hbelow, hbelow'⟩
    rw [pushToken, require_of hmin, pure_bind, require_of hone, pure_bind, sub_of_le hmin, pure_bind,
      hlength, pure_bind, sub_of_le hone, pure_bind, hdistance, pure_bind, hsymbol, pure_bind]
    have hrun : bump litLenCounts (firstLengthSymbol + (Slot.encode (length - minMatch)).slot) =
      pure _ := hrun
    have hrun' : bump distCounts (Slot.encode (distance - 1)).slot = pure _ := hrun'
    rw [hrun, pure_bind, hrun', pure_bind]
    rfl

theorem pushAll_foldl {tokens : List Token} (ht : ∀ t ∈ tokens, t.Encodable) {block : CodedBlock}
    {count : Nat} (h : Fits block count) (few : count + tokens.length < 2 ^ 32) :
    pushAll block tokens = pure (tokens.foldl CodedBlock.push block) ∧
      Fits (tokens.foldl CodedBlock.push block) (count + tokens.length) := by
  induction tokens generalizing block count with
  | nil => exact ⟨rfl, h⟩
  | cons token rest ih =>
    obtain ⟨htoken, hrest⟩ := List.forall_mem_cons.1 ht
    rw [List.length_cons] at few
    obtain ⟨hpush, hfits⟩ := h.push htoken (by omega)
    have hnext := ih hrest hfits (by omega)
    rw [pushAll, hpush, pure_bind, List.foldl_cons, List.length_cons, Nat.add_comm rest.length 1,
      ← Nat.add_assoc]
    exact hnext

/-- Tokens are counted without an overflow. -/
theorem pushAll_eq {tokens : Array Token} (ht : ∀ t ∈ tokens.toList, t.Encodable)
    (few : tokens.size < 2 ^ 32) :
    pushAll {} tokens.toList = pure (CodedBlock.ofTokens tokens) ∧
      Fits (CodedBlock.ofTokens tokens) tokens.size := by
  have hall := pushAll_foldl ht fits_empty (by rw [Nat.zero_add, Array.length_toList]; exact few)
  rw [Nat.zero_add, Array.length_toList, Array.foldl_toList] at hall
  exact hall

/-! ## Tables -/

/-- Where the limit leaves a codeword for each symbol that occurs, an encoder is made of any counts. -/
theorem encoderOf_of_fit {counts : Array Nat} (fit : (Huffman.used counts).length ≤ 2 ^ maxCodeLength)
    (hword : ∀ n ∈ counts, n < 2 ^ 32) : encoderOf counts = pure (Huffman.Encoder.ofCounts counts) := by
  have hadmissible := (Huffman.codeLengths_spec (show 1 ≤ maxCodeLength by decide) fit).admissible
  have hfew : 16 * (Huffman.used counts).length ≤ 2 ^ 63 :=
    Nat.le_trans (Nat.mul_le_mul_left 16 fit) (by decide)
  have hsum := sum_lt_of_length_used_le hword (Nat.le_trans fit (by decide))
  rw [encoderOf, codeLengths_eq (by decide) fit hsum hfew, pure_bind, canonicalCodes_eq hadmissible,
    pure_bind]
  rfl

theorem encoderOf_eq {counts : Array Nat} {size limit : Nat} (h : Below counts size limit)
    (hsize : size ≤ 2 ^ maxCodeLength) (hlimit : limit < 2 ^ 32) :
    encoderOf counts = pure (Huffman.Encoder.ofCounts counts) := by
  apply encoderOf_of_fit
  · exact Nat.le_trans (Huffman.length_used_le counts) (h.1 ▸ hsize)
  · exact fun n hn => Nat.lt_of_le_of_lt (h.2 n hn) hlimit

theorem putSymbol_eq {lengths : Array Nat} (h : Huffman.Admissible lengths) {symbol : Nat}
    (hsymbol : ∃ leaf ∈ Huffman.leaves lengths, leaf.symbol = symbol) (w : BitWriter) :
    putSymbol (.ofLengths lengths) (Writer.of w) symbol =
      pure (Writer.of ((Huffman.Encoder.ofLengths lengths).put w symbol)) := by
  obtain ⟨leaf, hleaf, rfl⟩ := hsymbol
  obtain ⟨hlength, hpos⟩ := Huffman.mem_leaves.1 hleaf
  obtain ⟨code, hcode, -, -⟩ := exists_run h hleaf
  have hshort : leaf.length ≤ 32 :=
    Nat.le_trans (Huffman.length_le_longest hleaf) (Nat.le_trans h.1 (by decide))
  have hgetl : lengths.getD leaf.symbol 0 = leaf.length := by
    rw [Array.getD_eq_getD_getElem?, hlength, Option.getD_some]
  have hgetc : (Huffman.canonicalCodes lengths).getD leaf.symbol 0 = code := by
    rw [Array.getD_eq_getD_getElem?, hcode, Option.getD_some]
  unfold putSymbol Huffman.Encoder.put Huffman.Encoder.ofLengths
  dsimp only
  rw [load_of_getElem? hlength, pure_bind, require_of hpos, pure_bind, load_of_getElem? hcode, pure_bind,
    Writer.put_eq hshort, hgetl, hgetc]

/-- The distance from one symbol to the next fits into a word. -/
theorem putLeaves_eq {maxLength next : Nat} {ls : List Huffman.Leaf}
    (sorted : ls.Pairwise fun a b => a.symbol < b.symbol)
    (bounds : ∀ leaf ∈ ls, next ≤ leaf.symbol ∧ leaf.symbol < 2 ^ 31 ∧ leaf.length ≤ maxLength)
    (w : BitWriter) :
    putLeaves maxLength ((next : Int) - 1) (Writer.of w) ls =
      pure (Writer.of (Huffman.Encoder.putLeaves maxLength next w ls)) := by
  induction ls generalizing next w with
  | nil => rfl
  | cons leaf rest ih =>
    obtain ⟨⟨hnext, hword, hlength⟩, hrest⟩ := List.forall_mem_cons.1 bounds
    obtain ⟨hsorted, sorted⟩ := List.pairwise_cons.1 sorted
    have hdelta : (leaf.symbol : Int) + -((next : Int) - 1) = ((leaf.symbol + 1 - next : Nat) : Int) := by
      omega
    have hadd : addSigned 63 leaf.symbol (-((next : Int) - 1)) =
        pure ((leaf.symbol + 1 - next : Nat) : Int) := by
      rw [addSigned_of_range (by omega) (by omega), hdelta]
    have hunsigned : asUnsigned ((leaf.symbol + 1 - next : Nat) : Int) % UInt32.size =
        leaf.symbol + 1 - next := by
      have h64 : UInt64.size = 18446744073709551616 := rfl
      have h32 : UInt32.size = 4294967296 := rfl
      unfold asUnsigned
      rw [h64, h32]
      omega
    have hlast : (leaf.symbol : Int) = ((leaf.symbol + 1 : Nat) : Int) - 1 := by omega
    have hbounds : ∀ l ∈ rest, leaf.symbol + 1 ≤ l.symbol ∧ l.symbol < 2 ^ 31 ∧ l.length ≤ maxLength :=
      fun l hl => ⟨hsorted l hl, (hrest l hl).2⟩
    rw [putLeaves, hadd, pure_bind, hunsigned, Writer.putVarint_eq, pure_bind, sub_of_le hlength, pure_bind,
      Writer.putVarint_eq, pure_bind, hlast, ih sorted hbounds]
    rfl

theorem putTable_eq {lengths : Array Nat} (hsize : lengths.size < 2 ^ 31) (w : BitWriter) :
    putTable (.ofLengths lengths) (Writer.of w) =
      pure (Writer.of ((Huffman.Encoder.ofLengths lengths).putTable w)) := by
  have hbounds : ∀ leaf ∈ Huffman.leaves lengths, 0 ≤ leaf.symbol ∧ leaf.symbol < 2 ^ 31 ∧
      leaf.length ≤ lengths.foldl max 0 := by
    intro leaf hleaf
    exact ⟨Nat.zero_le _, Nat.lt_trans (Huffman.symbol_lt_size hleaf) hsize,
      Huffman.length_le_longest hleaf⟩
  have hleaves := putLeaves_eq (Huffman.leaves_sorted lengths) hbounds
    (w.putVarint (lengths.foldl max 0))
  have hstart : ((0 : Nat) : Int) - 1 = -1 := rfl
  have hlengths : (Huffman.Encoder.ofLengths lengths).lengths = lengths := rfl
  rw [hstart] at hleaves
  unfold putTable
  dsimp only
  rw [hlengths, Writer.putVarint_eq, pure_bind, hleaves, pure_bind, Writer.putVarint_eq]
  rfl

/-! ## Payloads -/

section

variable {litLen dist : Array Nat}

theorem putToken_eq (hlit : Huffman.Admissible litLen) (hdist : Huffman.Admissible dist) {token : Token}
    (ht : token.Encodable) (codes : Block.Codes litLen dist token.code) (w : BitWriter) :
    putToken (.ofLengths litLen) (.ofLengths dist) (Writer.of w) token.code =
      pure (Writer.of (Block.putToken (.ofLengths litLen) (.ofLengths dist) w token.code)) := by
  cases token with
  | literal byte => exact putSymbol_eq hlit codes.litLen w
  | copy length distance =>
    have hlt := Token.litLenSymbol_lt ht
    obtain ⟨hmin, hmax, hone, hwindow⟩ := ht
    have hmaxMatch : maxMatch = 65536 := rfl
    have hlog : 2 ^ maxWindowLog = 16777216 := by decide
    have hlength : (Slot.encode (length - minMatch)).width < 32 := Slot.width_lt (by decide) (by omega)
    have hdistance : (Slot.encode (distance - 1)).width < 32 := Slot.width_lt (by decide) (by omega)
    have hsymbol : add 64 firstLengthSymbol (Slot.encode (length - minMatch)).slot =
        pure (firstLengthSymbol + (Slot.encode (length - minMatch)).slot) := by
      refine add_of_lt (Nat.lt_trans hlt ?_)
      decide
    have hputLit := putSymbol_eq hlit codes.litLen w
    have hputDist := putSymbol_eq hdist (codes.dist _ rfl)
    simp only [Token.code, CodedToken.litLenSymbol] at hputLit hputDist ⊢
    rw [putToken, hsymbol, pure_bind, hputLit, pure_bind, Writer.put_eq (Nat.le_of_lt hlength), pure_bind,
      hputDist, pure_bind, Writer.put_eq (Nat.le_of_lt hdistance)]
    rfl

theorem putTokens_eq (hlit : Huffman.Admissible litLen) (hdist : Huffman.Admissible dist)
    {tokens : List Token} (ht : ∀ t ∈ tokens, t.Encodable ∧ Block.Codes litLen dist t.code)
    (w : BitWriter) :
    putTokens (.ofLengths litLen) (.ofLengths dist) (Writer.of w) (tokens.map Token.code) =
      pure (Writer.of ((tokens.map Token.code).foldl
        (Block.putToken (.ofLengths litLen) (.ofLengths dist)) w)) := by
  induction tokens generalizing w with
  | nil => rfl
  | cons token rest ih =>
    obtain ⟨⟨htoken, hcodes⟩, hrest⟩ := List.forall_mem_cons.1 ht
    rw [List.map_cons, putTokens, putToken_eq hlit hdist htoken hcodes, pure_bind, ih hrest, List.foldl_cons]

end

/-- Packing has no faults, and every symbol that is written has a codeword. -/
theorem pack_eq {tokens : Array Token} (ht : ∀ t ∈ tokens.toList, t.Encodable)
    (few : tokens.size < 2 ^ 32) :
    pack (CodedBlock.ofTokens tokens) = pure (Block.pack (CodedBlock.ofTokens tokens)) := by
  obtain ⟨-, hfits⟩ := pushAll_eq ht few
  have hlitSize := CodedBlock.size_litLenCounts tokens
  have hdistSize := CodedBlock.size_distCounts tokens
  have hlit := (Huffman.assigned_codeLengths (CodedBlock.ofTokens tokens).litLenCounts
    (by rw [hlitSize]; decide)).admissible
  have hdist := (Huffman.assigned_codeLengths (CodedBlock.ofTokens tokens).distCounts
    (by rw [hdistSize]; decide)).admissible
  have hcodes : ∀ t ∈ tokens.toList, t.Encodable ∧ Block.Codes _ _ t.code :=
    fun t hmem => ⟨ht t hmem, Block.codes_ofTokens ht hmem⟩
  have hcount : (CodedBlock.ofTokens tokens).tokens.size = tokens.size := by
    rw [← Array.length_toList, CodedBlock.toList_ofTokens, List.length_map, Array.length_toList]
  have hroom : add 64 tokens.size 64 = pure (tokens.size + 64) := add_of_lt (by omega)
  have hrequest : request (tokens.size + 64) = pure () := request_of_lt (by rw [maxArrayLog]; omega)
  unfold pack
  rw [encoderOf_eq hfits.litLen (by decide) few, pure_bind, encoderOf_eq hfits.dist (by decide) few,
    pure_bind, hcount, hroom, pure_bind, hrequest, pure_bind]
  have hempty : ({} : Writer) = Writer.of {} := rfl
  rw [hempty]
  unfold Huffman.Encoder.ofCounts
  rw [putTable_eq (by rw [Huffman.size_codeLengths, hlitSize]; decide), pure_bind,
    putTable_eq (by rw [Huffman.size_codeLengths, hdistSize]; decide), pure_bind,
    CodedBlock.toList_ofTokens, putTokens_eq hlit hdist hcodes, pure_bind, Writer.finish_eq, Block.pack,
    ← Array.foldl_toList, CodedBlock.toList_ofTokens]
  rfl

end Machine

end LzCodec
