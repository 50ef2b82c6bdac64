import LzCodec.Proofs.Delimiting
import LzCodec.Proofs.Expansion

/-!
# The grammar of frames

What a frame is, said without a reader: `Frame.Text` puts it together from numbers that may be padded
and from blocks, each with the tokens that its payload holds. Every frame that is accepted is such a
text, and its content is the replay of all its tokens (`exists_text_of_decompress`).
-/

namespace LzCodec

/-! ## Numbers -/

namespace Leb128

variable {src : Bytes}

/-- What is read of a number stands there, in no more bytes and bits than are allowed. -/
theorem exists_digits_of_readFrom {left acc weight pos v next : Nat}
    (h : readFrom src left acc weight pos = .ok v next) :
    ∃ bytes value, Digits bytes value ∧ v = acc + value * weight ∧ bytes.length ≤ left ∧
      value < 2 ^ (7 * left - 6) ∧ src.toList.drop pos = bytes ++ src.toList.drop next := by
  induction left generalizing acc weight pos with
  | zero => cases h
  | succ left ih =>
    unfold readFrom at h
    split at h
    · rename_i hpos
      have hpos' : pos < src.toList.length := hpos
      have hdrop := List.drop_eq_getElem_cons hpos'
      rw [Array.getElem_toList] at hdrop
      dsimp only at h
      split at h
      · cases h
      · rename_i hroom
        split at h
        · rename_i hlast
          cases h
          refine ⟨[src[pos]], _, .last hlast, by rw [Nat.mod_eq_of_lt hlast], ?_, ?_, hdrop⟩
          · exact Nat.succ_le_succ (Nat.zero_le _)
          · rw [Nat.mod_eq_of_lt hlast] at hroom
            cases left with
            | zero => exact Nat.lt_succ_of_le (Nat.le_of_not_lt fun hone => hroom ⟨rfl, hone⟩)
            | succ left =>
              have hbits : 2 ^ 7 ≤ 2 ^ (7 * (left + 1 + 1) - 6) :=
                Nat.pow_le_pow_right (by decide) (by omega)
              exact Nat.lt_of_lt_of_le hlast hbits
        · rename_i hmore
          obtain ⟨bytes, value, hdigits, rfl, hlen, hvalue, hrest⟩ := ih h
          refine ⟨src[pos] :: bytes, _, .more (Nat.le_of_not_lt hmore) hdigits, by ring,
            Nat.succ_le_succ hlen, ?_, by rw [hdrop, hrest, List.cons_append]⟩
          obtain ⟨_, _, rfl⟩ := hdigits.exists_cons
          have hleft : 0 < left := Nat.lt_of_lt_of_le (Nat.succ_pos _) hlen
          have hbits : 7 * (left + 1) - 6 = 7 * left - 6 + 7 := by omega
          rw [hbits, Nat.pow_add]
          omega
    · cases h

theorem exists_numeral_of_read {pos value next : Nat} (h : read src pos = .ok value next) :
    ∃ bytes, Numeral bytes value ∧ src.toList.drop pos = bytes ++ src.toList.drop next := by
  obtain ⟨bytes, value, hdigits, rfl, hlen, hvalue, hrest⟩ := exists_digits_of_readFrom h
  rw [Nat.zero_add, Nat.mul_one]
  exact ⟨bytes, ⟨hdigits, hlen, hvalue⟩, hrest⟩

end Leb128

/-! ## Payloads -/

namespace Block

/-- The tokens that are read from `r` on, up to the padding behind the last one. -/
inductive Holds (litLen dist : Huffman.Decoder) : BitReader → List Token → Prop
  | padding {r : BitReader} (h : r.finish = .ok ()) : Holds litLen dist r []
  | token {r r' : BitReader} {t : Token} {rest : List Token}
      (h : readToken litLen dist r = .ok t r') (hrest : Holds litLen dist r' rest) :
      Holds litLen dist r (t :: rest)

/-- The tokens of a payload: two code tables from its first bit on, and behind them the tokens in these
codes. -/
def Payload (payload : Bytes) (tokens : List Token) : Prop :=
  ∃ litLen dist start r r', start.data = payload ∧ start.pos = 0 ∧
    Huffman.Decoder.read litLenSymbols start = .ok litLen r ∧
    Huffman.Decoder.read distSymbols r = .ok dist r' ∧ Holds litLen dist r' tokens

/-- What was written straight from the bits is what their tokens write. -/
theorem exists_holds_of_unpackTokens {litLen dist : Huffman.Decoder} {count : Nat} {r : BitReader}
    {out out' : Output} (h : unpackTokens litLen dist count r out = .ok () out') :
    ∃ tokens, Holds litLen dist r tokens ∧ tokens.length = count ∧
      Output.applyAll tokens out = .ok () out' := by
  induction count generalizing r out with
  | zero =>
    unfold unpackTokens at h
    cases hend : r.finish with
    | error e =>
      rw [hend] at h
      cases h
    | ok _ =>
      rw [hend] at h
      exact ⟨[], .padding hend, rfl, h⟩
  | succ count ih =>
    unfold unpackTokens at h
    cases hread : readToken litLen dist r with
    | error e r' =>
      rw [hread] at h
      cases h
    | ok t r' =>
      rw [hread] at h
      simp only [Bind.bind, EStateM.bind] at h
      cases happly : Output.apply t out with
      | error e out₁ =>
        rw [happly] at h
        cases h
      | ok _ out₁ =>
        rw [happly] at h
        obtain ⟨tokens, hholds, rfl, hrun⟩ := ih h
        refine ⟨t :: tokens, .token hread hholds, rfl, ?_⟩
        rw [Output.applyAll_cons, happly]
        exact hrun

theorem exists_payload_of_unpack {payload : Bytes} {count : Nat} {out out' : Output}
    (h : unpack payload count out = .ok () out') :
    ∃ tokens, Payload payload tokens ∧ tokens.length = count ∧
      Output.applyAll tokens out = .ok () out' := by
  unfold unpack at h
  cases hlitLen : Huffman.Decoder.read litLenSymbols { data := payload } with
  | error e r =>
    rw [hlitLen] at h
    cases h
  | ok litLen r =>
    rw [hlitLen] at h
    dsimp only at h
    cases hdist : Huffman.Decoder.read distSymbols r with
    | error e r' =>
      rw [hdist] at h
      cases h
    | ok dist r' =>
      rw [hdist] at h
      obtain ⟨tokens, hholds, hlen, hrun⟩ := exists_holds_of_unpackTokens h
      exact ⟨tokens, ⟨litLen, dist, _, r, r', rfl, rfl, hlitLen, hdist, hholds⟩, hlen, hrun⟩

end Block

/-! ## Outputs -/

namespace Output

/-- Tokens that were all applied are grounded and fit, and so the output is what they stand for. -/
theorem grounded_of_applyAll {tokens : List Token} {out out' : Output}
    (h : applyAll tokens out = .ok () out') :
    Token.Grounded out.bytes.size tokens ∧
      out.bytes.size + Token.totalSize tokens.toArray ≤ out.blockEnd ∧
      out'.bytes.toList = tokens.foldl Token.extend out.bytes.toList ∧
      out'.blockEnd = out.blockEnd := by
  induction tokens generalizing out with
  | nil =>
    cases h
    exact ⟨trivial, out'.size_le, rfl, rfl⟩
  | cons t rest ih =>
    rw [applyAll_cons] at h
    cases happly : apply t out with
    | error e out₁ =>
      rw [happly] at h
      cases h
    | ok _ out₁ =>
      rw [happly] at h
      obtain ⟨hwithin, hfits⟩ := within_of_apply happly
      obtain ⟨hbytes, hend⟩ := extend_of_apply happly
      obtain ⟨hgrounded, hroom, hall, hlast⟩ := ih h
      rw [size_of_apply happly] at hgrounded hroom
      rw [hend] at hroom hlast
      refine ⟨⟨hwithin, hgrounded⟩, ?_, by rw [hall, hbytes, List.foldl_cons], hlast⟩
      rw [Token.totalSize_cons]
      omega

end Output

/-! ## Words -/

namespace Bytes

/-- The bytes of a word are those that it was made of. -/
theorem bytes_word32 (a b c d : UInt8) :
    (pushWord32 #[] (a.toUInt32 ||| b.toUInt32 <<< 8 ||| c.toUInt32 <<< 16 |||
      d.toUInt32 <<< 24)).toList = [a, b, c, d] := by
  generalize hw : a.toUInt32 ||| b.toUInt32 <<< 8 ||| c.toUInt32 <<< 16 ||| d.toUInt32 <<< 24 = w
  have above (x : UInt8) {i : Nat} (hi : 8 ≤ i) : x.toBitVec.getLsbD i = false :=
    BitVec.getLsbD_of_ge _ _ hi
  have h₀ : w.toUInt8 = a := by
    apply UInt8.toBitVec_inj.1
    ext i hi
    simp [← hw]
  have h₁ : (w >>> 8).toUInt8 = b := by
    apply UInt8.toBitVec_inj.1
    ext i hi
    simp [← hw, show i < 32 by omega, show 8 + i < 16 by omega, show 8 + i < 24 by omega,
      show 8 + i < 32 by omega, BitVec.getLsbD_eq_getElem hi]
  have h₂ : (w >>> 16).toUInt8 = c := by
    apply UInt8.toBitVec_inj.1
    ext i hi
    simp [← hw, show i < 32 by omega, show 16 + i < 24 by omega, show 16 + i < 32 by omega,
      above a (show 8 ≤ 16 + i by omega), above b (show 8 ≤ 16 + i - 8 by omega),
      BitVec.getLsbD_eq_getElem hi]
  have h₃ : (w >>> 24).toUInt8 = d := by
    apply UInt8.toBitVec_inj.1
    ext i hi
    simp [← hw, show i < 32 by omega, show 24 + i < 32 by omega,
      above a (show 8 ≤ 24 + i by omega), above b (show 8 ≤ 24 + i - 8 by omega),
      above c (show 8 ≤ 24 + i - 16 by omega), BitVec.getLsbD_eq_getElem hi]
  simp [pushWord32, h₀, h₁, h₂, h₃]

/-- The last four bytes are those of their word. -/
theorem drop_eq_bytes_word32 {src : Bytes} {pos : Nat} (h : pos + 4 = src.size) :
    src.toList.drop pos = (pushWord32 #[] (src.word32 pos (Nat.le_of_eq h))).toList := by
  rw [word32, bytes_word32]
  apply List.ext_getElem
  · simp
    omega
  · intro i hi _
    have hi' : i < 4 := by
      simp at hi
      omega
    rw [List.getElem_drop, Array.getElem_toList]
    obtain rfl | rfl | rfl | rfl : i = 0 ∨ i = 1 ∨ i = 2 ∨ i = 3 := by omega
    · rfl
    · rfl
    · rfl
    · rfl

end Bytes

/-! ## Frames -/

namespace Frame

/-- A block as it stands in a frame, and the tokens that its payload holds. -/
structure BlockText where
  header : BlockHeader
  rawSize : List UInt8
  tokenCount : List UInt8
  payloadSize : List UInt8
  payload : Bytes
  tokens : List Token
  rawSize_numeral : Leb128.Numeral rawSize header.rawSize
  tokenCount_numeral : Leb128.Numeral tokenCount header.tokenCount
  payloadSize_numeral : Leb128.Numeral payloadSize header.payloadSize
  size_payload : payload.size = header.payloadSize
  payload_holds : Block.Payload payload tokens
  length_tokens : tokens.length = header.tokenCount
  totalSize_tokens : Token.totalSize tokens.toArray = header.rawSize
  /-- A block does not start like the end of the blocks. -/
  head_ne : rawSize.head? ≠ some endMark

def BlockText.bytes (b : BlockText) : List UInt8 :=
  b.rawSize ++ (b.tokenCount ++ (b.payloadSize ++ b.payload.toList))

/-- A frame, number by number and block by block. -/
structure Text where
  contentSize : Nat
  numeral : List UInt8
  numeral_numeral : Leb128.Numeral numeral contentSize
  blocks : List BlockText
  sum : UInt32

namespace Text

def bytes (text : Text) : List UInt8 :=
  magic.toList ++ version :: (text.numeral ++
    (text.blocks.flatMap BlockText.bytes ++ endMark :: (Bytes.pushWord32 #[] text.sum).toList))

def tokens (text : Text) : List Token := text.blocks.flatMap BlockText.tokens

end Text

theorem exists_numerals_of_read {src : Bytes} {room pos start : Nat} {b : BlockHeader}
    (h : BlockHeader.read src room pos = .ok b start) :
    ∃ rawSize tokenCount payloadSize, Leb128.Numeral rawSize b.rawSize ∧
      Leb128.Numeral tokenCount b.tokenCount ∧ Leb128.Numeral payloadSize b.payloadSize ∧
      src.toList.drop pos = rawSize ++ (tokenCount ++ (payloadSize ++ src.toList.drop start)) := by
  unfold BlockHeader.read at h
  split at h
  · cases h
  · rename_i hraw
    split at h
    · cases h
    · split at h
      · cases h
      · rename_i hcount
        split at h
        · cases h
        · split at h
          · cases h
          · rename_i hpayload
            split at h
            · cases h
            · cases h
              obtain ⟨rawSize, h₁, hdrop₁⟩ := Leb128.exists_numeral_of_read hraw
              obtain ⟨tokenCount, h₂, hdrop₂⟩ := Leb128.exists_numeral_of_read hcount
              obtain ⟨payloadSize, h₃, hdrop₃⟩ := Leb128.exists_numeral_of_read hpayload
              exact ⟨rawSize, tokenCount, payloadSize, h₁, h₂, h₃, by rw [hdrop₁, hdrop₂, hdrop₃]⟩

/-- Magic bytes and a version at the start, and what stands behind them. -/
theorem toList_eq_of_version {src : Bytes} {v : UInt8} (hmagic : src.take magic.size = magic)
    (hv : src[magic.size]? = some v) :
    src.toList = magic.toList ++ v :: src.toList.drop (magic.size + 1) := by
  obtain ⟨rest, hrest⟩ := (take_magic_eq_iff src).1 hmagic
  have hbehind : src.toList.drop magic.size = rest := by
    rw [← hrest, ← Array.length_toList, List.drop_left]
  rw [← Array.getElem?_toList, ← hrest, ← Array.length_toList,
    List.getElem?_append_right (Nat.le_refl _), Nat.sub_self] at hv
  cases rest with
  | nil => cases hv
  | cons first rest =>
    cases hv
    rw [← List.drop_drop, hbehind, List.drop_one, List.tail_cons, hrest]

theorem exists_numeral_of_readHeader {src : Bytes} {contentSize start : Nat}
    (h : readHeader src 0 = .ok contentSize start) :
    ∃ numeral, Leb128.Numeral numeral contentSize ∧
      src.toList = magic.toList ++ version :: (numeral ++ src.toList.drop start) := by
  rw [readHeader_apply] at h
  split at h
  · rename_i hmagic
    split at h
    · cases h
    · rename_i v hv
      split at h
      · rename_i hversion
        obtain ⟨numeral, hnumeral, hdrop⟩ := Leb128.exists_numeral_of_read h
        refine ⟨numeral, hnumeral, ?_⟩
        rw [← hdrop, ← hversion]
        exact toList_eq_of_version hmagic hv
      · cases h
  · cases h

/-- Blocks that do not end at once begin with one that is read in full, and go on behind it. -/
theorem exists_block_of_readBlocks {src : Bytes} {contentSize pos : Nat} {last : Nat × Bytes}
    {out : Output} {blocks : Array BlockHeader} (hpos : pos < src.size) (hne : src[pos] ≠ 0)
    (h : (readBlocks src contentSize pos out blocks).result = .ok last) :
    ∃ b start out', BlockHeader.read src (contentSize - out.bytes.size) pos = .ok b start ∧
      Block.unpack (src.extract start (start + b.payloadSize)) b.tokenCount
        (out.beginBlock b.rawSize) = .ok () out' ∧ out'.endBlock = .ok () ∧
      readBlocks src contentSize pos out blocks =
        readBlocks src contentSize (start + b.payloadSize) out' (blocks.push b) := by
  have hstep := @readBlocks_of_ne src contentSize pos out blocks hpos hne
  cases hread : BlockHeader.read src (contentSize - out.bytes.size) pos with
  | error e _ =>
    rw [hstep, hread] at h
    cases h
  | ok b start =>
    rw [hread] at hstep
    dsimp only at hstep
    cases hrun : Block.unpack (src.extract start (start + b.payloadSize)) b.tokenCount
      (out.beginBlock b.rawSize) with
    | error e _ =>
      rw [hstep, hrun] at h
      cases h
    | ok _ out' =>
      rw [hrun] at hstep
      dsimp only at hstep
      cases hend : out'.endBlock with
      | error e =>
        rw [hstep, hend] at h
        cases h
      | ok _ =>
        rw [hend] at hstep
        exact ⟨b, start, out', rfl, hrun, hend, hstep⟩

/-- A block that was read in full stands there, and its tokens write what it wrote. -/
theorem exists_blockText {src : Bytes} {room pos start : Nat} {b : BlockHeader} {out out' : Output}
    (hpos : pos < src.size) (hne : src[pos] ≠ 0)
    (hread : BlockHeader.read src room pos = .ok b start)
    (hrun : Block.unpack (src.extract start (start + b.payloadSize)) b.tokenCount
      (out.beginBlock b.rawSize) = .ok () out')
    (hend : out'.endBlock = .ok ()) :
    ∃ text : BlockText, text.header = b ∧
      src.toList.drop pos = text.bytes ++ src.toList.drop (start + b.payloadSize) ∧
      Token.Grounded out.bytes.size text.tokens ∧
      out'.bytes.toList = text.tokens.foldl Token.extend out.bytes.toList := by
  obtain ⟨rawSize, tokenCount, payloadSize, hraw, hcount, hpayload, hdrop⟩ :=
    exists_numerals_of_read hread
  obtain ⟨-, hfits⟩ := BlockHeader.read_pos hread
  obtain ⟨tokens, hholds, hlength, happly⟩ := Block.exists_payload_of_unpack hrun
  obtain ⟨hgrounded, -, hbytes, hblockEnd⟩ := Output.grounded_of_applyAll happly
  have hbegin : (out.beginBlock b.rawSize).bytes = out.bytes := rfl
  have hannounced : (out.beginBlock b.rawSize).blockEnd = out.bytes.size + b.rawSize := rfl
  rw [hbegin] at hgrounded hbytes
  have htotal : Token.totalSize tokens.toArray = b.rawSize := by
    have hsize := congrArg List.length hbytes
    rw [Token.length_foldl_extend, Array.length_toList, Array.length_toList] at hsize
    have hfull : out'.bytes.size = out'.blockEnd := by
      unfold Output.endBlock at hend
      split at hend
      · assumption
      · cases hend
    omega
  obtain ⟨first, rest, rfl⟩ := hraw.digits.exists_cons
  have hhead : (first :: rest).head? ≠ some endMark := by
    obtain ⟨_, hfirst, -⟩ := Bytes.drop_eq_cons hdrop
    intro hmark
    cases hmark
    exact hne hfirst
  have hsplit : src.toList.drop start = (src.extract start (start + b.payloadSize)).toList ++
      src.toList.drop (start + b.payloadSize) := by
    rw [Array.toList_extract, List.extract_eq_take_drop, Nat.add_sub_cancel_left, ← List.drop_drop,
      List.take_append_drop]
  refine ⟨⟨b, first :: rest, tokenCount, payloadSize, src.extract start (start + b.payloadSize),
    tokens, hraw, hcount, hpayload, ?_, hholds, hlength, htotal, hhead⟩, rfl, ?_, hgrounded, hbytes⟩
  · rw [Array.size_extract]
    omega
  · rw [hdrop, hsplit]
    simp only [BlockText.bytes, List.append_assoc]

/-- The blocks that were read stand there up to the end mark, each with its header, and their tokens write
the content. -/
theorem exists_headers_of_readBlocks {src content : Bytes} {contentSize pos next : Nat}
    {out : Output} {blocks : Array BlockHeader}
    (h : (readBlocks src contentSize pos out blocks).result = .ok (next, content)) :
    ∃ texts : List BlockText,
      (readBlocks src contentSize pos out blocks).blocks.toList =
        blocks.toList ++ texts.map BlockText.header ∧
      src.toList.drop pos = texts.flatMap BlockText.bytes ++ endMark :: src.toList.drop next ∧
      Token.Grounded out.bytes.size (texts.flatMap BlockText.tokens) ∧
      content.toList = (texts.flatMap BlockText.tokens).foldl Token.extend out.bytes.toList := by
  induction hn : src.size - pos using Nat.strongRecOn generalizing pos out blocks with
  | ind n ih =>
    by_cases hpos : pos < src.size
    · by_cases hmark : src[pos] = 0
      · rw [readBlocks, dif_pos hpos, if_pos hmark] at h ⊢
        cases h
        have hpos' : pos < src.toList.length := hpos
        have hdrop := List.drop_eq_getElem_cons hpos'
        rw [Array.getElem_toList, hmark] at hdrop
        exact ⟨[], (List.append_nil _).symm, hdrop, trivial, rfl⟩
      · obtain ⟨b, start, out', hread, hrun, hend, hrest⟩ :=
          exists_block_of_readBlocks hpos hmark h
        rw [hrest] at h ⊢
        obtain ⟨hstart, hfits⟩ := BlockHeader.read_pos hread
        obtain ⟨text, rfl, hdrop, hgrounded, hbytes⟩ :=
          exists_blockText hpos hmark hread hrun hend
        obtain ⟨texts, hheaders, hdrops, hgroundeds, hall⟩ := ih _ (by omega) h rfl
        have hsize : out'.bytes.size =
            out.bytes.size + Token.totalSize text.tokens.toArray := by
          rw [← Array.length_toList, hbytes, Token.length_foldl_extend, Array.length_toList]
        refine ⟨text :: texts, ?_, ?_, ?_, ?_⟩
        · rw [hheaders, Array.toList_push, List.append_assoc, List.map_cons, List.singleton_append]
        · rw [hdrop, hdrops, List.flatMap_cons, List.append_assoc]
        · rw [List.flatMap_cons]
          exact Token.grounded_append.2 ⟨hgrounded, hsize ▸ hgroundeds⟩
        · rw [hall, hbytes, List.flatMap_cons, List.foldl_append]
    · rw [readBlocks, dif_neg hpos] at h
      cases h

theorem exists_blockTexts_of_readBlocks {src content : Bytes} {contentSize pos next : Nat}
    {out : Output} {blocks : Array BlockHeader}
    (h : (readBlocks src contentSize pos out blocks).result = .ok (next, content)) :
    ∃ texts : List BlockText,
      src.toList.drop pos = texts.flatMap BlockText.bytes ++ endMark :: src.toList.drop next ∧
      Token.Grounded out.bytes.size (texts.flatMap BlockText.tokens) ∧
      content.toList = (texts.flatMap BlockText.tokens).foldl Token.extend out.bytes.toList := by
  obtain ⟨texts, -, htexts⟩ := exists_headers_of_readBlocks h
  exact ⟨texts, htexts⟩

end Frame

/-- An accepted frame is a text of the grammar: its numbers, its blocks and its last word say what is
there, and its tokens are replayed to its content. -/
theorem exists_text_of_decompress {src content : Bytes} {sum : Bytes → UInt32}
    (h : decompress src sum = .ok content) :
    ∃ text : Frame.Text, src.toList = text.bytes ∧ text.contentSize = content.size ∧
      text.sum = sum content ∧ replay text.tokens.toArray = .ok content := by
  obtain ⟨start, pos, hheader, hblocks, hlast, hsum⟩ := exists_of_decompress h
  obtain ⟨numeral, hnumeral, hsrc⟩ := Frame.exists_numeral_of_readHeader hheader
  obtain ⟨texts, hdrop, hgrounded, hcontent⟩ := Frame.exists_blockTexts_of_readBlocks hblocks
  refine ⟨⟨content.size, numeral, hnumeral, texts, sum content⟩, ?_, rfl, rfl,
    replay_of_grounded hgrounded hcontent⟩
  rw [hsrc, hdrop, Bytes.drop_eq_bytes_word32 hlast, hsum]
  rfl

/-- A frame of two blocks, the second one with a padded size. -/
theorem exists_text_of_decompress_two :
    let src : Bytes := #[79, 82, 90, 26, 1, 5, 3, 3, 4, 110, 173, 0, 0, 130, 0, 2, 4, 110, 173, 0, 0,
      0, 79, 152, 232, 187]
    decompress src = .ok #[97, 97, 97, 97, 97] ∧
      ∃ text : Frame.Text, src.toList = text.bytes ∧ text.contentSize = 5 ∧
        text.sum = checksum #[97, 97, 97, 97, 97] ∧
        replay text.tokens.toArray = .ok #[97, 97, 97, 97, 97] := by
  intro src
  have hsrc : decompress src = .ok #[97, 97, 97, 97, 97] := by decide +kernel
  exact ⟨hsrc, exists_text_of_decompress hsrc⟩

end LzCodec
