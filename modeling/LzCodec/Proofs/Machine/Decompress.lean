import Mathlib.Tactic.Ring
import LzCodec.Proofs.Frames
import LzCodec.Proofs.Machine.Unpack

/-!
# Reading a frame on machine words

Whatever the bytes of a frame are, reading it on words ends, has no faults, and does what reading a
frame does (`decompress_eq_ofExcept`).
-/

namespace LzCodec

/-! ## The end of a block -/

theorem Block.blockEnd_of_unpackTokens {litLen dist : Huffman.Decoder} {count : Nat} {r : BitReader}
    {out out' : Output} (h : Block.unpackTokens litLen dist count r out = .ok () out') :
    out'.blockEnd = out.blockEnd := by
  induction count generalizing r out with
  | zero =>
    unfold Block.unpackTokens at h
    cases hend : r.finish with
    | error cause =>
      rw [hend] at h
      cases h
    | ok _ =>
      rw [hend] at h
      cases h
      rfl
  | succ count ih =>
    unfold Block.unpackTokens at h
    cases hread : Block.readToken litLen dist r with
    | error cause r' =>
      rw [hread] at h
      cases h
    | ok token r' =>
      rw [hread] at h
      simp only [Bind.bind, EStateM.bind] at h
      cases happly : Output.apply token out with
      | error cause out₁ =>
        rw [happly] at h
        cases h
      | ok _ out₁ =>
        rw [happly] at h
        exact (ih h).trans (Output.extend_of_apply happly).2

/-- Unpacking leaves the announced end of the block as it is. -/
theorem Block.blockEnd_of_unpack {payload : Bytes} {count : Nat} {out out' : Output}
    (h : Block.unpack payload count out = .ok () out') : out'.blockEnd = out.blockEnd := by
  unfold Block.unpack at h
  cases hlit : Huffman.Decoder.read litLenSymbols { data := payload } with
  | error cause r =>
    rw [hlit] at h
    cases h
  | ok litLen r =>
    rw [hlit] at h
    cases hdist : Huffman.Decoder.read distSymbols r with
    | error cause r' =>
      simp only [hdist] at h
      cases h
    | ok dist r' =>
      simp only [hdist] at h
      exact Block.blockEnd_of_unpackTokens h

namespace Machine

/-! ## Programs -/

/-- Reads on in a number with `left` more bytes allowed; the next one is byte `i`. -/
def readNumber (src : Bytes) (value i pos : Nat) : Nat → Machine (Nat × Nat)
  | 0 => corrupt .varintOverflow
  | left + 1 =>
    match src[pos]? with
    | none => corrupt .truncated
    | some byte => do
      let pos ← add 64 pos 1
      let bits := byte.toNat &&& 127
      if i = Leb128.maxBytes - 1 ∧ 1 < bits then
        corrupt .varintOverflow
      else
        let value := value ||| (← shiftLeft 64 bits (← mul 64 7 i))
        if byte.toNat &&& 128 = 0 then
          return (value, pos)
        else
          readNumber src value (i + 1) pos left

/-- Reads the number at `pos`. The result is the number and the position behind it. -/
def readLeb128 (src : Bytes) (pos : Nat) : Machine (Nat × Nat) :=
  readNumber src 0 0 pos Leb128.maxBytes

def readHeader (src : Bytes) : Machine (Nat × Nat) := do
  if src.size < Frame.magic.size then
    corrupt (if src.isPrefixOf Frame.magic then .truncated else .badMagic)
  else if (← slice src 0 Frame.magic.size) ≠ Frame.magic then
    corrupt .badMagic
  else
    match src[Frame.magic.size]? with
    | none => corrupt .truncated
    | some v =>
      if v ≠ Frame.version then
        corrupt (.unsupportedVersion v)
      else
        readLeb128 src (← add 64 Frame.magic.size 1)

/-- Reads the header of a block where `size` bytes of `contentSize` have been written. -/
def readBlockHeader (src : Bytes) (contentSize size pos : Nat) : Machine (BlockHeader × Nat) := do
  let (rawSize, pos) ← readLeb128 src pos
  if (← sub contentSize size) < rawSize then
    corrupt .contentSizeMismatch
  else
    let (tokenCount, pos) ← readLeb128 src pos
    if rawSize < tokenCount then
      corrupt .blockSizeMismatch
    else
      let (payloadSize, pos) ← readLeb128 src pos
      if (← sub src.size pos) < payloadSize then
        corrupt .truncated
      else
        return (⟨rawSize, tokenCount, payloadSize⟩, pos)

/-- Reads the blocks from `pos` on up to the end mark. -/
def Buffer.readBlocks (src : Bytes) (contentSize pos : Nat) (b : Buffer) : Machine (Nat × Buffer) :=
  match src[pos]? with
  | none => corrupt .truncated
  | some byte => do
    if byte = 0 then
      return (← add 64 pos 1, b)
    else
      let (header, pos) ← readBlockHeader src contentSize b.bytes.size pos
      let stop ← add 64 pos header.payloadSize
      let payload ← slice src pos stop
      let b ← unpack payload header.tokenCount (← b.beginBlock header.rawSize)
      let b ← b.endBlock
      b |>.readBlocks src contentSize stop
partial_fixpoint

def readWord32 (data : Bytes) (pos : Nat) : Machine UInt32 := do
  let b₀ ← load data pos
  let b₁ ← load data (← add 64 pos 1)
  let b₂ ← load data (← add 64 pos 2)
  let b₃ ← load data (← add 64 pos 3)
  return b₀.toUInt32 ||| b₁.toUInt32 <<< 8 ||| b₂.toUInt32 <<< 16 ||| b₃.toUInt32 <<< 24

/-- Checks what follows the end mark at `pos`. -/
def checkEnd (src : Bytes) (contentSize pos : Nat) (content : Bytes)
    (sum : Bytes → UInt32 := checksum) : Machine Unit := do
  if content.size ≠ contentSize then
    corrupt .contentSizeMismatch
  else if (← sub src.size pos) < 4 then
    corrupt .truncated
  else
    let stored ← readWord32 src pos
    let pos ← add 64 pos 4
    if pos ≠ src.size then
      corrupt .trailingData
    else if sum content ≠ stored then
      corrupt .checksumMismatch

/-- No more is set aside for a content than this, however large it is said to be. -/
def contentReserve : Nat := 67108864

/-- The content of a frame. -/
def decompress (src : Bytes) (sum : Bytes → UInt32 := checksum) : Machine Bytes := do
  let (contentSize, pos) ← readHeader src
  let b ← Buffer.withCapacity (min contentSize contentReserve)
  let (pos, b) ← b.readBlocks src contentSize pos
  checkEnd src contentSize pos b.bytes sum
  return b.bytes

/-! ## Numbers -/

/-- Seven bits at place `7 * i` fit into a word, if the last group has one bit only. -/
theorem group_lt {value bits i : Nat} (hvalue : value < 2 ^ (7 * i)) (hbits : bits < 128) (hi : i < 10)
    (hlast : i = 9 → bits ≤ 1) :
    value + bits * 2 ^ (7 * i) < 2 ^ 64 ∧ value + bits * 2 ^ (7 * i) < 2 ^ (7 * (i + 1)) := by
  have hnext : value + bits * 2 ^ (7 * i) < 2 ^ (7 * (i + 1)) := by
    have hle : bits * 2 ^ (7 * i) ≤ 127 * 2 ^ (7 * i) := Nat.mul_le_mul_right _ (by omega)
    have hexp : 2 ^ (7 * (i + 1)) = 128 * 2 ^ (7 * i) := by
      rw [Nat.mul_add, Nat.pow_add, Nat.mul_comm]
    omega
  refine ⟨?_, hnext⟩
  by_cases hi' : i = 9
  · subst hi'
    have hle := Nat.mul_le_mul_right (2 ^ (7 * 9)) (hlast rfl)
    omega
  · exact Nat.lt_of_lt_of_le hnext (Nat.pow_le_pow_right (by decide) (by omega))

theorem and_128_eq_zero {n : Nat} (h : n < 2 ^ 8) : n &&& 128 = 0 ↔ n < 128 := by
  have hall : ∀ n < 256, n &&& 128 = 0 ↔ n < 128 := by decide +kernel
  exact hall n h

theorem readNumber_spec {src : Bytes} (small : src.size < 2 ^ maxSizeLog) {value i left pos : Nat}
    (hi : i + left = Leb128.maxBytes) (hvalue : value < 2 ^ (7 * i)) :
    match Leb128.readFrom src left value (2 ^ (7 * i)) pos with
    | .ok v next => readNumber src value i pos left = pure (v, next) ∧ v < UInt64.size
    | .error cause _ => readNumber src value i pos left = corrupt cause := by
  induction left generalizing value i pos with
  | zero => rfl
  | succ left ih =>
    unfold Leb128.readFrom readNumber
    by_cases hpos : pos < src.size
    · rw [dif_pos hpos, Array.getElem?_eq_getElem hpos]
      generalize src[pos] = byte
      have hbyte : byte.toNat < 2 ^ 8 := byte.toNat_lt
      have hmax : Leb128.maxBytes = 10 := rfl
      simp only [maxSizeLog] at small
      have hand : byte.toNat &&& 127 = byte.toNat % 128 := Nat.and_two_pow_sub_one_eq_mod _ 7
      have hlast : i = Leb128.maxBytes - 1 ∧ 1 < byte.toNat % 128 ↔
          left = 0 ∧ 1 < byte.toNat % 128 := by omega
      have hflag := and_128_eq_zero hbyte
      dsimp only
      rw [add_of_lt (by omega), pure_bind, hand]
      by_cases hover : left = 0 ∧ 1 < byte.toNat % 128
      · rw [if_pos hover, if_pos (hlast.2 hover)]
      · obtain ⟨hword, hnext⟩ := group_lt hvalue (show byte.toNat % 128 < 128 by omega)
          (show i < 10 by omega) (by omega)
        have hor : value ||| byte.toNat % 128 * 2 ^ (7 * i) =
            value + byte.toNat % 128 * 2 ^ (7 * i) := by
          rw [Nat.or_comm, Nat.add_comm, Nat.mul_comm, Nat.two_pow_add_eq_or_of_lt hvalue]
        have hfit : byte.toNat % 128 * 2 ^ (7 * i) % 2 ^ 64 = byte.toNat % 128 * 2 ^ (7 * i) :=
          Nat.mod_eq_of_lt (by omega)
        rw [if_neg hover, if_neg (fun h => hover (hlast.1 h)), mul_of_lt (by omega), pure_bind,
          shiftLeft_of_lt (by omega), pure_bind, hfit, hor]
        by_cases hend : byte.toNat < 128
        · rw [if_pos hend, if_pos (hflag.2 hend)]
          exact ⟨rfl, hword⟩
        · have hweight : 2 ^ (7 * i) * 128 = 2 ^ (7 * (i + 1)) := by
            rw [Nat.mul_add, Nat.pow_add]
          rw [if_neg hend, if_neg (fun h => hend (hflag.1 h)), hweight]
          exact ih (by omega) hnext
    · rw [dif_neg hpos, Array.getElem?_eq_none (Nat.le_of_not_lt hpos)]

/-- Reading a number ends, and the number fits into a word. -/
theorem readLeb128_spec {src : Bytes} (small : src.size < 2 ^ maxSizeLog) (pos : Nat) :
    match Leb128.read src pos with
    | .ok v next => readLeb128 src pos = pure (v, next) ∧ v < UInt64.size
    | .error cause _ => readLeb128 src pos = corrupt cause :=
  readNumber_spec small (Nat.zero_add _) Nat.one_pos

/-! ## Headers -/

/-- A source of full length that does not start with the magic bytes is no part of them. -/
theorem isPrefixOf_magic_eq_false {src : Bytes} (hsize : ¬ src.size < Frame.magic.size)
    (h : src.take Frame.magic.size ≠ Frame.magic) : src.isPrefixOf Frame.magic = false := by
  by_contra hstart
  rw [Bool.not_eq_false, ← Array.isPrefixOf_toList, List.isPrefixOf_iff_prefix] at hstart
  have hlen : src.toList.length = Frame.magic.toList.length :=
    Nat.le_antisymm hstart.length_le (Nat.le_of_not_lt hsize)
  have heq := Array.toList_inj.1 (hstart.eq_of_length hlen)
  subst heq
  exact h (by rw [Array.take_eq_extract, Array.extract_size])

theorem readHeader_spec {src : Bytes} (small : src.size < 2 ^ maxSizeLog) :
    match Frame.readHeader src 0 with
    | .ok contentSize pos => readHeader src = pure (contentSize, pos) ∧ contentSize < UInt64.size
    | .error cause _ => readHeader src = corrupt cause := by
  unfold Frame.readHeader readHeader
  by_cases hmagic : src.take Frame.magic.size = Frame.magic
  · have hsize : Frame.magic.size ≤ src.size := by
      have hlen := congrArg Array.size hmagic
      rw [Array.take_eq_extract, Array.size_extract] at hlen
      omega
    rw [if_neg (not_not_intro hmagic), if_neg (Nat.not_lt_of_le hsize),
      slice_of_le (Nat.zero_le _) hsize, pure_bind, ← Array.take_eq_extract,
      if_neg (not_not_intro hmagic)]
    cases hv : src[Frame.magic.size]? with
    | none => rfl
    | some v =>
      dsimp only
      by_cases hversion : v = Frame.version
      · have hnumber := readLeb128_spec small (Frame.magic.size + 1)
        rw [if_neg (not_not_intro hversion), if_neg (not_not_intro hversion),
          add_of_lt (by decide), pure_bind]
        exact hnumber
      · rw [if_pos hversion, if_pos hversion]
        rfl
  · rw [if_pos hmagic]
    by_cases hsize : src.size < Frame.magic.size
    · rw [if_pos hsize]
      rfl
    · have hstart := isPrefixOf_magic_eq_false hsize hmagic
      rw [if_neg hsize, slice_of_le (Nat.zero_le _) (Nat.le_of_not_lt hsize), pure_bind,
        ← Array.take_eq_extract, if_pos hmagic, hstart]
      rfl

/-- No size in the header of a block passes the bytes that are there. -/
theorem readBlockHeader_spec {src : Bytes} (small : src.size < 2 ^ maxSizeLog) {contentSize size : Nat}
    (hsize : size ≤ contentSize) (pos : Nat) :
    match BlockHeader.read src (contentSize - size) pos with
    | .ok header start => readBlockHeader src contentSize size pos = pure (header, start) ∧
        header.rawSize ≤ contentSize - size
    | .error cause _ => readBlockHeader src contentSize size pos = corrupt cause := by
  have hraw := readLeb128_spec small pos
  unfold BlockHeader.read readBlockHeader
  cases h₁ : Leb128.read src pos with
  | error cause pos₁ =>
    rw [h₁] at hraw
    rw [hraw]
    rfl
  | ok rawSize pos₁ =>
    rw [h₁] at hraw
    rw [hraw.1, pure_bind]
    dsimp only
    rw [sub_of_le hsize, pure_bind]
    by_cases hroom : contentSize - size < rawSize
    · rw [if_pos hroom, if_pos hroom]
    · have hcount := readLeb128_spec small pos₁
      rw [if_neg hroom, if_neg hroom]
      cases h₂ : Leb128.read src pos₁ with
      | error cause pos₂ =>
        rw [h₂] at hcount
        rw [hcount]
        rfl
      | ok tokenCount pos₂ =>
        rw [h₂] at hcount
        rw [hcount.1, pure_bind]
        dsimp only
        by_cases hmany : rawSize < tokenCount
        · rw [if_pos hmany, if_pos hmany]
        · have hpayload := readLeb128_spec small pos₂
          rw [if_neg hmany, if_neg hmany]
          cases h₃ : Leb128.read src pos₂ with
          | error cause pos₃ =>
            rw [h₃] at hpayload
            rw [hpayload]
            rfl
          | ok payloadSize pos₃ =>
            rw [h₃] at hpayload
            rw [hpayload.1, pure_bind]
            dsimp only
            rw [sub_of_le (Leb128.read_pos h₃).2, pure_bind]
            by_cases hlong : src.size - pos₃ < payloadSize
            · rw [if_pos hlong, if_pos hlong]
            · rw [if_neg hlong, if_neg hlong]
              exact ⟨rfl, Nat.le_of_not_lt hroom⟩

/-! ## Blocks -/

/-- Reading the blocks ends. Between two blocks the output is no longer than the content, so the rest
of the content is never negative. -/
theorem readBlocks_spec {src : Bytes} (small : src.size < 2 ^ maxSizeLog) {contentSize : Nat}
    (hcontent : contentSize < UInt64.size) (pos : Nat) {b : Buffer} {out : Output}
    (blocks : Array BlockHeader) (hb : b.Holds out) (hout : out.bytes.size ≤ contentSize) :
    match (Frame.readBlocks src contentSize pos out blocks).result with
    | .ok (next, content) => ∃ b', b.readBlocks src contentSize pos = pure (next, b') ∧
        b'.bytes = content ∧ next ≤ src.size
    | .error cause => b.readBlocks src contentSize pos = corrupt cause := by
  induction hn : src.size - pos using Nat.strongRecOn generalizing pos b out blocks with
  | ind n ih =>
    have hword : UInt64.size = 2 ^ 64 := rfl
    simp only [maxSizeLog] at small
    rw [Buffer.readBlocks]
    by_cases hpos : pos < src.size
    · rw [Array.getElem?_eq_getElem hpos]
      dsimp only
      by_cases hmark : src[pos] = 0
      · rw [Frame.readBlocks, dif_pos hpos, if_pos hmark, if_pos hmark, add_of_lt (by omega), pure_bind]
        exact ⟨b, rfl, hb.bytes, hpos⟩
      · have hheader := readBlockHeader_spec small hout pos
        rw [Frame.readBlocks_of_ne blocks hpos hmark, if_neg hmark, hb.bytes]
        cases hread : BlockHeader.read src (contentSize - out.bytes.size) pos with
        | error cause pos' =>
          rw [hread] at hheader
          rw [hheader]
          rfl
        | ok header start =>
          have hstart := BlockHeader.read_pos hread
          rw [hread] at hheader
          obtain ⟨hheader, hraw⟩ := hheader
          have hroom : out.bytes.size + header.rawSize < 2 ^ 64 := by omega
          obtain ⟨b₁, hbegin, hb₁⟩ := hb.beginBlock hroom
          have hpart : 8 * (src.extract start (start + header.payloadSize)).size < 2 ^ 64 := by
            rw [Array.size_extract]
            omega
          have hunpack := unpack_spec hpart header.tokenCount hb₁
          rw [hheader, pure_bind]
          dsimp only
          rw [add_of_lt (by omega), pure_bind, slice_of_le (by omega) hstart.2, pure_bind, hbegin,
            pure_bind]
          cases hrun : Block.unpack (src.extract start (start + header.payloadSize)) header.tokenCount
            (out.beginBlock header.rawSize) with
          | error cause out₂ =>
            rw [hrun] at hunpack
            rw [hunpack]
            rfl
          | ok _ out₂ =>
            rw [hrun] at hunpack
            obtain ⟨b₂, hrun₂, hb₂⟩ := hunpack
            have hend₂ : out₂.blockEnd = out.bytes.size + header.rawSize :=
              Block.blockEnd_of_unpack hrun
            have hle := out₂.size_le
            rw [hrun₂, pure_bind, hb₂.endBlock]
            dsimp only
            cases hend : out₂.endBlock with
            | error cause => rfl
            | ok _ =>
              dsimp only
              rw [pure_bind]
              exact ih _ (by omega) _ (blocks.push header) hb₂ (by omega) rfl
    · rw [Frame.readBlocks, dif_neg hpos, Array.getElem?_eq_none (Nat.le_of_not_lt hpos)]

/-! ## The end of a frame -/

theorem readWord32_eq {data : Bytes} {pos : Nat} (h : pos + 4 ≤ data.size)
    (small : data.size < 2 ^ maxSizeLog) : readWord32 data pos = pure (data.word32 pos h) := by
  simp only [maxSizeLog] at small
  rw [readWord32, load_of_lt (by omega), pure_bind, add_of_lt (by omega), pure_bind,
    load_of_lt (by omega), pure_bind, add_of_lt (by omega), pure_bind, load_of_lt (by omega), pure_bind,
    add_of_lt (by omega), pure_bind, load_of_lt (by omega), pure_bind, Bytes.word32]

theorem checkEnd_eq {src : Bytes} (small : src.size < 2 ^ maxSizeLog) {pos : Nat} (hpos : pos ≤ src.size)
    (contentSize : Nat) (content : Bytes) (sum : Bytes → UInt32) :
    checkEnd src contentSize pos content sum =
      ofExcept (Frame.checkEnd src contentSize pos content sum) := by
  unfold checkEnd Frame.checkEnd
  by_cases hcontent : content.size = contentSize
  · rw [if_neg (not_not_intro hcontent), if_neg (not_not_intro hcontent), sub_of_le hpos, pure_bind]
    by_cases hfour : pos + 4 ≤ src.size
    · have hword := readWord32_eq hfour small
      simp only [maxSizeLog] at small
      rw [dif_pos hfour, if_neg (by omega), hword, pure_bind, add_of_lt (by omega), pure_bind]
      by_cases hend : src.size = pos + 4
      · rw [if_neg (not_not_intro hend.symm), if_neg (not_not_intro hend)]
        by_cases hsum : sum content = src.word32 pos hfour
        · rw [if_neg (not_not_intro hsum), if_neg (not_not_intro hsum)]
          rfl
        · rw [if_pos hsum, if_pos hsum]
          rfl
      · rw [if_pos (fun h => hend h.symm), if_pos hend]
        rfl
    · rw [dif_neg hfour, if_pos (by omega)]
      rfl
  · rw [if_pos hcontent, if_pos hcontent]
    rfl

/-- Whatever the bytes and the checksum are, reading them as a frame ends with a content or a corruption.
Nothing overflows, nothing lies outside an array and no symbol lies outside its alphabet. -/
theorem decompress_eq_ofExcept (src : Bytes) (sum : Bytes → UInt32)
    (small : src.size < 2 ^ maxSizeLog) :
    decompress src sum = ofExcept (LzCodec.decompress src sum) := by
  have hheader := readHeader_spec small
  unfold decompress LzCodec.decompress Frame.decode
  cases hread : Frame.readHeader src 0 with
  | error cause pos =>
    rw [hread] at hheader
    rw [hheader]
    rfl
  | ok contentSize pos =>
    rw [hread] at hheader
    have hempty : Buffer.Holds ⟨#[], 0⟩ Output.empty := ⟨rfl, rfl, by decide⟩
    have hcapacity : Buffer.withCapacity (min contentSize contentReserve) = pure ⟨#[], 0⟩ :=
      Buffer.withCapacity_of_lt (Nat.lt_of_le_of_lt (Nat.min_le_right _ _) (by decide))
    have hblocks := readBlocks_spec small hheader.2 pos #[] hempty (Nat.zero_le contentSize)
    rw [hheader.1, pure_bind]
    dsimp only
    rw [hcapacity, pure_bind]
    cases hall : Frame.readBlocks src contentSize pos Output.empty #[] with
    | mk blocks result =>
      rw [hall] at hblocks
      cases result with
      | error cause =>
        dsimp only at hblocks
        rw [hblocks]
        rfl
      | ok value =>
        cases value with
        | mk next content =>
          obtain ⟨b, hrun, hbytes, hnext⟩ := hblocks
          rw [hrun, pure_bind]
          dsimp only
          rw [hbytes, checkEnd_eq small hnext]
          cases Frame.checkEnd src contentSize next content sum with
          | error cause => rfl
          | ok _ => rfl

/-- A frame whose only token copies from before the start of the content. -/
theorem decompress_distanceTooFar :
    (#[0x4f, 0x52, 0x5a, 0x1a, 1, 4, 4, 1, 5, 122, 170, 144, 80, 0] : Bytes).size < 2 ^ maxSizeLog ∧
      decompress #[0x4f, 0x52, 0x5a, 0x1a, 1, 4, 4, 1, 5, 122, 170, 144, 80, 0] =
        corrupt (.distanceTooFar 1 0) := by
  have hresult : LzCodec.decompress #[0x4f, 0x52, 0x5a, 0x1a, 1, 4, 4, 1, 5, 122, 170, 144, 80, 0] =
      .error (.distanceTooFar 1 0) := by
    decide +kernel
  have hrun := decompress_eq_ofExcept
    #[0x4f, 0x52, 0x5a, 0x1a, 1, 4, 4, 1, 5, 122, 170, 144, 80, 0] checksum (by decide)
  rw [hresult] at hrun
  exact ⟨by decide, hrun⟩

end Machine

end LzCodec
