import LzCodec.Proofs.Grammar

/-!
# Empty blocks

A block that is written has content, and so its first number does not start like the end mark. A reader
looks at that one byte only. A zero that is padded starts otherwise, and it passes for the size of a block
(`empty_block_accepted`). Apart from padded zeros every block has content (`blocks_nonempty_iff`), and with
them there may be any number of blocks without (`exists_frame_of_empty_blocks`).
-/

namespace LzCodec

namespace Leb128

/-- A zero in more bytes than it needs. -/
def PaddedZero (bytes : List UInt8) : Prop := ∃ k, bytes = List.replicate (k + 1) 128 ++ [0]

theorem Digits.eq_zero_iff {bytes : List UInt8} {value : Nat} (h : Digits bytes value) :
    value = 0 ↔ bytes = [0] ∨ PaddedZero bytes := by
  constructor
  · intro hzero
    induction h with
    | last _ =>
      rw [UInt8.toNat_inj.1 (show _ = (0 : UInt8).toNat from hzero)]
      exact .inl rfl
    | @more byte rest value hbyte _ ih =>
      have hlt := byte.toNat_lt
      have hfirst : byte = 128 := UInt8.toNat_inj.1 (show byte.toNat = 128 by omega)
      rw [hfirst]
      obtain rfl | ⟨k, rfl⟩ := ih (by omega)
      · exact .inr ⟨0, rfl⟩
      · exact .inr ⟨k + 1, rfl⟩
  · rintro (rfl | ⟨k, rfl⟩)
    · cases h with
      | last _ => rfl
      | more _ hrest => cases hrest
    · induction k generalizing value with
      | zero =>
        cases h with
        | more _ hrest =>
          cases hrest with
          | last _ => rfl
          | more _ hrest => cases hrest
      | succ k ih =>
        cases h with
        | more _ hrest =>
          rw [ih hrest]
          rfl

end Leb128

namespace Frame

variable {src content : Bytes}

/-- A block is empty exactly if its size is a padded zero. -/
theorem BlockText.rawSize_eq_zero_iff (b : BlockText) :
    b.header.rawSize = 0 ↔ Leb128.PaddedZero b.rawSize := by
  rw [b.rawSize_numeral.digits.eq_zero_iff, or_iff_right_iff_imp]
  intro hmark
  exact absurd (congrArg List.head? hmark) b.head_ne

theorem blocks_decode {contentSize start : Nat} (h : readHeader src 0 = .ok contentSize start)
    (sum : Bytes → UInt32) : (decode src sum).blocks = (readBlocks src contentSize start .empty #[]).blocks := by
  rw [decode, h]
  dsimp only
  obtain ⟨blocks, result⟩ := readBlocks src contentSize start .empty #[]
  cases result with
  | error e => rfl
  | ok last =>
    obtain ⟨pos, content⟩ := last
    dsimp only
    cases checkEnd src contentSize pos content sum with
    | error e => rfl
    | ok _ => rfl

/-- The sizes of blocks add up to the size of what their tokens stand for. -/
theorem totalSize_blocks (texts : List BlockText) :
    Token.totalSize (texts.flatMap BlockText.tokens).toArray =
      (texts.map fun b => b.header.rawSize).sum := by
  induction texts with
  | nil => rfl
  | cons b rest ih =>
    rw [List.flatMap_cons, Token.totalSize_append, ih, b.totalSize_tokens, List.map_cons, List.sum_cons]

/-- An accepted frame is a text with the headers that were read, whose sizes add up to the content. -/
theorem exists_headers_of_decompress {sum : Bytes → UInt32} (h : decompress src sum = .ok content) :
    ∃ text : Text, src.toList = text.bytes ∧
      (decode src sum).blocks.toList = text.blocks.map BlockText.header ∧
      ((decode src sum).blocks.toList.map BlockHeader.rawSize).sum = content.size := by
  obtain ⟨start, pos, hheader, hblocks, hlast, hsum⟩ := exists_of_decompress h
  obtain ⟨numeral, hnumeral, hsrc⟩ := exists_numeral_of_readHeader hheader
  obtain ⟨texts, hheaders, hdrop, -, hcontent⟩ := exists_headers_of_readBlocks hblocks
  rw [blocks_decode hheader, hheaders]
  refine ⟨⟨content.size, numeral, hnumeral, texts, sum content⟩, ?_, rfl, ?_⟩
  · rw [hsrc, hdrop, Bytes.drop_eq_bytes_word32 hlast, hsum]
    rfl
  · have hsize := congrArg List.length hcontent
    rw [Token.length_foldl_extend, totalSize_blocks, Array.length_toList, Array.length_toList] at hsize
    rw [hsize, List.nil_append, List.map_map]
    exact (Nat.zero_add _).symm

end Frame

/-- Headers that do not announce an empty block are no more than the bytes that they announce. -/
theorem BlockHeader.length_le_sum (headers : List BlockHeader) :
    headers.length ≤ (headers.map rawSize).sum + headers.countP fun b => b.rawSize = 0 := by
  induction headers with
  | nil => exact Nat.zero_le _
  | cons b rest ih =>
    rw [List.length_cons, List.map_cons, List.sum_cons, List.countP_cons]
    by_cases hzero : b.rawSize = 0
    · rw [if_pos (decide_eq_true hzero)]
      omega
    · omega

/-- An accepted frame has a block without content exactly where the size of a block is a padded zero. The
blocks with content are no more than its bytes. -/
theorem blocks_nonempty_iff {src content : Bytes} {sum : Bytes → UInt32}
    (h : decompress src sum = .ok content) :
    ∃ text : Frame.Text, src.toList = text.bytes ∧
      (Frame.decode src sum).blocks.toList = text.blocks.map Frame.BlockText.header ∧
      ((∀ b ∈ (Frame.decode src sum).blocks, 1 ≤ b.rawSize) ↔
        ∀ b ∈ text.blocks, ¬ Leb128.PaddedZero b.rawSize) ∧
      (Frame.decode src sum).blocks.size ≤
        content.size + (Frame.decode src sum).blocks.toList.countP fun b => b.rawSize = 0 := by
  obtain ⟨text, hsrc, hheaders, hsum⟩ := Frame.exists_headers_of_decompress h
  refine ⟨text, hsrc, hheaders, ?_, ?_⟩
  · simp only [← Array.mem_toList_iff, hheaders, List.forall_mem_map, ← Frame.BlockText.rawSize_eq_zero_iff]
    exact forall₂_congr fun _ _ => Nat.one_le_iff_ne_zero
  · rw [← hsum, ← Array.length_toList]
    exact BlockHeader.length_le_sum _

/-- Two blocks, of which the first one is empty. -/
theorem blocks_nonempty_iff_two :
    let src : Bytes := #[79, 82, 90, 26, 1, 3, 128, 0, 0, 1, 0, 3, 3, 4, 110, 173, 0, 0, 0, 95, 85, 235, 49]
    decompress src = .ok #[97, 97, 97] ∧ (Frame.decode src).blocks = #[⟨0, 0, 1⟩, ⟨3, 3, 4⟩] ∧
      ∃ text : Frame.Text, src.toList = text.bytes ∧ ∃ b ∈ text.blocks, Leb128.PaddedZero b.rawSize := by
  intro src
  have hrun : decompress src = .ok #[97, 97, 97] ∧
      (Frame.decode src).blocks = #[⟨0, 0, 1⟩, ⟨3, 3, 4⟩] := by
    decide +kernel
  obtain ⟨hsrc, hblocks⟩ := hrun
  obtain ⟨text, htext, -, hiff, -⟩ := blocks_nonempty_iff hsrc
  have hnot : ¬ ∀ b ∈ (Frame.decode src).blocks, 1 ≤ b.rawSize := by
    rw [hblocks]
    decide
  rw [hiff] at hnot
  push Not at hnot
  exact ⟨hsrc, hblocks, text, htext, hnot⟩

/-- A frame of no content, and yet of one block. -/
theorem empty_block_accepted :
    let src : Bytes := #[79, 82, 90, 26, 1, 0, 128, 0, 0, 1, 0, 0, 5, 93, 204, 2]
    decompress src = .ok #[] ∧ (Frame.decode src).blocks = #[⟨0, 0, 1⟩] ∧
      ¬ (∀ b ∈ (Frame.decode src).blocks, 1 ≤ b.rawSize) ∧
      ¬ (Frame.decode src).blocks.size ≤ (#[] : Bytes).size := by
  intro src
  have hrun : decompress src = .ok #[] ∧ (Frame.decode src).blocks = #[⟨0, 0, 1⟩] := by decide +kernel
  obtain ⟨hsrc, hblocks⟩ := hrun
  rw [hblocks]
  exact ⟨hsrc, rfl, by decide, by decide⟩

/-! ## Any number of empty blocks -/

namespace Frame

/-- A block of no bytes. Its payload is one byte, for two tables without a codeword. -/
def emptyBlock : List UInt8 := [128, 0] ++ ([0] ++ ([1] ++ [0]))

theorem unpack_empty (out : Output) : Block.unpack #[0] 0 out = .ok () out := by
  have hpack : Block.pack (CodedBlock.ofTokens #[]) = #[0] := by decide +kernel
  rw [← hpack]
  exact Block.unpack_pack_eq_applyAll (by simp) out

variable {frame : Bytes} {contentSize start : Nat} {rest : List UInt8}

theorem read_emptyBlock {room : Nat} (h : frame.toList.drop start = emptyBlock ++ rest) :
    BlockHeader.read frame room start = .ok ⟨0, 0, 1⟩ (start + 4) := by
  have hzero : Leb128.Digits [0] 0 := @Leb128.Digits.last 0 (by decide)
  have hraw : Leb128.Numeral [128, 0] 0 :=
    ⟨@Leb128.Digits.more 128 [0] 0 (by decide) hzero, by decide, by decide⟩
  have hcount : Leb128.Numeral [0] 0 := ⟨hzero, by decide, by decide⟩
  have hpayload : Leb128.Numeral [1] 1 := ⟨@Leb128.Digits.last 1 (by decide), by decide, by decide⟩
  simp only [emptyBlock, List.append_assoc] at h
  have hdrop₁ := Bytes.drop_append h
  have hdrop₂ := Bytes.drop_append hdrop₁
  have hdrop₃ := Bytes.drop_append hdrop₂
  obtain ⟨hlast, -, -⟩ := Bytes.drop_eq_cons hdrop₃
  have hfits : ¬ frame.size - (start + 2 + 1 + 1) < 1 := by
    simp only [List.length_cons, List.length_nil] at hlast
    omega
  have hread₁ := Leb128.read_of_numeral hraw h
  have hread₂ := Leb128.read_of_numeral hcount hdrop₁
  have hread₃ := Leb128.read_of_numeral hpayload hdrop₂
  simp only [List.length_cons, List.length_nil, Nat.zero_add, Nat.reduceAdd] at hread₁ hread₂ hread₃
  simp only [BlockHeader.read, hread₁, Nat.not_lt_zero, if_false, hread₂, hread₃, if_neg hfits]

/-- An empty block is read, and leaves the content as it is. -/
theorem readBlocks_emptyBlock {out : Output} (blocks : Array BlockHeader)
    (h : frame.toList.drop start = emptyBlock ++ rest) :
    ∃ out', out'.bytes = out.bytes ∧ readBlocks frame contentSize start out blocks =
      readBlocks frame contentSize (start + emptyBlock.length) out' (blocks.push ⟨0, 0, 1⟩) := by
  obtain ⟨hstart, hfirst, -⟩ := Bytes.drop_eq_cons h
  have hne : frame[start] ≠ 0 := by
    rw [hfirst]
    decide
  have hextract : frame.extract (start + 4) (start + 4 + 1) = #[0] := by
    have hdrop : frame.toList.drop (start + 4) = 0 :: rest := @Bytes.drop_append _ _ [128, 0, 0, 1] _ h
    apply Array.toList_inj.1
    rw [Array.toList_extract, List.extract_eq_take_drop, Nat.add_sub_cancel_left, hdrop]
    rfl
  have hend : (out.beginBlock 0).endBlock = .ok () := if_pos rfl
  refine ⟨out.beginBlock 0, rfl, ?_⟩
  rw [readBlocks_of_ne blocks hstart hne, read_emptyBlock h]
  dsimp only
  rw [hextract, unpack_empty]
  dsimp only
  rw [hend]
  rfl

theorem readBlocks_emptyBlocks (n contentSize : Nat) (out : Output) (blocks : Array BlockHeader)
    (h : frame.toList.drop start = (List.replicate n emptyBlock).flatten ++ rest) :
    ∃ out', out'.bytes = out.bytes ∧ readBlocks frame contentSize start out blocks =
      readBlocks frame contentSize (start + n * emptyBlock.length) out'
        (blocks ++ Array.replicate n ⟨0, 0, 1⟩) := by
  induction n generalizing start out blocks with
  | zero => exact ⟨out, rfl, by simp⟩
  | succ n ih =>
    rw [List.replicate_succ, List.flatten_cons, List.append_assoc] at h
    obtain ⟨out₁, hout₁, hstep⟩ := readBlocks_emptyBlock blocks h
    obtain ⟨out', hout', hrest⟩ := ih out₁ (blocks.push ⟨0, 0, 1⟩) (Bytes.drop_append h)
    refine ⟨out', hout'.trans hout₁, ?_⟩
    rw [hstep, hrest, Nat.succ_mul, Nat.add_comm (n * _), Nat.add_assoc]
    congr 1
    apply Array.toList_inj.1
    simp [List.replicate_succ]

end Frame

/-- Whatever the content, there is a frame of it with any number of empty blocks. -/
theorem exists_frame_of_empty_blocks (content : Bytes) (hsize : content.size < UInt64.size) (n : Nat) :
    ∃ frame, decompress frame = .ok content ∧
      n ≤ (Frame.decode frame).blocks.toList.countP fun b => b.rawSize = 0 := by
  obtain ⟨tail, -, hread⟩ := Frame.readBlocks_putBlocks default (show 0 < blockTokens by decide)
    (Nat.le_refl _) hsize (Index.ofSource content) {} ⟨Frame.putHeader #[] content.size, #[]⟩ (Nat.zero_le _)
  -- The empty blocks stand in front of those that are written for the content.
  let header := Frame.putHeader #[] content.size
  let empty := (List.replicate n Frame.emptyBlock).flatten
  let sum := (Bytes.pushWord32 #[] (checksum content)).toList
  let frame : Bytes := (header.toList ++ (empty ++ (tail ++ 0 :: sum))).toArray
  have hheader : Frame.readHeader frame 0 = .ok content.size header.size :=
    Frame.readHeader_putHeader hsize rfl
  have hempty : frame.toList.drop header.size = empty ++ (tail ++ 0 :: sum) := by
    rw [← Array.length_toList, List.drop_left]
  have hlen : empty.length = n * Frame.emptyBlock.length := by
    rw [List.length_flatten, List.map_replicate, List.sum_replicate_nat]
  obtain ⟨out, hout, hskip⟩ := Frame.readBlocks_emptyBlocks n content.size .empty #[] hempty
  have hblocks := Bytes.drop_append hempty
  rw [hlen] at hblocks
  have hresult := hread frame _ _ out (#[] ++ Array.replicate n ⟨0, 0, 1⟩) hblocks
    (congrArg Array.toList hout)
  obtain ⟨_, _, hend⟩ := Bytes.drop_eq_cons (Bytes.drop_append hblocks)
  refine ⟨frame, ?_, ?_⟩
  · rw [decompress_eq, hheader]
    dsimp only
    rw [hskip, hresult]
    dsimp only
    rw [Frame.checkEnd_of_drop hend]
  · obtain ⟨texts, hheaders, -⟩ := Frame.exists_headers_of_readBlocks hresult
    rw [Frame.blocks_decode hheader, hskip, hheaders, List.countP_append]
    refine Nat.le_trans (Nat.le_of_eq ?_) (Nat.le_add_right _ _)
    simp [List.countP_replicate]

end LzCodec
