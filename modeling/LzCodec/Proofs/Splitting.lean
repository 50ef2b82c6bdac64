import LzCodec.Proofs.Grammar
import Mathlib.Data.List.SplitLengths

/-!
# Blocks do not change the parse

A block may end anywhere, since the next one goes on with the cursor and the index as they are. So what a
run of blocks finds is the parse of the whole source, cut by the limits of the blocks, and the blocks of a
frame are the parse cut every `blockTokens` tokens (`blocks_cut_parse`).
-/

namespace LzCodec

theorem flatten_splitLengths_prefix (limits : List Nat) (tokens : List Token) :
    (limits.splitLengths tokens).flatten <+: tokens := by
  induction limits generalizing tokens with
  | nil => exact List.nil_prefix
  | cons limit limits ih =>
    rw [List.splitLengths_cons, List.flatten_cons]
    have hrest := (List.prefix_append_right_inj (tokens.take limit)).2 (ih (tokens.drop limit))
    rwa [List.take_append_drop] at hrest

section

variable {σ : Type} [MatchSource σ] (effort : Effort) (src : Bytes)

/-- What was there before does not change what a block adds. -/
theorem parseBlock_append (limit pos : Nat) (before tokens : Array Token) (s : σ) :
    parseBlock effort src limit pos (before ++ tokens) s =
      (((parseBlock effort src limit pos tokens s).1.1,
        before ++ (parseBlock effort src limit pos tokens s).1.2),
        (parseBlock effort src limit pos tokens s).2) := by
  induction limit generalizing pos tokens s with
  | zero => rfl
  | succ limit ih =>
    unfold parseBlock
    split
    · rename_i hlt
      rcases choose effort pos s with ⟨d, s'⟩
      have hrest := ih (pos + d.advance) (tokens.push (d.token src[pos])) s'
      rw [← Array.push_append] at hrest
      exact hrest
    · rfl

theorem parseBlock_of_size_le {pos : Nat} (limit : Nat) (tokens : Array Token) (s : σ)
    (h : src.size ≤ pos) : parseBlock effort src limit pos tokens s = ((pos, tokens), s) := by
  cases limit with
  | zero => rfl
  | succ limit => rw [parseBlock, dif_neg (Nat.not_lt.2 h)]

/-- A block may be interrupted anywhere. -/
theorem parseBlock_add (m n pos : Nat) (tokens : Array Token) (s : σ) :
    parseBlock effort src (m + n) pos tokens s =
      match parseBlock effort src m pos tokens s with
      | ((next, tokens), s) => parseBlock effort src n next tokens s := by
  induction m generalizing pos tokens s with
  | zero => rw [Nat.zero_add, parseBlock]
  | succ m ih =>
    by_cases h : pos < src.size
    · rw [Nat.succ_add, parseBlock, dif_pos h, parseBlock, dif_pos h]
      exact ih _ _ _
    · have hend := Nat.le_of_not_lt h
      rw [parseBlock_of_size_le effort src _ _ _ hend, parseBlock_of_size_le effort src _ _ _ hend]
      dsimp only
      rw [parseBlock_of_size_le effort src _ _ _ hend]

/-- The tokens of the source from `pos` on. -/
def parseFrom (pos : Nat) (s : σ) : List Token :=
  (parseBlock effort src (src.size - pos) pos #[] s).1.2.toList

/-- One block after the other, of the given limits: behind each, the cursor and the tokens it added. -/
def parseBlocks (pos : Nat) (s : σ) : List Nat → List (Nat × List Token)
  | [] => []
  | limit :: limits =>
    match parseBlock effort src limit pos #[] s with
    | ((next, tokens), s) => (next, tokens.toList) :: parseBlocks next s limits

variable {effort src} {pos next limit : Nat} {s t : σ} {tokens : Array Token}

/-- More tokens than the source has do not matter. -/
theorem parseFrom_eq (found : Finds (fun pos m => m.Genuine src pos) s) (hpos : pos ≤ src.size)
    (h : src.size ≤ pos + limit) :
    (parseBlock effort src limit pos #[] s).1.2.toList = parseFrom effort src pos s := by
  obtain ⟨k, rfl⟩ : ∃ k, limit = src.size - pos + k := ⟨limit - (src.size - pos), by omega⟩
  have hend := parseBlock_end effort #[] found hpos (show src.size ≤ pos + (src.size - pos) by omega)
  rcases hparse : parseBlock effort src (src.size - pos) pos #[] s with ⟨⟨next, tokens⟩, t⟩
  rw [hparse] at hend
  rw [parseBlock_add, parseFrom, hparse]
  dsimp only
  rw [parseBlock_of_size_le effort src k tokens t (Nat.le_of_eq hend.symm)]

theorem parseFrom_of_size_le (s : σ) (h : src.size ≤ pos) : parseFrom effort src pos s = [] := by
  rw [parseFrom, Nat.sub_eq_zero_of_le h, parseBlock]

/-- A block takes its tokens from the front. -/
theorem parseFrom_eq_append (found : Finds (fun pos m => m.Genuine src pos) s) (hpos : pos ≤ src.size)
    (h : parseBlock effort src limit pos #[] s = ((next, tokens), t)) :
    parseFrom effort src pos s = tokens.toList ++ parseFrom effort src next t := by
  obtain ⟨new, next', t', hparse, -, -, hpath, hfinds⟩ :=
    path_parseBlock effort src limit pos #[] found
  obtain ⟨hfirst, rfl⟩ := Prod.mk.inj (h.symm.trans hparse)
  obtain ⟨rfl, rfl⟩ := Prod.mk.inj hfirst
  have hle := hpath.length_le
  have hnext := hpath.le_size hpos
  have hlonger : src.size ≤ pos + (limit + (src.size - pos)) := by omega
  rw [← parseFrom_eq found hpos hlonger, parseBlock_add, h]
  dsimp only
  have happend := parseBlock_append effort src (src.size - pos) next (#[] ++ new.toArray) #[] t
  rw [Array.append_empty] at happend
  rw [happend, Array.toList_append, parseFrom_eq hfinds hnext (by omega)]

/-- A run of blocks cuts the tokens by its limits. -/
theorem parseBlocks_eq_splitLengths (found : Finds (fun pos m => m.Genuine src pos) s)
    (hpos : pos ≤ src.size) (limits : List Nat) :
    (parseBlocks effort src pos s limits).map (·.2) =
      limits.splitLengths (parseFrom effort src pos s) := by
  induction limits generalizing pos s with
  | nil => rfl
  | cons limit limits ih =>
    obtain ⟨new, next, t, hparse, hfew, hfull, hpath, hfinds⟩ :=
      path_parseBlock effort src limit pos #[] found
    rw [Array.empty_append] at hparse
    have hnext := hpath.le_size hpos
    have hsplit := parseFrom_eq_append found hpos hparse
    -- a block that is not full has taken everything
    have hcut : (parseFrom effort src pos s).take limit = new ∧
        (parseFrom effort src pos s).drop limit = parseFrom effort src next t := by
      rw [hsplit]
      by_cases hlt : next < src.size
      · have hlen := hfull hlt
        exact ⟨List.take_left' hlen, List.drop_left' hlen⟩
      · have hnothing : parseFrom effort src next t = [] :=
          parseFrom_of_size_le t (Nat.le_of_not_lt hlt)
        rw [hnothing, List.append_nil]
        exact ⟨List.take_of_length_le hfew, List.drop_eq_nil_of_le hfew⟩
    rw [parseBlocks, hparse]
    dsimp only
    rw [List.map_cons, List.splitLengths_cons, hcut.1, hcut.2, ih hfinds hnext]

/-- Each block of a run is as long as its limit until the source ends. -/
theorem parseBlocks_full (pos : Nat) (s : σ) (limits : List Nat) :
    List.Forall₂ (fun limit b => b.2.length ≤ limit ∧ (b.1 < src.size → b.2.length = limit)) limits
      (parseBlocks effort src pos s limits) := by
  induction limits generalizing pos s with
  | nil => exact .nil
  | cons limit limits ih =>
    obtain ⟨new, next, t, hparse, hfew, hfull, -, -⟩ :=
      path_parseBlock effort src limit pos #[] (finds_true s)
    rw [Array.empty_append] at hparse
    rw [parseBlocks, hparse]
    exact .cons ⟨hfew, hfull⟩ (ih next t)

/-- Behind each block of a run, the cursor has moved past all tokens so far. -/
theorem parseBlocks_position {limits : List Nat} {earlier later : List (Nat × List Token)}
    {block : Nat × List Token}
    (h : parseBlocks effort src pos s limits = earlier ++ block :: later) :
    block.1 = pos + Token.totalSize (earlier.flatMap (·.2) ++ block.2).toArray := by
  induction limits generalizing pos s earlier with
  | nil => simp [parseBlocks] at h
  | cons limit limits ih =>
    obtain ⟨new, next, t, hparse, -, -, hpath, -⟩ :=
      path_parseBlock effort src limit pos #[] (finds_true s)
    have hsize := hpath.size_eq
    rw [Array.empty_append] at hparse
    rw [parseBlocks, hparse] at h
    cases earlier with
    | nil =>
      cases h
      exact hsize.symm
    | cons first earlier =>
      obtain ⟨rfl, hrest⟩ := List.cons.inj h
      have hbehind := ih hrest
      simp only [List.flatMap_cons, List.append_assoc, Token.totalSize_append] at hbehind ⊢
      omega

end

/-! ## Frames -/

/-- The blocks are the whole, cut every `n` tokens: only the last block may be shorter. -/
structure CutEvery (n : Nat) (whole : List Token) (blocks : List (List Token)) : Prop where
  flatten_eq : blocks.flatten = whole
  full : ∀ b ∈ blocks.dropLast, b.length = n
  bounds : ∀ b ∈ blocks, 1 ≤ b.length ∧ b.length ≤ n

theorem CutEvery.cons {n : Nat} {b rest : List Token} {blocks : List (List Token)}
    (h : CutEvery n rest blocks) (hpos : 1 ≤ b.length) (hle : b.length ≤ n)
    (hfull : rest ≠ [] → b.length = n) : CutEvery n (b ++ rest) (b :: blocks) where
  flatten_eq := by rw [List.flatten_cons, h.flatten_eq]
  full := by
    cases blocks with
    | nil => simp
    | cons first blocks =>
      have hmore : rest ≠ [] := by
        have hfirst := (h.bounds first List.mem_cons_self).1
        rintro rfl
        have hnone := h.flatten_eq
        rw [List.flatten_cons, List.append_eq_nil_iff] at hnone
        rw [hnone.1] at hfirst
        cases hfirst
      exact List.forall_mem_cons.2 ⟨hfull hmore, h.full⟩
  bounds := List.forall_mem_cons.2 ⟨⟨hpos, hle⟩, h.bounds⟩

namespace Block

/-- The tokens of a packed block are what its payload holds. -/
theorem payload_pack {tokens : Array Token} (ht : ∀ t ∈ tokens.toList, t.Encodable) :
    Payload (pack (CodedBlock.ofTokens tokens)) tokens.toList := by
  obtain ⟨litLen, dist, r, r', bits, pad, hlitLen, hdist, hreads, hpad, hrest⟩ := exists_reads_pack ht
  have hholds (ts : List Token) (start : BitReader)
      (hts : ∀ t ∈ ts, BitReader.Reads (readToken litLen dist) (bits t) t)
      (hstart : start.rest = ts.flatMap bits ++ List.replicate pad false) :
      Holds litLen dist start ts := by
    induction ts generalizing start with
    | nil => exact .padding (BitReader.finish_of_padding hpad hstart)
    | cons t ts ih =>
      obtain ⟨hfirst, hothers⟩ := List.forall_mem_cons.1 hts
      rw [List.flatMap_cons, List.append_assoc] at hstart
      obtain ⟨next, hrun, -, hnext⟩ := hfirst start _ hstart
      exact .token hrun (ih next hothers hnext)
  exact ⟨litLen, dist, _, r, r', rfl, rfl, hlitLen, hdist, hholds _ r' hreads hrest⟩

/-- The header of a block of these tokens. -/
def headerOf (tokens : List Token) : BlockHeader :=
  ⟨Token.totalSize tokens.toArray, tokens.length, (pack (CodedBlock.ofTokens tokens.toArray)).size⟩

/-- A block of these tokens as it stands in a frame. -/
def recordOf (tokens : List Token) : List UInt8 :=
  (headerOf tokens).record (pack (CodedBlock.ofTokens tokens.toArray))

end Block

namespace Frame

/-- The blocks of the source from `pos` on are the tokens from there on, cut by the limit, whatever the arrays
held before. -/
theorem exists_cut_putBlocks {src : Bytes} (effort : Effort) {limit : Nat} (hl : 0 < limit) {pos : Nat}
    (index : Index src (Geometry.ofSize src.size)) (scratch : Scratch) (encoded : Encoded)
    (hpos : pos ≤ src.size) :
    ∃ blocks, CutEvery limit (parseFrom effort src pos index) blocks ∧
      (∀ b ∈ blocks, ∀ t ∈ b, t.Encodable) ∧
      pos + (blocks.map fun b => Token.totalSize b.toArray).sum = src.size ∧
      (putBlocks src effort limit hl pos index scratch encoded).blocks.toList =
        encoded.blocks.toList ++ blocks.map Block.headerOf ∧
      (putBlocks src effort limit hl pos index scratch encoded).bytes.toList =
        encoded.bytes.toList ++ blocks.flatMap Block.recordOf := by
  induction hn : src.size - pos using Nat.strongRecOn generalizing pos index scratch encoded with
  | ind n ih =>
    by_cases hlt : pos < src.size
    · rcases hparse : parseBlock effort src limit pos #[] index with ⟨⟨next, tokens⟩, index'⟩
      obtain ⟨hspells, hprogress, hfew, hfull⟩ := Index.spells_of_parseBlock hl hlt hparse
      have hnext := hspells.le_size
      have htotal := hspells.size_eq hpos
      have hsplit := parseFrom_eq_append index.finds_genuine hpos hparse
      have hpositive : 1 ≤ tokens.toList.length := by
        apply Nat.pos_of_ne_zero
        intro hzero
        rw [List.length_eq_zero_iff.1 hzero] at htotal
        exact absurd htotal (Nat.ne_of_lt hprogress)
      have hheader : Block.headerOf tokens.toList = ⟨next - pos, tokens.size,
          (Block.pack (CodedBlock.ofTokens tokens)).size⟩ := by
        rw [Block.headerOf, ← htotal, Nat.add_sub_cancel_left, Array.length_toList]
      rw [putBlocks_of_lt hlt hparse, ← hheader]
      obtain ⟨blocks, hcut, hencodable, hsum, hheaders, hbytes⟩ := ih (src.size - next) (by omega) index'
        ⟨tokens, .ofTokens tokens⟩ ⟨BlockHeader.put encoded.bytes (Block.headerOf tokens.toList) ++
          Block.pack (CodedBlock.ofTokens tokens),
          encoded.blocks.push (Block.headerOf tokens.toList)⟩ hnext rfl
      refine ⟨tokens.toList :: blocks, ?_, ?_, ?_, ?_, ?_⟩
      · rw [hsplit]
        apply hcut.cons hpositive hfew
        intro hrest
        apply hfull
        by_contra hge
        exact hrest (parseFrom_of_size_le index' (Nat.le_of_not_lt hge))
      · exact List.forall_mem_cons.2 ⟨hspells.encodable, hencodable⟩
      · rw [List.map_cons, List.sum_cons]
        omega
      · rw [hheaders, Array.toList_push, List.map_cons, List.append_assoc, List.singleton_append]
      · rw [hbytes]
        dsimp only
        rw [BlockHeader.toList_put_append, List.flatMap_cons, List.append_assoc, Block.recordOf]
    · have hend := Nat.le_of_not_lt hlt
      rw [putBlocks_of_le hend]
      refine ⟨[], ?_, ?_, ?_, ?_, ?_⟩
      · rw [parseFrom_of_size_le index hend]
        exact ⟨rfl, by simp, by simp⟩
      · simp
      · exact Nat.le_antisymm hpos hend
      · simp
      · simp

end Frame

/-- Splitting a source into blocks does not change its tokens. Whatever the limits are, each block goes on
with the parse where the one before has stopped: it has as many tokens as its limit until the source ends,
and the cursor behind it has moved past all tokens so far. The blocks of a frame are parsed into one array
and counted in one coded block, and nothing is left in these of the block before. So a frame is its header,
the parse in blocks of `blockTokens` tokens, of which only the last may have less, and the end. The sizes of
the blocks make up the source, and no block has more tokens than bytes. -/
theorem blocks_cut_parse (src : Bytes) (effort : Effort) (sum : Bytes → UInt32) :
    (∀ limits : List Nat,
      let blocks := parseBlocks effort src 0 (Index.ofSource src) limits
      blocks.map (·.2) = limits.splitLengths (parse src effort).toList ∧
      blocks.flatMap (·.2) <+: (parse src effort).toList ∧
      List.Forall₂ (fun limit b => b.2.length ≤ limit ∧ (b.1 < src.size → b.2.length = limit)) limits
        blocks ∧
      ∀ earlier block later, blocks = earlier ++ block :: later →
        block.1 = Token.totalSize (earlier.flatMap (·.2) ++ block.2).toArray) ∧
    ∃ blocks, CutEvery blockTokens (parse src effort).toList blocks ∧
      (∀ b ∈ blocks, 1 ≤ b.length ∧ b.length ≤ Token.totalSize b.toArray ∧
        Block.Payload (Block.pack (CodedBlock.ofTokens b.toArray)) b) ∧
      (blocks.map fun b => Token.totalSize b.toArray).sum = src.size ∧
      (Frame.encode src effort sum).blocks.toList = blocks.map Block.headerOf ∧
      (compress src effort sum).toList = (Frame.putHeader #[] src.size).toList ++
        (blocks.flatMap Block.recordOf ++
          Frame.endMark :: (Bytes.pushWord32 #[] (sum src)).toList) := by
  have found := (Index.ofSource src).finds_genuine
  refine ⟨?_, ?_⟩
  · intro limits blocks
    have hcut : blocks.map (·.2) = limits.splitLengths (parse src effort).toList :=
      parseBlocks_eq_splitLengths found (Nat.zero_le _) limits
    refine ⟨hcut, ?_, parseBlocks_full 0 _ limits, ?_⟩
    · have hprefix := flatten_splitLengths_prefix limits (parse src effort).toList
      rw [List.flatMap_def]
      exact hcut ▸ hprefix
    · intro earlier block later h
      have hposition := parseBlocks_position h
      rwa [Nat.zero_add] at hposition
  · obtain ⟨blocks, hcut, hencodable, hsum, hheaders, hbytes⟩ := Frame.exists_cut_putBlocks effort
      (show 0 < blockTokens by decide) (Index.ofSource src) {} ⟨Frame.putHeader #[] src.size, #[]⟩
      (Nat.zero_le _)
    refine ⟨blocks, hcut, ?_, ?_, ?_, ?_⟩
    · intro b hb
      have hb' := hencodable b hb
      exact ⟨(hcut.bounds b hb).1, Frame.length_le_totalSize hb', Block.payload_pack hb'⟩
    · rwa [Nat.zero_add] at hsum
    · exact hheaders
    · rw [toList_compress, hbytes, List.append_assoc]

/-- Blocks that end before a copy, that may have nothing, and that the source does not fill. -/
theorem blocks_cut_parse_copy :
    let src : Bytes := #[65, 66, 65, 66, 65, 66, 65, 66]
    let blocks := parseBlocks ⟨4, 2, 1⟩ src 0 (Index.ofSource src) [1, 0, 2, 5]
    blocks = [(1, [.literal 65]), (1, []), (8, [.literal 66, .copy 6 2]), (8, [])] ∧
      blocks.map (·.2) = [1, 0, 2, 5].splitLengths (parse src ⟨4, 2, 1⟩).toList ∧
      blocks.flatMap (·.2) <+: (parse src ⟨4, 2, 1⟩).toList ∧
      8 = Token.totalSize #[.literal 65, .literal 66, .copy 6 2] := by
  intro src blocks
  have hblocks : blocks =
      [(1, [.literal 65]), (1, []), (8, [.literal 66, .copy 6 2]), (8, [])] := by decide +kernel
  obtain ⟨hcut, hprefix, -, hposition⟩ := (blocks_cut_parse src ⟨4, 2, 1⟩ checksum).1 [1, 0, 2, 5]
  exact ⟨hblocks, hcut, hprefix,
    hposition [(1, [.literal 65]), (1, [])] (8, [.literal 66, .copy 6 2]) [(8, [])] hblocks⟩

end LzCodec
