import LzCodec.Frame.Decode
import LzCodec.Frame.Encode
import LzCodec.Proofs.Numbers
import LzCodec.Proofs.Parsing

/-!
# Frames lose nothing

Block by block, a frame is read back to the source that it was made of (`decompress_compress`).
-/

namespace LzCodec

namespace BlockHeader

/-- The bytes of a block: its header and its payload. -/
def record (b : BlockHeader) (payload : Bytes) : List UInt8 :=
  Leb128.encoding b.rawSize ++ (Leb128.encoding b.tokenCount ++
    (Leb128.encoding b.payloadSize ++ payload.toList))

theorem toList_put_append (b : BlockHeader) (dst payload : Bytes) :
    (b.put dst ++ payload).toList = dst.toList ++ b.record payload := by
  rw [put, record, Array.toList_append]
  simp only [Leb128.toList_write, List.append_assoc]

/-- The header of a block as it may stand in a frame. -/
structure Valid (b : BlockHeader) (room : Nat) (payload : Bytes) : Prop where
  rawSize_pos : 0 < b.rawSize
  rawSize_le : b.rawSize ≤ room
  tokenCount_le : b.tokenCount ≤ b.rawSize
  payloadSize_eq : b.payloadSize = payload.size
  room_lt : room < UInt64.size
  payload_lt : payload.size < UInt64.size

/-- A block is read back: its header, where its payload stands and what follows. -/
theorem read_record {src payload : Bytes} {pos room : Nat} {b : BlockHeader} {rest : List UInt8}
    (valid : b.Valid room payload) (h : src.toList.drop pos = b.record payload ++ rest) :
    ∃ start, read src room pos = .ok b start ∧
      start + b.payloadSize = pos + (b.record payload).length ∧
      src.extract start (start + b.payloadSize) = payload ∧
      src.toList.drop (start + b.payloadSize) = rest := by
  have hraw := valid.rawSize_le
  have hcount := valid.tokenCount_le
  have hroom := valid.room_lt
  have hsize := valid.payloadSize_eq
  have hpayload := valid.payload_lt
  simp only [record, List.append_assoc] at h
  have h₁ := Bytes.drop_append h
  have h₂ := Bytes.drop_append h₁
  have h₃ := Bytes.drop_append h₂
  have r₁ := Leb128.read_encoding (by omega) h
  have r₂ := Leb128.read_encoding (by omega) h₁
  have r₃ := Leb128.read_encoding (by omega) h₂
  generalize hstart : pos + (Leb128.encoding b.rawSize).length +
    (Leb128.encoding b.tokenCount).length + (Leb128.encoding b.payloadSize).length = start at r₃ h₃
  have hlen := congrArg List.length h₃
  rw [List.length_append, List.length_drop, Array.length_toList, Array.length_toList] at hlen
  refine ⟨start, ?_, ?_, ?_, ?_⟩
  · have hfits : ¬ src.size - start < b.payloadSize := by omega
    simp only [read, r₁, r₂, r₃, if_neg (Nat.not_lt.2 hraw), if_neg (Nat.not_lt.2 hcount),
      if_neg hfits]
  · simp only [record, List.length_append, Array.length_toList]
    omega
  · apply Array.toList_inj.1
    rw [Array.toList_extract, List.extract_eq_take_drop, h₃, Nat.add_sub_cancel_left, hsize,
      ← Array.length_toList, List.take_left]
  · rw [hsize, ← Array.length_toList]
    exact Bytes.drop_append h₃

theorem record_eq_cons {b : BlockHeader} (payload : Bytes) (h : 0 < b.rawSize) :
    ∃ byte rest, b.record payload = byte :: rest ∧ byte ≠ 0 := by
  obtain ⟨byte, rest, hbytes, hne⟩ := Leb128.encoding_eq_cons h
  exact ⟨byte, _, by rw [record, hbytes, List.cons_append], hne⟩

end BlockHeader

namespace Frame

variable {src : Bytes}

/-- What a block of tokens unpacks to, behind the part of the source before it. -/
theorem unpack_pack_of_spells {pos next : Nat} {tokens : Array Token}
    (h : Spells src pos tokens.toList next) (hpos : pos ≤ src.size) {out : Output}
    (hout : out.bytes.toList = src.toList.take pos) :
    ∃ out', Block.unpack (Block.pack (CodedBlock.ofTokens tokens)) tokens.size
        (out.beginBlock (next - pos)) = .ok () out' ∧ out'.endBlock = .ok () ∧
      out'.bytes.toList = src.toList.take next := by
  have hsize : out.bytes.size = pos := by
    rw [← Array.length_toList, hout, List.length_take, Array.length_toList]
    exact Nat.min_eq_left hpos
  have htotal := h.size_eq hpos
  have hnext := h.le_size
  have hground : Token.Grounded (out.beginBlock (next - pos)).bytes.size tokens.toList := by
    have hstart : (out.beginBlock (next - pos)).bytes.size = pos := hsize
    rw [hstart]
    exact h.grounded
  have hend : (out.beginBlock (next - pos)).blockEnd = out.bytes.size + (next - pos) := rfl
  have hbytes : (out.beginBlock (next - pos)).bytes = out.bytes := rfl
  obtain ⟨out', run, bytes, blockEnd⟩ := Output.applyAll_of_grounded hground (by
    rw [hend, hbytes]
    omega)
  rw [hbytes, hout, h.spelled] at bytes
  refine ⟨out', ?_, ?_, bytes⟩
  · rw [Block.unpack_pack_eq_applyAll h.encodable, run]
  · have hsize' : out'.bytes.size = out'.blockEnd := by
      rw [blockEnd, hend, hsize, ← Array.length_toList, bytes, List.length_take, Array.length_toList]
      omega
    rw [Output.endBlock, if_pos hsize']

theorem length_le_totalSize {tokens : List Token} (h : ∀ t ∈ tokens, t.Encodable) :
    tokens.length ≤ Token.totalSize tokens.toArray := by
  induction tokens with
  | nil => exact Nat.zero_le _
  | cons t rest ih =>
    obtain ⟨hfirst, hrest⟩ := List.forall_mem_cons.1 h
    have hone : 1 ≤ t.size := by
      cases t with
      | literal byte => exact Nat.le_refl 1
      | copy length distance => exact Nat.le_trans (by decide) hfirst.1
    have := ih hrest
    rw [Token.totalSize_cons, List.length_cons]
    omega

theorem readBlocks_of_ne {contentSize pos : Nat} {out : Output} (blocks : Array BlockHeader)
    (hpos : pos < src.size) (hne : src[pos] ≠ 0) :
    readBlocks src contentSize pos out blocks =
      match BlockHeader.read src (contentSize - out.bytes.size) pos with
      | .error e _ => ⟨blocks, .error e⟩
      | .ok b start =>
        match Block.unpack (src.extract start (start + b.payloadSize)) b.tokenCount
          (out.beginBlock b.rawSize) with
        | .error e _ => ⟨blocks, .error e⟩
        | .ok _ out =>
          match out.endBlock with
          | .error e => ⟨blocks, .error e⟩
          | .ok _ => readBlocks src contentSize (start + b.payloadSize) out (blocks.push b) := by
  rw [readBlocks, dif_pos hpos, if_neg hne]
  generalize hheader : BlockHeader.read src (contentSize - out.bytes.size) pos = header
  split
  · rename_i hread
    obtain rfl := hheader.symm.trans hread
    rfl
  · rename_i hread
    obtain rfl := hheader.symm.trans hread
    rfl

/-- One block is read, and then the blocks behind it. -/
theorem readBlocks_record {frame payload : Bytes} {contentSize start : Nat} {out out' : Output}
    {blocks : Array BlockHeader} {b : BlockHeader} {rest : List UInt8}
    (valid : b.Valid (contentSize - out.size) payload)
    (h : frame.toList.drop start = b.record payload ++ rest)
    (run : Block.unpack payload b.tokenCount (out.beginBlock b.rawSize) = .ok () out')
    (hend : out'.endBlock = .ok ()) :
    readBlocks frame contentSize start out blocks =
      readBlocks frame contentSize (start + (b.record payload).length) out' (blocks.push b) := by
  obtain ⟨behind, hread, hafter, hextract, -⟩ := BlockHeader.read_record valid h
  obtain ⟨byte, more, hrecord, hbyte⟩ :=
    BlockHeader.record_eq_cons payload valid.rawSize_pos
  rw [hrecord, List.cons_append] at h
  obtain ⟨hstart, hfirst, -⟩ := Bytes.drop_eq_cons h
  have hnot : frame[start] ≠ 0 := by
    rw [hfirst]
    exact hbyte
  have hsize : out.size = out.bytes.size := rfl
  rw [hsize] at hread
  rw [readBlocks_of_ne blocks hstart hnot, hread]
  dsimp only
  rw [hextract, run]
  dsimp only
  rw [hend]
  dsimp only
  rw [hafter]

section

variable {effort : Effort} {limit pos next : Nat} {hl : 0 < limit} {tokens : Array Token}
  {index index' : Index src (Geometry.ofSize src.size)}

/-- One block is added, and then the blocks behind it. What the block before left behind in the arrays is
not in it. -/
theorem putBlocks_of_lt (hlt : pos < src.size)
    (hparse : parseBlock effort src limit pos #[] index = ((next, tokens), index')) (scratch : Scratch)
    (encoded : Encoded) :
    putBlocks src effort limit hl pos index scratch encoded =
      putBlocks src effort limit hl next index' ⟨tokens, .ofTokens tokens⟩
        ⟨BlockHeader.put encoded.bytes
            ⟨next - pos, tokens.size, (Block.pack (.ofTokens tokens)).size⟩ ++
              Block.pack (.ofTokens tokens),
          encoded.blocks.push ⟨next - pos, tokens.size, (Block.pack (.ofTokens tokens)).size⟩⟩ := by
  have hempty : scratch.tokens.shrink 0 = #[] := by simp
  rw [← hempty] at hparse
  rw [putBlocks, dif_pos hlt]
  split
  rename_i hfound
  obtain ⟨hfirst, rfl⟩ := Prod.mk.inj (hfound.symm.trans hparse)
  obtain ⟨rfl, rfl⟩ := Prod.mk.inj hfirst
  dsimp only
  rw [CodedBlock.recount_eq]

theorem putBlocks_of_le (hge : src.size ≤ pos) (scratch : Scratch) (encoded : Encoded) :
    putBlocks src effort limit hl pos index scratch encoded = encoded := by
  rw [putBlocks, dif_neg (Nat.not_lt_of_le hge)]

end

/-- The blocks of the source from `pos` on are read back behind the part before it. -/
theorem readBlocks_putBlocks (effort : Effort) {limit : Nat} (hl : 0 < limit)
    (hlimit : limit ≤ blockTokens) (hsize : src.size < UInt64.size) {pos : Nat}
    (index : Index src (Geometry.ofSize src.size)) (scratch : Scratch) (encoded : Encoded)
    (hpos : pos ≤ src.size) :
    ∃ tail, (putBlocks src effort limit hl pos index scratch encoded).bytes.toList =
        encoded.bytes.toList ++ tail ∧
      ∀ (frame : Bytes) (start : Nat) (rest : List UInt8) (out : Output) (blocks : Array BlockHeader),
        frame.toList.drop start = tail ++ 0 :: rest → out.bytes.toList = src.toList.take pos →
        (readBlocks frame src.size start out blocks).result =
          .ok (start + tail.length + 1, src) := by
  induction hn : src.size - pos using Nat.strongRecOn generalizing pos index scratch encoded with
  | ind n ih =>
    by_cases hlt : pos < src.size
    · rcases hparse : parseBlock effort src limit pos #[] index with ⟨⟨next, tokens⟩, index'⟩
      obtain ⟨hspells, hprogress, hfew, -⟩ := Index.spells_of_parseBlock hl hlt hparse
      rw [putBlocks_of_lt hlt hparse]
      have htotal := hspells.size_eq hpos
      have hnext := hspells.le_size
      have hmany := length_le_totalSize hspells.encodable
      have hpack := Block.size_pack_le hspells.encodable
      have hcount : tokens.toList.length = tokens.size := Array.length_toList
      have hblock : blockTokens = 1048576 := rfl
      have hword : UInt64.size = 18446744073709551616 := rfl
      generalize hpayload : Block.pack (CodedBlock.ofTokens tokens) = payload at hpack ⊢
      obtain ⟨tail, htail, hread⟩ := ih (src.size - next) (by omega) index'
        ⟨tokens, .ofTokens tokens⟩
        ⟨BlockHeader.put encoded.bytes ⟨next - pos, tokens.size, payload.size⟩ ++ payload,
          encoded.blocks.push ⟨next - pos, tokens.size, payload.size⟩⟩ hnext rfl
      refine ⟨BlockHeader.record ⟨next - pos, tokens.size, payload.size⟩ payload ++ tail, ?_, ?_⟩
      · rw [htail, BlockHeader.toList_put_append, List.append_assoc]
      · intro frame start rest out blocks hframe hout
        have hout' : out.size = pos := by
          have hlen := congrArg List.length hout
          rw [List.length_take, Array.length_toList, Array.length_toList] at hlen
          exact hlen.trans (Nat.min_eq_left hpos)
        have hvalid : BlockHeader.Valid ⟨next - pos, tokens.size, payload.size⟩
            (src.size - out.size) payload :=
          ⟨by dsimp only; omega, by dsimp only; omega, by dsimp only; omega, rfl, by omega, by omega⟩
        obtain ⟨out', hrun, hend, hbytes⟩ := unpack_pack_of_spells hspells hpos hout
        rw [hpayload] at hrun
        rw [List.append_assoc] at hframe
        rw [readBlocks_record hvalid hframe hrun hend,
          hread frame _ rest out' _ (Bytes.drop_append hframe) hbytes, List.length_append,
          Nat.add_assoc start]
    · have hge := Nat.le_of_not_lt hlt
      rw [putBlocks_of_le hge]
      refine ⟨[], by simp, ?_⟩
      intro frame start rest out blocks hframe hout
      obtain ⟨hstart, hfirst, -⟩ := Bytes.drop_eq_cons hframe
      have hall : src.toList.take pos = src.toList :=
        List.take_of_length_le (by rw [Array.length_toList]; omega)
      rw [hall] at hout
      rw [readBlocks, dif_pos hstart, if_pos hfirst, Array.toList_inj.1 hout]
      rfl

/-- A header that stands at the start is read, whether or not its number is padded. -/
theorem readHeader_of_numeral {frame : Bytes} {contentSize : Nat} {numeral rest : List UInt8}
    (hnumeral : Leb128.Numeral numeral contentSize)
    (h : frame.toList = magic.toList ++ version :: (numeral ++ rest)) :
    readHeader frame 0 = .ok contentSize (magic.size + 1 + numeral.length) := by
  have hmagic : frame.take magic.size = magic := by
    apply Array.toList_inj.1
    rw [Array.take_eq_extract, Array.toList_extract, List.extract_eq_take_drop, List.drop_zero,
      Nat.sub_zero, h, ← Array.length_toList, List.take_left]
  have hversion : frame.toList.drop magic.size = version :: (numeral ++ rest) := by
    rw [h, ← Array.length_toList, List.drop_left]
  obtain ⟨hpos, hv, hnumber⟩ := Bytes.drop_eq_cons hversion
  have hget : frame[magic.size]? = some version := by
    rw [Array.getElem?_eq_getElem hpos, hv]
  rw [readHeader_apply, if_pos hmagic, hget]
  exact Leb128.read_of_numeral hnumeral hnumber

theorem toList_putHeader (contentSize : Nat) :
    (putHeader #[] contentSize).toList = magic.toList ++ version :: Leb128.encoding contentSize := by
  rw [putHeader, Leb128.toList_write]
  simp

/-- The header of a frame is read back. -/
theorem readHeader_putHeader {frame : Bytes} {contentSize : Nat} {rest : List UInt8}
    (hsize : contentSize < UInt64.size)
    (h : frame.toList = (putHeader #[] contentSize).toList ++ rest) :
    readHeader frame 0 = .ok contentSize (putHeader #[] contentSize).size := by
  have hbytes := toList_putHeader contentSize
  have hlength := congrArg List.length hbytes
  rw [List.length_append, List.length_cons, Array.length_toList, Array.length_toList] at hlength
  rw [hbytes, List.append_assoc, List.cons_append] at h
  rw [hlength, readHeader_of_numeral (Leb128.numeral_encoding hsize) h, Nat.add_assoc,
    Nat.add_comm 1]

/-- The end of a frame is accepted behind its content. -/
theorem checkEnd_of_drop {frame content : Bytes} {sum : Bytes → UInt32} {pos : Nat}
    (h : frame.toList.drop pos = (Bytes.pushWord32 #[] (sum content)).toList) :
    checkEnd frame content.size pos content sum = .ok () := by
  have hlen := congrArg List.length h
  have hfour : (Bytes.pushWord32 #[] (sum content)).size = 4 := Bytes.size_pushWord32 _ _
  rw [List.length_drop, Array.length_toList, Array.length_toList, hfour] at hlen
  have hend : pos + 4 ≤ frame.size := by omega
  have hword := Bytes.word32_of_drop hend h
  have hsize : ¬ frame.size ≠ pos + 4 := by omega
  rw [checkEnd, if_neg (fun h => h rfl), dif_pos hend, if_neg hsize, hword, if_neg (fun h => h rfl)]

end Frame

/-- A frame is its header and its blocks, the end mark, and the checksum of its content. -/
theorem toList_compress (src : Bytes) (effort : Effort) (sum : Bytes → UInt32) :
    (compress src effort sum).toList =
      (Frame.putBlocks src effort blockTokens (by decide) 0 (Index.ofSource src) {}
        ⟨Frame.putHeader #[] src.size, #[]⟩).bytes.toList ++
      Frame.endMark :: (Bytes.pushWord32 #[] (sum src)).toList := by
  have hword (data : Bytes) (w : UInt32) :
      (data.pushWord32 w).toList = data.toList ++ (Bytes.pushWord32 #[] w).toList := by
    simp [Bytes.pushWord32]
  rw [compress, Frame.encode]
  dsimp only
  rw [hword, Array.toList_push, List.append_assoc, List.singleton_append]

/-- What a source is compressed to, it is decompressed from, whatever the effort and the checksum are. -/
theorem decompress_compress_eq (src : Bytes) (effort : Effort) (sum : Bytes → UInt32)
    (hsize : src.size < UInt64.size) : decompress (compress src effort sum) sum = .ok src := by
  obtain ⟨tail, htail, hread⟩ := Frame.readBlocks_putBlocks effort
    (show 0 < blockTokens by decide) (Nat.le_refl _) hsize (Index.ofSource src) {}
    ⟨Frame.putHeader #[] src.size, #[]⟩ (Nat.zero_le _)
  have hframe : (compress src effort sum).toList = (Frame.putHeader #[] src.size).toList ++
      (tail ++ 0 :: (Bytes.pushWord32 #[] (sum src)).toList) := by
    rw [toList_compress, htail, List.append_assoc]
    rfl
  have hheader := Frame.readHeader_putHeader hsize hframe
  have hblocks : (compress src effort sum).toList.drop (Frame.putHeader #[] src.size).size =
      tail ++ 0 :: (Bytes.pushWord32 #[] (sum src)).toList := by
    rw [hframe, ← Array.length_toList, List.drop_left]
  have hresult := hread _ _ _ Output.empty #[] hblocks rfl
  have hrest := Bytes.drop_append hblocks
  obtain ⟨_, _, hend⟩ := Bytes.drop_eq_cons hrest
  rw [decompress, Frame.decode, hheader]
  dsimp only
  split
  · rename_i hfail
    rw [hfail] at hresult
    cases hresult
  · rename_i hok
    rw [hok] at hresult
    cases hresult
    rw [Frame.checkEnd_of_drop hend]

end LzCodec
