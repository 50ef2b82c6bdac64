import LzCodec.Foreign
import LzCodec.Proofs.Frames
import LzCodec.Proofs.Machine.Words
import LzCodec.Proofs.PayloadSizes

/-!
# Sizes of frames

No frame is longer than `compressBound` says, whatever the source and the effort are
(`compress_fits`). The content takes nine bits for each byte at most. Each block but the last holds as
many tokens as it may, so that there are few blocks, and tables and headers take less than the kilobyte
that the bound has for each.
-/

namespace LzCodec

namespace Frame

/-- How many blocks of `limit` tokens `size` bytes may take. -/
def blockCount (limit size : Nat) : Nat := (size + (limit - 1)) / limit

/-- Each block counts if all but the last take `limit` bytes at least. -/
theorem blockCount_add {limit size raw : Nat} (hl : 0 < limit) (hraw : 0 < raw)
    (h : size = 0 ∨ limit ≤ raw) : blockCount limit size + 1 ≤ blockCount limit (size + raw) := by
  unfold blockCount
  rcases h with rfl | hfull
  · rw [Nat.div_eq_of_lt (by omega)]
    exact Nat.div_pos (by omega) hl
  · rw [← Nat.add_div_right _ hl]
    exact Nat.div_le_div_right (by omega)

theorem size_put_append_le {b : BlockHeader} {payload : Bytes} (dst : Bytes)
    (hraw : b.rawSize < 2 ^ 70) (htokens : b.tokenCount < 2 ^ 70) (hpayload : b.payloadSize < 2 ^ 70) :
    (b.put dst ++ payload).size ≤ dst.size + 30 + payload.size := by
  have h₁ := Leb128.length_encoding_le (n := 10) (by decide) hraw
  have h₂ := Leb128.length_encoding_le (n := 10) (by decide) htokens
  have h₃ := Leb128.length_encoding_le (n := 10) (by decide) hpayload
  have hlength := congrArg List.length (b.toList_put_append dst payload)
  simp only [BlockHeader.record, List.length_append, Array.length_toList] at hlength
  omega

/-- The blocks of the source from `pos` on take nine bits for each byte, and less than 4096 more for
each block. -/
theorem size_putBlocks_le {src : Bytes} (effort : Effort) {limit : Nat} (hl : 0 < limit)
    (hsize : src.size < UInt64.size) {pos : Nat} (index : Index src (Geometry.ofSize src.size))
    (scratch : Scratch) (encoded : Encoded) (hpos : pos ≤ src.size) :
    8 * (putBlocks src effort limit hl pos index scratch encoded).bytes.size ≤
      8 * encoded.bytes.size + 9 * (src.size - pos) + 3627 * blockCount limit (src.size - pos) := by
  induction hn : src.size - pos using Nat.strongRecOn generalizing pos index scratch encoded with
  | ind n ih =>
    by_cases hlt : pos < src.size
    · rcases hparse : parseBlock effort src limit pos #[] index with ⟨⟨next, tokens⟩, index'⟩
      obtain ⟨hspells, hprogress, -, hfull⟩ := Index.spells_of_parseBlock hl hlt hparse
      have htotal := hspells.size_eq hpos
      have hnext := hspells.le_size
      have hmany := length_le_totalSize hspells.encodable
      have hpack := Block.eight_mul_size_pack_le hspells.encodable
      have hword : UInt64.size = 18446744073709551616 := rfl
      rw [Array.toArray_toList] at htotal hmany
      rw [Array.length_toList] at hmany
      rw [putBlocks_of_lt hlt hparse]
      generalize Block.pack (CodedBlock.ofTokens tokens) = payload at hpack ⊢
      have hput := @size_put_append_le ⟨next - pos, tokens.size, payload.size⟩ payload encoded.bytes
        (by dsimp only; omega) (by dsimp only; omega) (by dsimp only; omega)
      have hrest := ih (src.size - next) (by omega) index' ⟨tokens, .ofTokens tokens⟩
        ⟨BlockHeader.put encoded.bytes ⟨next - pos, tokens.size, payload.size⟩ ++ payload,
          encoded.blocks.push ⟨next - pos, tokens.size, payload.size⟩⟩ hnext rfl
      have hblocks := @blockCount_add limit (src.size - next) (next - pos) hl (by omega) (by omega)
      rw [show src.size - next + (next - pos) = n by omega] at hblocks
      dsimp only at hrest
      omega
    · rw [putBlocks_of_le (Nat.le_of_not_lt hlt)]
      omega

theorem size_putHeader_le {size : Nat} (h : size < 2 ^ 70) : (putHeader #[] size).size ≤ 15 := by
  have hnumber := Leb128.length_encoding_le (n := 10) (by decide) h
  have hlength := congrArg List.length (Leb128.toList_write ((#[] ++ magic).push version) size)
  rw [List.length_append, Array.length_toList, Array.length_toList] at hlength
  rw [putHeader, hlength]
  exact Nat.add_le_add (Nat.le_refl 5) hnumber

end Frame

theorem size_compress_le {src : Bytes} (effort : Effort) (h : src.size < UInt64.size) :
    (compress src effort).size ≤ compressBound src.size := by
  have hblocks := Frame.size_putBlocks_le effort (show 0 < blockTokens by decide) h
    (Index.ofSource src) {} ⟨Frame.putHeader #[] src.size, #[]⟩ (Nat.zero_le _)
  have hheader := Frame.size_putHeader_le (Nat.lt_trans h (by decide))
  have hsize : (compress src effort).size = (Frame.putBlocks src effort blockTokens (by decide) 0
      (Index.ofSource src) {} ⟨Frame.putHeader #[] src.size, #[]⟩).bytes.size + 5 := by
    rw [compress, Frame.encode]
    simp
  have hcount : Frame.blockCount blockTokens src.size ≤ src.size / blockTokens + 1 := by
    rw [Frame.blockCount, ← Nat.add_div_right _ (by decide)]
    exact Nat.div_le_div_right (Nat.add_le_add_left (Nat.sub_le _ _) _)
  rw [hsize, compressBound]
  rw [Nat.sub_zero] at hblocks
  dsimp only at hblocks
  omega

namespace Machine

/-- The bound in 64-bit words. -/
def compressBound (size : Nat) : Machine Nat := do
  let blocks ← add 64 (size / blockTokens) 1
  let content ← add 64 size (size / 8)
  let tables ← mul 64 blocks 1024
  add 64 (← add 64 content tables) 32

theorem compressBound_eq {size : Nat} (h : size < 2 ^ 63) :
    compressBound size = pure (LzCodec.compressBound size) := by
  have hblocks : size / blockTokens = size / 1048576 := rfl
  unfold compressBound
  rw [hblocks]
  rw [add_of_lt (by omega), pure_bind, add_of_lt (by omega), pure_bind, mul_of_lt (by omega), pure_bind,
    add_of_lt (by omega), pure_bind, add_of_lt (by omega)]
  rfl

end Machine

/-- A frame fits in the bound, the bound does not overflow, and a call that is given so much room
succeeds. -/
theorem compress_fits (src : Bytes) (effort : Effort) (h : src.size ≤ 2 ^ 63 - 1) :
    (compress src effort).size ≤ compressBound src.size ∧
      Machine.compressBound src.size = pure (compressBound src.size) ∧
      ∀ (memory : Bytes) (room : Nat), compressBound src.size ≤ room →
        Foreign.encodeBuffer (some src) (some memory) room (some effort) =
          (some ⟨src.size, (compress src effort).size⟩,
            some (compress src effort ++ memory.drop (compress src effort).size)) := by
  have hsmall : src.size < 2 ^ 63 := Nat.lt_of_le_of_lt h (by decide)
  have hfits := size_compress_le effort (Nat.lt_trans hsmall (by decide))
  refine ⟨hfits, Machine.compressBound_eq hsmall, ?_⟩
  intro memory room hroom
  rw [Foreign.encodeBuffer, Foreign.copyOut, if_pos (Nat.le_trans hfits hroom)]

/-- A source that repeats itself, written to memory with no more room than the bound. -/
theorem compress_fits_exactly :
    let src : Bytes := #[97, 98, 97, 98, 97, 98, 97, 98]
    let frame := compress src ⟨3, 2, 2⟩
    src.size ≤ 2 ^ 63 - 1 ∧ frame.size ≤ 1065 ∧ Machine.compressBound 8 = pure 1065 ∧
      Foreign.encodeBuffer (some src) (some (Array.replicate 1065 0)) 1065 (some ⟨3, 2, 2⟩) =
        (some ⟨8, frame.size⟩, some (frame ++ Array.drop (Array.replicate 1065 0) frame.size)) := by
  intro src frame
  have hsmall : src.size ≤ 2 ^ 63 - 1 := by decide
  have hroom : compressBound src.size = 1065 := by decide
  obtain ⟨hfits, hbound, hcall⟩ := compress_fits src ⟨3, 2, 2⟩ hsmall
  rw [hroom] at hfits hbound hcall
  exact ⟨hsmall, hfits, hbound, hcall (Array.replicate 1065 0) 1065 (Nat.le_refl _)⟩

end LzCodec
