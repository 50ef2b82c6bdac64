import LzCodec.Proofs.Frames
import LzCodec.Proofs.Machine.Counting
import LzCodec.Proofs.Machine.Parser

/-!
# Writing a frame on machine words

Whatever the source and the effort are, writing its frame on words ends, has no faults, and writes the
frame of the source, from which the source is read back (`compress_eq_and_decompress`).
-/

namespace LzCodec

namespace Machine

/-! ## Programs -/

/-- Adds a number, seven bits to a byte. A word can always be shifted by seven bits. -/
def writeLeb128 (dst : Bytes) (value : Nat) : Bytes :=
  if 128 ≤ value then
    writeLeb128 (dst.push (value % UInt8.size ||| 128).toUInt8) (value >>> 7)
  else
    dst.push (value % UInt8.size).toUInt8
termination_by value
decreasing_by
  rw [Nat.shiftRight_eq_div_pow]
  omega

/-- Adds the blocks of the source from `pos` on, behind `count` blocks. -/
def Finder.writeBlocks (f : Finder) (src : Bytes) (effort : Effort) (count pos : Nat)
    (scratch : Frame.Scratch) (dst : Bytes) : Machine Bytes := do
  if pos < src.size then
    let (next, tokens, f) ← f.parseBlock effort src blockTokens 0 pos (scratch.tokens.shrink 0)
    let coded ← callAll scratch.coded (.clear :: tokens.toList.map .push)
    let payload ← pack coded
    let dst := writeLeb128 dst (← sub next pos)
    let dst := writeLeb128 (writeLeb128 dst tokens.size) payload.size
    f |>.writeBlocks src effort (← add 64 count 1) next ⟨tokens, coded⟩ (dst ++ payload)
  else
    return dst
partial_fixpoint

/-- The number of bytes that a token takes in memory. -/
def tokenBytes : Nat := 12

/-- The frame of a source. -/
def compress (src : Bytes) (effort : Effort) (sum : Bytes → UInt32 := checksum) : Machine Bytes := do
  request (← add 64 (src.size / 2) 32)
  let dst := writeLeb128 ((#[] ++ Frame.magic).push Frame.version) src.size
  let f ← Finder.new src
  request (tokenBytes * min src.size blockTokens)
  let dst ← f.writeBlocks src effort 0 0 {} dst
  return Bytes.pushWord32 (dst.push Frame.endMark) (sum src)

/-! ## Numbers -/

theorem or_128_eq (n : Nat) : n % UInt8.size ||| 128 = n % 128 + 128 := by
  have hlow : n % 128 < 2 ^ 7 := Nat.mod_lt n (by decide)
  have hor : n % 128 ||| 128 = n % 128 + 128 :=
    show n % 128 ||| 1 * 2 ^ 7 = n % 128 + 1 * 2 ^ 7 from or_shifted hlow
  have hbyte : n % UInt8.size = n % 128 ∨ n % UInt8.size = n % 128 + 128 := by
    simp only [UInt8.size]
    omega
  rcases hbyte with hbyte | hbyte
  · rw [hbyte, hor]
  · rw [hbyte, ← hor, Nat.or_assoc, Nat.or_self]

theorem writeLeb128_eq (dst : Bytes) (value : Nat) :
    writeLeb128 dst value = Leb128.write dst value := by
  induction value using Nat.strongRecOn generalizing dst with
  | ind value ih =>
    rw [writeLeb128, Leb128.write]
    by_cases hsmall : value < 128
    · have hbyte : value % UInt8.size = value := Nat.mod_eq_of_lt (Nat.lt_trans hsmall (by decide))
      rw [if_neg (Nat.not_le_of_lt hsmall), if_pos hsmall, hbyte]
    · have hge := Nat.le_of_not_lt hsmall
      have hless : value / 128 < value := by omega
      rw [if_pos hge, if_neg hsmall, or_128_eq, Nat.shiftRight_eq_div_pow]
      exact ih _ hless _

/-! ## Blocks -/

variable {src : Bytes} {index : Index src (Geometry.ofSize src.size)}

/-- Blocks are written without a fault, and as `Frame.putBlocks` writes them. -/
theorem writeBlocks_eq (small : src.size < 2 ^ maxArrayLog) (effort : Effort) (h : index.Faithful)
    {count pos : Nat} (hcount : count ≤ pos) (hpos : pos ≤ src.size) (scratch : Frame.Scratch)
    (encoded : Frame.Encoded) :
    (Finder.of index).writeBlocks src effort count pos scratch encoded.bytes =
      pure (Frame.putBlocks src effort blockTokens (by decide) pos index scratch encoded).bytes := by
  induction hn : src.size - pos using Nat.strongRecOn
    generalizing count pos index scratch encoded with
  | ind n ih =>
    rw [Finder.writeBlocks]
    by_cases hlt : pos < src.size
    · rcases hparse : parseBlock effort src blockTokens pos #[] index with ⟨⟨next, tokens⟩, index'⟩
      have hempty : scratch.tokens.shrink 0 = #[] := by simp
      have hword := small
      simp only [maxArrayLog] at hword
      have hblock : blockTokens = 1048576 := rfl
      obtain ⟨hrun, hkeeps⟩ := parseBlock_eq small effort (Nat.zero_add blockTokens) (by omega)
        h hpos #[]
      obtain ⟨hspells, hprogress, hfew, -⟩ :=
        Index.spells_of_parseBlock (show 0 < blockTokens by decide) hlt hparse
      rw [hparse] at hrun hkeeps
      dsimp only at hrun hkeeps
      have hlength : tokens.toList.length = tokens.size := Array.length_toList
      have hnext := hspells.le_size
      have hcoded : callAll scratch.coded (.clear :: tokens.toList.map .push) =
          pure (CodedBlock.ofTokens tokens) := by
        rw [callAll_clear_push]
        exact (pushAll_eq hspells.encodable (by omega)).1
      have hpack := pack_eq hspells.encodable (by omega)
      rw [if_pos hlt, Frame.putBlocks_of_lt hlt hparse, hempty]
      generalize Block.pack (CodedBlock.ofTokens tokens) = payload at hpack ⊢
      have hrest := ih _ (by omega) hkeeps (show count + 1 ≤ next by omega) hnext
        ⟨tokens, .ofTokens tokens⟩
        ⟨BlockHeader.put encoded.bytes ⟨next - pos, tokens.size, payload.size⟩ ++ payload,
          encoded.blocks.push ⟨next - pos, tokens.size, payload.size⟩⟩ rfl
      rw [hrun, pure_bind]
      dsimp only
      rw [hcoded, pure_bind, hpack, pure_bind, sub_of_le (Nat.le_of_lt hprogress), pure_bind,
        writeLeb128_eq, writeLeb128_eq, writeLeb128_eq, add_of_lt (by omega), pure_bind]
      exact hrest
    · rw [if_neg hlt, Frame.putBlocks_of_le (Nat.le_of_not_lt hlt)]

/-- Writing a frame ends, without a fault, with the frame of the source. -/
theorem compress_eq {src : Bytes} (small : src.size < 2 ^ maxSizeLog) (effort : Effort)
    (sum : Bytes → UInt32) : compress src effort sum = pure (LzCodec.compress src effort sum) := by
  have hword := small
  simp only [maxSizeLog] at hword
  have fits : src.size < 2 ^ maxArrayLog := Nat.lt_trans small (by decide)
  have hframe : request (src.size / 2 + 32) = pure () := request_of_lt (by rw [maxArrayLog]; omega)
  have htokens : request (tokenBytes * min src.size blockTokens) = pure () := by
    have hfew := Nat.min_le_right src.size blockTokens
    exact request_of_lt (Nat.lt_of_le_of_lt (Nat.mul_le_mul_left _ hfew) (by decide))
  have hblocks := writeBlocks_eq fits effort Index.faithful_empty (Nat.le_refl 0) (Nat.zero_le _) {}
    ⟨Frame.putHeader #[] src.size, #[]⟩
  unfold compress
  rw [add_of_lt (by omega), pure_bind, hframe, pure_bind, writeLeb128_eq, Finder.new_eq fits, pure_bind,
    htokens, pure_bind]
  refine (congrArg (· >>= _) hblocks).trans ?_
  rfl

/-- Whatever the effort and the checksum are, compressing a source overflows nowhere, stays inside its arrays
and breaks no assertion, and the source is read back from its frame. -/
theorem compress_eq_and_decompress (src : Bytes) (effort : Effort) (sum : Bytes → UInt32)
    (small : src.size < 2 ^ maxSizeLog) :
    compress src effort sum = pure (LzCodec.compress src effort sum) ∧
      LzCodec.decompress (LzCodec.compress src effort sum) sum = .ok src :=
  ⟨compress_eq small effort sum,
    decompress_compress_eq src effort sum (Nat.lt_trans small (by decide))⟩

/-- A source that repeats itself, searched as far as a word allows and not weighed two bytes ahead. -/
theorem compress_overlap :
    (#[97, 98, 97, 98, 97, 98, 97, 98] : Bytes).size < 2 ^ maxSizeLog ∧
      compress #[97, 98, 97, 98, 97, 98, 97, 98] ⟨UInt64.size - 1, UInt64.size - 1, 0⟩ =
        pure (LzCodec.compress #[97, 98, 97, 98, 97, 98, 97, 98] ⟨UInt64.size - 1, UInt64.size - 1, 0⟩) ∧
      LzCodec.decompress
          (LzCodec.compress #[97, 98, 97, 98, 97, 98, 97, 98] ⟨UInt64.size - 1, UInt64.size - 1, 0⟩) =
        .ok #[97, 98, 97, 98, 97, 98, 97, 98] :=
  ⟨by decide, compress_eq_and_decompress #[97, 98, 97, 98, 97, 98, 97, 98]
    ⟨UInt64.size - 1, UInt64.size - 1, 0⟩ checksum (by decide)⟩

end Machine

end LzCodec
