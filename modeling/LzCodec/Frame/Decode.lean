import LzCodec.Block
import LzCodec.Checksum
import LzCodec.Frame.BlockHeader
import LzCodec.Frame.Header

/-!
# Reading a frame

Every size is checked against the bytes that are there, and against the sizes that stand before it,
before anything is written.
-/

namespace LzCodec

namespace Frame

/-- What came of a frame: the headers of the blocks that were read without fault, and the result. -/
structure Decoded (α : Type) where
  blocks : Array BlockHeader
  result : Except Corruption α

/-- Reads the blocks from `pos` on up to the end mark. The result is the position behind it and the
content. -/
def readBlocks (src : Bytes) (contentSize pos : Nat) (out : Output) (blocks : Array BlockHeader) :
    Decoded (Nat × Bytes) :=
  if h : pos < src.size then
    if src[pos] = 0 then
      ⟨blocks, .ok (pos + 1, out.bytes)⟩
    else
      match hb : BlockHeader.read src (contentSize - out.size) pos with
      | .error e _ => ⟨blocks, .error e⟩
      | .ok b start =>
        have := BlockHeader.read_pos hb
        match Block.unpack (src.extract start (start + b.payloadSize)) b.tokenCount
          (out.beginBlock b.rawSize) with
        | .error e _ => ⟨blocks, .error e⟩
        | .ok _ out =>
          match out.endBlock with
          | .error e => ⟨blocks, .error e⟩
          | .ok _ => readBlocks src contentSize (start + b.payloadSize) out (blocks.push b)
  else
    ⟨blocks, .error .truncated⟩
termination_by src.size - pos

/-- Checks what follows the end mark at `pos`. -/
def checkEnd (src : Bytes) (contentSize pos : Nat) (content : Bytes)
    (sum : Bytes → UInt32 := checksum) : Except Corruption Unit :=
  if content.size ≠ contentSize then
    .error .contentSizeMismatch
  else if h : pos + 4 ≤ src.size then
    if src.size ≠ pos + 4 then
      .error .trailingData
    else if sum content ≠ src.word32 pos h then
      .error .checksumMismatch
    else
      .ok ()
  else
    .error .truncated

theorem checkEnd_eq_ok_iff {src content : Bytes} {contentSize pos : Nat} {sum : Bytes → UInt32} :
    checkEnd src contentSize pos content sum = .ok () ↔
      content.size = contentSize ∧
        ∃ hpos : pos + 4 = src.size, sum content = src.word32 pos (Nat.le_of_eq hpos) := by
  unfold checkEnd
  constructor
  · intro h
    split at h
    · cases h
    · rename_i hsize
      split at h
      · split at h
        · cases h
        · rename_i hlast
          split at h
          · cases h
          · rename_i hsum
            exact ⟨Decidable.not_not.1 hsize, (Decidable.not_not.1 hlast).symm,
              Decidable.not_not.1 hsum⟩
      · cases h
  · rintro ⟨rfl, hlast, hsum⟩
    rw [if_neg (fun h => h rfl), dif_pos (Nat.le_of_eq hlast), if_neg (fun h => h hlast.symm),
      if_neg (fun h => h hsum)]

def decode (src : Bytes) (sum : Bytes → UInt32 := checksum) : Decoded Bytes :=
  match readHeader src 0 with
  | .error e _ => ⟨#[], .error e⟩
  | .ok contentSize pos =>
    match readBlocks src contentSize pos .empty #[] with
    | ⟨blocks, .error e⟩ => ⟨blocks, .error e⟩
    | ⟨blocks, .ok (pos, content)⟩ =>
      match checkEnd src contentSize pos content sum with
      | .error e => ⟨blocks, .error e⟩
      | .ok _ => ⟨blocks, .ok content⟩

end Frame

/-- The content of a frame. -/
def decompress (src : Bytes) (sum : Bytes → UInt32 := checksum) : Except Corruption Bytes :=
  (Frame.decode src sum).result

theorem decompress_eq (src : Bytes) (sum : Bytes → UInt32) :
    decompress src sum =
      match Frame.readHeader src 0 with
      | .error e _ => .error e
      | .ok contentSize pos =>
        match (Frame.readBlocks src contentSize pos .empty #[]).result with
        | .error e => .error e
        | .ok (pos, content) =>
          match Frame.checkEnd src contentSize pos content sum with
          | .error e => .error e
          | .ok _ => .ok content := by
  rw [decompress, Frame.decode]
  cases Frame.readHeader src 0 with
  | error e _ => rfl
  | ok contentSize pos =>
    dsimp only
    obtain ⟨blocks, result⟩ := Frame.readBlocks src contentSize pos .empty #[]
    cases result with
    | error e => rfl
    | ok last =>
      obtain ⟨pos, content⟩ := last
      dsimp only
      cases Frame.checkEnd src contentSize pos content sum with
      | error e => rfl
      | ok _ => rfl

/-- What was read, part by part, from a frame that is accepted. -/
theorem exists_of_decompress {src content : Bytes} {sum : Bytes → UInt32}
    (h : decompress src sum = .ok content) :
    ∃ start pos, Frame.readHeader src 0 = .ok content.size start ∧
      (Frame.readBlocks src content.size start .empty #[]).result = .ok (pos, content) ∧
      ∃ hpos : pos + 4 = src.size, sum content = src.word32 pos (Nat.le_of_eq hpos) := by
  rw [decompress_eq] at h
  split at h
  · cases h
  · rename_i hheader
    split at h
    · cases h
    · rename_i hblocks
      split at h
      · cases h
      · rename_i hend
        cases h
        obtain ⟨rfl, hlast⟩ := Frame.checkEnd_eq_ok_iff.1 hend
        exact ⟨_, _, hheader, hblocks, hlast⟩

end LzCodec
