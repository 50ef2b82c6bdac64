import LzCodec.Block
import LzCodec.Checksum
import LzCodec.Frame.BlockHeader
import LzCodec.Frame.Header
import LzCodec.Parse

/-!
# Writing a frame

One index serves the whole source, so a copy may reach into earlier blocks. Each block has its own
code tables.
-/

namespace LzCodec

namespace Frame

/-- A frame and the headers of its blocks. -/
structure Encoded where
  bytes : Bytes
  blocks : Array BlockHeader

def endMark : UInt8 := 0

/-- What the blocks of a frame share. Each block finds the arrays as the one before it has left them. -/
structure Scratch where
  tokens : Array Token := #[]
  coded : CodedBlock := {}

/-- Adds the blocks of the source from `pos` on, each of at most `limit` tokens. -/
def putBlocks (src : Bytes) (effort : Effort) (limit : Nat) (hl : 0 < limit) (pos : Nat)
    (index : Index src (Geometry.ofSize src.size)) (scratch : Scratch) (encoded : Encoded) : Encoded :=
  if h : pos < src.size then
    match hs : parseBlock effort src limit pos (scratch.tokens.shrink 0) index with
    | ((next, tokens), index') =>
      have : pos < next := by
        have hlt := lt_parseBlock effort (scratch.tokens.shrink 0) index
          (fun _ _ _ _ hm => Nat.lt_of_lt_of_le (by decide) (Index.minMatch_le_of_find hm)) hl h
        rw [hs] at hlt
        exact hlt
      let coded := scratch.coded.recount tokens
      let payload := Block.pack coded
      let header : BlockHeader := ⟨next - pos, tokens.size, payload.size⟩
      putBlocks src effort limit hl next index' ⟨tokens, coded⟩
        ⟨header.put encoded.bytes ++ payload, encoded.blocks.push header⟩
  else
    encoded
termination_by src.size - pos

def encode (src : Bytes) (effort : Effort) (sum : Bytes → UInt32 := checksum) : Encoded :=
  match putBlocks src effort blockTokens (by decide) 0 (Index.ofSource src) {}
    ⟨putHeader #[] src.size, #[]⟩ with
  | ⟨bytes, blocks⟩ => ⟨Bytes.pushWord32 (bytes.push endMark) (sum src), blocks⟩

end Frame

/-- The frame of a source. -/
def compress (src : Bytes) (effort : Effort) (sum : Bytes → UInt32 := checksum) : Bytes :=
  (Frame.encode src effort sum).bytes

/-- No frame of a source of this size is longer. -/
def compressBound (size : Nat) : Nat := size + size / 8 + (size / blockTokens + 1) * 1024 + 32

end LzCodec
