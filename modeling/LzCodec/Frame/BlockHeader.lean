import LzCodec.Leb128

/-!
# Block header

Three numbers stand before the payload of a block. A block is written only if it has content, so its
first number does not start with a zero byte, which marks the end of the blocks instead.
-/

namespace LzCodec

structure BlockHeader where
  /-- The number of bytes of content. -/
  rawSize : Nat
  tokenCount : Nat
  payloadSize : Nat
  deriving DecidableEq, Repr

namespace BlockHeader

def put (dst : Bytes) (b : BlockHeader) : Bytes :=
  Leb128.write (Leb128.write (Leb128.write dst b.rawSize) b.tokenCount) b.payloadSize

/-- Reads a header where `room` bytes of content are still to come. Each number is checked before the
next one is read. -/
def read (src : Bytes) (room : Nat) : EStateM Corruption Nat BlockHeader := fun pos =>
  match Leb128.read src pos with
  | .error e pos => .error e pos
  | .ok rawSize pos =>
    if room < rawSize then
      .error .contentSizeMismatch pos
    else
      match Leb128.read src pos with
      | .error e pos => .error e pos
      | .ok tokenCount pos =>
        if rawSize < tokenCount then
          .error .blockSizeMismatch pos
        else
          match Leb128.read src pos with
          | .error e pos => .error e pos
          | .ok payloadSize pos =>
            if src.size - pos < payloadSize then
              .error .truncated pos
            else
              .ok ⟨rawSize, tokenCount, payloadSize⟩ pos

theorem read_pos {src : Bytes} {room pos start : Nat} {b : BlockHeader}
    (h : read src room pos = .ok b start) : pos < start ∧ start + b.payloadSize ≤ src.size := by
  simp only [read] at h
  split at h
  · cases h
  · rename_i h₁
    split at h
    · cases h
    · split at h
      · cases h
      · rename_i h₂
        split at h
        · cases h
        · split at h
          · cases h
          · rename_i h₃
            split at h
            · cases h
            · cases h
              have := Leb128.read_pos h₁
              have := Leb128.read_pos h₂
              have := Leb128.read_pos h₃
              dsimp only
              omega

end BlockHeader

end LzCodec
