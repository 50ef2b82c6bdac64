import LzCodec.Leb128

/-!
# Frame header

A frame starts with four magic bytes, the version and the size of its content.
-/

namespace LzCodec

namespace Frame

def magic : Bytes := #[0x4f, 0x52, 0x5a, 0x1a]

def version : UInt8 := 1

def putHeader (dst : Bytes) (contentSize : Nat) : Bytes :=
  Leb128.write ((dst ++ magic).push version) contentSize

/-- Reads the header at the start of `src`. A source that ends inside the magic bytes is cut short,
any other that does not start with them is no frame. -/
def readHeader (src : Bytes) : EStateM Corruption Nat Nat := do
  if src.take magic.size ≠ magic then
    throw (if src.isPrefixOf magic then .truncated else .badMagic)
  match src[magic.size]? with
  | none => throw .truncated
  | some v =>
    if v ≠ version then
      throw (.unsupportedVersion v)
    set (magic.size + 1)
    Leb128.read src

theorem readHeader_apply (src : Bytes) (pos : Nat) :
    readHeader src pos =
      if src.take magic.size = magic then
        match src[magic.size]? with
        | none => .error .truncated pos
        | some v =>
          if v = version then Leb128.read src (magic.size + 1)
          else .error (.unsupportedVersion v) pos
      else
        .error (if src.isPrefixOf magic then .truncated else .badMagic) pos := by
  unfold readHeader
  by_cases hmagic : src.take magic.size = magic
  · rw [if_pos hmagic, if_neg (fun h => h hmagic)]
    cases src[magic.size]? with
    | none => rfl
    | some v =>
      dsimp only
      by_cases hv : v = version
      · rw [if_pos hv, if_neg (fun h => h hv)]
        rfl
      · rw [if_neg hv, if_pos hv]
        rfl
  · rw [if_neg hmagic, if_pos hmagic]
    rfl

end Frame

end LzCodec
