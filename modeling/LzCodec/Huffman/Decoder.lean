import LzCodec.Bits.Reader
import LzCodec.Huffman.Canonical
import LzCodec.Limits

/-!
# Reading codewords and their table

The decoder looks up the next `width` bits, as many as the longest codeword has. In canonical order
the codewords divide these windows into consecutive runs that start at zero; windows behind the last
run belong to no symbol.
-/

namespace LzCodec

namespace Huffman

/-- The number of windows of `width` bits that start with a codeword of one of the leaves. -/
def windows (width : Nat) (leaves : List Leaf) : Nat :=
  leaves.foldr (fun leaf n => 2 ^ (width - leaf.length) + n) 0

structure Decoder where
  width : Nat
  /-- The leaf whose codeword a window starts with. -/
  table : Array Leaf

namespace Decoder

def ofLengths (lengths : Array Nat) : Except Corruption Decoder :=
  let width := lengths.foldl max 0
  let order := canonicalOrder lengths
  if maxCodeLength < width ∨ 2 ^ width < windows width order then
    .error .badCodeTable
  else
    .ok ⟨width, order.foldl
      (fun table leaf => table ++ Array.replicate (2 ^ (width - leaf.length)) leaf) #[]⟩

/-- Reads the entries of symbols from `next` on. -/
def readLengths (width size next : Nat) (lengths : Vector Nat size) :
    BitParser (Vector Nat size) := do
  match ← BitReader.getVarint with
  | 0 => return lengths
  | delta + 1 =>
    if h : next + delta < size then
      let short ← BitReader.getVarint
      if width ≤ short then
        throw .badCodeTable
      readLengths width size (next + delta + 1) (lengths.set (next + delta) (width - short))
    else
      throw .badCodeTable
termination_by size - next

/-- Reads the table of an alphabet of `size` symbols. -/
def read (size : Nat) : BitParser Decoder := do
  let width ← BitReader.getVarint
  if maxCodeLength < width then
    throw .badCodeTable
  let lengths ← readLengths width size 0 (Vector.replicate size 0)
  match ofLengths lengths.toArray with
  | .ok decoder => return decoder
  | .error e => throw e

/-- Reads one symbol, as a number of sixteen bits. -/
def decode (d : Decoder) : BitParser Nat := do
  match d.table[(← get).peek d.width]? with
  | none => throw .badCodeword
  | some leaf =>
    BitReader.skip leaf.length
    return leaf.symbol % 65536

end Decoder

end Huffman

end LzCodec
