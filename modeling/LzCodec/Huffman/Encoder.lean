import LzCodec.Bits.Writer
import LzCodec.Huffman.Canonical
import LzCodec.Limits

/-!
# Writing codewords and their table

Codewords follow from their lengths, so a table holds lengths only: the longest length, then for each
symbol in use how far it lies behind the one before and how much shorter its codeword is, then a zero.
-/

namespace LzCodec

namespace Huffman

structure Encoder where
  lengths : Array Nat
  codes : Array Nat

namespace Encoder

def ofLengths (lengths : Array Nat) : Encoder := ⟨lengths, canonicalCodes lengths⟩

def ofCounts (counts : Array Nat) : Encoder := ofLengths (codeLengths maxCodeLength counts)

/-- Writes the codeword of `symbol`, which is empty if it has none. -/
def put (e : Encoder) (w : BitWriter) (symbol : Nat) : BitWriter :=
  w.put (e.codes.getD symbol 0) (e.lengths.getD symbol 0)

def maxLength (e : Encoder) : Nat := e.lengths.foldl max 0

/-- Writes the entries of symbols that are at least `next`. -/
def putLeaves (maxLength next : Nat) (w : BitWriter) : List Leaf → BitWriter
  | [] => w
  | leaf :: rest =>
    putLeaves maxLength (leaf.symbol + 1)
      ((w.putVarint (leaf.symbol + 1 - next)).putVarint (maxLength - leaf.length)) rest

def putTable (e : Encoder) (w : BitWriter) : BitWriter :=
  (putLeaves e.maxLength 0 (w.putVarint e.maxLength) (leaves e.lengths)).putVarint 0

end Encoder

end Huffman

end LzCodec
