import LzCodec.Huffman.Lengths
import LzCodec.Powers

/-!
# Canonical codewords

Codewords are given out in order of length and, among equal lengths, in order of symbol. Each is the
one before it plus one, with zeros appended up to its own length; the first one is all zeros.
-/

namespace LzCodec

namespace Huffman

/-- The symbols that have a codeword, in order. -/
def leaves (lengths : Array Nat) : List Leaf :=
  lengths.toList.zipIdx.filterMap fun (length, symbol) =>
    if length = 0 then none else some ⟨symbol, length⟩

def Leaf.precedes (a b : Leaf) : Bool :=
  a.length < b.length || (a.length == b.length && a.symbol ≤ b.symbol)

def canonicalOrder (lengths : Array Nat) : List Leaf := (leaves lengths).mergeSort Leaf.precedes

structure Codeword extends Leaf where
  code : Nat
  deriving DecidableEq, Repr

/-- Gives out codewords from `next`, a number of `width` bits. -/
def assign (next width : Nat) : List Leaf → List Codeword
  | [] => []
  | leaf :: rest =>
    let code := next * 2 ^ (leaf.length - width)
    ⟨leaf, code⟩ :: assign (code + 1) leaf.length rest

def codewords (lengths : Array Nat) : List Codeword := assign 0 0 (canonicalOrder lengths)

/-- The code of each symbol in sixteen bits; 0 where a symbol has none. -/
def canonicalCodes (lengths : Array Nat) : Array Nat :=
  (codewords lengths).foldl (fun codes w => codes.setIfInBounds w.symbol (w.code % 65536))
    (Array.replicate lengths.size 0)

end Huffman

end LzCodec
