import LzCodec.Huffman.Decoder
import LzCodec.Huffman.Encoder
import LzCodec.Replay
import LzCodec.Token.Coded

/-!
# Block payloads

A payload holds the table of literals and lengths, the table of distances, and then the tokens: each
symbol is followed by the extra bits of its slot, a length by its distance.
-/

namespace LzCodec

namespace Block

def putToken (litLen dist : Huffman.Encoder) (w : BitWriter) : CodedToken → BitWriter
  | .literal byte => litLen.put w byte.toNat
  | .copy length distance =>
    let w := (litLen.put w (firstLengthSymbol + length.slot)).put length.extra length.width
    (dist.put w distance.slot).put distance.extra distance.width

def pack (block : CodedBlock) : Bytes :=
  let litLen := Huffman.Encoder.ofCounts block.litLenCounts
  let dist := Huffman.Encoder.ofCounts block.distCounts
  (block.tokens.foldl (putToken litLen dist) (dist.putTable (litLen.putTable {}))).finish

/-- Reads the number whose slot is `slot`. -/
def readSlot (slot : Nat) : BitParser Nat := do
  return Slot.base slot + (← BitReader.get (Slot.width slot))

def readToken (litLen dist : Huffman.Decoder) : BitParser Token := do
  let symbol ← litLen.decode
  if symbol < firstLengthSymbol then
    return .literal symbol.toUInt8
  let length := (← readSlot (symbol - firstLengthSymbol)) + minMatch
  if maxMatch < length then
    throw .lengthOutOfRange
  let distance := (← readSlot (← dist.decode)) + 1
  return .copy length distance

/-- Applies the next `count` tokens, which must be the last of the payload. -/
def unpackTokens (litLen dist : Huffman.Decoder) (count : Nat) (r : BitReader) : Replay Unit :=
  match count with
  | 0 =>
    match r.finish with
    | .ok _ => pure ()
    | .error e => throw e
  | count + 1 =>
    match readToken litLen dist r with
    | .error e _ => throw e
    | .ok token r => do
      Output.apply token
      unpackTokens litLen dist count r

/-- Applies the `count` tokens of a payload. -/
def unpack (payload : Bytes) (count : Nat) : Replay Unit :=
  match Huffman.Decoder.read litLenSymbols { data := payload } with
  | .error e _ => throw e
  | .ok litLen r =>
    match Huffman.Decoder.read distSymbols r with
    | .error e _ => throw e
    | .ok dist r => unpackTokens litLen dist count r

end Block

end LzCodec
