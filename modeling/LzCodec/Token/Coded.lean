import LzCodec.Limits
import LzCodec.Slot
import LzCodec.Token

/-!
# Coded tokens

Literal bytes and the slots of lengths share one alphabet, the slots of distances form a second one.
A coded block counts the symbols of its tokens as they come in.
-/

namespace LzCodec

inductive CodedToken where
  | literal (byte : UInt8)
  | copy (length distance : SlotCode)
  deriving DecidableEq, Repr

/-- The symbols below this are literal bytes, those from here on are slots of lengths. -/
def firstLengthSymbol : Nat := 256

/-- The size of the alphabet of literals and lengths. -/
def litLenSymbols : Nat := 288

/-- The size of the alphabet of distances. -/
def distSymbols : Nat := 48

/-- A length is coded by how far it exceeds the shortest one, a distance likewise. -/
def Token.code : Token → CodedToken
  | literal byte => .literal byte
  | copy length distance => .copy (Slot.encode (length - minMatch)) (Slot.encode (distance - 1))

namespace CodedToken

def litLenSymbol : CodedToken → Nat
  | literal byte => byte.toNat
  | copy length _ => firstLengthSymbol + length.slot

def distSymbol? : CodedToken → Option Nat
  | literal _ => none
  | copy _ distance => some distance.slot

end CodedToken

structure CodedBlock where
  tokens : Array CodedToken := #[]
  /-- How often each symbol of literals and lengths occurs. -/
  litLenCounts : Array Nat := Array.replicate litLenSymbols 0
  /-- How often each symbol of distances occurs. -/
  distCounts : Array Nat := Array.replicate distSymbols 0

namespace CodedBlock

def push (block : CodedBlock) (token : Token) : CodedBlock :=
  match block with
  | ⟨tokens, litLenCounts, distCounts⟩ =>
    let coded := token.code
    ⟨tokens.push coded, litLenCounts.modify coded.litLenSymbol (· + 1),
      match coded.distSymbol? with
      | none => distCounts
      | some symbol => distCounts.modify symbol (· + 1)⟩

def clear (_ : CodedBlock) : CodedBlock := {}

def ofTokens (tokens : Array Token) : CodedBlock := tokens.foldl push {}

/-- Holds these tokens instead of the ones it held. -/
def recount (block : CodedBlock) (tokens : Array Token) : CodedBlock := tokens.foldl push block.clear

theorem recount_eq (block : CodedBlock) (tokens : Array Token) : block.recount tokens = ofTokens tokens :=
  rfl

end CodedBlock

end LzCodec
