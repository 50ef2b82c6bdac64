import LzCodec.Limits

/-!
# Tokens

A source is written as literal bytes and as copies of bytes that stand `distance` back.
-/

namespace LzCodec

inductive Token where
  | literal (byte : UInt8)
  | copy (length distance : Nat)
  deriving DecidableEq, Repr

/-- A repeat of what stands `distance` back. -/
structure Match where
  distance : Nat
  length : Nat
  deriving DecidableEq, Repr

namespace Token

/-- The number of bytes that the token stands for. -/
def size : Token → Nat
  | literal _ => 1
  | copy length _ => length

/-- The number of bytes that the tokens stand for. -/
def totalSize (tokens : Array Token) : Nat := tokens.foldl (fun n t => n + t.size) 0

end Token

def Match.token (m : Match) : Token := .copy m.length m.distance

end LzCodec
