/-!
# Sizes

How many bytes a call read and wrote.
-/

namespace LzCodec

structure Sizes where
  source : Nat
  target : Nat
  deriving DecidableEq, Repr

namespace Sizes

/-- How many hundredths of `whole` a `part` is; 0 of nothing. -/
def percent (part whole : Nat) : Float :=
  if whole = 0 then 0 else part.toUInt64.toFloat * 100 / whole.toUInt64.toFloat

def ratioPercent (s : Sizes) : Float := percent s.target s.source

end Sizes

end LzCodec
