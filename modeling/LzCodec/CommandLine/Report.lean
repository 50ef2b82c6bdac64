import LzCodec.Sizes
import LzCodec.Text.Decimal

/-!
# Report

What a call did, in sizes, ratio, speed and time. The content stands before the frame in both
directions, and speed counts the bytes of content.
-/

namespace LzCodec

inductive Direction where
  | encode
  | decode
  deriving DecidableEq, Repr

namespace Report

def arrow : Direction → String
  | .encode => "=>"
  | .decode => "<="

/-- The size of the content and the size of the frame. -/
def contentAndFrame (sizes : Sizes) : Direction → Nat × Nat
  | .encode => (sizes.source, sizes.target)
  | .decode => (sizes.target, sizes.source)

/-- Millions of bytes a second. -/
def speed (size : Nat) (seconds : Float) : Float :=
  if seconds > 0 then size.toUInt64.toFloat * 1e-6 / seconds else 0

def seconds (whole nanos : Nat) : Float := whole.toUInt64.toFloat + nanos.toUInt64.toFloat / 1e9

def text (sizes : Sizes) (direction : Direction) (seconds : Float) : String :=
  let (content, frame) := contentAndFrame sizes direction
  "statistics:\n" ++
  "  size:  " ++ toString content ++ " bytes " ++ arrow direction ++ " " ++ toString frame ++
    " bytes\n" ++
  "  ratio: " ++ Text.fixed 2 (Sizes.percent frame content) ++ "%\n" ++
  "  speed: " ++ Text.fixed 3 (speed content seconds) ++ " MB/s\n" ++
  "  time:  " ++ Text.fixed 3 seconds ++ " sec\n"

end Report

end LzCodec
