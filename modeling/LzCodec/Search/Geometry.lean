import LzCodec.Limits
import LzCodec.Powers

/-!
# Geometry of the index

The window is the size of the source rounded up to a power of two, within bounds, and there are about
`2 ^ bucketLog` positions of a full window to a bucket.
-/

namespace LzCodec

structure Geometry where
  /-- One more than the largest distance. -/
  window : Nat
  hashLog : Nat
  window_pos : 0 < window
  hashLog_le : hashLog ≤ 32

namespace Geometry

/-- The smallest exponent whose power of two is at least `n`. -/
def ceilLog (n : Nat) : Nat := if n < 2 then 0 else (n - 1).log2 + 1

theorem le_two_pow_ceilLog (n : Nat) : n ≤ 2 ^ ceilLog n := by
  unfold ceilLog
  split
  · omega
  · have := Nat.lt_log2_self (n := n - 1)
    omega

def windowLog (size : Nat) : Nat := min maxWindowLog (max minWindowLog (ceilLog size))

def ofSize (size : Nat) : Geometry where
  window := 2 ^ windowLog size
  hashLog := min maxHashLog (max minHashLog (windowLog size - bucketLog))
  window_pos := Nat.two_pow_pos _
  hashLog_le := by simp only [maxHashLog]; omega

def maxDistance (g : Geometry) : Nat := g.window - 1

end Geometry

end LzCodec
