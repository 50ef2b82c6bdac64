import LzCodec.Bytes
import LzCodec.Powers

/-!
# Repeats

How long two places of a source agree, and the bucket that their first four bytes put them in.
-/

namespace LzCodec

namespace Bytes

/-- The number of bytes, at most `limit`, in which the places `earlier` and `later` agree, where the
first `n` are known to. -/
def agreeFrom (src : Bytes) (earlier later limit : Nat) (h : earlier < later)
    (hl : later + limit ≤ src.size) (n : Nat) : Nat :=
  if hn : n < limit then
    if src[earlier + n] == src[later + n] then
      agreeFrom src earlier later limit h hl (n + 1)
    else
      n
  else
    limit
termination_by limit - n

/-- The number of bytes, at most `limit`, in which the places `earlier` and `later` agree. -/
def agree (src : Bytes) (earlier later limit : Nat) (h : earlier < later)
    (hl : later + limit ≤ src.size) : Nat :=
  agreeFrom src earlier later limit h hl 0

/-- The bucket of the four bytes at `pos`, one of `2 ^ log`: the top bits of their product with a
prime near the golden section of the 32-bit range. -/
def bucket (src : Bytes) (log pos : Nat) (h : pos + 4 ≤ src.size) : Nat :=
  (src.word32 pos h * 2654435761).toNat >>> (32 - log)

theorem bucket_lt (src : Bytes) {log : Nat} (pos : Nat) (h : pos + 4 ≤ src.size)
    (hlog : log ≤ 32) : src.bucket log pos h < 2 ^ log := by
  rw [bucket, Nat.shiftRight_eq_div_pow]
  apply Nat.div_lt_of_lt_mul
  rw [← Nat.pow_add, Nat.sub_add_cancel hlog]
  exact UInt32.toNat_lt _

end Bytes

end LzCodec
