/-!
# Limits

The bounds that the search, the parse and the frame agree on.
-/

namespace LzCodec

/-- A repeat shorter than this is written as literals. -/
def minMatch : Nat := 4

/-- The longest repeat that one token carries. -/
def maxMatch : Nat := 65536

/-- The smallest window, in which a repeat is searched, has `2 ^ minWindowLog` bytes. -/
def minWindowLog : Nat := 12

/-- The largest window has `2 ^ maxWindowLog` bytes. -/
def maxWindowLog : Nat := 24

/-- There are at least `2 ^ minHashLog` hash buckets. -/
def minHashLog : Nat := 12

/-- There are at most `2 ^ maxHashLog` hash buckets. -/
def maxHashLog : Nat := 20

/-- With a full window, a bucket holds `2 ^ bucketLog` positions on average. -/
def bucketLog : Nat := 4

/-- A repeat of at least this length is taken without looking ahead. -/
def longMatch : Nat := 128

/-- A distance with fewer extra bits than this counts as cheap. -/
def cheapBits : Nat := 8

/-- The most tokens that share one pair of code tables. -/
def blockTokens : Nat := 1048576

/-- The longest codeword of a code table. -/
def maxCodeLength : Nat := 15

end LzCodec
