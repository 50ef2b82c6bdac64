/-!
# Byte strings

Sources, payloads and frames are arrays of bytes. Multi-byte words inside them are little-endian.
-/

namespace LzCodec

abbrev Bytes := Array UInt8

namespace Bytes

/-- The 32-bit word whose lowest byte stands at `pos`. -/
def word32 (data : Bytes) (pos : Nat) (h : pos + 4 ≤ data.size) : UInt32 :=
  data[pos].toUInt32 ||| data[pos + 1].toUInt32 <<< 8 |||
    data[pos + 2].toUInt32 <<< 16 ||| data[pos + 3].toUInt32 <<< 24

/-- The 64-bit word whose lowest byte stands at `pos`. -/
def word64 (data : Bytes) (pos : Nat) (h : pos + 8 ≤ data.size) : UInt64 :=
  (data.word32 pos (by omega)).toUInt64 |||
    (data.word32 (pos + 4) (by omega)).toUInt64 <<< 32

def pushWord32 (data : Bytes) (w : UInt32) : Bytes :=
  (((data.push w.toUInt8).push (w >>> 8).toUInt8).push (w >>> 16).toUInt8).push (w >>> 24).toUInt8

@[simp] theorem size_pushWord32 (data : Bytes) (w : UInt32) :
    (data.pushWord32 w).size = data.size + 4 := by
  simp [pushWord32]

end Bytes

end LzCodec
