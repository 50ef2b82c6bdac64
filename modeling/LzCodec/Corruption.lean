/-!
# Corruption

What can be wrong with a frame. Each cause has a stable name; two of them carry details that the
message adds to the name.
-/

namespace LzCodec

inductive Corruption where
  | badMagic
  | unsupportedVersion (version : UInt8)
  | truncated
  | varintOverflow
  | badCodeTable
  | badCodeword
  | lengthOutOfRange
  | distanceTooFar (distance available : Nat)
  | lengthOverrun
  | blockSizeMismatch
  | contentSizeMismatch
  | checksumMismatch
  | trailingData
  deriving DecidableEq, Repr

namespace Corruption

def name : Corruption → String
  | badMagic => "ERROR_bad_magic"
  | unsupportedVersion _ => "ERROR_unsupported_version"
  | truncated => "ERROR_truncated"
  | varintOverflow => "ERROR_varint_overflow"
  | badCodeTable => "ERROR_bad_huffman_table"
  | badCodeword => "ERROR_bad_huffman_code"
  | lengthOutOfRange => "ERROR_length_out_of_range"
  | distanceTooFar _ _ => "ERROR_distance_too_far"
  | lengthOverrun => "ERROR_length_overrun"
  | blockSizeMismatch => "ERROR_block_size_mismatch"
  | contentSizeMismatch => "ERROR_content_size_mismatch"
  | checksumMismatch => "ERROR_checksum_mismatch"
  | trailingData => "ERROR_trailing_data"

def message : Corruption → String
  | c@(unsupportedVersion version) => c.name ++ " (version " ++ toString version.toNat ++ ")"
  | c@(distanceTooFar distance available) =>
    c.name ++ " (distance " ++ toString distance ++ " with " ++ toString available ++
      " bytes decoded)"
  | c => c.name

end Corruption

end LzCodec
