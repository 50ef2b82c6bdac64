import LzCodec.Bytes

/-!
# Content checksum

XXH32 with seed 0. Sixteen bytes at a time go through four lanes, then the rest in words of four
bytes, then byte by byte, and three multiplications spread the result over all bits.
-/

namespace LzCodec

namespace Checksum

def prime1 : UInt32 := 2654435761
def prime2 : UInt32 := 2246822519
def prime3 : UInt32 := 3266489917
def prime4 : UInt32 := 668265263
def prime5 : UInt32 := 374761393

def rotateLeft (x : UInt32) (n : UInt32) : UInt32 := x <<< n ||| x >>> (32 - n)

structure Lanes where
  a : UInt32 := prime1 + prime2
  b : UInt32 := prime2
  c : UInt32 := 0
  d : UInt32 := 0 - prime1

namespace Lanes

def stir (lane word : UInt32) : UInt32 := rotateLeft (lane + word * prime2) 13 * prime1

def merge (lanes : Lanes) : UInt32 :=
  rotateLeft lanes.a 1 + rotateLeft lanes.b 7 + rotateLeft lanes.c 12 + rotateLeft lanes.d 18

/-- The lanes after all full stripes from `pos` on, and where the last one ends. -/
def absorb (lanes : Lanes) (data : Bytes) (pos : Nat) : Lanes × Nat :=
  if h : pos + 16 ≤ data.size then
    absorb ⟨stir lanes.a (data.word32 pos (by omega)),
      stir lanes.b (data.word32 (pos + 4) (by omega)),
      stir lanes.c (data.word32 (pos + 8) (by omega)),
      stir lanes.d (data.word32 (pos + 12) (by omega))⟩ data (pos + 16)
  else
    (lanes, pos)
termination_by data.size - pos

end Lanes

/-- Adds what is left from `pos` on: words first, then single bytes. -/
def absorbRest (data : Bytes) (acc : UInt32) (pos : Nat) : UInt32 :=
  if h : pos + 4 ≤ data.size then
    absorbRest data (rotateLeft (acc + data.word32 pos h * prime3) 17 * prime4) (pos + 4)
  else if h : pos < data.size then
    absorbRest data (rotateLeft (acc + data[pos].toUInt32 * prime5) 11 * prime1) (pos + 1)
  else
    acc
termination_by data.size - pos

def avalanche (x : UInt32) : UInt32 :=
  let x := (x ^^^ x >>> 15) * prime2
  let x := (x ^^^ x >>> 13) * prime3
  x ^^^ x >>> 16

end Checksum

/-- The checksum of the content, as it stands at the end of a frame. -/
def checksum (data : Bytes) : UInt32 :=
  let size := data.size.toUInt32
  if data.size < 16 then
    Checksum.avalanche (Checksum.absorbRest data (Checksum.prime5 + size) 0)
  else
    let (lanes, pos) := Checksum.Lanes.absorb {} data 0
    Checksum.avalanche (Checksum.absorbRest data (lanes.merge + size) pos)

end LzCodec
