/-!
# Partition of a key

Records with one key go to one partition: the key's SipHash-1-3 under the zero key, modulo the
number of partitions. A marker byte that no UTF-8 text contains ends the hashed bytes.

## Main definitions

* `SipHash.hash`: one round per eight bytes, three rounds at the end
* `partitionFor`: the partition of a key
-/

namespace WorkQueue

namespace SipHash

/-- The four words of the hash. -/
structure State where
  v0 : UInt64
  v1 : UInt64
  v2 : UInt64
  v3 : UInt64

/-- Rotate a word to the left by `n` bits, `0 < n < 64`. -/
def rotate (x : UInt64) (n : UInt64) : UInt64 := (x <<< n) ||| (x >>> (64 - n))

/-- The state under the zero key. -/
def initial : State where
  v0 := 0x736f6d6570736575
  v1 := 0x646f72616e646f6d
  v2 := 0x6c7967656e657261
  v3 := 0x7465646279746573

/-- One mixing round. -/
def round (s : State) : State :=
  let v0 := s.v0 + s.v1
  let v1 := rotate s.v1 13 ^^^ v0
  let v0 := rotate v0 32
  let v2 := s.v2 + s.v3
  let v3 := rotate s.v3 16 ^^^ v2
  let v0 := v0 + v3
  let v3 := rotate v3 21 ^^^ v0
  let v2 := v2 + v1
  let v1 := rotate v1 17 ^^^ v2
  let v2 := rotate v2 32
  ⟨v0, v1, v2, v3⟩

/-- Mix one word in. -/
def absorb (s : State) (word : UInt64) : State :=
  let s := round { s with v3 := s.v3 ^^^ word }
  { s with v0 := s.v0 ^^^ word }

/-- The little-endian word of up to eight bytes. -/
def wordOf (bytes : List UInt8) : UInt64 :=
  bytes.foldr (fun b word => (word <<< 8) ||| b.toUInt64) 0

/-- Mix all bytes in, eight at a time; the last word carries the length in its top byte. -/
def absorbAll (length : Nat) (s : State) (bytes : List UInt8) : State :=
  match bytes with
  | b0 :: b1 :: b2 :: b3 :: b4 :: b5 :: b6 :: b7 :: rest =>
    absorbAll length (absorb s (wordOf [b0, b1, b2, b3, b4, b5, b6, b7])) rest
  | rest => absorb s (wordOf rest ||| (length.toUInt64 <<< 56))

/-- The hash of a list of bytes under the zero key. -/
def hash (bytes : List UInt8) : UInt64 :=
  let s := absorbAll bytes.length initial bytes
  let s := round (round (round { s with v2 := s.v2 ^^^ 0xff }))
  s.v0 ^^^ s.v1 ^^^ s.v2 ^^^ s.v3

end SipHash

/-- The partition of a key among `partitions`, at least one. -/
def partitionFor (key : String) (partitions : Int) : Int :=
  let count := (max partitions 1).toNat
  let digest := SipHash.hash (key.toUTF8.data.toList ++ [0xff])
  ((digest.toNat % count : Nat) : Int)

/-- A partition number is in range. -/
theorem partitionFor_mem (key : String) {partitions : Int} (h : 0 < partitions) :
    0 ≤ partitionFor key partitions ∧ partitionFor key partitions < partitions := by
  have hpos : 0 < (max partitions 1).toNat := by omega
  have := Nat.mod_lt (SipHash.hash (key.toUTF8.data.toList ++ [0xff])).toNat hpos
  simp only [partitionFor]
  omega

end WorkQueue
