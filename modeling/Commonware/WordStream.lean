/-
**Bytes as field elements.**

The bytes of the data are read as words of 64 bits (`iter_u64_le` of `coding/src/zoda.rs`), and these
are cut into elements of 63 bits (`stream_from_u64s` of `math/src/fields/goldilocks.rs`), which are
canonical.  The bytes are a number, of which the words and the elements are the digits.

Main definitions:

* `iterU64Le`, `streamFromU64s` — the elements of some bytes;
* `streamToU64s`, `collectU64Le` — the bytes of some elements.
-/

import Commonware.BitRepack
import Commonware.Goldilocks
import Commonware.WireCodec

set_option autoImplicit false

namespace Commonware.WordStream

open Goldilocks Repack
open Wire (Bytes)

/-! ### Functions -/

/-- The number of some bytes, the lowest one first. -/
def leNat (bytes : Bytes) : ℕ := Nat.ofDigits (2 ^ 8) (bytes.map UInt8.toNat)

/-- Words of eight bytes; the last one is filled up with zeros. -/
def iterU64Le (data : Bytes) : List UInt64 :=
  if data = [] then []
  else UInt64.ofNat (leNat (data.take 8)) :: iterU64Le (data.drop 8)
termination_by data.length
decreasing_by
  have hpos := List.length_pos_iff.2 ‹_›
  rw [List.length_drop]
  omega

def toLeBytes (w : UInt64) : Bytes :=
  (List.range 8).map fun i => UInt8.ofNat (w.toNat / 2 ^ (8 * i))

def collectU64Le (maxLength : ℕ) (data : List UInt64) : Bytes :=
  (data.flatMap toLeBytes).take maxLength

/-- Elements of 63 bits. -/
def streamFromU64s (inner : List UInt64) : List F :=
  (repack 64 (b := 63) (by omega) 0 0 (inner.map UInt64.toNat)).map fun x => ⟨UInt64.ofNat x⟩

/-- Words of the lowest 63 bits of the elements. -/
def streamToU64s (inner : List F) : List UInt64 :=
  (repack 63 (b := 64) (by omega) 0 0 (inner.map fun x => x.toNat % 2 ^ 63)).map UInt64.ofNat

/-- How many elements there are for some bits. -/
def bitsToElements (bits : ℕ) : ℕ := (bits + 62) / 63

end Commonware.WordStream
