/-
**Bitmaps that can be pruned.**

A bitmap keeps its bits in chunks of bytes, and the last chunk can be partial
(`utils/src/bitmap/mod.rs`).  A prunable bitmap drops chunks at its front and counts the chunks that
it has dropped, so that a bit keeps its index (`utils/src/bitmap/prunable.rs`).  A call that panics
has no result.

Main definitions:

* `ChunkSize`, `Chunk` — chunks of bytes;
* `BitMap` — bits in chunks, with a chunk for every bit and no other one;
* `Prunable` — a bitmap without its first chunks;
* `Retains` — what a prunable bitmap keeps of the bitmap that was never pruned.

Main results:

* `getFromChunk_setInChunk` — **what setting a bit does to the bits of a chunk**;
* `Retains.push`, `Retains.setBit`, `Retains.pruneToBit` — a prunable bitmap does what the bitmap
  does that is never pruned.
-/

import Mathlib.Data.Nat.Bitwise
import Mathlib.Data.List.Basic
import Mathlib.Tactic.Ring

set_option autoImplicit false

namespace Commonware.Bits

/-! ### Chunks -/

/-- The number of bytes of a chunk.  There is at least one, and 64 bits count the bits. -/
structure ChunkSize where
  bytes : ℕ
  pos : 0 < bytes
  bits_lt : bytes * 8 < 2 ^ 64

def ChunkSize.bits (N : ChunkSize) : ℕ := N.bytes * 8

theorem ChunkSize.bits_pos (N : ChunkSize) : 0 < N.bits := Nat.mul_pos N.pos (by norm_num)

abbrev Chunk (N : ChunkSize) := Vector UInt8 N.bytes

variable {N : ChunkSize}

variable (N) in
def emptyChunk : Chunk N := Vector.replicate N.bytes 0

def chunkByteBitmask (bit : ℕ) : UInt8 := 1 <<< UInt8.ofNat (bit % 8)

variable (N) in
/-- The index of the byte of a bit in its chunk. -/
def chunkByteOffset (bit : ℕ) : Fin N.bytes := ⟨bit / 8 % N.bytes, Nat.mod_lt _ N.pos⟩

variable (chunk : Chunk N)

/-- A bit of a chunk, by its index in the whole bitmap. -/
def getFromChunk (bit : ℕ) : Bool :=
  chunk.get (chunkByteOffset N bit) &&& chunkByteBitmask bit != 0

/-- A chunk with one bit changed. -/
def setInChunk (bit : ℕ) (value : Bool) : Chunk N :=
  let byte := chunk.get (chunkByteOffset N bit)
  let mask := chunkByteBitmask bit
  chunk.set (chunkByteOffset N bit) (if value then byte ||| mask else byte &&& ~~~ mask)

theorem toNat_bitmask (bit : ℕ) : (chunkByteBitmask bit).toNat = 2 ^ (bit % 8) := by
  have hlt : bit % 8 < 8 := Nat.mod_lt _ (by norm_num)
  have hp : 2 ^ (bit % 8) < 2 ^ 8 := Nat.pow_lt_pow_right (by norm_num) hlt
  have hby : bit % 8 % 2 ^ 8 = bit % 8 := by omega
  rw [chunkByteBitmask, UInt8.toNat_shiftLeft, UInt8.toNat_ofNat', hby]
  simp only [UInt8.toNat_one, Nat.shiftLeft_eq, one_mul, Nat.mod_mod]
  exact Nat.mod_eq_of_lt hp

/-- A masked byte is not zero if it has the bit. -/
theorem and_bitmask (byte : UInt8) (bit : ℕ) :
    (byte &&& chunkByteBitmask bit != 0) = byte.toNat.testBit (bit % 8) := by
  have ha : (byte &&& chunkByteBitmask bit).toNat =
      (byte.toNat.testBit (bit % 8)).toNat * 2 ^ (bit % 8) := by
    rw [UInt8.toNat_and, toNat_bitmask, Nat.and_two_pow]
  cases ht : byte.toNat.testBit (bit % 8) with
  | false =>
    rw [ht, Bool.toNat_false, zero_mul] at ha
    rw [bne_eq_false_iff_eq]
    exact UInt8.toNat_inj.1 ha
  | true =>
    rw [ht, Bool.toNat_true, one_mul] at ha
    rw [bne_iff_ne]
    intro hz
    rw [hz] at ha
    exact (Nat.two_pow_pos (bit % 8)).ne ha

theorem testBit_setByte (byte : UInt8) (bit i : ℕ) (hi : i < 8) (value : Bool) :
    (if value then byte ||| chunkByteBitmask bit
      else byte &&& ~~~ chunkByteBitmask bit).toNat.testBit i =
      if bit % 8 = i then value else byte.toNat.testBit i := by
  cases value with
  | true =>
    rw [if_pos rfl, UInt8.toNat_or, toNat_bitmask, Nat.testBit_or, Nat.testBit_two_pow]
    by_cases heq : bit % 8 = i
    · simp [heq]
    · simp [heq]
  | false =>
    have hp : 2 ^ (bit % 8) < 2 ^ 8 := Nat.pow_lt_pow_right (by norm_num) (by omega)
    have hnt : (~~~ chunkByteBitmask bit).toNat = 2 ^ 8 - (2 ^ (bit % 8) + 1) := by
      rw [UInt8.toNat_not, toNat_bitmask, Nat.sub_sub, add_comm 1]
      rfl
    rw [if_neg (by simp), UInt8.toNat_and, hnt, Nat.testBit_and,
      Nat.testBit_two_pow_sub_succ hp, Nat.testBit_two_pow]
    by_cases heq : bit % 8 = i
    · simp [heq]
    · simp [heq, hi]

variable {bit bit' : ℕ}

/-- A bit of a chunk is given by its byte and by its place in the byte. -/
theorem mod_bits_eq_iff : bit % N.bits = bit' % N.bits ↔
    chunkByteOffset N bit = chunkByteOffset N bit' ∧ bit % 8 = bit' % 8 := by
  have hpr : ∀ a, a % N.bits = a % 8 + 8 * (a / 8 % N.bytes) := fun a => by
    rw [ChunkSize.bits, mul_comm, Nat.mod_mul]
  rw [hpr, hpr, chunkByteOffset, chunkByteOffset, Fin.mk.injEq]
  omega

/-- **What setting a bit does to the bits of a chunk.** -/
theorem getFromChunk_setInChunk (bit bit' : ℕ) (value : Bool) :
    getFromChunk (setInChunk chunk bit value) bit' =
      if bit % N.bits = bit' % N.bits then value else getFromChunk chunk bit' := by
  rw [getFromChunk, getFromChunk, and_bitmask, and_bitmask, setInChunk]
  by_cases hby : chunkByteOffset N bit = chunkByteOffset N bit'
  · have hg : ∀ (i : Fin N.bytes) (x : UInt8), (chunk.set i x).get i = x := fun i x => by
      change (chunk.set i x)[i] = x
      simp
    rw [← hby, hg, testBit_setByte _ _ _ (Nat.mod_lt _ (by norm_num))]
    exact if_congr (mod_bits_eq_iff.trans (and_iff_right hby)).symm rfl rfl
  · have hg : ∀ x : UInt8, (chunk.set (chunkByteOffset N bit) x).get (chunkByteOffset N bit') =
        chunk.get (chunkByteOffset N bit') := fun x =>
      Vector.getElem_set_ne _ _ fun h => hby (Fin.ext h)
    rw [hg, if_neg fun h => hby (mod_bits_eq_iff.1 h).1]

theorem setInChunk_congr (h : bit % N.bits = bit' % N.bits) (value : Bool) :
    setInChunk chunk bit value = setInChunk chunk bit' value := by
  obtain ⟨hof, hm⟩ := mod_bits_eq_iff.1 h
  simp only [setInChunk, chunkByteBitmask, hof, hm]

theorem getFromChunk_empty (bit : ℕ) : getFromChunk (emptyChunk N) bit = false := by
  rw [getFromChunk, and_bitmask]
  simp [emptyChunk, Vector.get]

/-! ### Bitmaps -/

open List

/-- Bits in chunks.  There is a chunk for every bit and no other one, and what is behind the last
bit is 0. -/
@[ext] structure BitMap (N : ChunkSize) where
  chunks : List (Chunk N)
  len : ℕ
  lt_length_iff : ∀ i, i < chunks.length ↔ i * N.bits < len
  zero_of_le : ∀ i chunk, chunks[i]? = some chunk → ∀ bit < N.bits, len ≤ i * N.bits + bit →
    getFromChunk chunk bit = false

namespace BitMap

variable (b : BitMap N)

theorem le_length_iff (i : ℕ) : b.chunks.length ≤ i ↔ b.len ≤ i * N.bits := by
  rw [← Nat.not_lt, b.lt_length_iff, Nat.not_lt]

theorem length_of_aligned (h : b.len % N.bits = 0) : b.chunks.length = b.len / N.bits := by
  have hlen : b.len / N.bits * N.bits = b.len := Nat.div_mul_cancel (Nat.dvd_of_mod_eq_zero h)
  refine le_antisymm ((b.le_length_iff _).2 hlen.ge) ?_
  by_contra hlt
  have := (b.le_length_iff b.chunks.length).1 le_rfl
  rw [← hlen] at this
  exact hlt (Nat.le_of_mul_le_mul_right this N.bits_pos)

theorem length_of_not_aligned (h : b.len % N.bits ≠ 0) : b.chunks.length = b.len / N.bits + 1 := by
  have hsp := Nat.div_add_mod' b.len N.bits
  have hm := Nat.mod_lt b.len N.bits_pos
  refine le_antisymm ((b.le_length_iff _).2 ?_) ((b.lt_length_iff _).2 (by omega))
  rw [add_mul]
  omega

def new : BitMap N where
  chunks := []
  len := 0
  lt_length_iff := fun i => by simp
  zero_of_le := fun i chunk h => by simp at h

def isChunkAligned : Bool := decide (b.len % N.bits = 0)

def getChunkContaining (bit : ℕ) : Option (Chunk N) :=
  if bit < b.len then b.chunks[bit / N.bits]? else none

def getChunk (chunk : ℕ) : Option (Chunk N) := b.chunks[chunk]?

def get (bit : ℕ) : Option Bool :=
  (b.getChunkContaining bit).map fun chunk => getFromChunk chunk bit

/-- The last chunk, and the number of its bits. -/
def lastChunk : Option (Chunk N × ℕ) :=
  b.chunks.getLast?.map fun chunk =>
    (chunk, if b.len % N.bits = 0 then N.bits else b.len % N.bits)

/-- The chunks with room for one more bit. -/
def room : List (Chunk N) :=
  if b.len % N.bits = 0 then b.chunks ++ [emptyChunk N] else b.chunks

theorem length_room : b.room.length = b.len / N.bits + 1 := by
  rw [room]
  split_ifs with h
  · rw [length_append, length_singleton, b.length_of_aligned h]
  · exact b.length_of_not_aligned h

theorem lt_length_room_iff (i : ℕ) : i < b.room.length ↔ i * N.bits < b.len + 1 := by
  rw [length_room, Nat.lt_succ_iff, Nat.lt_succ_iff, Nat.le_div_iff_mul_le N.bits_pos]

variable {i : ℕ}

theorem zero_of_room {chunk : Chunk N} (h : b.room[i]? = some chunk)
    (hb : bit < N.bits) (hle : b.len ≤ i * N.bits + bit) : getFromChunk chunk bit = false := by
  rw [room] at h
  split_ifs at h with hal
  · rw [getElem?_append] at h
    split_ifs at h with hlt
    · exact b.zero_of_le i chunk h bit hb hle
    · have hmem := mem_of_getElem? h
      rw [mem_singleton.1 hmem]
      exact getFromChunk_empty bit
  · exact b.zero_of_le i chunk h bit hb hle

variable {value : Bool}

/-- The bits behind the last one stay 0 if a chunk is changed at a bit before them. -/
theorem zero_of_modify {chunks : List (Chunk N)} {len : ℕ}
    (hz : ∀ i chunk, chunks[i]? = some chunk → ∀ j < N.bits, len ≤ i * N.bits + j →
      getFromChunk chunk j = false) (hb : bit < len) {chunk : Chunk N}
    (h : (chunks.modify (bit / N.bits) fun chunk => setInChunk chunk bit value)[i]? = some chunk)
    {j : ℕ} (hj : j < N.bits) (hle : len ≤ i * N.bits + j) : getFromChunk chunk j = false := by
  rw [getElem?_modify, Option.map_eq_map, Option.map_eq_some_iff] at h
  obtain ⟨old, hol, rfl⟩ := h
  have hr := hz i old hol j hj hle
  split_ifs with hi
  · rw [getFromChunk_setInChunk, if_neg, hr]
    rw [Nat.mod_eq_of_lt hj]
    rintro rfl
    have := Nat.div_add_mod' bit N.bits
    rw [hi] at this
    omega
  · exact hr

def push (bit : Bool) : BitMap N where
  chunks := if bit then b.room.modify (b.room.length - 1) fun chunk => setInChunk chunk b.len true
    else b.room
  len := b.len + 1
  lt_length_iff := fun i => by
    rw [← b.lt_length_room_iff]
    split_ifs
    · rw [length_modify]
    · rfl
  zero_of_le := fun i chunk h j hj hle => by
    have hroom : ∀ i chunk, b.room[i]? = some chunk → ∀ j < N.bits, b.len + 1 ≤ i * N.bits + j →
        getFromChunk chunk j = false := fun i chunk h j hj hle => b.zero_of_room h hj (by omega)
    split_ifs at h
    · rw [length_room, Nat.add_sub_cancel] at h
      exact zero_of_modify hroom (Nat.lt_succ_self _) h hj hle
    · exact hroom i chunk h j hj hle

def set (bit : ℕ) (value : Bool) : Option (BitMap N) :=
  if hlt : bit < b.len then
    some {
      chunks := b.chunks.modify (bit / N.bits) fun chunk => setInChunk chunk bit value
      len := b.len
      lt_length_iff := fun i => by rw [length_modify, b.lt_length_iff]
      zero_of_le := fun i chunk h j hj hle => zero_of_modify b.zero_of_le hlt h hj hle }
  else none

/-- Drops chunks at the front, if there are as many. -/
def pruneChunks (chunks : ℕ) : Option (BitMap N) :=
  if chunks ≤ b.chunks.length then
    some {
      chunks := b.chunks.drop chunks
      len := b.len - chunks * N.bits
      lt_length_iff := fun i => by
        rw [length_drop, Nat.lt_sub_iff_add_lt, b.lt_length_iff, add_mul]
        omega
      zero_of_le := fun i chunk h j hj hle => by
        rw [getElem?_drop] at h
        refine b.zero_of_le _ chunk h j hj ?_
        rw [add_mul]
        omega }
  else none

/-- The chunks before a chunk, if all of them are complete. -/
def takeChunks (chunks : ℕ) (h : chunks * N.bits ≤ b.len) : BitMap N where
  chunks := b.chunks.take chunks
  len := chunks * N.bits
  lt_length_iff := fun i => by
    rw [length_take, lt_min_iff, b.lt_length_iff, Nat.mul_lt_mul_right N.bits_pos]
    refine ⟨fun h => h.1, fun hi => ⟨hi, ?_⟩⟩
    exact (Nat.mul_lt_mul_of_pos_right hi N.bits_pos).trans_le h
  zero_of_le := fun i chunk hget j hj hle => by
    have hi : i < chunks := by
      by_contra hge
      rw [getElem?_take_eq_none (Nat.not_lt.1 hge)] at hget
      cases hget
    have hnext : (i + 1) * N.bits ≤ chunks * N.bits := Nat.mul_le_mul_right _ hi
    rw [add_mul] at hnext
    omega

/-! ### The bits of a bitmap -/

theorem getElem?_room (h : i < b.chunks.length) : b.room[i]? = b.chunks[i]? := by
  rw [room]
  split_ifs
  · rw [getElem?_append_left h]
  · rfl

theorem len_set {b b' : BitMap N} (h : b.set bit value = some b') :
    bit < b.len ∧ b'.len = b.len := by
  rw [set] at h
  split_ifs at h with hlt
  obtain rfl := Option.some.inj h
  exact ⟨hlt, rfl⟩

end BitMap

/-! ### Pruning -/

/-- A bitmap without its first chunks. -/
structure Prunable (N : ChunkSize) where
  bitmap : BitMap N
  prunedChunks : ℕ

namespace Prunable

def new : Prunable N := ⟨.new, 0⟩

def newWithPrunedChunks (prunedChunks : ℕ) : Prunable N := ⟨.new, prunedChunks⟩

def prunedBits (p : Prunable N) : ℕ := p.prunedChunks * N.bits

/-- The number of bits, with those that were pruned. -/
def len (p : Prunable N) : ℕ := p.prunedBits + p.bitmap.len

def isChunkAligned (p : Prunable N) : Bool := decide (p.len % N.bits = 0)

def chunksLen (p : Prunable N) : ℕ := p.bitmap.chunks.length

def getBit (p : Prunable N) (bit : ℕ) : Option Bool :=
  if bit / N.bits < p.prunedChunks then none else p.bitmap.get (bit - p.prunedBits)

def getChunkContaining (p : Prunable N) (bit : ℕ) : Option (Chunk N) :=
  if bit / N.bits < p.prunedChunks then none
  else p.bitmap.getChunkContaining (bit - p.prunedBits)

def lastChunk (p : Prunable N) : Option (Chunk N × ℕ) := p.bitmap.lastChunk

def setBit (p : Prunable N) (bit : ℕ) (value : Bool) : Option (Prunable N) :=
  if bit / N.bits < p.prunedChunks then none
  else (p.bitmap.set (bit - p.prunedBits) value).map fun bitmap => { p with bitmap }

def push (p : Prunable N) (bit : Bool) : Prunable N := { p with bitmap := p.bitmap.push bit }

def pruneToBit (p : Prunable N) (bit : ℕ) : Option (Prunable N) :=
  if p.len < bit then none
  else
    let chunk := bit / N.bits
    if chunk < p.prunedChunks then some p
    else (p.bitmap.pruneChunks (chunk - p.prunedChunks)).map fun bitmap => ⟨bitmap, chunk⟩

/-- The index of the chunk of a bit among those that were not pruned. -/
def prunedChunk (p : Prunable N) (bit : ℕ) : Option ℕ :=
  if bit < p.len then
    if bit / N.bits < p.prunedChunks then none else some (bit / N.bits - p.prunedChunks)
  else none

def getChunk (p : Prunable N) (chunk : ℕ) : Option (Chunk N) := p.bitmap.getChunk chunk

end Prunable

open Prunable

/-- A prunable bitmap has the chunks of a bitmap that was never pruned, without the first ones. -/
structure Retains (p : Prunable N) (g : BitMap N) : Prop where
  chunks_eq : p.bitmap.chunks = g.chunks.drop p.prunedChunks
  len_eq : p.len = g.len

namespace Retains

variable {p p' : Prunable N} {g : BitMap N} {bit : ℕ}

theorem new : Retains (Prunable.new : Prunable N) BitMap.new where
  chunks_eq := rfl
  len_eq := by simp [Prunable.len, Prunable.prunedBits, Prunable.new, BitMap.new]

theorem prunedBits_le (h : Retains p g) : p.prunedBits ≤ g.len := by
  rw [← h.len_eq, len]
  exact Nat.le_add_right _ _

theorem prunedChunks_le (h : Retains p g) : p.prunedChunks ≤ g.len / N.bits := by
  rw [Nat.le_div_iff_mul_le N.bits_pos]
  exact h.prunedBits_le

theorem div_sub (bit : ℕ) : (bit - p.prunedBits) / N.bits = bit / N.bits - p.prunedChunks := by
  rw [prunedBits, mul_comm, Nat.sub_mul_div]

theorem mod_sub (hge : ¬ bit / N.bits < p.prunedChunks) :
    (bit - p.prunedBits) % N.bits = bit % N.bits := by
  rw [Nat.not_lt, Nat.le_div_iff_mul_le N.bits_pos, mul_comm] at hge
  rw [prunedBits, mul_comm]
  exact Nat.sub_mul_mod hge

section

variable (h : Retains p g)
include h

theorem sub_lt_iff (hge : ¬ bit / N.bits < p.prunedChunks) :
    bit - p.prunedBits < p.bitmap.len ↔ bit < g.len := by
  rw [Nat.not_lt, Nat.le_div_iff_mul_le N.bits_pos] at hge
  have hle : p.prunedBits ≤ bit := hge
  have := h.len_eq
  rw [len] at this
  omega

theorem getElem?_chunks (i : ℕ) : p.bitmap.chunks[i]? = g.chunks[p.prunedChunks + i]? := by
  rw [h.chunks_eq, getElem?_drop]

theorem isChunkAligned_eq : p.isChunkAligned = decide (g.len % N.bits = 0) := by
  rw [isChunkAligned, h.len_eq]

theorem bitmap_mod : p.bitmap.len % N.bits = g.len % N.bits := by
  rw [← h.len_eq, len, prunedBits, Nat.mul_add_mod']

/-- The last chunk is that of the whole bitmap, if it was not pruned. -/
theorem lastChunk_eq (hls : p.prunedChunks < g.chunks.length) : p.lastChunk = g.lastChunk := by
  rw [lastChunk, BitMap.lastChunk, BitMap.lastChunk, h.bitmap_mod, h.chunks_eq,
    getLast?_drop, if_neg (Nat.not_le.2 hls)]

theorem prunedChunks_le_length : p.prunedChunks ≤ g.chunks.length := by
  rw [← Nat.not_lt]
  intro hlt
  have hlen := (g.le_length_iff g.chunks.length).1 le_rfl
  have hlt' := Nat.mul_lt_mul_of_pos_right hlt N.bits_pos
  have hle : p.prunedChunks * N.bits ≤ g.len := h.prunedBits_le
  omega

end

theorem drop_modify {α : Type} (l : List α) (f : α → α) {i k : ℕ} (hk : k ≤ i) :
    (l.modify i f).drop k = (l.drop k).modify (i - k) f := by
  refine ext_getElem? fun j => ?_
  rw [getElem?_drop, getElem?_modify, getElem?_modify, getElem?_drop]
  have hif : i = k + j ↔ i - k = j := by omega
  simp only [hif]

theorem room_eq (h : Retains p g) : p.bitmap.room = g.room.drop p.prunedChunks := by
  rw [BitMap.room, BitMap.room, h.bitmap_mod]
  split_ifs
  · rw [drop_append_of_le_length h.prunedChunks_le_length, h.chunks_eq]
  · exact h.chunks_eq

/-- A new bit. -/
theorem push (h : Retains p g) (value : Bool) : Retains (p.push value) (g.push value) where
  chunks_eq := by
    have hle : p.prunedChunks ≤ g.room.length - 1 := by
      rw [BitMap.length_room, Nat.add_sub_cancel]
      exact h.prunedChunks_le
    have hlen := h.len_eq
    simp only [Prunable.push, BitMap.push]
    cases value with
    | false =>
      simp only [Bool.false_eq_true, if_false]
      exact h.room_eq
    | true =>
      have hm : p.bitmap.len % N.bits = g.len % N.bits := h.bitmap_mod
      have hls : (g.room.drop p.prunedChunks).length - 1 =
          g.room.length - 1 - p.prunedChunks := by
        rw [length_drop]
        omega
      simp only [if_true, h.room_eq, drop_modify _ _ hle, hls]
      exact congrArg (modify _ _) (funext fun chunk => setInChunk_congr chunk hm true)
  len_eq := by
    have hlen := h.len_eq
    simp only [Prunable.len, Prunable.prunedBits, Prunable.push, BitMap.push] at hlen ⊢
    omega

theorem setBit (h : Retains p g) {value : Bool} (hs : p.setBit bit value = some p') :
    ∃ g', g.set bit value = some g' ∧ Retains p' g' ∧ p'.prunedChunks = p.prunedChunks ∧
      ¬ bit / N.bits < p.prunedChunks := by
  rw [Prunable.setBit] at hs
  split_ifs at hs with hge
  obtain ⟨bitmap, hbt, rfl⟩ := Option.map_eq_some_iff.1 hs
  rw [BitMap.set] at hbt
  split_ifs at hbt with hlt
  obtain rfl := Option.some.inj hbt
  have hin : bit < g.len := (h.sub_lt_iff hge).1 hlt
  rw [BitMap.set, dif_pos hin]
  refine ⟨_, rfl, ⟨?_, h.len_eq⟩, rfl, hge⟩
  simp only [div_sub, drop_modify _ _ (Nat.not_lt.1 hge), h.chunks_eq]
  exact congrArg (modify _ _) (funext fun chunk =>
    setInChunk_congr chunk (mod_sub hge) value)

/-- Pruning. -/
theorem pruneToBit (h : Retains p g) (hprune : p.pruneToBit bit = some p') :
    Retains p' g ∧ bit ≤ g.len ∧ p'.prunedChunks = max p.prunedChunks (bit / N.bits) := by
  simp only [Prunable.pruneToBit] at hprune
  split_ifs at hprune with hlen hlt
  · obtain rfl := Option.some.inj hprune
    exact ⟨h, h.len_eq ▸ Nat.not_lt.1 hlen, (max_eq_left hlt.le).symm⟩
  · obtain ⟨bitmap, hbt, rfl⟩ := Option.map_eq_some_iff.1 hprune
    rw [BitMap.pruneChunks] at hbt
    split_ifs at hbt with hch
    obtain rfl := Option.some.inj hbt
    rw [Nat.not_lt] at hlen hlt
    have ha : p.prunedChunks + (bit / N.bits - p.prunedChunks) = bit / N.bits := by omega
    have hbs : bit / N.bits * N.bits ≤ bit := Nat.div_mul_le_self _ _
    refine ⟨⟨?_, ?_⟩, h.len_eq ▸ hlen, (max_eq_right hlt).symm⟩
    · simp only [h.chunks_eq, drop_drop, ha]
    · have hmul : (bit / N.bits - p.prunedChunks) * N.bits + p.prunedChunks * N.bits =
          bit / N.bits * N.bits := by
        rw [← add_mul]
        congr 1
        omega
      have heq := h.len_eq
      simp only [Prunable.len, Prunable.prunedBits] at heq hlen ⊢
      omega

end Retains

end Commonware.Bits
