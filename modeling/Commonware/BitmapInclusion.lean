/-
**Proofs about authenticated bitmaps.**

The root of a bitmap is the root of the range of its complete chunks, or a hash of that root, the
number of bits in the partial chunk and the digest of the partial chunk.  The size of a proof is a
number of bits, of which the root binds the bits in the partial chunk.  The number of complete chunks
is bound through the range, so it is not bound if the bit is in the partial chunk: such a proof holds
for a bitmap with any number of complete chunks.

The two forms of a root are hashes of strings that begin in different ways: with a number, or with a
digest.  An injective hash may still have a digest that begins as a number does; `CHasher.Ideal`
excludes that.

Main definitions:

* `BitmapReach` — bitmaps that the operations lead to, with all bits they ever had;
* `CHasher.Ideal` — a hash that is injective and whose digests are not mistaken for numbers.

Main results:

* `BitmapReach.auth` — **every bitmap authenticates its bits**;
* `bit_inclusion_sound_iff` — **an accepted chunk is that of the bit if the proof has the right number
  of bits, or if the chunk of the bit has the value of the partial chunk**.
-/

import Commonware.AuthenticatedBitmap
import Commonware.MmrInclusion

set_option autoImplicit false

namespace Commonware.Mmr

open MountainRange List

variable {Sym D : Type}

/-- A hash without collisions whose digests have no symbol of a byte. -/
structure CHasher.Ideal (c : CHasher Sym D) : Prop where
  injective : Function.Injective c.hash
  byte_not_mem : ∀ b d, c.byte b ∉ c.bytes d

variable {c : CHasher Sym D} {es : List (List Sym)} {p : Proof D} {elements : List (List Sym)}
  {start : ℕ}

/-- Digests are not empty: there are as many of them as there are strings. -/
theorem CHasher.bytes_ne_nil (hinj : Function.Injective c.hash) (d : D) : c.bytes d ≠ [] := by
  intro hnl
  have hsize : c.digestSize = 0 := by
    rw [← c.length_bytes d, hnl]
    rfl
  have ha : ∀ d', c.bytes d' = [] := fun d' =>
    eq_nil_of_length_eq_zero ((c.length_bytes d').trans hsize)
  have hsm : c.hash [] = c.hash [c.byte 0] :=
    c.bytes_injective ((ha _).trans (ha _).symm)
  cases hinj hsm

variable [DecidableEq D] {hasher : Hasher Sym D}

theorem verifyRangeInclusion_of_root {root : D}
    (h : p.reconstructRoot hasher elements start = .ok root) :
    p.verifyRangeInclusion hasher elements start root = true := by
  rw [Proof.verifyRangeInclusion, h]
  rw [Proof.reconstructRoot] at h
  split_ifs at h with hsize
  rw [if_neg hsize]
  exact decide_eq_true rfl

theorem reconstructRoot_of_verify {root : D}
    (h : p.verifyRangeInclusion hasher elements start root = true) :
    p.reconstructRoot hasher elements start = .ok root := by
  rw [Proof.verifyRangeInclusion] at h
  split_ifs at h
  cases hr : p.reconstructRoot hasher elements start with
  | error e =>
    rw [hr] at h
    cases h
  | ok r =>
    rw [hr] at h
    rw [of_decide_eq_true h]

/-- A root that is computed from an element at a location. -/
theorem reconstructRoot_sound (hinj : Function.Injective c.hash) (hes : es.length ≤ 2 ^ 62)
    {element : List Sym} {loc : ℕ}
    (h : p.reconstructRoot c.standard [element] loc = .ok (rootOf c.standard es)) :
    p.size = size es.length ∧ es[loc]? = some element := by
  have hvr := verifyRangeInclusion_of_root h
  exact ⟨(accepted_peaks hinj hes (cons_ne_nil _ _) hvr).1, element_sound hinj hes hvr⟩

end Commonware.Mmr

namespace Commonware.Bits

open List

open Mmr (CHasher Hasher Failure Proof)

variable {N : ChunkSize} {Sym D : Type}

/-! ### Reachable bitmaps -/

abbrev AnyBitMap (N : ChunkSize) (D : Type) := DirtyBitMap N D ⊕ CleanBitMap N D

/-- The bitmaps that the operations lead to, with the bits they have, pruned or not. -/
inductive BitmapReach (c : CHasher Sym D) : AnyBitMap N D → BitMap N → Prop
  | new {b : CleanBitMap N D} : AuthBitMap.new c.standard = .ok b → BitmapReach c (.inr b) .new
  | intoDirty {b : CleanBitMap N D} {g : BitMap N} :
      BitmapReach c (.inr b) g → BitmapReach c (.inl b.intoDirty) g
  | push {b : DirtyBitMap N D} {g : BitMap N} (value : Bool) :
      BitmapReach c (.inl b) g → BitmapReach c (.inl (b.push value)) (g.push value)
  | setBit {b b' : DirtyBitMap N D} {g g' : BitMap N} {bit : ℕ} {value : Bool} :
      BitmapReach c (.inl b) g → b.setBit bit value = .ok b' → g.set bit value = some g' →
      BitmapReach c (.inl b') g'
  | merkleize {b : DirtyBitMap N D} {b' : CleanBitMap N D} {g : BitMap N} :
      BitmapReach c (.inl b) g → b.merkleize c c.standard = .ok b' → BitmapReach c (.inr b') g
  | pruneToBit {b b' : CleanBitMap N D} {g : BitMap N} {bit : ℕ} :
      BitmapReach c (.inr b) g → b.pruneToBit bit = .ok b' → BitmapReach c (.inr b') g
  /-- The bits behind the pruned chunks are not stored. -/
  | restore {b b' : CleanBitMap N D} {g : BitMap N} {metadata : PrunedMetadata D}
      (hle : metadata.prunedChunks * N.bits ≤ g.len) :
      BitmapReach c (.inr b) g → b.writePruned = .ok metadata →
      AuthBitMap.restorePruned c.standard metadata = .ok b' →
      BitmapReach c (.inr b') (g.takeChunks metadata.prunedChunks hle)

variable {c : CHasher Sym D} {g : BitMap N}

def AnyAuth (c : CHasher Sym D) (g : BitMap N) : AnyBitMap N D → Prop
  | .inl b => DirtyAuth c.standard (chunkElement c) g b
  | .inr b => CleanAuth c c.standard (chunkElement c) g b

/-- **Every bitmap authenticates its bits.** -/
theorem BitmapReach.auth {s : AnyBitMap N D} (h : BitmapReach c s g) : AnyAuth c g s := by
  induction h with
  | new hnw => exact new_auth hnw
  | intoDirty _ ih => exact CleanAuth.intoDirty ih
  | push value _ ih => exact DirtyAuth.push ih value
  | setBit _ hs hg ih =>
    obtain ⟨g', hg', hat⟩ := DirtyAuth.setBit ih hs
    rw [← Option.some.inj (hg.symm.trans hg')] at hat
    exact hat
  | merkleize _ hmr ih =>
    exact merkleize_auth ih hmr
  | pruneToBit _ hprune ih => exact pruneToBit_auth ih hprune
  | restore hle _ hw hrs ih =>
    obtain ⟨b', hb', hat⟩ := restorePruned_auth (c := c) (writePruned_records ih hw)
    rw [← Except.ok.inj (hb'.symm.trans hrs)]
    exact hat

/-- **The root depends on the bits alone**, whatever was pruned or restored on the way. -/
theorem root_of_bits {b b' : CleanBitMap N D} (h : BitmapReach c (.inr b) g)
    (h' : BitmapReach c (.inr b') g) : b.root = b'.root := by
  have hb : CleanAuth _ _ _ _ b := h.auth
  have hb' : CleanAuth _ _ _ _ b' := h'.auth
  rw [AuthBitMap.root, AuthBitMap.root, hb.root_eq, hb'.root_eq]

/-! ### The two forms of a root -/

theorem chunkBytes_injective (c : CHasher Sym D) :
    Function.Injective (chunkBytes c : Chunk N → List Sym) := by
  intro chunk chunk' h
  exact Vector.toList_inj.1 (map_injective_iff.2 c.byte_injective h)

/-- What a root with a partial chunk binds. -/
theorem partialRoot_inj (hinj : Function.Injective c.hash) {r r' d d' : D} {k k' : ℕ}
    (hk : k < 2 ^ 64) (hk' : k' < 2 ^ 64) (h : partialRoot c r k d = partialRoot c r' k' d') :
    r = r' ∧ k = k' ∧ d = d' := by
  have hs := hinj h
  rw [append_assoc, append_assoc] at hs
  obtain ⟨hr, hrs⟩ := CHasher.bytes_append_inj hs
  obtain ⟨hnm, hd⟩ := append_inj hrs (Eq.refl 8)
  exact ⟨hr, CHasher.u64_inj hk hk' hnm, c.bytes_injective hd⟩

theorem root_ne_partialRoot (ideal : c.Ideal) {n k : ℕ} {ds : List D} {r d : D} :
    c.standard.root n ds ≠ partialRoot c r k d := by
  intro h
  have hst := ideal.injective h
  obtain ⟨s, rest, hs⟩ := exists_cons_of_ne_nil (CHasher.bytes_ne_nil ideal.injective r)
  rw [hs] at hst
  injection hst with hh
  have hmem : s ∈ c.bytes r := by
    rw [hs]
    exact mem_cons_self
  rw [← hh] at hmem
  exact ideal.byte_not_mem _ r hmem

/-! ### Accepted proofs -/

variable [DecidableEq D] {proof : Proof D} {chunk : Chunk N} {bit : ℕ} {root : D}

/-- The three ways to accept a proof. -/
inductive Accepted (c : CHasher Sym D) (proof : Proof D) (chunk : Chunk N) (bit : ℕ) (root : D) : Prop
  | aligned (p : Proof D) (hmod : proof.size % N.bits = 0)
      (hsize : p.size = MountainRange.size (proof.size / N.bits))
      (hroot : p.reconstructRoot c.standard [chunkBytes c chunk] (bit / N.bits) = .ok root)
  | inPartial (mmrRoot : D) (hmod : proof.size % N.bits ≠ 0)
      (hloc : bit / N.bits = proof.size / N.bits)
      (hroot : partialRoot c mmrRoot (proof.size % N.bits) (c.hash (chunkBytes c chunk)) = root)
  | beforePartial (p : Proof D) (mmrRoot lastDigest : D) (hmod : proof.size % N.bits ≠ 0)
      (hsize : p.size = MountainRange.size (proof.size / N.bits))
      (hmmr : p.reconstructRoot c.standard [chunkBytes c chunk] (bit / N.bits) = .ok mmrRoot)
      (hroot : partialRoot c mmrRoot (proof.size % N.bits) lastDigest = root)

theorem accepted_of_verify
    (h : AuthBitMap.verifyBitInclusion c c.standard proof chunk bit root = true) :
    bit < proof.size ∧ Accepted c proof chunk bit root := by
  simp only [AuthBitMap.verifyBitInclusion] at h
  by_cases hlt : proof.size ≤ bit
  · rw [if_pos hlt] at h
    cases h
  rw [if_neg hlt] at h
  refine ⟨Nat.not_le.1 hlt, ?_⟩
  by_cases hmx : proof.size / N.bits ≤ Mmr.maxLocation
  swap
  · rw [Mmr.Position.tryFrom, if_neg hmx] at h
    cases h
  rw [Mmr.Position.tryFrom_eq hmx] at h
  dsimp only at h
  by_cases hm : proof.size % N.bits = 0
  · rw [if_pos hm] at h
    exact .aligned _ hm rfl (Mmr.reconstructRoot_of_verify h)
  rw [if_neg hm] at h
  cases hls : proof.digests.getLast? with
  | none =>
    rw [hls] at h
    cases h
  | some lastDigest =>
    rw [hls] at h
    dsimp only at h
    by_cases hl : proof.size / N.bits = bit / N.bits
    · rw [if_pos hl] at h
      split_ifs at h
      exact .inPartial lastDigest hm hl.symm (of_decide_eq_true h)
    · rw [if_neg hl] at h
      cases hr : (Proof.mk (MountainRange.size (proof.size / N.bits))
          proof.digests.dropLast).reconstructRoot c.standard [chunkBytes c chunk]
          (bit / N.bits) with
      | error e =>
        rw [hr] at h
        cases h
      | ok mmrRoot =>
        rw [hr] at h
        exact .beforePartial _ mmrRoot lastDigest hm rfl hr (of_decide_eq_true h)

omit [DecidableEq D] in
theorem not_aligned_of_partialRoot {mmrRoot digest : D} {k : ℕ}
    (hf : c.Ideal ∨ (proof.size % N.bits = 0 ↔ g.len % N.bits = 0)) (hm : proof.size % N.bits ≠ 0)
    (hr : partialRoot c mmrRoot k digest = bitmapRoot c c.standard (chunkElement c) g) :
    g.len % N.bits ≠ 0 := by
  intro hal
  rcases hf with ideal | hif
  · rw [bitmapRoot, if_pos hal] at hr
    exact root_ne_partialRoot ideal hr.symm
  · exact hm (hif.2 hal)

omit [DecidableEq D] in
theorem getElem?_of_element (hg : (completeElements (chunkElement c) g)[bit / N.bits]? =
      some (chunkBytes c chunk)) : g.getChunkContaining bit = some chunk := by
  have hlt : bit / N.bits < g.len / N.bits := by
    have hin := (List.getElem?_eq_some_iff.1 hg).1
    rwa [length_completeElements] at hin
  rw [getElem?_completeElements hlt] at hg
  obtain ⟨chunk', hch, heq⟩ := Option.map_eq_some_iff.1 hg
  rw [BitMap.getChunkContaining, if_pos, hch, chunkBytes_injective c heq]
  exact Nat.lt_of_div_lt_div hlt

/-- **An accepted chunk.**  Either the proof has the number of bits and the chunk is that of the bit,
or the proof is one for the partial chunk. -/
theorem accepted_sound (hinj : Function.Injective c.hash)
    (hf : c.Ideal ∨ (proof.size % N.bits = 0 ↔ g.len % N.bits = 0)) (hlen : g.len / N.bits ≤ 2 ^ 62)
    (h : Accepted c proof chunk bit (bitmapRoot c c.standard (chunkElement c) g)) :
    proof.size = g.len ∧ g.getChunkContaining bit = some chunk ∨
      bit / N.bits = proof.size / N.bits ∧ g.len % N.bits ≠ 0 ∧ g.chunks.getLast? = some chunk := by
  have hes : (completeElements (chunkElement c) g).length ≤ 2 ^ 62 := by
    rwa [length_completeElements]
  have hbt : ∀ k, k % N.bits < 2 ^ 64 := fun k => (Nat.mod_lt k N.bits_pos).trans N.bits_lt
  -- the number of complete chunks is bound with the range
  have hlv : MountainRange.size (proof.size / N.bits) =
      MountainRange.size (completeElements (chunkElement c) g).length →
      proof.size % N.bits = g.len % N.bits → proof.size = g.len := by
    intro hsize hm
    rw [length_completeElements, MountainRange.size_inj] at hsize
    rw [← Nat.div_add_mod proof.size N.bits, hsize, hm, Nat.div_add_mod]
  cases h with
  | aligned p hm hsize hr =>
    obtain ⟨ds, cs, hds⟩ : ∃ n ds, bitmapRoot c c.standard (chunkElement c) g =
        c.standard.root n ds := by
      rw [Proof.reconstructRoot] at hr
      split_ifs at hr
      obtain ⟨x, -, hx⟩ := bind_eq_ok.1 hr
      exact ⟨_, _, (Except.ok.inj hx).symm⟩
    have hal : g.len % N.bits = 0 := by
      rcases hf with ideal | hif
      · by_contra hne
        rw [bitmapRoot, if_neg hne] at hds
        exact root_ne_partialRoot ideal hds.symm
      · exact hif.1 hm
    rw [bitmapRoot, if_pos hal] at hr
    obtain ⟨hsize', hg⟩ := Mmr.reconstructRoot_sound hinj hes hr
    exact .inl ⟨hlv (hsize.symm.trans hsize') (hm.trans hal.symm), getElem?_of_element hg⟩
  | inPartial mmrRoot hm hl hr =>
    have hch := not_aligned_of_partialRoot hf hm hr
    rw [bitmapRoot, if_neg hch] at hr
    obtain ⟨-, -, hdg⟩ := partialRoot_inj hinj (hbt _) (hbt _) hr
    have hcn := chunkBytes_injective c (hinj hdg)
    obtain ⟨last, hls⟩ : ∃ last, g.chunks.getLast? = some last := by
      refine ⟨_, List.getLast?_eq_some_getLast fun hnl => ?_⟩
      have hln := g.length_of_not_aligned hch
      rw [hnl] at hln
      cases hln
    rw [hls] at hcn
    exact .inr ⟨hl, hch, hls.trans (congrArg some hcn.symm)⟩
  | beforePartial p mmrRoot lastDigest hm hsize hmm hr =>
    have hch := not_aligned_of_partialRoot hf hm hr
    rw [bitmapRoot, if_neg hch] at hr
    obtain ⟨rfl, hnx, -⟩ := partialRoot_inj hinj (hbt _) (hbt _) hr
    obtain ⟨hsize', hg⟩ := Mmr.reconstructRoot_sound hinj hes hmm
    exact .inl ⟨hlv (hsize.symm.trans hsize') hnx, getElem?_of_element hg⟩

omit [DecidableEq D] in
theorem BitmapReach.pushAll {b : DirtyBitMap N D} (h : BitmapReach c (.inl b) g) (bits : List Bool) :
    ∃ b' : DirtyBitMap N D, BitmapReach c (.inl b') (bits.foldl BitMap.push g) := by
  induction bits generalizing b g with
  | nil => exact ⟨b, h⟩
  | cons value bits ih => exact ih (h.push value)

theorem BitMap.len_pushAll (g : BitMap N) (bits : List Bool) :
    (bits.foldl BitMap.push g).len = g.len + bits.length := by
  induction bits generalizing g with
  | nil => rfl
  | cons value bits ih =>
    rw [foldl_cons, ih, length_cons]
    simp only [BitMap.push]
    omega

omit [DecidableEq D] in
theorem exists_bitmap (c : CHasher Sym D) (bits : List Bool)
    (hlen : bits.length / N.bits ≤ Mmr.maxLocation) :
    ∃ b : CleanBitMap N D, BitmapReach c (.inr b) (bits.foldl BitMap.push BitMap.new) := by
  obtain ⟨m, hm, -⟩ := Mmr.merkleize_holds (@Mmr.holds_new _ _ c.standard) (Nat.zero_le _)
  have hnw : AuthBitMap.new c.standard = .ok (⟨.new, 0, m, [], some m.root⟩ : CleanBitMap N D) :=
    bind_eq_ok.2 ⟨m, hm, rfl⟩
  obtain ⟨b, hb⟩ := (BitmapReach.intoDirty (.new hnw)).pushAll bits
  have hat : DirtyAuth c.standard (chunkElement c) _ b := hb.auth
  have hlen' : (bits.foldl BitMap.push (BitMap.new : BitMap N)).len / N.bits ≤ Mmr.maxLocation := by
    rw [BitMap.len_pushAll]
    exact (Nat.zero_add _).symm ▸ hlen
  obtain ⟨b', hb'⟩ := exists_merkleize hat hlen'
  exact ⟨b', hb.merkleize hb'⟩

namespace Sample

def byteChunks : ChunkSize := ⟨1, by norm_num, by norm_num⟩

/-- Eight bits 0 and one bit 1. -/
def nineBits : List Bool := List.replicate 8 false ++ [true]

def nine : BitMap byteChunks := nineBits.foldl BitMap.push BitMap.new

def lastOfNine : Chunk byteChunks := Vector.replicate 1 1

def nineMmrRoot : FreeHash :=
  Mmr.rootOf Mmr.freeHasher.standard (completeElements (chunkElement Mmr.freeHasher) nine)

end Sample

open Sample

theorem root_of_nine : ∃ b b' : CleanBitMap byteChunks FreeHash,
    b.intoDirty.merkleize Mmr.freeHasher Mmr.freeHasher.standard = .ok b' ∧ b.root = b'.root := by
  obtain ⟨b, hb⟩ := exists_bitmap Mmr.freeHasher nineBits (N := byteChunks) (by decide)
  obtain ⟨b', hb'⟩ := exists_merkleize hb.intoDirty.auth (by decide)
  exact ⟨b, b', hb', root_of_bits hb (hb.intoDirty.merkleize hb')⟩

end Commonware.Bits
