/-
**Authenticated bitmaps.**

An authenticated bitmap has a mountain range over its complete chunks (`storage/src/bitmap/
authenticated.rs`).  Chunks that are changed or completed reach the range when the bitmap is
merkleized.  The root is that of the range, or a hash of it and of the last chunk if that is partial.
A proof for a bit has the number of bits in its size field.

The elements of the range are a function of a chunk and its index; here they are the bytes of the
chunk.

Main definitions:

* `AuthBitMap` — a bitmap with its range, clean or dirty, and its operations;
* `AuthBitMap.verifyBitInclusion` — the verifier;
* `Authenticates`, `CleanAuth`, `DirtyAuth` — which bitmap is authenticated.

Main results:

* `DirtyAuth.push`, `DirtyAuth.setBit`, `merkleize_auth`, `pruneToBit_auth`, `restorePruned_auth` — **the
  operations do what they do to a bitmap that is never pruned**.
-/

import Commonware.PrunableBitmap
import Commonware.JournaledNodes

set_option autoImplicit false

namespace Commonware.Bits

open List MountainRange

open Mmr (CHasher Hasher MemMmr CleanMmr DirtyMmr Clean Dirty Failure Proof orPanic orError)

variable {N : ChunkSize} {Sym D S : Type}

/-! ### Operations -/

/-- A chunk as it is hashed. -/
def chunkBytes (c : CHasher Sym D) (chunk : Chunk N) : List Sym := chunk.toList.map c.byte

structure AuthBitMap (N : ChunkSize) (D S : Type) where
  bitmap : Prunable N
  /-- The number of chunks in the range that are not pruned. -/
  authenticatedLen : ℕ
  mmr : MemMmr D S
  dirtyChunks : List ℕ
  cachedRoot : Option D

abbrev CleanBitMap (N : ChunkSize) (D : Type) := AuthBitMap N D (Clean D)

abbrev DirtyBitMap (N : ChunkSize) (D : Type) := AuthBitMap N D Dirty

/-- What is stored of a bitmap: the number of chunks that were pruned, and the nodes that were pinned
then. -/
structure PrunedMetadata (D : Type) where
  prunedChunks : ℕ
  nodes : List D

/-- The root of a bitmap whose last chunk is partial. -/
def partialRoot (c : CHasher Sym D) (mmrRoot : D) (nextBit : ℕ) (lastChunkDigest : D) : D :=
  c.hash (c.bytes mmrRoot ++ c.u64 nextBit ++ c.bytes lastChunkDigest)

variable (N) in
def partialChunkRoot (c : CHasher Sym D) (mmrRoot : D) (nextBit : ℕ) (lastChunkDigest : D) :
    Except Failure D :=
  if 0 < nextBit ∧ nextBit < N.bits then .ok (partialRoot c mmrRoot nextBit lastChunkDigest)
  else .error .panic

namespace AuthBitMap

def len (b : AuthBitMap N D S) : ℕ := b.bitmap.len

/-- The number of complete chunks that are not pruned. -/
def completeChunks (b : AuthBitMap N D S) : ℕ :=
  if b.bitmap.isChunkAligned then b.bitmap.chunksLen else b.bitmap.chunksLen - 1

def lastChunk (b : AuthBitMap N D S) : Except Failure (Chunk N × ℕ) := orPanic b.bitmap.lastChunk

def getChunkContaining (b : AuthBitMap N D S) (bit : ℕ) : Except Failure (Chunk N) :=
  orPanic (b.bitmap.getChunkContaining bit)

def getBit (b : AuthBitMap N D S) (bit : ℕ) : Except Failure Bool := orPanic (b.bitmap.getBit bit)

/-- Whether a chunk is proven to be that of a bit.  The assertions about the next bit hold, since the
number of bits is not a multiple of the chunk size then. -/
def verifyBitInclusion [DecidableEq D] (c : CHasher Sym D) (hasher : Hasher Sym D) (proof : Proof D)
    (chunk : Chunk N) (bit : ℕ) (root : D) : Bool :=
  let bitLen := proof.size
  if bitLen ≤ bit then false
  else
    let leaves := bitLen / N.bits
    match Mmr.Position.tryFrom leaves with
    | .error _ => false
    | .ok size =>
      let loc := bit / N.bits
      if bitLen % N.bits = 0 then
        Proof.verifyElementInclusion ⟨size, proof.digests⟩ hasher (chunkBytes c chunk) loc root
      else
        match proof.digests.getLast? with
        | none => false
        | some lastDigest =>
          let mmrProof : Proof D := ⟨size, proof.digests.dropLast⟩
          let nextBit := bitLen % N.bits
          if leaves = loc then
            if mmrProof.digests ≠ [] then false
            else decide (partialRoot c lastDigest nextBit (c.hash (chunkBytes c chunk)) = root)
          else
            match mmrProof.reconstructRoot hasher [chunkBytes c chunk] loc with
            | .error _ => false
            | .ok mmrRoot => decide (partialRoot c mmrRoot nextBit lastDigest = root)

/-! #### Clean bitmaps -/

def new (hasher : Hasher Sym D) : Except Failure (CleanBitMap N D) := do
  let mmr ← MemMmr.merkleize MemMmr.new hasher
  pure ⟨.new, 0, mmr, [], some mmr.root⟩

def storedNodes (metadata : PrunedMetadata D) (mmrSize : ℕ) : Except Failure (List D) := do
  let positions ← orPanic (Mmr.nodesToPin mmrSize)
  positions.zipIdx.mapM fun item =>
    match metadata.nodes[item.2]? with
    | some digest => .ok digest
    | none => .error (.error (.missingNode item.1))

/-- The bitmap as it was pruned, without the bits behind the pruned chunks. -/
def restorePruned (hasher : Hasher Sym D) (metadata : PrunedMetadata D) :
    Except Failure (CleanBitMap N D) :=
  if metadata.prunedChunks = 0 then new hasher
  else do
    let mmrSize ← orError (Mmr.Position.tryFrom metadata.prunedChunks)
    let pinnedNodes ← storedNodes metadata mmrSize
    let mmr ← MemMmr.init [] mmrSize pinnedNodes hasher
    pure ⟨.newWithPrunedChunks metadata.prunedChunks, 0, mmr, [], some mmr.root⟩

def writePruned (b : CleanBitMap N D) : Except Failure (PrunedMetadata D) := do
  let mmrSize ← orError (Mmr.Position.tryFrom b.bitmap.prunedChunks)
  let positions ← orPanic (Mmr.nodesToPin mmrSize)
  let nodes ← positions.mapM b.mmr.getNodeUnchecked
  pure ⟨b.bitmap.prunedChunks, nodes⟩

def pruneToBit (b : CleanBitMap N D) (bit : ℕ) : Except Failure (CleanBitMap N D) :=
  let chunk := bit / N.bits
  if chunk < b.bitmap.prunedChunks then .ok b
  else do
    let bitmap ← orPanic (b.bitmap.pruneToBit bit)
    let b := { b with bitmap }
    let b := { b with authenticatedLen := b.completeChunks }
    let mmrPos ← orPanic (Mmr.Position.tryFrom chunk).toOption
    let mmr ← b.mmr.pruneToPos mmrPos
    pure { b with mmr }

def root (b : CleanBitMap N D) : Except Failure D := orPanic b.cachedRoot

def getNode (b : CleanBitMap N D) (position : ℕ) : Option D := b.mmr.getNode position

def proof (b : CleanBitMap N D) (c : CHasher Sym D) (bit : ℕ) :
    Except Failure (Proof D × Chunk N) :=
  if b.len ≤ bit then .error (.error (.bitOutOfBounds bit b.len))
  else do
    let chunk ← b.getChunkContaining bit
    let chunkLoc := bit / N.bits
    let (lastChunk, nextBit) ← b.lastChunk
    let leaves ← b.mmr.leaves
    if chunkLoc = leaves then
      if 0 < nextBit then pure (⟨b.len, [b.mmr.root]⟩, chunk) else .error .panic
    else do
      let proof ← orError
        (Mmr.historicalRangeProof b.mmr.getNode b.mmr.size chunkLoc (chunkLoc + 1))
      if nextBit = N.bits then pure (⟨b.len, proof.digests⟩, chunk)
      else pure (⟨b.len, proof.digests ++ [c.hash (chunkBytes c lastChunk)]⟩, chunk)

def intoDirty (b : CleanBitMap N D) : DirtyBitMap N D :=
  ⟨b.bitmap, b.authenticatedLen, b.mmr.intoDirty, b.dirtyChunks, b.cachedRoot⟩

/-! #### Dirty bitmaps -/

def push (b : DirtyBitMap N D) (bit : Bool) : DirtyBitMap N D :=
  { b with bitmap := b.bitmap.push bit }

def setBit (b : DirtyBitMap N D) (bit : ℕ) (value : Bool) : Except Failure (DirtyBitMap N D) := do
  let bitmap ← orPanic (b.bitmap.setBit bit value)
  let chunk ← orPanic (bitmap.prunedChunk bit)
  pure { b with
    bitmap
    dirtyChunks := if chunk < b.authenticatedLen then b.dirtyChunks.insert chunk
      else b.dirtyChunks }

def addChunks (c : CHasher Sym D) (hasher : Hasher Sym D) (bitmap : Prunable N) (mmr : DirtyMmr D)
    (chunks : List ℕ) : Except Failure (DirtyMmr D) :=
  chunks.foldlM (fun mmr i => do
    let chunk ← orPanic (bitmap.getChunk i)
    let (_, mmr) ← mmr.add hasher (chunkBytes c chunk)
    pure mmr) mmr

def chunkUpdates (b : DirtyBitMap N D) (c : CHasher Sym D) : Except Failure (List (ℕ × List Sym)) :=
  b.dirtyChunks.mapM fun chunk => do
    let bytes ← orPanic (b.bitmap.getChunk chunk)
    pure (chunk + b.bitmap.prunedChunks, chunkBytes c bytes)

/-- The root over the range and a partial chunk. -/
def computeRoot (c : CHasher Sym D) (bitmap : Prunable N) (mmrRoot : D) : Except Failure D :=
  if bitmap.isChunkAligned then .ok mmrRoot
  else do
    let (lastChunk, nextBit) ← orPanic bitmap.lastChunk
    partialChunkRoot N c mmrRoot nextBit (c.hash (chunkBytes c lastChunk))

def merkleize (b : DirtyBitMap N D) (c : CHasher Sym D) (hasher : Hasher Sym D) :
    Except Failure (CleanBitMap N D) := do
  let mmr ← addChunks c hasher b.bitmap b.mmr
    (range' b.authenticatedLen (b.completeChunks - b.authenticatedLen))
  let updates ← b.chunkUpdates c
  let mmr ← mmr.updateLeafBatched hasher updates
  let mmr ← mmr.merkleize hasher
  let root ← computeRoot c b.bitmap mmr.root
  pure ⟨b.bitmap, b.completeChunks, mmr, [], some root⟩

end AuthBitMap

open AuthBitMap

/-! ### What is authenticated -/

open Mmr (AnyHolds Holds HoldsClean rootOf setElements)

/-- The chunks of a bitmap are the elements of its range. -/
def chunkElement (c : CHasher Sym D) (_ : ℕ) (chunk : Chunk N) : List Sym := chunkBytes c chunk

def completeElements (elt : ℕ → Chunk N → List Sym) (g : BitMap N) : List (List Sym) :=
  (g.chunks.take (g.len / N.bits)).mapIdx elt

/-- The root over the complete chunks and a partial one. -/
def bitmapRoot (c : CHasher Sym D) (hasher : Hasher Sym D) (elt : ℕ → Chunk N → List Sym)
    (g : BitMap N) : D :=
  if g.len % N.bits = 0 then rootOf hasher (completeElements elt g)
  else
    partialRoot c (rootOf hasher (completeElements elt g)) (g.len % N.bits)
      (c.hash (chunkBytes c (g.chunks.getLast?.getD (emptyChunk N))))

/-- The range of a bitmap has the elements `es`, and they are those of the chunks of `g` except for
the chunks that are known to be changed. -/
structure Authenticates (elt : ℕ → Chunk N → List Sym) (g : BitMap N) (b : AuthBitMap N D S)
    (es : List (List Sym)) : Prop where
  retains : Retains b.bitmap g
  length_eq : es.length = b.bitmap.prunedChunks + b.authenticatedLen
  le_complete : es.length ≤ g.len / N.bits
  element : ∀ i < es.length, (∀ j ∈ b.dirtyChunks, i ≠ j + b.bitmap.prunedChunks) →
    es[i]? = g.chunks[i]?.map (elt i)
  dirty_lt : ∀ j ∈ b.dirtyChunks, j < b.authenticatedLen
  boundary : b.mmr.prunedToPos = size b.bitmap.prunedChunks

structure CleanAuth (c : CHasher Sym D) (hasher : Hasher Sym D) (elt : ℕ → Chunk N → List Sym)
    (g : BitMap N) (b : CleanBitMap N D) : Prop where
  auth : Authenticates elt g b (completeElements elt g)
  holds : HoldsClean hasher (completeElements elt g) b.mmr
  clean : b.dirtyChunks = []
  root_eq : b.cachedRoot = some (bitmapRoot c hasher elt g)

def DirtyAuth (hasher : Hasher Sym D) (elt : ℕ → Chunk N → List Sym) (g : BitMap N)
    (b : DirtyBitMap N D) : Prop :=
  ∃ es, Authenticates elt g b es ∧ AnyHolds hasher es (.inl b.mmr)

variable {c : CHasher Sym D} {hasher : Hasher Sym D} {m : DirtyMmr D}
  {elt : ℕ → Chunk N → List Sym} {g g' : BitMap N}

theorem BitMap.div_le_length (g : BitMap N) : g.len / N.bits ≤ g.chunks.length := by
  by_cases h : g.len % N.bits = 0
  · exact (g.length_of_aligned h).ge
  · rw [g.length_of_not_aligned h]
    exact Nat.le_succ _

theorem length_completeElements : (completeElements elt g).length = g.len / N.bits := by
  rw [completeElements, length_mapIdx, length_take, Nat.min_eq_left g.div_le_length]

variable {i : ℕ}

theorem getElem?_completeElements (hi : i < g.len / N.bits) :
    (completeElements elt g)[i]? = g.chunks[i]?.map (elt i) := by
  rw [completeElements, getElem?_mapIdx, getElem?_take_of_lt hi]

variable {b : AuthBitMap N D S}

theorem AuthBitMap.completeChunks_eq (h : Retains b.bitmap g) :
    b.completeChunks = g.len / N.bits - b.bitmap.prunedChunks := by
  rw [completeChunks, h.isChunkAligned_eq, Prunable.chunksLen, h.chunks_eq, length_drop]
  by_cases hal : g.len % N.bits = 0
  · rw [if_pos (decide_eq_true hal), g.length_of_aligned hal]
  · rw [if_neg (by simpa using hal), g.length_of_not_aligned hal]
    omega

/-- A bitmap whose complete chunks are all in the range. -/
theorem Authenticates.complete (hrt : Retains b.bitmap g)
    (hlen : b.authenticatedLen = g.len / N.bits - b.bitmap.prunedChunks) (hcl : b.dirtyChunks = [])
    (hbn : b.mmr.prunedToPos = size b.bitmap.prunedChunks) :
    Authenticates elt g b (completeElements elt g) where
  retains := hrt
  length_eq := by
    have hle := hrt.prunedChunks_le
    rw [length_completeElements, hlen]
    omega
  le_complete := length_completeElements.le
  element i hi _ := getElem?_completeElements (by rwa [← length_completeElements])
  dirty_lt := by simp [hcl]
  boundary := hbn

/-! ### Changes -/

variable {b : CleanBitMap N D}

theorem new_auth (hnw : new hasher = .ok b) :
    CleanAuth c hasher elt BitMap.new b := by
  obtain ⟨m', hm', hh, hpr⟩ := Mmr.merkleize_holds (@Mmr.holds_new _ _ hasher)
    (Nat.zero_le _)
  obtain ⟨m₁, hm₁, hr⟩ := bind_eq_ok.1 hnw
  obtain rfl := Except.ok.inj (hm'.symm.trans hm₁)
  cases hr
  have hnl : completeElements elt (BitMap.new : BitMap N) = [] := by
    simp [completeElements, BitMap.new]
  refine ⟨.complete Retains.new (by simp [BitMap.new]) rfl ?_, ?_, rfl, ?_⟩
  · rw [hpr]
    simp [Prunable.new, MemMmr.new]
  · rw [hnl]
    exact hh
  · simp only [bitmapRoot, hnl]
    rw [if_pos (by simp [BitMap.new]), ← hh.root_eq]

theorem CleanAuth.intoDirty (h : CleanAuth c hasher elt g b) :
    DirtyAuth hasher elt g b.intoDirty :=
  ⟨completeElements elt g, { h.auth with }, AnyHolds.intoDirty h.holds⟩

theorem BitMap.getElem?_push (g : BitMap N) (value : Bool) (hi : i < g.len / N.bits) :
    (g.push value).chunks[i]? = g.chunks[i]? := by
  have hlt : i < g.chunks.length := hi.trans_le g.div_le_length
  rw [BitMap.push]
  dsimp only
  cases value with
  | false => exact g.getElem?_room hlt
  | true =>
    have hne : g.room.length - 1 ≠ i := by
      rw [BitMap.length_room]
      omega
    simp only [if_true]
    rw [getElem?_modify_ne _ _ hne, g.getElem?_room hlt]

variable {b : DirtyBitMap N D}

theorem DirtyAuth.push (h : DirtyAuth hasher elt g b) (value : Bool) :
    DirtyAuth hasher elt (g.push value) (b.push value) := by
  obtain ⟨es, hat, hh⟩ := h
  have hlen : (g.push value).len = g.len + 1 := rfl
  refine ⟨es, ⟨hat.retains.push value, hat.length_eq, ?_, ?_, hat.dirty_lt, hat.boundary⟩, hh⟩
  · rw [hlen]
    exact hat.le_complete.trans (Nat.div_le_div_right (Nat.le_succ _))
  · intro i hi hdr
    rw [g.getElem?_push value (hi.trans_le hat.le_complete)]
    exact hat.element i hi hdr

variable {bit : ℕ} {value : Bool}

theorem BitMap.getElem?_set (hs : g.set bit value = some g')
    (hi : i ≠ bit / N.bits) : g'.chunks[i]? = g.chunks[i]? := by
  rw [BitMap.set] at hs
  split_ifs at hs
  obtain rfl := Option.some.inj hs
  exact getElem?_modify_ne _ _ hi.symm

theorem DirtyAuth.setBit {b' : DirtyBitMap N D}
    (h : DirtyAuth hasher elt g b) (hs : b.setBit bit value = .ok b') :
    ∃ g', g.set bit value = some g' ∧ DirtyAuth hasher elt g' b' := by
  obtain ⟨es, hat, hh⟩ := h
  obtain ⟨bitmap, hbt, hs⟩ := bind_eq_ok.1 hs
  obtain ⟨chunk, hch, hs⟩ := bind_eq_ok.1 hs
  cases hs
  obtain ⟨g', hg', hrt, hpr, hge⟩ := hat.retains.setBit (Mmr.orPanic_eq_ok.1 hbt)
  obtain ⟨hlt, hlen⟩ := BitMap.len_set hg'
  have hid : chunk = bit / N.bits - b.bitmap.prunedChunks := by
    have hsm := Mmr.orPanic_eq_ok.1 hch
    rw [Prunable.prunedChunk] at hsm
    split_ifs at hsm
    rw [← Option.some.inj hsm, hpr]
  refine ⟨g', hg', es, ⟨hrt, ?_, ?_, ?_, ?_, ?_⟩, hh⟩
  · rw [hat.length_eq]
    exact congrArg (· + _) hpr.symm
  · rw [hlen]
    exact hat.le_complete
  · intro i hi hdr
    dsimp only at hdr
    rw [hpr] at hdr
    -- the chunk of the bit is marked if it is in the range
    have hne : i ≠ bit / N.bits := by
      rintro rfl
      have hin : chunk < b.authenticatedLen := by
        have := hat.length_eq
        omega
      rw [if_pos hin] at hdr
      exact hdr chunk mem_insert_self (by omega)
    rw [BitMap.getElem?_set hg' hne]
    refine hat.element i hi fun j hj => hdr j ?_
    split_ifs
    · exact mem_insert_of_mem hj
    · exact hj
  · intro j hj
    dsimp only at hj ⊢
    split_ifs at hj with hin
    · rcases mem_insert_iff.1 hj with rfl | hj
      · exact hin
      · exact hat.dirty_lt j hj
    · exact hat.dirty_lt j hj
  · rw [hpr]
    exact hat.boundary

/-! ### Merkleizing -/

variable {bitmap : Prunable N} {es : List (List Sym)}

def BitMap.chunkAt (g : BitMap N) (i : ℕ) : Chunk N := g.chunks[i]?.getD (emptyChunk N)

theorem BitMap.getElem?_eq_chunkAt (hi : i < g.len / N.bits) :
    g.chunks[i]? = some (g.chunkAt i) := by
  rw [chunkAt, getElem?_eq_getElem (hi.trans_le g.div_le_length)]
  rfl

/-- **Complete chunks** become elements of the range. -/
theorem addChunks_holds {a n : ℕ} (hrt : Retains bitmap g)
    (hlen : es.length = bitmap.prunedChunks + a) (hcn : es.length + n ≤ g.len / N.bits)
    (hm : AnyHolds hasher es (.inl m)) :
    (∀ m', addChunks c hasher bitmap m (range' a n) = .ok m' →
      AnyHolds hasher (es ++ (range' es.length n).map fun i => chunkBytes c (g.chunkAt i))
        (.inl m') ∧ m'.prunedToPos = m.prunedToPos) ∧ (es.length + n ≤ 2 ^ 62 →
      ∃ m', addChunks c hasher bitmap m (range' a n) = .ok m') := by
  induction n generalizing a es m with
  | zero =>
    refine ⟨?_, fun _ => ⟨m, rfl⟩⟩
    rintro m' ⟨⟩
    exact ⟨(append_nil es).symm ▸ hm, rfl⟩
  | succ n ih =>
    have hg : orPanic (bitmap.getChunk a) = .ok (g.chunkAt es.length) := by
      refine Mmr.orPanic_eq_ok.2 ((hrt.getElem?_chunks a).trans ?_)
      rw [← hlen, BitMap.getElem?_eq_chunkAt (by omega)]
    have hst : addChunks c hasher bitmap m (range' a (n + 1)) =
        m.add hasher (chunkBytes c (g.chunkAt es.length)) >>= fun x =>
          addChunks c hasher bitmap x.2 (range' (a + 1) n) := by
      rw [addChunks, range'_succ, foldlM_cons, hg]
      show (m.add hasher (chunkBytes c (g.chunkAt es.length)) >>= fun x => pure x.2) >>= _ = _
      rw [bind_assoc]
      rfl
    have hlen' : (es ++ [chunkBytes c (g.chunkAt es.length)]).length = es.length + 1 := by simp
    have hr : ∀ {x m₁}, m.add hasher (chunkBytes c (g.chunkAt es.length)) = .ok (x, m₁) → _ :=
      fun hone => ih (a := a + 1) (by omega) (by omega) (hm.add hone).1
    rw [hst]
    refine ⟨fun m' ha => ?_, fun hmx => ?_⟩
    · obtain ⟨⟨x, m₁⟩, hone, ha⟩ := bind_eq_ok.1 ha
      obtain ⟨hm', hpr⟩ := (hr hone).1 m' ha
      rw [append_assoc, hlen'] at hm'
      rw [range'_succ, map_cons]
      exact ⟨hm', hpr.trans (hm.add hone).2⟩
    · obtain ⟨x, m₁, hone⟩ := Mmr.exists_add hm.1 (by omega) (chunkBytes c (g.chunkAt es.length))
      obtain ⟨m', ha⟩ := (hr hone).2 (by omega)
      exact ⟨m', bind_eq_ok.2 ⟨_, hone, ha⟩⟩

variable {updates : List (ℕ × List Sym)}

theorem getElem?_setElements {v : List Sym}
    (hv : ∀ update ∈ updates, update.1 = i → update.2 = v) (es : List (List Sym)) :
    (setElements es updates)[i]? =
      if ∃ update ∈ updates, update.1 = i then es[i]?.map fun _ => v else es[i]? := by
  induction updates generalizing es with
  | nil => simp [setElements]
  | cons update updates ih =>
    have hr := ih (fun u hu => hv u (mem_cons_of_mem _ hu)) (es.set update.1 update.2)
    have hh := hv update mem_cons_self
    change (setElements (es.set update.1 update.2) updates)[i]? = _
    rw [hr]
    by_cases heq : update.1 = i
    · have hex : ∃ u ∈ update :: updates, u.1 = i := ⟨update, mem_cons_self, heq⟩
      rw [if_pos hex, heq, hh heq, getElem?_set_self']
      cases es[i]? with
      | none | some => simp
    · have hif : (∃ u ∈ update :: updates, u.1 = i) ↔ ∃ u ∈ updates, u.1 = i := by
        simp [heq]
      rw [getElem?_set_ne heq]
      exact if_congr hif.symm rfl rfl

def changes (c : CHasher Sym D) (g : BitMap N) (b : DirtyBitMap N D) : List (ℕ × List Sym) :=
  b.dirtyChunks.map fun j => (j + b.bitmap.prunedChunks, chunkBytes c (g.chunkAt (j + b.bitmap.prunedChunks)))

theorem Authenticates.dirty_lt_length (hat : Authenticates elt g b es) {j : ℕ}
    (hj : j ∈ b.dirtyChunks) : j + b.bitmap.prunedChunks < es.length := by
  have hlt := hat.dirty_lt j hj
  have hlen := hat.length_eq
  omega

theorem chunkUpdates_eq (hat : Authenticates elt g b es) : b.chunkUpdates c = .ok (changes c g b) := by
  refine mapM_eq_ok fun j hj => ?_
  have hg := hat.retains.getElem?_chunks j
  rw [Nat.add_comm, BitMap.getElem?_eq_chunkAt ((hat.dirty_lt_length hj).trans_le hat.le_complete)]
    at hg
  exact bind_eq_ok.2 ⟨_, Mmr.orPanic_eq_ok.2 hg, rfl⟩

/-- **The root** of a merkleized bitmap. -/
theorem computeRoot_eq {mmrRoot : D} (hrt : Retains bitmap g)
    (hm : mmrRoot = rootOf hasher (completeElements elt g)) :
    computeRoot c bitmap mmrRoot = .ok (bitmapRoot c hasher elt g) := by
  rw [computeRoot, hrt.isChunkAligned_eq, bitmapRoot, ← hm]
  by_cases hal : g.len % N.bits = 0
  · rw [if_pos (decide_eq_true hal), if_pos hal]
  · rw [if_neg (by simpa using hal), if_neg hal]
    have hln := g.length_of_not_aligned hal
    have hls : bitmap.prunedChunks < g.chunks.length := by
      rw [hln, Nat.lt_succ_iff]
      exact hrt.prunedChunks_le
    obtain ⟨last, hg⟩ : ∃ last, g.chunks.getLast? = some last := by
      refine ⟨_, getLast?_eq_some_getLast ?_⟩
      rintro hnl
      rw [hnl] at hln
      cases hln
    have hch : bitmap.lastChunk = some (last, g.len % N.bits) := by
      rw [hrt.lastChunk_eq hls, BitMap.lastChunk, if_neg hal, hg]
      rfl
    have hr : 0 < g.len % N.bits ∧ g.len % N.bits < N.bits :=
      ⟨Nat.pos_of_ne_zero hal, Nat.mod_lt _ N.bits_pos⟩
    rw [hg]
    exact bind_eq_ok.2 ⟨_, Mmr.orPanic_eq_ok.2 hch, if_pos hr⟩

theorem setElements_complete {n : ℕ} (hat : Authenticates (chunkElement c) g b es)
    (hcn : es.length + n = g.len / N.bits) :
    setElements (es ++ (range' es.length n).map fun i => chunkBytes c (g.chunkAt i))
      (changes c g b) = completeElements (chunkElement c) g := by
  have hln : ∀ new : List (List Sym), new.length = n →
      (setElements (es ++ new) (changes c g b)).length = g.len / N.bits := fun new hnw => by
    rw [Mmr.length_setElements, length_append, hnw, hcn]
  refine ext_getElem? fun i => ?_
  rcases Nat.lt_or_ge i (g.len / N.bits) with hi | hi
  · rw [getElem?_completeElements hi, BitMap.getElem?_eq_chunkAt hi,
      getElem?_setElements (i := i) (v := chunkBytes c (g.chunkAt i))]
    swap
    · intro update hu heq
      obtain ⟨j, -, rfl⟩ := mem_map.1 hu
      dsimp only at heq ⊢
      rw [heq]
    split_ifs with hex
    · rw [getElem?_eq_getElem (by simp; omega)]
      rfl
    · rcases Nat.lt_or_ge i es.length with hlt | hge
      · rw [getElem?_append_left hlt, ← BitMap.getElem?_eq_chunkAt hi]
        refine hat.element i hlt fun j hj heq => hex ⟨_, mem_map.2 ⟨j, hj, rfl⟩, heq.symm⟩
      · have hsp : es.length + 1 * (i - es.length) = i := by omega
        rw [getElem?_append_right hge, getElem?_map, getElem?_range' (by omega), hsp]
        rfl
  · rw [getElem?_eq_none (by rw [hln _ (by simp)]; exact hi), getElem?_eq_none]
    rwa [length_completeElements]

theorem Authenticates.count (hat : Authenticates elt g b es) :
    es.length + (b.completeChunks - b.authenticatedLen) = g.len / N.bits ∧
      b.authenticatedLen ≤ b.completeChunks := by
  have hcm := completeChunks_eq hat.retains
  have hle := hat.le_complete
  have hln := hat.length_eq
  omega

theorem merkleize_auth {b' : CleanBitMap N D} (h : DirtyAuth hasher (chunkElement c) g b)
    (hmr : b.merkleize c hasher = .ok b') : CleanAuth c hasher (chunkElement c) g b' := by
  obtain ⟨es, hat, hh⟩ := h
  have hrt := hat.retains
  obtain ⟨hcn, hle⟩ := hat.count
  have hln := hat.length_eq
  obtain ⟨m₁, ha, hmr⟩ := bind_eq_ok.1 hmr
  obtain ⟨updates, hu, hmr⟩ := bind_eq_ok.1 hmr
  obtain rfl := Except.ok.inj ((chunkUpdates_eq hat).symm.trans hu)
  obtain ⟨m₂, hup, hmr⟩ := bind_eq_ok.1 hmr
  obtain ⟨m₃, hcl, hmr⟩ := bind_eq_ok.1 hmr
  obtain ⟨hnw, hpr⟩ := (addChunks_holds hrt hln hcn.le hh).1 m₁ ha
  obtain ⟨hm₂, hpr₂⟩ := hnw.update hup
  obtain ⟨hm₃, hpr₃⟩ := hm₂.merkleize hcl
  rw [setElements_complete hat hcn] at hm₃
  have hm₃ : HoldsClean hasher (completeElements (chunkElement c) g) m₃ := hm₃
  rw [computeRoot_eq hrt hm₃.root_eq] at hmr
  cases hmr
  exact ⟨.complete hrt (completeChunks_eq hrt) rfl
    (((hpr₃.trans hpr₂).trans hpr).trans hat.boundary), hm₃, rfl, rfl⟩

theorem exists_merkleize (h : DirtyAuth hasher (chunkElement c) g b)
    (hm : g.len / N.bits ≤ Mmr.maxLocation) : ∃ b', b.merkleize c hasher = .ok b' := by
  obtain ⟨es, hat, hh⟩ := h
  have hrt := hat.retains
  obtain ⟨hcn, -⟩ := hat.count
  have hm' : Mmr.maxLocation ≤ 2 ^ 62 := by norm_num [Mmr.maxLocation]
  obtain ⟨had, hes⟩ := addChunks_holds (c := c) hrt hat.length_eq hcn.le hh
  obtain ⟨m₁, ha⟩ := hes (by omega)
  obtain ⟨hnw, hpr⟩ := had m₁ ha
  have hln : ∀ new : List (List Sym), new.length = b.completeChunks - b.authenticatedLen →
      (es ++ new).length = g.len / N.bits := fun new hlen => by
    rw [length_append, hlen, hcn]
  have hrn : ∀ update ∈ changes c g b,
      update.1 < es.length ∧ m₁.prunedToPos ≤ size update.1 := by
    intro update hup
    obtain ⟨j, hj, rfl⟩ := mem_map.1 hup
    refine ⟨hat.dirty_lt_length hj, ?_⟩
    rw [hpr, hat.boundary]
    exact size_le_size_iff.2 (Nat.le_add_left _ _)
  obtain ⟨m₂, hup⟩ := Mmr.exists_updateLeafBatched hnw.1
    ((hln _ (by simp)).trans_le hm) fun update hu => by
      rw [hln _ (by simp)]
      exact (hrn update hu).imp_left fun hlt => hlt.trans_le hat.le_complete
  obtain ⟨m₃, hcl, hm₃, -⟩ := Mmr.merkleize_holds (hnw.update hup).1.1 (by
    rw [Mmr.length_setElements, hln _ (by simp)]
    omega)
  rw [setElements_complete hat hcn] at hm₃
  exact ⟨_, bind_eq_ok.2 ⟨m₁, ha, bind_eq_ok.2 ⟨_, chunkUpdates_eq hat, bind_eq_ok.2 ⟨m₂, hup,
    bind_eq_ok.2 ⟨m₃, hcl, bind_eq_ok.2 ⟨_, computeRoot_eq hrt hm₃.root_eq, rfl⟩⟩⟩⟩⟩⟩

/-! ### Pruning -/

theorem pruneToBit_auth {b b' : CleanBitMap N D} (h : CleanAuth c hasher elt g b)
    (hprune : b.pruneToBit bit = .ok b') : CleanAuth c hasher elt g b' := by
  rw [pruneToBit] at hprune
  dsimp only at hprune
  split_ifs at hprune with hlt
  · cases hprune
    exact h
  · obtain ⟨bitmap, hbt, hprune⟩ := bind_eq_ok.1 hprune
    obtain ⟨x, hx, hprune⟩ := bind_eq_ok.1 hprune
    obtain ⟨mmr, hm, hprune⟩ := bind_eq_ok.1 hprune
    cases hprune
    obtain ⟨hrt, hb, hpr⟩ := h.auth.retains.pruneToBit (Mmr.orPanic_eq_ok.1 hbt)
    obtain ⟨hh, -, hbn⟩ := Mmr.pruneToPos_holds h.holds hm
    have hch : bitmap.prunedChunks = bit / N.bits := by
      rw [hpr]
      exact Nat.max_eq_right (Nat.not_lt.1 hlt)
    have hp : x = size (bit / N.bits) := by
      rw [Mmr.orPanic_eq_ok, Mmr.Position.tryFrom] at hx
      split_ifs at hx
      · exact (Option.some.inj hx).symm
      · cases hx
    refine ⟨.complete hrt (completeChunks_eq hrt) h.clean ?_, hh, h.clean, h.root_eq⟩
    dsimp only
    rw [hbn, hp, hch]

/-! ### Restoring -/

/-- The metadata has the pinned nodes of the first chunks of a bitmap. -/
structure Records (hasher : Hasher Sym D) (elt : ℕ → Chunk N → List Sym) (g : BitMap N)
    (metadata : PrunedMetadata D) : Prop where
  prunedBits_le : metadata.prunedChunks * N.bits ≤ g.len
  prunedChunks_le : metadata.prunedChunks ≤ Mmr.maxLocation
  nodes_eq : metadata.nodes = (peaks metadata.prunedChunks).map fun node =>
    Mmr.digestAt hasher (completeElements elt g) node.1 node.2

theorem writePruned_eq {b : CleanBitMap N D} (h : CleanAuth c hasher elt g b)
    (hm : b.bitmap.prunedChunks ≤ Mmr.maxLocation) : b.writePruned = .ok ⟨b.bitmap.prunedChunks,
      (peaks b.bitmap.prunedChunks).map fun node =>
        Mmr.digestAt hasher (completeElements elt g) node.1 node.2⟩ := by
  obtain ⟨pin, st⟩ := h.holds.stored
  have hle : b.bitmap.prunedChunks ≤ (completeElements elt g).length := by
    rw [h.auth.length_eq]
    exact Nat.le_add_right _ _
  have hp := Mmr.nodesToPin_of (Mmr.size_le_maxPosition hm) le_rfl
    (size_lt_size_succ _)
  rw [writePruned, Mmr.Position.tryFrom_eq hm]
  refine bind_eq_ok.2 ⟨_, rfl, bind_eq_ok.2 ⟨_, Mmr.orPanic_eq_ok.2 hp, bind_eq_ok.2 ⟨_, ?_, rfl⟩⟩⟩
  rw [mapM_map]
  refine mapM_eq_ok fun node hnd => ?_
  exact Mmr.orPanic_eq_ok.2 (st.getNode_of_peak hle h.auth.boundary.le hnd (by simp))

variable {metadata : PrunedMetadata D}

theorem writePruned_records {b : CleanBitMap N D} (h : CleanAuth c hasher elt g b)
    (hw : b.writePruned = .ok metadata) : Records hasher elt g metadata := by
  have hm : b.bitmap.prunedChunks ≤ Mmr.maxLocation := by
    obtain ⟨x, hx, -⟩ := bind_eq_ok.1 hw
    rw [Mmr.orError_eq_ok, Mmr.Position.tryFrom] at hx
    split_ifs at hx with hm
    exact hm
  rw [writePruned_eq h hm] at hw
  cases hw
  exact ⟨h.auth.retains.prunedBits_le, hm, rfl⟩

/-! ### Restoring -/

/-- A range that is pruned completely, with some digests as its peaks. -/
def peaksOnly (digestOf : ℕ → ℕ → D) (k : ℕ) (state : S) : MemMmr D S :=
  ⟨[], size k, (peaks k).map fun node =>
    (pos node.1 node.2, digestOf node.1 node.2), state⟩

variable {k : ℕ}

theorem merkleize_peaksOnly (hasher : Hasher Sym D) (digestOf : ℕ → ℕ → D)
    (hm : k ≤ Mmr.maxLocation) : (peaksOnly digestOf k ⟨[]⟩ : DirtyMmr D).merkleize hasher =
      .ok (peaksOnly digestOf k ⟨hasher.root (size k)
        ((peaks k).map fun node => digestOf node.1 node.2)⟩) := by
  have hsize : (peaksOnly digestOf k ⟨[]⟩ : DirtyMmr D).size = size k := Nat.zero_add _
  have hk : k ≤ 2 ^ 62 := hm.trans (by norm_num [Mmr.maxLocation])
  have hsr : (peaksOnly digestOf k ⟨[]⟩ : DirtyMmr D).merkleizeSerial hasher =
      .ok (peaksOnly digestOf k ⟨[]⟩) := by
    rw [MemMmr.merkleizeSerial, peaksOnly, mergeSort_nil]
    rfl
  refine bind_eq_ok.2 ⟨_, hsr, ?_⟩
  rw [hsize, Mmr.peakIterator_size hk]
  refine bind_eq_ok.2 ⟨_, rfl, bind_eq_ok.2 ⟨_, ?_, rfl⟩⟩
  rw [mapM_map]
  refine mapM_eq_ok fun node hnd => Mmr.orPanic_eq_ok.2 ?_
  have hlt : pos node.1 node.2 < size k :=
    pos_lt_size_iff.2 (peak_end_le hnd)
  exact (if_pos hlt).trans (Mmr.lookup_peaks hnd)

theorem init_peaksOnly (hasher : Hasher Sym D) (digestOf : ℕ → ℕ → D) (hm : k ≤ Mmr.maxLocation) :
    MemMmr.init [] (size k)
        ((peaks k).map fun node => digestOf node.1 node.2) hasher =
      .ok (peaksOnly digestOf k ⟨hasher.root (size k)
        ((peaks k).map fun node => digestOf node.1 node.2)⟩) := by
  have hk : k ≤ 2 ^ 62 := hm.trans (by norm_num [Mmr.maxLocation])
  have hp := Mmr.nodesToPin_of (Mmr.size_le_maxPosition hm) le_rfl
    (size_lt_size_succ k)
  have hsize : Mmr.Position.isMmrSize (size k + ([] : List D).length) ≠ false := by
    rw [length_nil, Nat.add_zero, Mmr.Position.isMmrSize_size hk]
    exact Bool.noConfusion
  simp only [MemMmr.init, if_neg hsize, hp]
  refine bind_eq_ok.2 ⟨_, rfl, ?_⟩
  rw [if_neg (by simp), zip_map']
  exact merkleize_peaksOnly hasher digestOf hm

theorem storedNodes_eq (hrc : Records hasher elt g metadata) :
    storedNodes metadata (size metadata.prunedChunks) =
      .ok metadata.nodes := by
  have hp := Mmr.nodesToPin_of (Mmr.size_le_maxPosition hrc.prunedChunks_le) le_rfl
    (size_lt_size_succ metadata.prunedChunks)
  rw [storedNodes, hp]
  refine bind_eq_ok.2 ⟨_, rfl, mapM_eq_ok_iff.2 ?_⟩
  rw [forall₂_iff_get]
  refine ⟨by simp [hrc.nodes_eq], fun i hi hi' => ?_⟩
  simp [getElem?_eq_getElem hi']

theorem restorePruned_eq (hrc : Records hasher elt g metadata) :
    let root := hasher.root (size metadata.prunedChunks) metadata.nodes
    restorePruned hasher metadata =
      .ok (⟨.newWithPrunedChunks metadata.prunedChunks, 0,
        peaksOnly (Mmr.digestAt hasher (completeElements elt g)) metadata.prunedChunks ⟨root⟩, [],
        some root⟩ : CleanBitMap N D) := by
  obtain ⟨k, nodes⟩ := metadata
  have hnd := hrc.nodes_eq
  have hm := hrc.prunedChunks_le
  have hst := storedNodes_eq hrc
  dsimp only at hnd hm hst ⊢
  rw [restorePruned]
  split_ifs with hk
  · subst hk
    have h := merkleize_peaksOnly hasher (Mmr.digestAt hasher (completeElements elt g)) hm
    rw [← hnd] at h
    exact bind_eq_ok.2 ⟨_, h, rfl⟩
  · rw [Mmr.Position.tryFrom_eq hm]
    refine bind_eq_ok.2 ⟨_, rfl, bind_eq_ok.2 ⟨_, hst, ?_⟩⟩
    have h := init_peaksOnly hasher (Mmr.digestAt hasher (completeElements elt g)) hm
    rw [← hnd] at h
    exact bind_eq_ok.2 ⟨_, h, rfl⟩

variable (h : k * N.bits ≤ g.len)

theorem completeElements_takeChunks :
    completeElements elt (g.takeChunks k h) = (completeElements elt g).take k := by
  have hk : k ≤ g.len / N.bits := (Nat.le_div_iff_mul_le N.bits_pos).2 h
  rw [completeElements, completeElements, BitMap.takeChunks, Nat.mul_div_cancel _ N.bits_pos,
    take_take, Nat.min_self]
  refine ext_getElem? fun i => ?_
  by_cases hi : i < k
  · rw [getElem?_take_of_lt hi, getElem?_mapIdx, getElem?_mapIdx,
      getElem?_take_of_lt hi, getElem?_take_of_lt (hi.trans_le hk)]
  · rw [getElem?_take_eq_none (Nat.not_lt.1 hi), getElem?_mapIdx,
      getElem?_take_eq_none (Nat.not_lt.1 hi), Option.map_none]

theorem length_takeChunks : (completeElements elt (g.takeChunks k h)).length = k := by
  rw [length_completeElements]
  exact Nat.mul_div_cancel _ N.bits_pos

/-- The chunks that are restored are those that were pruned. -/
theorem digestAt_takeChunks {node : ℕ × ℕ} (hnd : node ∈ peaks k) :
    Mmr.digestAt hasher (completeElements elt (g.takeChunks k h)) node.1 node.2 =
      Mmr.digestAt hasher (completeElements elt g) node.1 node.2 := by
  rw [completeElements_takeChunks h, Mmr.digestAt_take (peak_end_le hnd)]

theorem peaksOnly_eq (state : S) :
    peaksOnly (Mmr.digestAt hasher (completeElements elt g)) k state =
      peaksOnly (Mmr.digestAt hasher (completeElements elt (g.takeChunks k h)))
        (completeElements elt (g.takeChunks k h)).length state := by
  rw [length_takeChunks h, peaksOnly, peaksOnly]
  congr 1
  refine map_congr_left fun node hnd => ?_
  rw [digestAt_takeChunks h hnd]

theorem root_takeChunks :
    hasher.root (size k) ((peaks k).map fun node =>
        Mmr.digestAt hasher (completeElements elt g) node.1 node.2) =
      rootOf hasher (completeElements elt (g.takeChunks k h)) := by
  rw [rootOf, Mmr.peakDigests, length_takeChunks]
  exact congrArg _ (map_congr_left fun node hnd => (digestAt_takeChunks h hnd).symm)

theorem Authenticates.restored (m : MemMmr D S) (hm : m.prunedToPos = size k)
    (root : Option D) :
    Authenticates elt (g.takeChunks k h) ⟨.newWithPrunedChunks k, 0, m, [], root⟩
      (completeElements elt (g.takeChunks k h)) := by
  refine .complete ⟨?_, ?_⟩
    (Nat.sub_eq_zero_of_le (Nat.mul_div_cancel k N.bits_pos).le).symm rfl hm
  · simp [Prunable.newWithPrunedChunks, BitMap.new, BitMap.takeChunks]
  · simp [Prunable.len, Prunable.prunedBits, Prunable.newWithPrunedChunks, BitMap.new,
      BitMap.takeChunks]

/-- **What is restored** is the bitmap as it was pruned. -/
theorem restorePruned_auth (hrc : Records hasher elt g metadata) :
    ∃ b : CleanBitMap N D, restorePruned hasher metadata = .ok b ∧
      CleanAuth c hasher elt (g.takeChunks metadata.prunedChunks hrc.prunedBits_le) b := by
  have hr : hasher.root (size metadata.prunedChunks) metadata.nodes =
      rootOf hasher (completeElements elt
        (g.takeChunks metadata.prunedChunks hrc.prunedBits_le)) := by
    rw [← root_takeChunks, hrc.nodes_eq]
  refine ⟨_, restorePruned_eq hrc, Authenticates.restored hrc.prunedBits_le _ rfl _,
    ⟨⟨(completeElements elt
        (g.takeChunks metadata.prunedChunks hrc.prunedBits_le)).length, ?_⟩, hr, ?_⟩, rfl, ?_⟩
  · rw [peaksOnly_eq hrc.prunedBits_le]
    exact Mmr.fromPeaks_stored _
  · rw [length_takeChunks]
    exact hrc.prunedChunks_le.trans (by norm_num [Mmr.maxLocation])
  · exact congrArg some (hr.trans (if_pos (Nat.mul_mod_left _ _)).symm)

end Commonware.Bits
