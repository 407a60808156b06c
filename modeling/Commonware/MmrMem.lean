/-
**A Merkle mountain range in memory.**

The nodes of a mountain range are kept in the order of their positions (`storage/src/mmr/mem.rs`).
What is before the pruning boundary is dropped, except for the nodes that are pinned.  Changes are
made to a dirty range, which remembers the nodes whose digests have to be computed again; the root
of a range is known once they are computed and the range is clean.  Proofs are generated from the
nodes that a range still has (`storage/src/mmr/verification.rs`).

A call that does not return a value returns an error or panics.

Main definitions:

* `MemMmr` — a mountain range, dirty or clean;
* `MemMmr.add`, `MemMmr.pop`, `MemMmr.updateLeafBatched` — changes to a dirty range;
* `MemMmr.merkleize`, `MemMmr.pruneToPos` — computing the root, and pruning of a clean range;
* `MemMmr.merkleizeParallel` — computing digests with several threads;
* `MemMmr.change` — changes to a clean range, which is dirty for a while;
* `historicalRangeProof`, `multiProof` — proofs.

Main results:

* `nodesNeedingParents_size` — a new leaf gets as many parents as its location has ones at the end.
-/

import Commonware.MmrProof

set_option autoImplicit false

namespace Commonware.Mmr

open MountainRange List

variable {Sym D S : Type}

/-- How a call ends that returns no value. -/
inductive Failure
  | error (e : Error)
  | panic
  deriving DecidableEq

def orPanic {α : Type} : Option α → Except Failure α
  | some a => .ok a
  | none => .error .panic

def orError {α : Type} : Except Error α → Except Failure α
  | .ok a => .ok a
  | .error e => .error (.error e)

/-- Collects the last peaks whose heights follow each other.  The assertions of the source fail if
the heights do not decrease. -/
def nodesNeedingParentsLoop : List (ℕ × ℕ) → List ℕ → ℕ → Option (List ℕ)
  | [], peaks, lastHeight => some (if lastHeight ≠ 0 then [] else peaks)
  | (peakPos, height) :: rest, peaks, lastHeight =>
    if 0 < lastHeight ∧ height < lastHeight then
      nodesNeedingParentsLoop rest
        ((if height ≠ lastHeight - 1 then [] else peaks) ++ [peakPos]) height
    else none

/-- The peaks that get a parent with the next leaf. -/
def nodesNeedingParents (peaks : List (ℕ × ℕ)) : Option (List ℕ) :=
  nodesNeedingParentsLoop peaks [] (2 ^ 32 - 1)

/-- The state of a range with nodes, given by position and height, whose digests are outdated. -/
structure Dirty where
  dirtyNodes : List (ℕ × ℕ)

/-- The state of a range whose root is known. -/
structure Clean (D : Type) where
  root : D

/-- The nodes from the pruning boundary on, and the pinned nodes before it by position. -/
structure MemMmr (D S : Type) where
  nodes : List D
  prunedToPos : ℕ
  pinnedNodes : List (ℕ × D)
  state : S

abbrev DirtyMmr (D : Type) := MemMmr D Dirty

abbrev CleanMmr (D : Type) := MemMmr D (Clean D)

namespace MemMmr

/-! ### Nodes -/

def size (m : MemMmr D S) : ℕ := m.nodes.length + m.prunedToPos

def leaves (m : MemMmr D S) : Except Failure ℕ := orPanic (Location.tryFrom m.size)

/-- A node that is retained or pinned. -/
def getNode (m : MemMmr D S) (pos : ℕ) : Option D :=
  if pos < m.prunedToPos then m.pinnedNodes.lookup pos else m.nodes[pos - m.prunedToPos]?

def getNodeUnchecked (m : MemMmr D S) (pos : ℕ) : Except Failure D := orPanic (m.getNode pos)

def posToIndex (m : MemMmr D S) (pos : ℕ) : Except Failure ℕ :=
  if pos < m.prunedToPos then .error .panic else .ok (pos - m.prunedToPos)

def setNode (m : MemMmr D S) (pos : ℕ) (digest : D) : Except Failure (MemMmr D S) := do
  let index ← m.posToIndex pos
  if index < m.nodes.length then pure { m with nodes := m.nodes.set index digest }
  else .error .panic

/-! ### Changes -/

def new : DirtyMmr D := ⟨[], 0, [], ⟨[]⟩⟩

def addParents (empty : D) : ℕ → ℕ → DirtyMmr D → DirtyMmr D
  | 0, _, m => m
  | count + 1, height, m =>
    addParents empty count (height + 1)
      { m with
        nodes := m.nodes ++ [empty]
        state := ⟨m.state.dirtyNodes.insert (m.size, height)⟩ }

variable (m : DirtyMmr D) (hasher : Hasher Sym D) (updates : List (ℕ × List Sym))

def addLeafDigest (digest : D) : Except Failure (ℕ × DirtyMmr D) := do
  let peaks ← orPanic (peakIterator m.size)
  let needing ← orPanic (nodesNeedingParents peaks)
  pure (m.size, addParents hasher.empty needing.length 1 { m with nodes := m.nodes ++ [digest] })

def add (element : List Sym) : Except Failure (ℕ × DirtyMmr D) :=
  m.addLeafDigest hasher (hasher.leafDigest m.size element)

/-- The largest size of a range that is at most `newSize`. -/
def popLoop (prunedToPos : ℕ) : ℕ → Except Failure ℕ
  | 0 => if 0 < prunedToPos then .error (.error (.elementPruned 0)) else .ok 0
  | newSize + 1 =>
    if newSize + 1 < prunedToPos then .error (.error (.elementPruned (newSize + 1)))
    else if Position.isMmrSize (newSize + 1) then .ok (newSize + 1)
    else popLoop prunedToPos newSize

def pop : Except Failure (ℕ × DirtyMmr D) :=
  if m.size = 0 then .error (.error .empty)
  else do
    let newSize ← popLoop m.prunedToPos (m.size - 1)
    let numToDrain := m.size - newSize
    let m := { m with nodes := m.nodes.take (m.nodes.length - numToDrain) }
    pure (m.size, { m with
      state := ⟨m.state.dirtyNodes.filter fun node => decide (node.1 < m.size)⟩ })

/-- Inserts the parents of a path, from the lowest one on, up to one that is dirty already. -/
def markDirtyLoop : List (ℕ × ℕ) → ℕ → List (ℕ × ℕ) → List (ℕ × ℕ)
  | [], _, dirtyNodes => dirtyNodes
  | (parentPos, _) :: path, height, dirtyNodes =>
    if (parentPos, height) ∈ dirtyNodes then dirtyNodes
    else markDirtyLoop path (height + 1) (dirtyNodes.insert (parentPos, height))

def markDirty (pos : ℕ) : Except Failure (DirtyMmr D) := do
  let peaks ← orPanic (peakIterator m.size)
  let (peakPos, height) ← orPanic (peaks.find? fun peak => decide (¬ peak.1 < pos))
  let path := (pathIterator pos height peakPos).reverse
  pure { m with state := ⟨markDirtyLoop path 1 m.state.dirtyNodes⟩ }

def setLeaf (pos : ℕ) (element : List Sym) : Except Failure (DirtyMmr D) := do
  let m ← m.setNode pos (hasher.leafDigest pos element)
  m.markDirty pos

/-- The position of a leaf that can be changed. -/
def updatePosition (leaves loc : ℕ) : Except Failure ℕ :=
  if leaves ≤ loc then .error (.error (.leafOutOfBounds loc))
  else do
    let pos ← orError (Position.tryFrom loc)
    if pos < m.prunedToPos then .error (.error (.elementPruned pos)) else pure pos

/-- Changes leaves, one after the other, if all of them can be changed. -/
def updateLeafBatched : Except Failure (DirtyMmr D) :=
  if updates = [] then .ok m
  else do
    let leaves ← m.leaves
    let positions ← updates.mapM fun update => m.updatePosition leaves update.1
    (updates.zip positions).foldlM (fun m item => m.setLeaf hasher item.2 item.1.2) m

def updateLeaf (loc : ℕ) (element : List Sym) : Except Failure (DirtyMmr D) :=
  m.updateLeafBatched hasher [(loc, element)]

def minToParallelize : ℕ := 20

/-- Changes leaves whose digests are computed first, by several threads. -/
def updateLeafParallel (positions : List ℕ) : Except Failure (DirtyMmr D) :=
  let digests := (updates.zip positions).map fun item =>
    (item.2, hasher.leafDigest item.2 item.1.2)
  digests.foldlM (fun m item => do
    let m ← m.setNode item.1 item.2
    m.markDirty item.1) m

/-- Changes leaves with a pool of threads, which is used if there are many of them. -/
def updateLeafPool : Except Failure (DirtyMmr D) :=
  if updates = [] then .ok m
  else do
    let leaves ← m.leaves
    let positions ← updates.mapM fun update => m.updatePosition leaves update.1
    if minToParallelize ≤ updates.length then m.updateLeafParallel hasher updates positions
    else (updates.zip positions).foldlM (fun m item => m.setLeaf hasher item.2 item.1.2) m

/-! ### Clean ranges -/

/-- Computes the digest of a dirty node from its children. -/
def recompute (m : DirtyMmr D) (node : ℕ × ℕ) : Except Failure (DirtyMmr D) := do
  let left ← m.getNodeUnchecked (node.1 - 2 ^ node.2)
  let right ← m.getNodeUnchecked (node.1 - 1)
  m.setNode node.1 (hasher.nodeDigest node.1 left right)

/-- The order in which dirty nodes are computed: by height, and by position at one height. -/
def byHeight (a b : ℕ × ℕ) : Bool := decide (a.2 < b.2 ∨ a.2 = b.2 ∧ a.1 ≤ b.1)

def merkleizeSerial : Except Failure (DirtyMmr D) :=
  (m.state.dirtyNodes.mergeSort byHeight).foldlM (recompute hasher) { m with state := ⟨[]⟩ }

def setIndex (item : ℕ × D) : Except Failure (DirtyMmr D) :=
  if item.1 < m.nodes.length then .ok { m with nodes := m.nodes.set item.1 item.2 }
  else .error .panic

/-- Computes the digests of nodes of one height, and then sets them. -/
def updateNodeDigests (m : DirtyMmr D) (sameHeight : List ℕ) (height : ℕ) :
    Except Failure (DirtyMmr D) := do
  let computedDigests ← sameHeight.mapM fun pos => do
    let left ← m.getNodeUnchecked (pos - 2 ^ height)
    let right ← m.getNodeUnchecked (pos - 1)
    let index ← m.posToIndex pos
    pure (index, hasher.nodeDigest pos left right)
  computedDigests.foldlM setIndex m

/-- Collects the nodes of one height after the other, and computes the rest one by one as soon as there
are too few of them. -/
def merkleizeParallelLoop (hasher : Hasher Sym D) (minToParallelize : ℕ) :
    List (ℕ × ℕ) → List (ℕ × ℕ) → ℕ → DirtyMmr D → Except Failure (DirtyMmr D)
  | [], sameHeight, currentHeight, m =>
    if sameHeight.length < minToParallelize then
      merkleizeSerial { m with state := ⟨sameHeight⟩ } hasher
    else updateNodeDigests hasher m (sameHeight.map Prod.fst) currentHeight
  | node :: nodes, sameHeight, currentHeight, m =>
    if node.2 = currentHeight then
      merkleizeParallelLoop hasher minToParallelize nodes (sameHeight ++ [node]) currentHeight m
    else if sameHeight.length < minToParallelize then
      merkleizeSerial { m with state := ⟨sameHeight ++ node :: nodes⟩ } hasher
    else do
      let m ← updateNodeDigests hasher m (sameHeight.map Prod.fst) currentHeight
      merkleizeParallelLoop hasher minToParallelize nodes [node] (currentHeight + 1) m

def merkleizeParallel (minToParallelize : ℕ) : Except Failure (DirtyMmr D) :=
  merkleizeParallelLoop hasher minToParallelize (m.state.dirtyNodes.mergeSort byHeight) [] 1
    { m with state := ⟨[]⟩ }

def merkleize : Except Failure (CleanMmr D) := do
  let m ← m.merkleizeSerial hasher
  let peaks ← orPanic (peakIterator m.size)
  let digests ← peaks.mapM fun peak => m.getNodeUnchecked peak.1
  pure ⟨m.nodes, m.prunedToPos, m.pinnedNodes, ⟨hasher.root m.size digests⟩⟩

def intoDirty (m : CleanMmr D) : DirtyMmr D := ⟨m.nodes, m.prunedToPos, m.pinnedNodes, ⟨[]⟩⟩

def root (m : CleanMmr D) : D := m.state.root

/-- A range with some nodes behind a pruning boundary. -/
def init (nodes : List D) (prunedToPos : ℕ) (pinnedNodes : List D) (hasher : Hasher Sym D) :
    Except Failure (CleanMmr D) :=
  let size := prunedToPos + nodes.length
  if Position.isMmrSize size = false then .error (.error (.invalidSize size))
  else do
    let positions ← orPanic (Commonware.Mmr.nodesToPin prunedToPos)
    if pinnedNodes.length ≠ positions.length then .error (.error .invalidPinnedNodes)
    else merkleize ⟨nodes, prunedToPos, positions.zip pinnedNodes, ⟨[]⟩⟩ hasher

/-- The nodes that have to be pinned when the range is pruned. -/
def nodesToPin (m : CleanMmr D) (prunePos : ℕ) : Except Failure (List (ℕ × D)) := do
  let positions ← orPanic (Commonware.Mmr.nodesToPin prunePos)
  positions.mapM fun pos => do
    let digest ← m.getNodeUnchecked pos
    pure (pos, digest)

def pruneToPos (m : CleanMmr D) (pos : ℕ) : Except Failure (CleanMmr D) := do
  let pinnedNodes ← m.nodesToPin pos
  let retainedNodes ← m.posToIndex pos
  if retainedNodes ≤ m.nodes.length then
    pure ⟨m.nodes.drop retainedNodes, pos, pinnedNodes, m.state⟩
  else .error .panic

/-- Changes a clean range, which is made clean again also if the change fails. -/
def change {α : Type} (m : CleanMmr D) (hasher : Hasher Sym D)
    (f : DirtyMmr D → Except Failure (α × DirtyMmr D)) :
    Except Failure (Except Error α × CleanMmr D) :=
  match f m.intoDirty with
  | .ok (a, dirty) => do
      let m ← dirty.merkleize hasher
      pure (.ok a, m)
  | .error (.error e) => do
      let m ← m.intoDirty.merkleize hasher
      pure (.error e, m)
  | .error .panic => .error .panic

def addClean (m : CleanMmr D) (hasher : Hasher Sym D) (element : List Sym) :
    Except Failure (Except Error ℕ × CleanMmr D) :=
  m.change hasher fun dirty => dirty.add hasher element

def popClean (m : CleanMmr D) (hasher : Hasher Sym D) :
    Except Failure (Except Error ℕ × CleanMmr D) :=
  m.change hasher pop

def updateLeafClean (m : CleanMmr D) (hasher : Hasher Sym D) (loc : ℕ) (element : List Sym) :
    Except Failure (Except Error Unit × CleanMmr D) :=
  m.change hasher fun dirty => (dirty.updateLeaf hasher loc element).map fun dirty => ((), dirty)

end MemMmr

/-! ### Proofs -/

variable (getNode : ℕ → Option D)

/-- The digest that a proof needs of a node. -/
def fetchNode (pos : ℕ) : Except Error D :=
  match getNode pos with
  | some digest => .ok digest
  | none => .error (.elementPruned pos)

/-- A proof for the leaves of a range, against the range of an earlier size. -/
def historicalRangeProof (size start stop : ℕ) : Except Error (Proof D) := do
  let positions ← nodesRequiredForRangeProof size start stop
  let digests ← positions.mapM (fetchNode getNode)
  pure ⟨size, digests⟩

def multiProof (size : ℕ) (locations : List ℕ) : Except Error (Proof D) :=
  if locations = [] then .error .empty
  else do
    let nodePositions ← nodesRequiredForMultiProof size locations
    let digests ← nodePositions.keys.mapM (fetchNode getNode)
    pure ⟨size, digests⟩

/-! ### Parents of a new leaf -/

theorem nodesNeedingParentsLoop_spec {n k lastHeight : ℕ} {acc : List ℕ} (hk : k ≤ lastHeight)
    (hz : ∀ i, k ≤ i → i < lastHeight → n / 2 ^ i % 2 = 0)
    (hon : ∀ i, lastHeight ≤ i → i < lastHeight + acc.length → n / 2 ^ i % 2 = 1)
    (he : n / 2 ^ (lastHeight + acc.length) % 2 = 0) :
    ∃ l, nodesNeedingParentsLoop ((peaksBelow n k).map peakItem) acc lastHeight = some l ∧
      (∀ i < l.length, n / 2 ^ i % 2 = 1) ∧ n / 2 ^ l.length % 2 = 0 := by
  induction k generalizing lastHeight acc with
  | zero =>
    refine ⟨_, rfl, ?_⟩
    by_cases hls : lastHeight = 0
    · subst hls
      rw [Nat.zero_add] at hon he
      exact ⟨fun i hi => hon i (Nat.zero_le i) hi, he⟩
    · rw [if_pos hls]
      exact ⟨fun i hi => absurd hi (Nat.not_lt_zero i), hz 0 le_rfl (Nat.pos_of_ne_zero hls)⟩
  | succ k ih =>
    rw [peaksBelow]
    by_cases hb : n / 2 ^ k % 2 = 1
    · rw [if_pos hb, map_cons, peakItem, nodesNeedingParentsLoop, if_pos (by omega)]
      refine ih le_rfl (fun i h₁ h₂ => by omega) ?_ ?_
      · intro i h₁ h₂
        rcases Nat.eq_or_lt_of_le h₁ with rfl | h₁
        · exact hb
        · by_cases hg : k ≠ lastHeight - 1
          · rw [if_pos hg, nil_append, length_singleton] at h₂
            omega
          · rw [if_neg hg, length_append, length_singleton] at h₂
            exact hon i (by omega) (by omega)
      · by_cases hg : k ≠ lastHeight - 1
        · rw [if_pos hg]
          exact hz (k + 1) le_rfl (by omega)
        · have hlen : k + (acc ++ [pos k (n / 2 ^ k - 1)]).length = lastHeight + acc.length := by
            rw [length_append, length_singleton]
            omega
          rw [if_neg hg, hlen]
          exact he
    · rw [if_neg hb]
      refine ih (by omega) (fun i h₁ h₂ => ?_) hon he
      rcases Nat.eq_or_lt_of_le h₁ with rfl | h₁
      · omega
      · exact hz i h₁ h₂

/-- **A new leaf gets as many parents as its location has ones at the end.** -/
theorem nodesNeedingParents_size {n : ℕ} (hn : n ≤ 2 ^ 62) :
    ∃ l q, nodesNeedingParents ((peaks n).map peakItem) = some l ∧
      n + 1 = (2 * q + 1) * 2 ^ l.length := by
  have hlr : ∀ i, 63 ≤ i → n / 2 ^ i = 0 := by
    intro i hi
    have hp : 2 ^ 63 ≤ 2 ^ i := Nat.pow_le_pow_right (by omega) hi
    exact Nat.div_eq_of_lt (by omega)
  have hpk : peaks n = peaksBelow n 63 := peaks_eq (by omega)
  obtain ⟨l, hl, hon, hz⟩ := @nodesNeedingParentsLoop_spec n 63 (2 ^ 32 - 1) [] (by omega)
    (fun i h₁ _ => by rw [hlr i h₁]) (fun i h₁ h₂ => absurd h₂ (Nat.not_lt.2 h₁))
    (by rw [hlr _ (by norm_num)])
  obtain ⟨q, hq⟩ := add_one_of_ones hon hz
  exact ⟨l, q, by rw [nodesNeedingParents, hpk, hl], hq⟩

namespace MemMmr

def rangeProof (m : CleanMmr D) (start stop : ℕ) : Except Error (Proof D) :=
  Commonware.Mmr.historicalRangeProof m.getNode m.size start stop

end MemMmr

end Commonware.Mmr
