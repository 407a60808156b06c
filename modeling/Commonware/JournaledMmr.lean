/-
**A Merkle mountain range on disk.**

The nodes of a range are kept in a journal of digests (`storage/src/mmr/journaled.rs`).  New nodes stay
in a range in memory until they are synced; what is synced is dropped from memory except for the
pinned nodes.  Pruning removes whole blobs of the journal.  The nodes that are needed from before the
pruning boundary are written to a metadata store first, together with the boundary, so that a range
can be opened again after a crash at any point.

Main definitions:

* `Journaled` — a range in memory, its journal and its metadata;
* `Journaled.add`, `Journaled.pop`, `Journaled.sync`, `Journaled.pruneToPos` — the operations;
* `Journaled.init`, `Journaled.initFromPinnedNodes` — opening a range.
-/

import Commonware.FixedJournal
import Commonware.MmrMem

set_option autoImplicit false

namespace Commonware.Mmr

open MountainRange

variable {Sym D S : Type}

/-! ### Ranges in memory -/

namespace MemMmr

def addPinnedNodes (m : MemMmr D S) (pinnedNodes : List (ℕ × D)) : MemMmr D S :=
  { m with
    pinnedNodes := pinnedNodes ++ m.pinnedNodes.filter fun node =>
      decide (node.1 ∉ pinnedNodes.map Prod.fst) }

def pruneAll (m : CleanMmr D) : Except Failure (CleanMmr D) :=
  if m.nodes = [] then .ok m else m.pruneToPos (m.prunedToPos + m.nodes.length)

/-- A dirty range with some nodes behind a pruning boundary. -/
def fromComponents (nodes : List D) (prunedToPos : ℕ) (pinnedNodes : List D) :
    Except Failure (DirtyMmr D) := do
  let positions ← orPanic (Commonware.Mmr.nodesToPin prunedToPos)
  if pinnedNodes.length < positions.length then .error .panic
  else pure ⟨nodes, prunedToPos, positions.zip pinnedNodes, ⟨[]⟩⟩

end MemMmr

namespace Journaled

inductive Error
  | mmr (e : Mmr.Error)
  | journalError (e : Fixed.Error)
  deriving DecidableEq

/-- How a call ends that returns no value. -/
inductive Failure
  | error (e : Error)
  | panic
  deriving DecidableEq

def ofMmr {α : Type} : Except Mmr.Failure α → Except Failure α
  | .ok a => .ok a
  | .error (.error e) => .error (.error (.mmr e))
  | .error .panic => .error .panic

def ofJournal {α : Type} : Except Fixed.Failure α → Except Failure α
  | .ok a => .ok a
  | .error (.error e) => .error (.error (.journalError e))
  | .error .panic => .error .panic

/-- The pruning boundary, zero if there is none, and the nodes that are pinned for it. -/
structure Metadata (D : Type) where
  pruneToPos : ℕ
  nodes : OrdMap ℕ D

/-- What is stored. -/
structure Disk (D : Type) where
  journal : Fixed.Partition
  metadata : Metadata D

end Journaled

open Journaled in
structure Journaled (D S : Type) where
  memMmr : MemMmr D S
  journal : Fixed.Journal
  journalSize : ℕ
  metadata : Metadata D
  prunedToPos : ℕ

namespace Journaled

abbrev CleanJournaled (D : Type) := Journaled D (Clean D)

abbrev DirtyJournaled (D : Type) := Journaled D Dirty

def size (s : Journaled D S) : ℕ := s.memMmr.size

def root (s : CleanJournaled D) : D := s.memMmr.root

variable (cfg : Fixed.Config D)

/-! ### Nodes on disk -/

def getFromMetadataOrJournal (metadata : Metadata D) (journal : Fixed.Journal) (pos : ℕ) :
    Except Failure D :=
  match metadata.nodes.get? pos with
  | some digest => .ok digest
  | none =>
    match journal.read cfg pos with
    | .ok digest => .ok digest
    | .error (.itemPruned _) => .error (.error (.mmr (.missingNode pos)))
    | .error e => .error (.error (.journalError e))

def addExtraPinnedNodes (memMmr : MemMmr D S) (metadata : Metadata D) (journal : Fixed.Journal)
    (prunePos : ℕ) : Except Failure (MemMmr D S) := do
  let positions ← ofMmr (orPanic (nodesToPin prunePos))
  let digests ← positions.mapM (getFromMetadataOrJournal cfg metadata journal)
  pure (memMmr.addPinnedNodes (positions.zip digests))

def getNode (s : CleanJournaled D) (position : ℕ) : Except Failure (Option D) :=
  match s.memMmr.getNode position with
  | some node => .ok (some node)
  | none =>
    match s.journal.read cfg position with
    | .ok item => .ok (some item)
    | .error (.itemPruned _) => .ok none
    | .error e => .error (.error (.journalError e))

/-! ### Changes -/

def addDirty (s : DirtyJournaled D) (hasher : Hasher Sym D) (element : List Sym) :
    Except Failure (ℕ × DirtyJournaled D) := do
  let (pos, memMmr) ← ofMmr (s.memMmr.add hasher element)
  pure (pos, { s with memMmr := memMmr })

def add (s : CleanJournaled D) (hasher : Hasher Sym D) (element : List Sym) :
    Except Failure (ℕ × CleanJournaled D) := do
  let (pos, dirty) ← ofMmr (s.memMmr.intoDirty.add hasher element)
  let memMmr ← ofMmr (dirty.merkleize hasher)
  pure (pos, { s with memMmr := memMmr })

def intoDirty (s : CleanJournaled D) : DirtyJournaled D :=
  ⟨s.memMmr.intoDirty, s.journal, s.journalSize, s.metadata, s.prunedToPos⟩

def merkleize (s : DirtyJournaled D) (hasher : Hasher Sym D) :
    Except Failure (CleanJournaled D) := do
  let memMmr ← ofMmr (s.memMmr.merkleize hasher)
  pure ⟨memMmr, s.journal, s.journalSize, s.metadata, s.prunedToPos⟩

/-- Writes the nodes from a position on. -/
def appendNodes (memMmr : MemMmr D S) (journal : Fixed.Journal) (positions : List ℕ) :
    Except Failure Fixed.Journal :=
  positions.foldlM (fun journal pos => do
    let node ← ofMmr (memMmr.getNodeUnchecked pos)
    let (_, journal) ← ofJournal (journal.append cfg node)
    pure journal) journal

variable (s : CleanJournaled D) (hasher : Hasher Sym D)

def sync : Except Failure (CleanJournaled D) := do
  let journal ← appendNodes cfg s.memMmr s.journal
    (List.range' s.journalSize (s.size - s.journalSize))
  if s.size ≠ journal.size then .error .panic
  else do
    let positions ← ofMmr (orPanic (nodesToPin s.prunedToPos))
    let digests ← positions.mapM fun pos => ofMmr (s.memMmr.getNodeUnchecked pos)
    let memMmr ← ofMmr s.memMmr.pruneAll
    pure ⟨memMmr.addPinnedNodes (positions.zip digests), journal, s.size, s.metadata, s.prunedToPos⟩

def pinnedNode (pos : ℕ) : Except Failure D := do
  let node ← s.getNode cfg pos
  ofMmr (orPanic node)

/-- The pinned nodes of a new pruning boundary, and the metadata with them. -/
def updateMetadata (pruneToPos : ℕ) : Except Failure (List (ℕ × D) × Metadata D) :=
  if pruneToPos < s.prunedToPos then .error .panic
  else do
    let positions ← ofMmr (orPanic (nodesToPin pruneToPos))
    let digests ← positions.mapM (s.pinnedNode cfg)
    let pinnedNodes := positions.zip digests
    pure (pinnedNodes,
      ⟨pruneToPos, pinnedNodes.foldl (fun nodes node => nodes.insert node.1 node.2)
        s.metadata.nodes⟩)

def pruneToPos (pos : ℕ) : Except Failure (CleanJournaled D) :=
  if s.size < pos then .error .panic
  else if pos ≤ s.prunedToPos then .ok s
  else do
    let s ← s.sync cfg
    let (pinnedNodes, metadata) ← s.updateMetadata cfg pos
    let (_, journal) := s.journal.prune cfg pos
    pure ⟨s.memMmr.addPinnedNodes pinnedNodes, journal, s.journalSize, metadata, pos⟩

/-! ### Removing leaves -/

/-- Removes the last leaf of a clean range, which stays as it is if there is none to be removed. -/
def popClean (m : CleanMmr D) : Except Failure (Except Mmr.Error ℕ × CleanMmr D) :=
  match m.intoDirty.pop with
  | .ok (pos, dirty) => do
      let m ← ofMmr (dirty.merkleize hasher)
      pure (.ok pos, m)
  | .error (.error e) => do
      let m ← ofMmr (m.intoDirty.merkleize hasher)
      pure (.error e, m)
  | .error .panic => .error .panic

def popDirty (m : DirtyMmr D) : Except Failure (Except Mmr.Error ℕ × DirtyMmr D) :=
  match m.pop with
  | .ok (pos, m) => .ok (.ok pos, m)
  | .error (.error e) => .ok (.error e, m)
  | .error .panic => .error .panic

/-- Removes leaves that are in memory.  The result is the number of leaves that are not. -/
def popCached (popOne : MemMmr D S → Except Failure (Except Mmr.Error ℕ × MemMmr D S)) :
    ℕ → MemMmr D S → Except Failure (Except Mmr.Error ℕ × MemMmr D S)
  | 0, m => .ok (.ok 0, m)
  | leavesToPop + 1, m => do
      let (result, m) ← popOne m
      match result with
      | .ok _ => popCached popOne leavesToPop m
      | .error (.elementPruned _) => pure (.ok (leavesToPop + 1), m)
      | .error e => pure (.error e, m)

def popTarget (prunedToPos : ℕ) : ℕ → ℕ → Except Mmr.Error ℕ
  | newSize, 0 => .ok newSize
  | 0, _ + 1 => .error .empty
  | newSize + 1, leavesToPop + 1 =>
    if newSize < prunedToPos then .error (.elementPruned newSize)
    else popTarget prunedToPos newSize
      (if Position.isMmrSize newSize then leavesToPop else leavesToPop + 1)

/-- Rewinds the journal, and reads the pinned nodes of the range that is left. -/
def rewindTo (s : Journaled D S) (fromComponents : ℕ → List D → Except Mmr.Failure (MemMmr D S))
    (newSize : ℕ) : Except Failure (Journaled D S) := do
  let journal ← ofJournal (s.journal.rewind cfg newSize)
  let positions ← ofMmr (orPanic (nodesToPin newSize))
  let pinnedNodes ← positions.mapM (getFromMetadataOrJournal cfg s.metadata journal)
  let memMmr ← ofMmr (fromComponents newSize pinnedNodes)
  let memMmr ← addExtraPinnedNodes cfg memMmr s.metadata journal s.prunedToPos
  pure ⟨memMmr, journal, newSize, s.metadata, s.prunedToPos⟩

/-- Removes leaves.  An error may leave fewer leaves in memory than there were. -/
def popWith (popOne : MemMmr D S → Except Failure (Except Mmr.Error ℕ × MemMmr D S))
    (fromComponents : ℕ → List D → Except Mmr.Failure (MemMmr D S)) (s : Journaled D S)
    (leavesToPop : ℕ) : Except Failure (Except Mmr.Error Unit × Journaled D S) := do
  let (result, memMmr) ← popCached popOne leavesToPop s.memMmr
  let s := { s with memMmr := memMmr }
  match result with
  | .error e => pure (.error e, s)
  | .ok leavesToPop =>
    if leavesToPop = 0 then pure (.ok (), s)
    else
      match popTarget s.prunedToPos s.size leavesToPop with
      | .error e => pure (.error e, s)
      | .ok newSize => do
          let s ← s.rewindTo cfg fromComponents newSize
          pure (.ok (), s)

def popDirtyLeaves (s : DirtyJournaled D) (leavesToPop : ℕ) :
    Except Failure (Except Mmr.Error Unit × DirtyJournaled D) :=
  popWith cfg popDirty (MemMmr.fromComponents []) s leavesToPop

/-- The clean range of some pinned nodes. -/
def cleanFromComponents (prunedToPos : ℕ) (pinnedNodes : List D) :
    Except Mmr.Failure (CleanMmr D) := do
  let m ← MemMmr.fromComponents [] prunedToPos pinnedNodes
  m.merkleize hasher

def pop (leavesToPop : ℕ) : Except Failure (Except Mmr.Error Unit × CleanJournaled D) :=
  popWith cfg (popClean hasher) (cleanFromComponents hasher) s leavesToPop

/-! ### Opening -/

/-- Reads the range of a size that is valid. -/
def openAt (metadata : Metadata D) (journal : Fixed.Journal) (journalSize : ℕ) :
    Except Failure (CleanJournaled D) := do
  let positions ← ofMmr (orPanic (nodesToPin journalSize))
  let pinnedNodes ← positions.mapM (getFromMetadataOrJournal cfg metadata journal)
  let memMmr ← ofMmr (MemMmr.init [] journalSize pinnedNodes hasher)
  let memMmr ← addExtraPinnedNodes cfg memMmr metadata journal metadata.pruneToPos
  pure ⟨memMmr, journal, journalSize, metadata, metadata.pruneToPos⟩

/-- Adds a leaf whose parents are missing, and writes it with its parents. -/
def recoverLeaf (s : CleanJournaled D) (leaf : D) : Except Failure (CleanJournaled D) := do
  let (pos, dirty) ← ofMmr (s.memMmr.intoDirty.addLeafDigest hasher leaf)
  let memMmr ← ofMmr (dirty.merkleize hasher)
  if pos ≠ s.journalSize then .error .panic
  else do
    let s ← sync cfg { s with memMmr := memMmr }
    if s.size ≠ s.journal.size then .error .panic else pure s

/-- The rest of `init`, for a journal that is not empty and is pruned as the metadata says. -/
def recover (metadata : Metadata D) (journal : Fixed.Journal) :
    Except Failure (CleanJournaled D) := do
  let journalSize := journal.size
  let lastValidSize ← ofMmr (orPanic (toNearestSize journalSize))
  if lastValidSize ≠ journalSize then do
    -- the node after the last valid size is a leaf
    let orphanedLeaf := (journal.read cfg lastValidSize).toOption
    let journal ← ofJournal (journal.rewind cfg lastValidSize)
    let s ← openAt cfg hasher metadata journal lastValidSize
    match orphanedLeaf with
    | some leaf => recoverLeaf cfg hasher s leaf
    | none => pure s
  else openAt cfg hasher metadata journal journalSize

def init (hasher : Hasher Sym D) (disk : Disk D) : Except Failure (CleanJournaled D) := do
  let journal ← ofJournal (Fixed.Journal.init cfg disk.journal)
  let metadata := disk.metadata
  if journal.size = 0 then do
    let memMmr ← ofMmr (MemMmr.init [] 0 [] hasher)
    pure ⟨memMmr, journal, 0, metadata, 0⟩
  else
    let oldestRetainedPos := journal.oldestRetainedPos.getD 0
    if metadata.pruneToPos = oldestRetainedPos then recover cfg hasher metadata journal
    else if metadata.pruneToPos < oldestRetainedPos then .error .panic
    else recover cfg hasher metadata (journal.prune cfg metadata.pruneToPos).2

/-- A range all of whose nodes are pruned. -/
def initFromPinnedNodes (pinnedNodes : List D) (mmrSize : ℕ) :
    Except Failure (CleanJournaled D) := do
  let positions ← ofMmr (orPanic (nodesToPin mmrSize))
  let nodes := (positions.zip pinnedNodes).foldl (fun nodes node => nodes.insert node.1 node.2)
    OrdMap.empty
  let memMmr ← ofMmr (MemMmr.init [] mmrSize pinnedNodes hasher)
  pure ⟨memMmr, Fixed.initJournalAtSize cfg mmrSize, mmrSize, ⟨mmrSize, nodes⟩, mmrSize⟩

/-- What is stored once the range is closed. -/
def close (s : CleanJournaled D) : Except Failure (Disk D) := do
  let s ← s.sync cfg
  pure ⟨s.journal.close, s.metadata⟩

/-! ### Proofs -/

/-- A proof for the leaves of a range, against the range of an earlier size. -/
def historicalRangeProof (size start stop : ℕ) : Except Failure (Proof D) := do
  let positions ← ofMmr (orError (nodesRequiredForRangeProof size start stop))
  let nodes ← positions.mapM (s.getNode cfg)
  let digests ← (positions.zip nodes).mapM fun node =>
    ofMmr (orError (fetchNode (fun _ => node.2) node.1))
  pure ⟨size, digests⟩

def rangeProof (start stop : ℕ) : Except Failure (Proof D) :=
  historicalRangeProof cfg s s.size start stop

end Journaled

end Commonware.Mmr
