/-
**A journal of items of variable size.**

The items stand in sections of a data journal, each at an offset of its section
(`storage/src/journal/segmented/variable.rs`), and the offsets stand in a journal of fixed items
(`storage/src/journal/contiguous/variable.rs`).  A section holds a fixed number of items.  The data
journal does not say at which position a section starts: when the journal is opened, its size is
computed from the number of the last section and from what this section holds, and the journal of
offsets is aligned with it.

A section of the data journal is the list of its items with their offsets.  The bytes of an item are
not modelled, only their number.

Main definitions:

* `computeNextOffset`, `Segmented.append`, `Segmented.get`, `Segmented.replay` — the data journal;
* `Journal`, `Journal.append`, `Journal.read`, `Journal.prune`, `Journal.rewind`;
* `Journal.init`, `alignJournals`, `addMissingOffsets` — opening a journal;
* `Journal.initAtSize`, `Journal.initSync` — a journal whose first items are gone.
-/

import Commonware.JournalRecords
import Mathlib.Data.Nat.Log

set_option autoImplicit false

namespace Commonware.Variable

open Fixed (Error Failure)

variable {V : Type}

/-! ### The data journal -/

def itemAlignment : ℕ := 16

/-- The next offset at which an item can stand. -/
def computeNextOffset (offset : ℕ) : Except Error UInt32 :=
  let overage := offset % itemAlignment
  let offset := if overage ≠ 0 then offset + (itemAlignment - overage) else offset
  let offset := offset / itemAlignment
  if offset < 2 ^ 32 then .ok (UInt32.ofNat offset) else .error .offsetOverflow

theorem computeNextOffset_eq (size : ℕ) : computeNextOffset size =
      if (size + 15) / itemAlignment < 2 ^ 32 then .ok (UInt32.ofNat ((size + 15) / itemAlignment))
      else .error .offsetOverflow := by
  have hrn : (if size % itemAlignment ≠ 0 then size + (itemAlignment - size % itemAlignment)
      else size) / itemAlignment = (size + 15) / itemAlignment := by
    by_cases h : size % itemAlignment = 0
    · rw [if_neg (not_not.2 h)]
      simp only [itemAlignment] at h ⊢
      omega
    · rw [if_pos h]
      simp only [itemAlignment] at h ⊢
      omega
  simp only [computeNextOffset, hrn]

theorem computeNextOffset_isOk_iff {size : ℕ} :
    (∃ offset, computeNextOffset size = .ok offset) ↔ size ≤ itemAlignment * (2 ^ 32 - 1) := by
  have hif : (size + 15) / itemAlignment < 2 ^ 32 ↔ size ≤ itemAlignment * (2 ^ 32 - 1) := by
    simp only [itemAlignment]
    omega
  rw [computeNextOffset_eq, ← hif]
  split_ifs with h
  · exact ⟨fun _ => h, fun _ => ⟨_, rfl⟩⟩
  · constructor
    · rintro ⟨offset, hok⟩
      cases hok
    · intro hlt
      exact absurd hlt h

/-- The number of bytes of a number of 32 bits that is written with variable length. -/
def encodeSize (value : ℕ) : ℕ :=
  let dataBits := if value = 0 then 0 else Nat.log 2 value + 1
  max 1 ((dataBits + 6) / 7)

/-- An item in a section, with its offset and the place where it ends. -/
structure Entry (V : Type) where
  offset : UInt32
  stop : ℕ
  item : V
  deriving DecidableEq

/-- A section of the data journal. -/
structure Blob (V : Type) where
  entries : List (Entry V)
  size : ℕ
  deriving DecidableEq

/-- The data journal: its sections, and the bound of the last pruning. -/
structure Segmented (V : Type) where
  blobs : OrdMap ℕ (Blob V)
  oldestRetainedSection : ℕ
  deriving DecidableEq

/-- How many bytes an item takes, encoded and compressed, and how many items a section holds. -/
structure Config (V : Type) where
  itemLen : V → ℕ
  itemsPerSection : ℕ+

variable (cfg : Config V)

namespace Segmented

def init (blobs : OrdMap ℕ (Blob V)) : Segmented V := ⟨blobs, 0⟩

variable (j : Segmented V)

def pruneGuard (index : ℕ) : Except Error Unit :=
  if index < j.oldestRetainedSection then .error (.alreadyPrunedToSection j.oldestRetainedSection)
  else .ok ()

/-- The length of an item with its size and its checksum. -/
def entryLen (item : V) : ℕ := encodeSize (cfg.itemLen item) + cfg.itemLen item + 4

def append (index : ℕ) (item : V) : Except Error (UInt32 × Segmented V) := do
  j.pruneGuard index
  if 2 ^ 32 ≤ cfg.itemLen item then .error (.itemTooLarge (cfg.itemLen item))
  else
    let blob := (j.blobs.get? index).getD ⟨[], 0⟩
    let offset ← computeNextOffset blob.size
    let stop := offset.toNat * itemAlignment + entryLen cfg item
    pure (offset, { j with
      blobs := j.blobs.insert index ⟨blob.entries ++ [⟨offset, stop, item⟩], stop⟩ })

/-- The item at an offset.  What is read at an offset without item is not specified. -/
def get (index : ℕ) (offset : UInt32) : Except Error V := do
  j.pruneGuard index
  match j.blobs.get? index with
  | none => .error (.sectionOutOfRange index)
  | some blob =>
    match blob.entries.find? fun entry => decide (entry.offset = offset) with
    | none => .error .codec
    | some entry => do
        let _ ← computeNextOffset entry.stop
        pure entry.item

/-- The items of a section from an offset on. -/
def Blob.itemsFrom (blob : Blob V) (offset : UInt32) : List (UInt32 × V) :=
  (blob.entries.filter fun entry => decide (offset ≤ entry.offset)).map fun entry =>
    (entry.offset, entry.item)

/-- All items from an offset of a section on. -/
def replay (startSection : ℕ) (offset : UInt32) : Except Error (List (UInt32 × V)) := do
  let blobs := j.blobs.entries.filter fun entry => decide (startSection ≤ entry.1)
  let _ ← blobs.mapM fun entry => computeNextOffset entry.2.size
  pure (blobs.flatMap fun entry =>
    Blob.itemsFrom entry.2 (if entry.1 = startSection then offset else 0))

/-- Removes the sections before one.  The flag says whether there were any. -/
def prune (min : ℕ) : Bool × Segmented V :=
  let blobs := j.blobs.filter fun index _ => decide (min ≤ index)
  if blobs.size < j.blobs.size then (true, ⟨blobs, min⟩) else (false, j)

/-- Removes all items from an offset of a section on. -/
def rewindToOffset (index : ℕ) (offset : UInt32) : Except Error (Segmented V) := do
  j.pruneGuard index
  let blobs := j.blobs.filter fun other _ => decide (other ≤ index)
  match blobs.get? index with
  | none => pure { j with blobs := blobs }
  | some blob =>
    let size := offset.toNat * itemAlignment
    if blob.size ≤ size then pure { j with blobs := blobs }
    else
      let entries := blob.entries.filter fun entry => decide (entry.stop ≤ size)
      pure { j with blobs := blobs.insert index ⟨entries, size⟩ }

end Segmented

/-! ### The journal -/

/-- The offsets, as items of four bytes. -/
def offsetCodec : Fixed.Codec UInt32 where
  size := 4
  encode := Fixed.putU32
  decode bytes := if bytes.length = 4 then some (Fixed.getU32 bytes) else none
  length_encode := Fixed.length_putU32
  decode_encode offset := by simp

def Config.offsets : Fixed.Config UInt32 := ⟨offsetCodec, cfg.itemsPerSection⟩

structure Journal (V : Type) where
  data : Segmented V
  offsets : Fixed.Journal
  size : ℕ
  oldestRetainedPos : ℕ
  deriving DecidableEq

/-- What is stored. -/
structure Disk (V : Type) where
  data : OrdMap ℕ (Blob V)
  offsets : Fixed.Partition

def orFail {α : Type} : Except Error α → Except Failure α
  | .ok a => .ok a
  | .error e => .error (.error e)

variable (data : Segmented V) (offsets : Fixed.Journal)

/-- Appends the offsets of items that are missing. -/
def addMissingOffsets : Except Failure Fixed.Journal :=
  match data.blobs.first? with
  | none => .error .panic
  | some (firstSection, _) => do
      let offsetsSize := offsets.size
      let (startSection, resumeOffset, skipFirst) ←
        match offsets.oldestRetainedPos with
        | none => pure (firstSection, 0, false)
        | some oldest =>
          if oldest < offsetsSize then do
            let lastOffset ← orFail (offsets.read cfg.offsets (offsetsSize - 1))
            pure ((offsetsSize - 1) / cfg.itemsPerSection, lastOffset, true)
          else pure (firstSection, 0, false)
      let items ← orFail (data.replay startSection resumeOffset)
      let missing := if skipFirst then items.drop 1 else items
      missing.foldlM (fun offsets item => do
        let (_, offsets) ← offsets.append cfg.offsets item.1
        pure offsets) offsets

/-- Makes the pruning of the offsets agree with the data. -/
def alignPruning (dataOldestPos : ℕ) : Except Failure Fixed.Journal :=
  match offsets.oldestRetainedPos with
  | some oldestRetainedPos =>
    if oldestRetainedPos < dataOldestPos then
      .ok (offsets.prune cfg.offsets dataOldestPos).2
    else if dataOldestPos < oldestRetainedPos then
      .error (.error (.corruption
        s!"offsets oldest pos ({oldestRetainedPos}) > data oldest pos ({dataOldestPos})"))
    else .ok offsets
  | none =>
    let offsetsSize := offsets.size
    if 0 < dataOldestPos ∧ offsetsSize ≠ dataOldestPos then
      .error (.error (.corruption
        s!"offsets journal empty: size ({offsetsSize}) != data oldest pos ({dataOldestPos})"))
    else .ok offsets

/-- Makes the size of the offsets agree with the data. -/
def alignSize (dataSize : ℕ) : Except Failure Fixed.Journal :=
  if dataSize < offsets.size then offsets.rewind cfg.offsets dataSize
  else if offsets.size < dataSize then addMissingOffsets cfg data offsets
  else .ok offsets

/-- Makes the offsets agree with a data journal that is not empty. -/
def alignOffsets (dataOldestPos dataSize : ℕ) : Except Failure (ℕ × ℕ × Fixed.Journal) :=
  if dataOldestPos = dataSize then .error .panic
  else do
    let offsets ← alignPruning cfg offsets dataOldestPos
    let offsets ← alignSize cfg data offsets dataSize
    if offsets.size ≠ dataSize then .error .panic
    else if offsets.oldestRetainedPos ≠ some dataOldestPos then .error .panic
    else pure (dataOldestPos, dataSize, offsets)

/-- The offsets of a data journal without sections. -/
def alignEmpty : Fixed.Journal :=
  match offsets.oldestRetainedPos with
  | some oldest =>
    if oldest < offsets.size then (offsets.prune cfg.offsets offsets.size).2 else offsets
  | none => offsets

/-- The position of the oldest item and the size of the journal, and the aligned offsets. -/
def alignJournals : Except Failure (ℕ × ℕ × Fixed.Journal) :=
  match data.blobs.first?, data.blobs.last? with
  | some (firstSection, _), some (lastSection, _) => do
      let items ← orFail (data.replay lastSection 0)
      let itemsInLastSection := items.length
      if data.blobs.size = 1 ∧ itemsInLastSection = 0 then
        let targetPos := firstSection * cfg.itemsPerSection
        let offsets ← offsets.rewind cfg.offsets targetPos
        pure (targetPos, targetPos, offsets)
      else
        alignOffsets cfg data offsets (firstSection * cfg.itemsPerSection)
          (lastSection * cfg.itemsPerSection + itemsInLastSection)
  | _, _ => .ok (offsets.size, offsets.size, alignEmpty cfg offsets)

namespace Journal

def init (disk : Disk V) : Except Failure (Journal V) := do
  let data := Segmented.init disk.data
  let offsets ← Fixed.Journal.init cfg.offsets disk.offsets
  let (oldestRetainedPos, size, offsets) ← alignJournals cfg data offsets
  if oldestRetainedPos % cfg.itemsPerSection ≠ 0 then .error .panic
  else pure ⟨data, offsets, size, oldestRetainedPos⟩

/-- A journal of which `size` items are gone.  The blob of offsets that is opened has to be new. -/
def initAtSize (disk : Disk V) (size : ℕ) : Except Failure (Journal V) :=
  if ((disk.offsets.get? (size / cfg.itemsPerSection)).getD []).length ≠ 0 then .error .panic
  else .ok ⟨Segmented.init disk.data, Fixed.initJournalAtSize cfg.offsets size, size, size⟩

variable (j : Journal V)

def currentSection : ℕ := j.size / cfg.itemsPerSection

def append (item : V) : Except Failure (ℕ × Journal V) := do
  let (offset, data) ← orFail (j.data.append cfg (j.currentSection cfg) item)
  let (offsetsPos, offsets) ← j.offsets.append cfg.offsets offset
  if offsetsPos ≠ j.size then .error .panic
  else pure (j.size, { j with data := data, offsets := offsets, size := j.size + 1 })

def oldestRetained : Option ℕ :=
  if j.size = j.oldestRetainedPos then none else some j.oldestRetainedPos

def read (position : ℕ) : Except Error V :=
  if j.size ≤ position then .error (.itemOutOfRange position)
  else if position < j.oldestRetainedPos then .error (.itemPruned position)
  else do
    let offset ← j.offsets.read cfg.offsets position
    j.data.get (position / cfg.itemsPerSection) offset

def prune (minPosition : ℕ) : Bool × Journal V :=
  if minPosition ≤ j.oldestRetainedPos then (false, j)
  else
    let minSection := min minPosition j.size / cfg.itemsPerSection
    match j.data.prune minSection with
    | (false, _) => (false, j)
    | (true, data) =>
      let oldestRetainedPos := minSection * cfg.itemsPerSection
      (true, { j with
        data := data
        oldestRetainedPos := oldestRetainedPos
        offsets := (j.offsets.prune cfg.offsets oldestRetainedPos).2 })

def rewind (size : ℕ) : Except Failure (Journal V) :=
  if j.size < size then .error (.error (.invalidRewind size))
  else if size = j.size then .ok j
  else if size < j.oldestRetainedPos then .error (.error (.itemPruned size))
  else do
    let discardOffset ← orFail (j.offsets.read cfg.offsets size)
    let data ← orFail (j.data.rewindToOffset (size / cfg.itemsPerSection) discardOffset)
    let offsets ← j.offsets.rewind cfg.offsets size
    pure { j with data := data, offsets := offsets, size := size }

/-- What is stored once the journal is closed. -/
def close : Disk V := ⟨j.data.blobs, j.offsets.close⟩

/-- What is stored once the journal is destroyed. -/
def destroyed : Disk V := ⟨OrdMap.empty, OrdMap.empty⟩

/-- A journal for the items of a range.  What is stored and ends before the range is given up. -/
def initSync (disk : Disk V) (start stop : ℕ) : Except Failure (Option (Journal V)) :=
  if stop ≤ start then .error .panic
  else do
    let journal ← init cfg disk
    if journal.size = 0 then
      if start = 0 then pure (some journal)
      else do
        let journal ← initAtSize cfg destroyed start
        pure (some journal)
    -- data beyond the range
    else if stop < journal.size then pure none
    else if journal.size ≤ start then do
      let journal ← initAtSize cfg destroyed start
      pure (some journal)
    else
      match journal.oldestRetained with
      | some oldestPos =>
        if oldestPos < start then pure (some (journal.prune cfg start).2) else pure (some journal)
      | none => pure (some journal)

def appendAll (items : List V) : Except Failure (Journal V) :=
  items.foldlM (fun j item => do
    let (_, j) ← j.append cfg item
    pure j) j

end Journal

end Commonware.Variable
