/-
**A journal of items of fixed size.**

The items of a journal stand in blobs, a fixed number of them in each blob, every item followed by
its checksum (`storage/src/journal/contiguous/fixed.rs`).  Only the last blob, the tail, may hold
fewer items.  A journal that is opened drops invalid records from the end of its tail.

The blobs before the tail have consecutive indices.  They are kept as a list, and the index of the
first one follows from the index of the tail.  A call that does not return a value returns an error
or panics.

Main definitions:

* `crc32`, `verifyIntegrity` — checksums;
* `Journal`, `Journal.append`, `Journal.rewind`, `Journal.prune`, `Journal.read`;
* `Journal.init`, `trimTail` — opening a journal from what is stored;
* `initJournalAtSize` — a journal whose first items are gone.

Main results:

* `trimTail_eq_ok` — **the tail loses exactly its last records with wrong checksums**;
* `init_repairs_iff` — **what is left is valid exactly if no valid record stood behind an invalid
  one**.
-/

import Commonware.OrdMap
import Mathlib.Data.List.DropRight
import Mathlib.Data.PNat.Basic

set_option autoImplicit false

namespace Commonware.Fixed

open List

/-! ### Checksums -/

def crcBit (crc : UInt32) : UInt32 :=
  if crc &&& 1 = 1 then (crc >>> 1) ^^^ 0xEDB88320 else crc >>> 1

def crcByte (crc : UInt32) (b : UInt8) : UInt32 := crcBit^[8] (crc ^^^ b.toUInt32)

/-- The checksum of `crc32fast`. -/
def crc32 (bytes : List UInt8) : UInt32 := bytes.foldl crcByte 0xFFFFFFFF ^^^ 0xFFFFFFFF

/-- The bytes of a number of 32 bits, the most significant one first. -/
def putU32 (n : UInt32) : List UInt8 :=
  [(n >>> 24).toUInt8, (n >>> 16).toUInt8, (n >>> 8).toUInt8, n.toUInt8]

def getU32 (bytes : List UInt8) : UInt32 :=
  UInt32.ofNat (bytes.foldl (fun n b => n * 256 + b.toNat) 0)

@[simp] theorem length_putU32 (n : UInt32) : (putU32 n).length = 4 := rfl

@[simp] theorem getU32_putU32 (n : UInt32) : getU32 (putU32 n) = n := by
  apply UInt32.toNat_inj.1
  have hlt : n.toNat < 2 ^ 32 := n.toNat_lt
  simp [getU32, putU32, UInt32.toNat_shiftRight, Nat.shiftRight_eq_div_pow]
  omega

/-! ### Records -/

/-- The errors of journals. -/
inductive Error
  | missingBlob (index : ℕ)
  | invalidBlobSize (index size : ℕ)
  | checksumMismatch (stored computed : UInt32)
  | codec
  | itemTooLarge (size : ℕ)
  | alreadyPrunedToSection (index : ℕ)
  | sectionOutOfRange (index : ℕ)
  | offsetOverflow
  | invalidRewind (size : ℕ)
  | itemOutOfRange (pos : ℕ)
  | itemPruned (pos : ℕ)
  | corruption (reason : String)
  deriving DecidableEq

/-- How a call ends that returns no value. -/
inductive Failure
  | error (e : Error)
  | panic
  deriving DecidableEq

variable {A : Type}

/-- The encoding of items, each in the same number of bytes. -/
structure Codec (A : Type) where
  size : ℕ
  encode : A → List UInt8
  decode : List UInt8 → Option A
  length_encode : ∀ a, (encode a).length = size
  decode_encode : ∀ a, decode (encode a) = some a

structure Config (A : Type) where
  codec : Codec A
  itemsPerBlob : ℕ+

/-- The size of an item with its checksum. -/
def Config.chunkSize (cfg : Config A) : ℕ := 4 + cfg.codec.size

def Config.fullSize (cfg : Config A) : ℕ := cfg.itemsPerBlob * cfg.chunkSize

variable (cfg : Config A)

/-- An item with its checksum. -/
def record (item : A) : List UInt8 :=
  cfg.codec.encode item ++ putU32 (crc32 (cfg.codec.encode item))

/-- Whether the checksum of a record is wrong. -/
def mismatch (buf : List UInt8) : Bool :=
  decide (crc32 (buf.take cfg.codec.size) ≠ getU32 (buf.drop cfg.codec.size))

def verifyIntegrity (buf : List UInt8) : Except Error A :=
  let storedChecksum := getU32 (buf.drop cfg.codec.size)
  let checksum := crc32 (buf.take cfg.codec.size)
  if checksum ≠ storedChecksum then .error (.checksumMismatch storedChecksum checksum)
  else
    match cfg.codec.decode (buf.take cfg.codec.size) with
    | some item => .ok item
    | none => .error .codec

def readAt (blob : List UInt8) (offset size : ℕ) : List UInt8 := (blob.drop offset).take size

/-- The blob at a new size, with zeros where it grows. -/
def resize (blob : List UInt8) (size : ℕ) : List UInt8 :=
  blob.take size ++ replicate (size - blob.length) 0

/-- Removes records with wrong checksums from the end of the first `n` records. -/
def trimLoop (tail : List UInt8) : ℕ → Except Error (List UInt8)
  | 0 => .ok (tail.take 0)
  | n + 1 =>
    match verifyIntegrity cfg (readAt tail (n * cfg.chunkSize) cfg.chunkSize) with
    | .ok _ => .ok (tail.take ((n + 1) * cfg.chunkSize))
    | .error (.checksumMismatch _ _) => trimLoop tail n
    | .error e => .error e

/-- The tail without the bytes of an incomplete record and without invalid records at its end. -/
def trimTail (tail : List UInt8) : Except Error (List UInt8) :=
  trimLoop cfg tail (tail.length / cfg.chunkSize)

/-! ### The journal -/

/-- What is stored: the blobs by index. -/
abbrev Partition := OrdMap ℕ (List UInt8)

variable (oldest : ℕ)

/-- Blobs at consecutive indices. -/
def Partition.consecutive (blobs : List (List UInt8)) : Partition :=
  ⟨(range' oldest blobs.length).zip blobs, by
    rw [map_fst_zip (by rw [length_range'])]
    exact pairwise_lt_range'⟩

/-- The blobs before the tail are those of the indices up to `tailIndex`. -/
structure Journal where
  blobs : List (List UInt8)
  tail : List UInt8
  tailIndex : ℕ
  size : ℕ
  pruningBoundary : ℕ
  deriving DecidableEq

/-- The blobs before the tail, the newest one first, are full and without gaps. -/
def checkHistorical (fullSize : ℕ) : ℕ → List (ℕ × List UInt8) → Except Error Unit
  | _, [] => .ok ()
  | prevIndex, (index, blob) :: older =>
    if index ≠ prevIndex - 1 then .error (.missingBlob (prevIndex - 1))
    else if blob.length ≠ fullSize then .error (.invalidBlobSize index blob.length)
    else checkHistorical fullSize index older

namespace Journal

/-- The rest of `init`, once the tail is trimmed. -/
def openTail (blobs : List (List UInt8)) (tail : List UInt8) (tailIndex : ℕ) :
    Except Failure Journal :=
  if cfg.fullSize < tail.length then .error (.error (.invalidBlobSize tailIndex tail.length))
  else
    -- a tail that is full is followed by a new one
    let (blobs, tail, tailIndex) :=
      if tail.length = cfg.fullSize then (blobs ++ [tail], [], tailIndex + 1)
      else (blobs, tail, tailIndex)
    let size := tailIndex * cfg.itemsPerBlob + tail.length / cfg.chunkSize
    let pruningBoundary := (tailIndex - blobs.length) * cfg.itemsPerBlob
    if size < pruningBoundary then .error .panic
    else .ok ⟨blobs, tail, tailIndex, size, pruningBoundary⟩

def init (stored : Partition) : Except Failure Journal :=
  -- a partition without blobs gets an empty one
  let (tailIndex, tail) := stored.last?.getD (0, [])
  let older := stored.entries.dropLast
  match checkHistorical cfg.fullSize tailIndex older.reverse with
  | .error e => .error (.error e)
  | .ok () =>
    match trimTail cfg tail with
    | .error e => .error (.error e)
    | .ok tail => openTail cfg (older.map Prod.snd) tail tailIndex

variable (j : Journal)

def oldestBlobIndex : ℕ := j.tailIndex - j.blobs.length

def append (item : A) : Except Failure (ℕ × Journal) :=
  let size := j.tail.length
  if cfg.fullSize ≤ size then .error .panic
  else if size % cfg.chunkSize ≠ 0 then .error .panic
  else
    let itemPos := size / cfg.chunkSize + cfg.itemsPerBlob * j.tailIndex
    let tail := j.tail ++ record cfg item
    let size := size + cfg.chunkSize
    if size = cfg.fullSize then
      .ok (itemPos, { j with
        blobs := j.blobs ++ [tail], tail := [], tailIndex := j.tailIndex + 1, size := j.size + 1 })
    else .ok (itemPos, { j with tail := tail, size := j.size + 1 })

/-- Makes blobs before the tail the tail, one after the other. -/
def popBlobs : ℕ → Journal → Except Failure Journal
  | 0, j => .ok j
  | n + 1, j =>
    match j.blobs.getLast? with
    | none => .error .panic
    | some tail =>
      popBlobs n { j with
        blobs := j.blobs.dropLast, tail := tail, tailIndex := j.tailIndex - 1 }

def rewind (size : ℕ) : Except Failure Journal :=
  if j.size < size then .error (.error (.invalidRewind size))
  else if size = j.size then .ok j
  else
    let rewindToBlobIndex := size / cfg.itemsPerBlob
    if rewindToBlobIndex < j.oldestBlobIndex then .error (.error (.invalidRewind size))
    else do
      let rewindToOffset := size % cfg.itemsPerBlob * cfg.chunkSize
      let j ← popBlobs (j.tailIndex - rewindToBlobIndex) j
      let j := { j with tail := resize j.tail rewindToOffset, size := size }
      if size < j.pruningBoundary then .error .panic else pure j

def oldestRetainedPos : Option ℕ :=
  if j.pruningBoundary = j.size then none else some j.pruningBoundary

def blob? (index : ℕ) : Option (List UInt8) :=
  if index < j.oldestBlobIndex then none else j.blobs[index - j.oldestBlobIndex]?

def readRecord (pos : ℕ) : Except Error (List UInt8) :=
  let blobIndex := pos / cfg.itemsPerBlob
  if j.tailIndex < blobIndex then .error (.itemOutOfRange pos)
  else
    let offset := pos % cfg.itemsPerBlob * cfg.chunkSize
    if blobIndex = j.tailIndex then
      if j.tail.length ≤ offset then .error (.itemOutOfRange pos)
      else .ok (readAt j.tail offset cfg.chunkSize)
    else
      match j.blob? blobIndex with
      | none => .error (.itemPruned pos)
      | some blob => .ok (readAt blob offset cfg.chunkSize)

def read (pos : ℕ) : Except Error A := do
  let buf ← j.readRecord cfg pos
  verifyIntegrity cfg buf

/-- Removes the blobs before a position.  The flag says whether there were any. -/
def prune (minItemPos : ℕ) : Bool × Journal :=
  let newOldestBlob := min (minItemPos / cfg.itemsPerBlob) j.tailIndex
  if j.oldestBlobIndex < newOldestBlob then
    (true, { j with
      blobs := j.blobs.drop (newOldestBlob - j.oldestBlobIndex)
      pruningBoundary := newOldestBlob * cfg.itemsPerBlob })
  else (false, j)

/-- What is stored once the journal is closed. -/
def close : Partition := Partition.consecutive j.oldestBlobIndex (j.blobs ++ [j.tail])

end Journal

open Journal

/-- A journal of which `size` items are gone.  The part of them that would stand in the tail is
filled with zeros. -/
def initJournalAtSize (size : ℕ) : Journal where
  blobs := []
  tail := resize [] (size % cfg.itemsPerBlob * cfg.chunkSize)
  tailIndex := size / cfg.itemsPerBlob
  size := size
  pruningBoundary := size - size % cfg.itemsPerBlob

/-! ### Repair of the tail -/

def records (blob : List UInt8) : List (List UInt8) :=
  (range (blob.length / cfg.chunkSize)).map fun i =>
    readAt blob (i * cfg.chunkSize) cfg.chunkSize

variable {cfg}

theorem Config.chunkSize_pos : 0 < cfg.chunkSize := by
  rw [Config.chunkSize]
  omega

@[simp] theorem length_records (blob : List UInt8) :
    (records cfg blob).length = blob.length / cfg.chunkSize := by
  simp [records]

variable {blob : List UInt8}

theorem getElem?_records {i : ℕ} (hi : i < blob.length / cfg.chunkSize) :
    (records cfg blob)[i]? = some (readAt blob (i * cfg.chunkSize) cfg.chunkSize) := by
  simp [records, hi]

variable {n : ℕ}

theorem take_records_succ (hn : n < blob.length / cfg.chunkSize) :
    (records cfg blob).take (n + 1) =
      (records cfg blob).take n ++ [readAt blob (n * cfg.chunkSize) cfg.chunkSize] := by
  rw [take_add_one, getElem?_records hn, Option.toList_some]

variable {buf : List UInt8}

theorem verifyIntegrity_of_mismatch (h : mismatch cfg buf = true) :
    ∃ stored computed, verifyIntegrity cfg buf = .error (.checksumMismatch stored computed) := by
  rw [verifyIntegrity, if_pos (of_decide_eq_true h)]
  exact ⟨_, _, rfl⟩

theorem verifyIntegrity_of_not_mismatch (h : mismatch cfg buf = false) :
    (∃ item, verifyIntegrity cfg buf = .ok item) ∨ verifyIntegrity cfg buf = .error .codec := by
  rw [verifyIntegrity, if_neg (of_decide_eq_false h)]
  cases cfg.codec.decode (buf.take cfg.codec.size) with
  | none => exact .inr rfl
  | some item => exact .inl ⟨item, rfl⟩

variable {tail tail' : List UInt8}

/-- The records that are left of the first `n` ones. -/
theorem trimLoop_eq_ok (hn : n ≤ tail.length / cfg.chunkSize)
    (h : trimLoop cfg tail n = .ok tail') : tail' = tail.take
      ((((records cfg tail).take n).rdropWhile (mismatch cfg)).length * cfg.chunkSize) := by
  induction n with
  | zero =>
    rw [trimLoop] at h
    cases h
    simp
  | succ n ih =>
    have hlen : ((records cfg tail).take n).length = n := by
      rw [length_take, length_records]
      omega
    rw [take_records_succ hn]
    rw [trimLoop] at h
    cases hm : mismatch cfg (readAt tail (n * cfg.chunkSize) cfg.chunkSize) with
    | true =>
      obtain ⟨stored, computed, hvr⟩ := verifyIntegrity_of_mismatch hm
      rw [hvr] at h
      rw [rdropWhile_concat_pos _ _ _ hm]
      exact ih (by omega) h
    | false =>
      rw [rdropWhile_concat_neg _ _ _ (by simp [hm]), length_append, hlen]
      rcases verifyIntegrity_of_not_mismatch hm with ⟨item, hvr⟩ | hvr
      · rw [hvr] at h
        cases h
        rfl
      · rw [hvr] at h
        cases h

/-- **The tail loses exactly its last records with wrong checksums.** -/
theorem trimTail_eq_ok (h : trimTail cfg tail = .ok tail') : tail' = tail.take
      (((records cfg tail).rdropWhile (mismatch cfg)).length * cfg.chunkSize) := by
  have ht := trimLoop_eq_ok le_rfl h
  rwa [← length_records, take_length] at ht

/-! ### Blobs at consecutive indices -/

theorem Partition.entries_consecutive (blobs : List (List UInt8)) :
    (Partition.consecutive oldest blobs).entries = (range' oldest blobs.length).zip blobs := rfl

theorem Partition.entries_concat (blobs : List (List UInt8)) (blob : List UInt8) :
    (Partition.consecutive oldest (blobs ++ [blob])).entries =
      (Partition.consecutive oldest blobs).entries ++ [(oldest + blobs.length, blob)] := by
  rw [entries_consecutive, entries_consecutive, length_append, length_singleton,
    range'_1_concat, zip_append (length_range' ..)]
  rfl

@[simp] theorem Partition.get?_consecutive (blobs : List (List UInt8)) (index : ℕ) :
    (Partition.consecutive oldest blobs).get? index =
      if index < oldest then none else blobs[index - oldest]? := by
  induction blobs generalizing oldest with
  | nil => simp [consecutive, OrdMap.get?]
  | cons blob blobs ih =>
    have hcn : (consecutive oldest (blob :: blobs)).get? index =
        if oldest = index then some blob else (consecutive (oldest + 1) blobs).get? index := by
      by_cases heq : oldest = index
      · simp [consecutive, OrdMap.get?, range'_succ, heq]
      · simp [consecutive, OrdMap.get?, range'_succ, heq]
    rw [hcn, ih]
    rcases Nat.lt_trichotomy index oldest with hlt | heq | hgt
    · rw [if_neg (by omega), if_pos (by omega), if_pos hlt]
    · subst heq
      simp
    · rw [if_neg (by omega), if_neg (by omega), if_neg (by omega)]
      obtain ⟨d, rfl⟩ := Nat.exists_eq_add_of_lt hgt
      have hsh : oldest + d + 1 - oldest = d + 1 := by omega
      have hsh' : oldest + d + 1 - (oldest + 1) = d := by omega
      rw [hsh, hsh', getElem?_cons_succ]

theorem checkHistorical_eq_ok {full prev : ℕ} {older : List (ℕ × List UInt8)}
    (hsr : (prev :: older.map Prod.fst).Pairwise (· > ·))
    (h : checkHistorical full prev older = .ok ()) : older.length ≤ prev ∧
      older.reverse.map Prod.fst = range' (prev - older.length) older.length ∧
      ∀ entry ∈ older, entry.2.length = full := by
  induction older generalizing prev with
  | nil => simp
  | cons entry older ih =>
    obtain ⟨index, blob⟩ := entry
    rw [checkHistorical] at h
    split_ifs at h with hin hlen
    rw [map_cons, pairwise_cons] at hsr
    obtain ⟨hle, hm, hf⟩ := ih hsr.2 h
    have hlt : index < prev := hsr.1 index (by simp)
    have hpr : prev = index + 1 := by omega
    subst hpr
    refine ⟨by simpa using hle, ?_, ?_⟩
    · rw [reverse_cons, map_append, hm, length_cons, Nat.add_sub_add_right, range'_concat]
      simp
      omega
    · intro entry het
      rcases mem_cons.1 het with rfl | het
      · exact not_not.1 hlen
      · exact hf entry het

variable {stored : Partition}

/-- What can be opened has full blobs at consecutive indices before its tail. -/
theorem consecutive_of_checkHistorical {t : ℕ}
    (hls : stored.last? = some (t, tail))
    (h : checkHistorical cfg.fullSize t stored.entries.dropLast.reverse = .ok ()) :
    ∃ oldest blobs, oldest + blobs.length = t ∧ (∀ blob ∈ blobs, blob.length = cfg.fullSize) ∧
      stored.entries.dropLast.map Prod.snd = blobs ∧
      stored = Partition.consecutive oldest (blobs ++ [tail]) := by
  obtain ⟨older, het⟩ : ∃ older, stored.entries = older ++ [(t, tail)] :=
    ⟨_, (dropLast_append_getLast? _ hls).symm⟩
  have hdr : stored.entries.dropLast = older := by rw [het, dropLast_concat]
  have hsr : (t :: older.reverse.map Prod.fst).Pairwise (· > ·) := by
    have hr := pairwise_reverse.2 stored.sorted
    rwa [← map_reverse, het, reverse_append] at hr
  rw [hdr] at h ⊢
  obtain ⟨hle, hm, hf⟩ := checkHistorical_eq_ok hsr h
  rw [reverse_reverse, length_reverse] at hm
  rw [length_reverse] at hle
  refine ⟨t - older.length, older.map Prod.snd, ?_, ?_, rfl, ?_⟩
  · rw [length_map]
    omega
  · intro blob hbl
    obtain ⟨entry, her, rfl⟩ := mem_map.1 hbl
    exact hf entry (mem_reverse.2 her)
  · apply OrdMap.ext
    -- the entries are the pairs of their keys and values
    have hu : older = (older.map Prod.fst).zip (older.map Prod.snd) := by
      rw [zip_map', map_id'']
      intro entry
      rfl
    have hls : t - older.length + older.length = t := by omega
    rw [het, Partition.entries_concat, Partition.entries_consecutive, length_map, ← hm, ← hu, hls]

variable {blobs : List (List UInt8)}

theorem checkHistorical_consecutive {full : ℕ}
    (hf : ∀ blob ∈ blobs, blob.length = full) : checkHistorical full (oldest + blobs.length)
      (Partition.consecutive oldest blobs).entries.reverse = .ok () := by
  induction blobs using reverseRecOn with
  | nil => rfl
  | append_singleton blobs blob ih =>
    have hbl : blob.length = full := hf blob (by simp)
    rw [Partition.entries_concat, reverse_append, length_append, length_singleton,
      reverse_singleton, singleton_append, checkHistorical, ← Nat.add_assoc,
      if_neg (not_not.2 (Nat.add_sub_cancel _ 1).symm), if_neg (not_not.2 hbl)]
    exact ih fun b hb => hf b (mem_append_left _ hb)

/-- Opening a journal with full blobs before the tail. -/
theorem init_consecutive (tail : List UInt8)
    (hf : ∀ blob ∈ blobs, blob.length = cfg.fullSize) :
    init cfg (Partition.consecutive oldest (blobs ++ [tail])) =
      match trimTail cfg tail with
      | .error e => .error (.error e)
      | .ok tail => openTail cfg blobs tail (oldest + blobs.length) := by
  have hls : (Partition.consecutive oldest (blobs ++ [tail])).last? =
      some (oldest + blobs.length, tail) := by
    rw [OrdMap.last?, Partition.entries_concat, getLast?_concat]
  have hdr : (Partition.consecutive oldest (blobs ++ [tail])).entries.dropLast =
      (Partition.consecutive oldest blobs).entries := by
    rw [Partition.entries_concat, dropLast_concat]
  have hbl : (Partition.consecutive oldest blobs).entries.map Prod.snd = blobs := by
    rw [Partition.entries_consecutive, map_snd_zip (length_range' ..).ge]
  simp only [init, hls, Option.getD_some, hdr, checkHistorical_consecutive oldest hf, hbl]

section

variable {blobs : List (List UInt8)} {tail : List UInt8} {t m : ℕ}

theorem openTail_of_lt (ht : tail.length = m * cfg.chunkSize) (hm : m < cfg.itemsPerBlob) :
    openTail cfg blobs tail t =
      .ok ⟨blobs, tail, t, t * cfg.itemsPerBlob + m, (t - blobs.length) * cfg.itemsPerBlob⟩ := by
  have hlt : tail.length < cfg.fullSize := by
    rw [ht]
    exact Nat.mul_lt_mul_of_pos_right hm Config.chunkSize_pos
  have hdv : tail.length / cfg.chunkSize = m := by
    rw [ht, Nat.mul_div_cancel _ Config.chunkSize_pos]
  have hbn : (t - blobs.length) * cfg.itemsPerBlob ≤ t * (cfg.itemsPerBlob : ℕ) :=
    Nat.mul_le_mul_right _ (Nat.sub_le _ _)
  simp only [openTail, if_neg (Nat.not_lt.2 hlt.le), if_neg hlt.ne, hdv]
  rw [if_neg (by omega)]

theorem openTail_of_eq (ht : tail.length = cfg.fullSize) : openTail cfg blobs tail t =
      .ok ⟨blobs ++ [tail], [], t + 1, (t + 1) * cfg.itemsPerBlob,
        (t - blobs.length) * cfg.itemsPerBlob⟩ := by
  have hbn : (t - blobs.length) * cfg.itemsPerBlob ≤ (t + 1) * (cfg.itemsPerBlob : ℕ) :=
    Nat.mul_le_mul_right _ (by omega)
  simp only [openTail, ht, if_neg (Nat.lt_irrefl _), if_true, length_append,
    length_singleton, Nat.add_sub_add_right, length_nil, Nat.zero_div, Nat.add_zero]
  rw [if_neg (Nat.not_lt.2 hbn)]

end

variable {j : Journal}

/-- **A journal that is opened**: its blobs before the tail were full, and of its tail only records
with wrong checksums at the end are gone. -/
theorem init_eq_ok {t : ℕ}
    (hls : stored.last? = some (t, tail)) (h : init cfg stored = .ok j) :
    ∃ oldest blobs m rest, oldest + blobs.length = t ∧
      stored = Partition.consecutive oldest (blobs ++ [tail]) ∧
      (∀ blob ∈ blobs, blob.length = cfg.fullSize) ∧
      m = ((records cfg tail).rdropWhile (mismatch cfg)).length ∧ m ≤ cfg.itemsPerBlob ∧
      j.blobs ++ [j.tail] = blobs ++ tail.take (m * cfg.chunkSize) :: rest ∧
      j.oldestBlobIndex = oldest ∧ j.blobs.length ≤ j.tailIndex ∧
      j.pruningBoundary = oldest * cfg.itemsPerBlob ∧ j.size = t * cfg.itemsPerBlob + m := by
  have hch : checkHistorical cfg.fullSize t stored.entries.dropLast.reverse = .ok () := by
    simp only [init, hls, Option.getD_some] at h
    cases hc : checkHistorical cfg.fullSize t stored.entries.dropLast.reverse with
    | error e => simp [hc] at h
    | ok u => rfl
  obtain ⟨oldest, blobs, hlen, hf, -, rfl⟩ := consecutive_of_checkHistorical hls hch
  rw [init_consecutive oldest tail hf] at h
  cases htr : trimTail cfg tail with
  | error e => simp [htr] at h
  | ok tail' =>
    simp only [htr] at h
    have htl' := trimTail_eq_ok htr
    generalize hm : ((records cfg tail).rdropWhile (mismatch cfg)).length = m at htl'
    have hml : m ≤ tail.length / cfg.chunkSize := by
      rw [← hm, ← length_records]
      exact ( rdropWhile_prefix _ _).length_le
    have ht : tail'.length = m * cfg.chunkSize := by
      rw [htl', length_take, Nat.min_eq_left]
      exact (Nat.mul_le_mul_right _ hml).trans (Nat.div_mul_le_self _ _)
    refine ⟨oldest, blobs, m, if m < cfg.itemsPerBlob then [] else [[]], hlen, rfl, hf, rfl, ?_⟩
    have hol : t - blobs.length = oldest := by omega
    rw [hlen] at h
    rcases Nat.lt_trichotomy m cfg.itemsPerBlob with hlt | heq | hgt
    · rw [openTail_of_lt ht hlt, hol] at h
      cases h
      exact ⟨hlt.le, by rw [if_pos hlt, htl'], hol, hlen ▸ Nat.le_add_left _ _, rfl, rfl⟩
    · rw [openTail_of_eq (by rw [ht, heq, Config.fullSize]), hol] at h
      cases h
      refine ⟨heq.le, by simp [heq, htl'], ?_, ?_, rfl, by rw [heq, Nat.succ_mul]⟩
      · simp [oldestBlobIndex, hol]
      · simp only [length_append, length_singleton]
        omega
    · have hb : cfg.fullSize < tail'.length := by
        rw [ht]
        exact Nat.mul_lt_mul_of_pos_right hgt Config.chunkSize_pos
      rw [openTail, if_pos hb] at h
      cases h

/-- Dropping from the end leaves what stands before the first hit, exactly if a hit is followed by
hits only. -/
theorem length_rdropWhile_eq_findIdx_iff {α : Type} (p : α → Bool) (l : List α) :
    (l.rdropWhile p).length = l.findIdx p ↔ l.Pairwise fun a b => p a = true → p b = true := by
  induction l using reverseRecOn with
  | nil => simp
  | append_singleton l x ih =>
    rw [pairwise_append, findIdx_append]
    have hle : l.findIdx p ≤ l.length := findIdx_le_length
    cases hx : p x with
    | true =>
      have hf : (if l.findIdx p < l.length then l.findIdx p
          else [x].findIdx p + l.length) = l.findIdx p := by
        split_ifs with hlt
        · rfl
        · simp only [findIdx_singleton, hx, if_true]
          omega
      rw [rdropWhile_concat_pos _ _ _ hx, hf, ih]
      simp [hx]
    | false =>
      rw [rdropWhile_concat_neg _ _ _ (by simp [hx]), length_append,
        length_singleton]
      constructor
      · intro hlen
        have hnn : ∀ a ∈ l, p a = false := by
          rw [← findIdx_eq_length]
          split_ifs at hlen <;> omega
        have hno : ∀ a ∈ l, ∀ b, p a = true → p b = true := fun a ha b hpa =>
          absurd hpa (Bool.eq_false_iff.1 (hnn a ha))
        exact ⟨pairwise_of_forall_mem_list fun a ha b _ => hno a ha b, pairwise_singleton _ _,
          fun a ha b _ => hno a ha b⟩
      · rintro ⟨-, -, hcr⟩
        have hlen : l.findIdx p = l.length := by
          refine findIdx_eq_length_of_false fun a ha => Bool.eq_false_iff.2 fun hp => ?_
          exact Bool.eq_false_iff.1 hx (hcr a ha x (by simp) hp)
        rw [if_neg (by omega), findIdx_singleton, hx]
        simp [Nat.add_comm]

/-! ### What a journal holds after it was opened -/

/-- The record that is stored for a position. -/
def Partition.recordAt (cfg : Config A) (stored : Partition) (pos : ℕ) : Option (List UInt8) :=
  (stored.get? (pos / cfg.itemsPerBlob)).map fun blob =>
    readAt blob (pos % cfg.itemsPerBlob * cfg.chunkSize) cfg.chunkSize

variable {pos : ℕ}

theorem readRecord_eq (hol : j.blobs.length ≤ j.tailIndex)
    (hp : j.oldestBlobIndex ≤ pos / cfg.itemsPerBlob)
    (hbl : (j.blobs ++ [j.tail])[pos / cfg.itemsPerBlob - j.oldestBlobIndex]? = some blob)
    (hof : pos % cfg.itemsPerBlob * cfg.chunkSize < blob.length) : j.readRecord cfg pos =
      .ok (readAt blob (pos % cfg.itemsPerBlob * cfg.chunkSize) cfg.chunkSize) := by
  have hin : j.oldestBlobIndex + j.blobs.length = j.tailIndex := by
    rw [oldestBlobIndex]
    omega
  have hlt := (List.getElem?_eq_some_iff.1 hbl).1
  rw [length_append, length_singleton] at hlt
  rw [readRecord, if_neg (by omega)]
  by_cases ht : pos / cfg.itemsPerBlob = j.tailIndex
  · have hs : pos / cfg.itemsPerBlob - j.oldestBlobIndex = j.blobs.length := by omega
    rw [hs, List.getElem?_concat_length] at hbl
    cases hbl
    simp only [if_pos ht, if_neg (Nat.not_le.2 hof)]
  · rw [List.getElem?_append_left (by omega)] at hbl
    simp only [if_neg ht, blob?, if_neg (Nat.not_lt.2 hp), hbl]

theorem readAt_take {offset size : ℕ} (h : offset + size ≤ n) :
    readAt (blob.take n) offset size = readAt blob offset size := by
  rw [readAt, readAt, drop_take, take_take, Nat.min_eq_left (by omega)]

section

variable {stored : Partition} {t : ℕ} {tail : List UInt8} {j : Journal}

/-- Every record of a journal that was opened is the one that was stored. -/
theorem readRecord_of_init (hls : stored.last? = some (t, tail))
    (h : init cfg stored = .ok j) (hp : j.pruningBoundary ≤ pos)
    (hsize : pos < j.size) :
    ∃ r, stored.recordAt cfg pos = some r ∧ j.readRecord cfg pos = .ok r := by
  have hB : 0 < (cfg.itemsPerBlob : ℕ) := cfg.itemsPerBlob.pos
  have hmd : pos % cfg.itemsPerBlob < cfg.itemsPerBlob := Nat.mod_lt _ hB
  have hsp := Nat.div_add_mod' pos cfg.itemsPerBlob
  obtain ⟨oldest, blobs, m, rest, ht, rfl, hf, hm, hmB, hbs, hin, hti, hbn, hlen⟩ :=
    init_eq_ok hls h
  have hol : oldest ≤ pos / cfg.itemsPerBlob := by
    rw [Nat.le_div_iff_mul_le hB]
    omega
  have hle : pos / cfg.itemsPerBlob ≤ t := by
    rw [← Nat.lt_succ_iff, Nat.div_lt_iff_lt_mul hB, Nat.succ_mul]
    omega
  -- the blob in the journal, and the one that was stored
  obtain ⟨blob, blob', hbl, hbl', hof, hsm⟩ : ∃ blob blob',
      (blobs ++ [tail])[pos / cfg.itemsPerBlob - oldest]? = some blob ∧
      (blobs ++ tail.take (m * cfg.chunkSize) :: rest)[pos / cfg.itemsPerBlob - oldest]? =
        some blob' ∧
      pos % cfg.itemsPerBlob * cfg.chunkSize < blob'.length ∧
      readAt blob' (pos % cfg.itemsPerBlob * cfg.chunkSize) cfg.chunkSize =
        readAt blob (pos % cfg.itemsPerBlob * cfg.chunkSize) cfg.chunkSize := by
    rcases Nat.lt_or_eq_of_le hle with hlt | heq
    · have hid : pos / cfg.itemsPerBlob - oldest < blobs.length := by omega
      have hbl := getElem?_eq_getElem hid
      refine ⟨_, _, (getElem?_append_left hid).trans hbl,
        (getElem?_append_left hid).trans hbl, ?_, rfl⟩
      rw [hf _ (getElem_mem hid)]
      exact Nat.mul_lt_mul_of_pos_right hmd Config.chunkSize_pos
    · have hid : pos / cfg.itemsPerBlob - oldest = blobs.length := by omega
      have hp : pos % cfg.itemsPerBlob < m := by
        rw [heq] at hsp
        omega
      have he : pos % cfg.itemsPerBlob * cfg.chunkSize + cfg.chunkSize ≤ m * cfg.chunkSize := by
        rw [← Nat.succ_mul]
        exact Nat.mul_le_mul_right _ hp
      have htl : m * cfg.chunkSize ≤ tail.length := by
        refine (Nat.mul_le_mul_right _ ?_).trans (Nat.div_mul_le_self _ cfg.chunkSize)
        rw [hm, ← length_records]
        exact ( rdropWhile_prefix _ _).length_le
      have hch := cfg.chunkSize_pos
      refine ⟨tail, tail.take (m * cfg.chunkSize), by simp [hid], by simp [hid], ?_, readAt_take he⟩
      rw [length_take]
      omega
  refine ⟨_, ?_, (readRecord_eq hti (hin ▸ hol) (by rw [hbs, hin, hbl']) hof).trans
    (congrArg Except.ok hsm)⟩
  rw [Partition.recordAt, Partition.get?_consecutive, if_neg (Nat.not_lt.2 hol), hbl]
  rfl

theorem recordAt_tail (hls : stored.last? = some (t, tail)) {i : ℕ}
    (hi : i < cfg.itemsPerBlob) (hlen : i < tail.length / cfg.chunkSize) :
    stored.recordAt cfg (t * cfg.itemsPerBlob + i) = (records cfg tail)[i]? := by
  have hB : 0 < (cfg.itemsPerBlob : ℕ) := cfg.itemsPerBlob.pos
  have hdv : (t * cfg.itemsPerBlob + i) / cfg.itemsPerBlob = t := by
    rw [Nat.mul_comm, Nat.mul_add_div hB, Nat.div_eq_of_lt hi, Nat.add_zero]
  have hm : (t * cfg.itemsPerBlob + i) % cfg.itemsPerBlob = i := by
    rw [Nat.mul_comm, Nat.mul_add_mod, Nat.mod_eq_of_lt hi]
  rw [Partition.recordAt, hdv, hm, stored.get?_of_last? hls, getElem?_records hlen]
  rfl

theorem read_of_readRecord {r : List UInt8} (h : j.readRecord cfg pos = .ok r) :
    j.read cfg pos = verifyIntegrity cfg r := by
  rw [Journal.read, h]
  rfl

/-- **The journal is repaired exactly if no valid record stood behind an invalid one.**  Then what is
left of the tail ends with the first invalid record, all of it can be read, and it is what was
stored. -/
theorem init_repairs_iff (hlast : stored.last? = some (t, tail))
    (h : init cfg stored = .ok j) :
    ((∀ pos, max j.pruningBoundary (t * cfg.itemsPerBlob) ≤ pos → pos < j.size →
        ∀ a b, j.read cfg pos ≠ .error (.checksumMismatch a b)) ∧
      j.size = t * cfg.itemsPerBlob + (records cfg tail).findIdx (mismatch cfg) ∧
      ∀ pos, j.pruningBoundary ≤ pos → pos < j.size →
        ∃ r, stored.recordAt cfg pos = some r ∧ j.readRecord cfg pos = .ok r) ↔
    (records cfg tail).Pairwise fun r r' => mismatch cfg r = true → mismatch cfg r' = true := by
  obtain ⟨-, -, m, -, -, -, -, hm, hmB, -, -, -, -, hsize⟩ := init_eq_ok hlast h
  constructor
  · rintro ⟨-, hf, -⟩
    rw [← length_rdropWhile_eq_findIdx_iff]
    omega
  · intro hsl
    have hf := (length_rdropWhile_eq_findIdx_iff (mismatch cfg) (records cfg tail)).2 hsl
    refine ⟨fun pos hp hlt a b hrd => ?_, hf ▸ hm ▸ hsize,
      fun pos hp hlt => readRecord_of_init hlast h hp hlt⟩
    obtain ⟨hbn, ht⟩ := Nat.max_le.1 hp
    obtain ⟨i, rfl⟩ := Nat.exists_eq_add_of_le ht
    have hi : i < (records cfg tail).findIdx (mismatch cfg) := by omega
    obtain ⟨r, hst, hrc⟩ := readRecord_of_init hlast h hbn hlt
    have hil : i < (records cfg tail).length := hi.trans_le findIdx_le_length
    rw [recordAt_tail hlast (by omega) (by rwa [length_records] at hil),
      getElem?_eq_getElem hil] at hst
    cases hst
    have hvl : mismatch cfg (records cfg tail)[i] = false := by
      simpa using not_of_lt_findIdx hi
    rw [read_of_readRecord hrc] at hrd
    rcases verifyIntegrity_of_not_mismatch hvl with ⟨item, hvr⟩ | hvr <;>
      rw [hvr] at hrd <;> cases hrd

end

/-- Journals of single bytes, three of them in a blob. -/
def Sample.bytes : Config UInt8 where
  codec := {
    size := 1
    encode := fun b => [b]
    decode := head?
    length_encode := fun _ => rfl
    decode_encode := fun _ => rfl }
  itemsPerBlob := 3

/-- A journal whose last record was written only in part. -/
theorem torn_tail_repaired : ∃ j, init Sample.bytes
        (Partition.consecutive 1 [record Sample.bytes 5 ++ record Sample.bytes 6 ++ [7, 0, 0]]) =
          .ok j ∧ j.size = 5 ∧ ∀ pos, max j.pruningBoundary 3 ≤ pos → pos < j.size →
        ∀ a b, j.read Sample.bytes pos ≠ .error (.checksumMismatch a b) := by
  have hin : init Sample.bytes
      (Partition.consecutive 1 [record Sample.bytes 5 ++ record Sample.bytes 6 ++ [7, 0, 0]]) =
        .ok ⟨[], record Sample.bytes 5 ++ record Sample.bytes 6, 1, 5, 3⟩ := by decide +kernel
  have hvl : (records Sample.bytes
      (record Sample.bytes 5 ++ record Sample.bytes 6 ++ [7, 0, 0])).Pairwise fun r r' =>
        mismatch Sample.bytes r = true → mismatch Sample.bytes r' = true := by decide +kernel
  exact ⟨_, hin, rfl, ((init_repairs_iff rfl hin).2 hvl).1⟩

/-- A valid record behind an invalid one: the invalid record stays, and it cannot be read. -/
theorem buried_record_kept : ∃ j a b, init Sample.bytes
        (Partition.consecutive 0 [[7, 0, 0, 0, 0] ++ record Sample.bytes 9]) = .ok j ∧
      j.size = 2 ∧ j.pruningBoundary = 0 ∧
      (records Sample.bytes ([7, 0, 0, 0, 0] ++ record Sample.bytes 9)).findIdx
        (mismatch Sample.bytes) = 0 ∧ j.read Sample.bytes 0 = .error (.checksumMismatch a b) := by
  exact ⟨⟨[], [7, 0, 0, 0, 0] ++ record Sample.bytes 9, 0, 2, 0⟩, 0, crc32 [7],
    by decide +kernel, rfl, rfl, by decide +kernel, by decide +kernel⟩

end Commonware.Fixed
