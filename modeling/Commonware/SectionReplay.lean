/-
**Replay of the sections of a journal.**

The bytes of the sections of `storage/src/journal/segmented/variable.rs`.  An item is the number of its
bytes, the bytes and a checksum, and stands at a multiple of sixteen.  A replay reads the items of a
section from an offset on.  Where no item can be read because the section ends, or because the checksum
is wrong, the section is cut behind the last item that was read.

The replay takes the section to be empty up to its start until it has read an item: if it reads none,
everything is cut off.

Main definitions:

* `parseEntry`, `read`, `readBuffered` — reading an item;
* `replaySection`, `Journal.replay`, `Journal.append`, `Journal.get`;
* `Laid` — the bytes of some items;
* `Repaired` — what a replay of a section with a damaged end should do.

Main results:

* `parseEntry_entry` — **an item is read back**, whatever follows;
* `replayLoop_laid` — **the items of a section are replayed**;
* `repaired_iff` — **when a replay repairs a section**;
* `items_lost` — a replay that removes all items.
-/

import Commonware.Outcome
import Commonware.VariableJournal
import Commonware.Varint

set_option autoImplicit false

namespace Commonware.Segment

open List Varint

open Wire (Bytes)
open Fixed (crc32 putU32 getU32)
open Variable (itemAlignment computeNextOffset computeNextOffset_eq)

variable {V : Type}

/-! ### Reading -/

/-- How items are encoded and compressed. -/
structure Format (V : Type) where
  pack : V → Option Bytes
  unpack : Bytes → Option V
  unpack_pack : ∀ v d, pack v = some d → unpack d = some v

inductive ReadError where
  /-- The blob is too short. -/
  | insufficientLength
  | journal (e : Fixed.Error)
  deriving DecidableEq

def minItemSize : ℕ := 5

/-- The bytes of the item at a place of a blob, and the place behind it. -/
def parseEntry (blob : Bytes) (fileOffset : ℕ) : Except ReadError (ℕ × Bytes) :=
  let rest := blob.drop fileOffset
  if rest.length < minItemSize then .error .insufficientLength
  else
    match read 4 (rest.take minItemSize) with
    | .error _ => .error (.journal .codec)
    | .ok (size, varint) =>
      let varintLen := minItemSize - varint.length
      let buf := rest.drop varintLen
      let bufSize := size + 4
      if buf.length < bufSize then .error .insufficientLength
      else
        let item := buf.take size
        let checksum := crc32 (rest.take varintLen ++ item)
        let storedChecksum := getU32 ((buf.drop size).take 4)
        if checksum ≠ storedChecksum then
          .error (.journal (.checksumMismatch storedChecksum checksum))
        else .ok (fileOffset + varintLen + bufSize, item)

variable (f : Format V)

def unpackItem (item : Bytes) : Except ReadError V :=
  match f.unpack item with
  | some v => .ok v
  | none => .error (.journal .codec)

/-- The offset behind a place. -/
def offsetBehind (position : ℕ) : Except ReadError UInt32 :=
  (computeNextOffset position).mapError .journal

/-- The item at an offset, with the next offset and its size. -/
def read (blob : Bytes) (offset : UInt32) : Except ReadError (UInt32 × ℕ × V) := do
  let (position, item) ← parseEntry blob (offset.toNat * itemAlignment)
  let alignedOffset ← offsetBehind position
  let v ← unpackItem f item
  pure (alignedOffset, item.length, v)

/-- The item at an offset, with the next offset, the place behind it and its size. -/
def readBuffered (blob : Bytes) (offset : UInt32) : Except ReadError (UInt32 × ℕ × ℕ × V) := do
  let (currentPos, item) ← parseEntry blob (offset.toNat * itemAlignment)
  let v ← unpackItem f item
  let alignedOffset ← offsetBehind currentPos
  pure (alignedOffset, currentPos, item.length, v)

/-! ### Replay -/

/-- How the replay of a section ends. -/
inductive Stop where
  /-- There are no more items.  The section has these bytes now. -/
  | ended (blob : Bytes)
  /-- One error, and no items. -/
  | unseekable
  /-- An error that is returned again and again. -/
  | failing (e : ReadError)

/-- The items of a section with their offsets and sizes, and what follows. -/
structure Replay (V : Type) where
  items : List (UInt32 × ℕ × V)
  stop : Stop

/-- Reads items from an offset on.  Every item moves the offset, so the fuel does not run out. -/
def replayLoop (blob : Bytes) (maxOffset : UInt32) : ℕ → UInt32 → ℕ → Replay V
  | 0, _, _ => ⟨[], .ended blob⟩
  | fuel + 1, offset, validSize =>
    if maxOffset ≤ offset then ⟨[], .ended blob⟩
    else
      match readBuffered f blob offset with
      | .ok (nextOffset, nextValidSize, size, v) =>
        let rest := replayLoop blob maxOffset fuel nextOffset nextValidSize
        ⟨(offset, size, v) :: rest.items, rest.stop⟩
      | .error (.journal (.checksumMismatch _ _)) => ⟨[], .ended (Fixed.resize blob validSize)⟩
      | .error .insufficientLength => ⟨[], .ended (Fixed.resize blob validSize)⟩
      | .error e => ⟨[], .failing e⟩

theorem replayLoop_succ (blob : Bytes) (maxOffset offset : UInt32) (fuel validSize : ℕ) :
    replayLoop f blob maxOffset (fuel + 1) offset validSize =
      if maxOffset ≤ offset then ⟨[], .ended blob⟩
      else
        match readBuffered f blob offset with
        | .ok (nextOffset, nextValidSize, size, v) =>
          let rest := replayLoop f blob maxOffset fuel nextOffset nextValidSize
          ⟨(offset, size, v) :: rest.items, rest.stop⟩
        | .error (.journal (.checksumMismatch _ _)) => ⟨[], .ended (Fixed.resize blob validSize)⟩
        | .error .insufficientLength => ⟨[], .ended (Fixed.resize blob validSize)⟩
        | .error e => ⟨[], .failing e⟩ := rfl

def replaySection (blob : Bytes) (maxOffset offset : UInt32) : Replay V :=
  if offset ≠ 0 ∧ blob.length < offset.toNat * itemAlignment then ⟨[], .unseekable⟩
  else replayLoop f blob maxOffset (maxOffset.toNat + 1) offset 0

/-- The sections, and the bound of the last pruning. -/
structure Journal where
  blobs : OrdMap ℕ Bytes
  oldestRetainedSection : ℕ

namespace Journal

variable (j : Journal)

def pruneGuard (index : ℕ) : Except Fixed.Error Unit :=
  if index < j.oldestRetainedSection then .error (.alreadyPrunedToSection j.oldestRetainedSection)
  else .ok ()

/-- The sections that are reached: an error that comes again and again is the end. -/
def reached : List (ℕ × Replay V) → List (ℕ × Replay V)
  | [] => []
  | r :: rest =>
    match r.2.stop with
    | .failing _ => [r]
    | _ => r :: reached rest

/-- What is left of the sections. -/
def repaired (blobs : OrdMap ℕ Bytes) (replays : List (ℕ × Replay V)) : OrdMap ℕ Bytes :=
  replays.foldl (fun blobs r =>
    match r.2.stop with
    | .ended blob => blobs.insert r.1 blob
    | _ => blobs) blobs

/-- The items from an offset of a section on, section by section, and the journal after that. -/
def replay (startSection : ℕ) (offset : UInt32) :
    Except Fixed.Error (List (ℕ × Replay V) × Journal) := do
  let blobs := j.blobs.entries.filter fun entry => decide (startSection ≤ entry.1)
  let sections ← blobs.mapM fun entry => do
    let maxOffset ← computeNextOffset entry.2.length
    pure (entry.1, entry.2, maxOffset)
  let replays := reached (sections.map fun section_ =>
    (section_.1, replaySection f section_.2.1 section_.2.2
      (if section_.1 = startSection then offset else 0)))
  pure (replays, { j with blobs := repaired j.blobs replays })

/-- The bytes of an item. -/
def entry (data : Bytes) : Bytes :=
  let sized := write data.length ++ data
  sized ++ putU32 (crc32 sized)

def append (index : ℕ) (item : V) : Except Fixed.Error (UInt32 × Journal) := do
  j.pruneGuard index
  match f.pack item with
  | none => .error .codec
  | some data =>
    if 2 ^ 32 ≤ data.length then .error (.itemTooLarge data.length)
    else do
      let blob := (j.blobs.get? index).getD []
      let offset ← computeNextOffset blob.length
      let padding := replicate (offset.toNat * itemAlignment - blob.length) 0
      pure (offset, { j with blobs := j.blobs.insert index (blob ++ padding ++ entry data) })

def get (index : ℕ) (offset : UInt32) : Except ReadError V := do
  (j.pruneGuard index).mapError .journal
  match j.blobs.get? index with
  | none => .error (.journal (.sectionOutOfRange index))
  | some blob => do
      let (_, _, item) ← read f blob offset
      pure item

/-- Appends items to a section, one after the other. -/
def appendAll (index : ℕ) (items : List V) : Except Fixed.Error Journal :=
  items.foldlM (fun j item => do
    let (_, j) ← j.append f index item
    pure j) j

end Journal

/-! ### The bytes of items -/

/-- The next multiple of sixteen. -/
def alignUp (n : ℕ) : ℕ := (n + 15) / itemAlignment * itemAlignment

def entryLen (data : Bytes) : ℕ := size data.length + data.length + 4

/-- The bytes of some items from a place on.  What stands between them does not matter. -/
inductive Laid : ℕ → List (Bytes × V) → Bytes → Prop where
  | nil (start : ℕ) : Laid start [] []
  | cons {start : ℕ} {padding data rest : Bytes} {v : V} {items : List (Bytes × V)}
      (hpadding : padding.length = alignUp start - start) (hunpack : f.unpack data = some v)
      (hlen : data.length < 2 ^ 32) (hrest : Laid (alignUp start + entryLen data) items rest) :
      Laid start ((data, v) :: items) (padding ++ Journal.entry data ++ rest)

/-- Where items end that are written from a place on. -/
def stopOf (start : ℕ) (items : List (Bytes × V)) : ℕ :=
  items.foldl (fun stop item => alignUp stop + entryLen item.1) start

def offsetAt (position : ℕ) : UInt32 := UInt32.ofNat ((position + 15) / itemAlignment)

/-- The items with their offsets and sizes. -/
def placed (start : ℕ) : List (Bytes × V) → List (UInt32 × ℕ × V)
  | [] => []
  | (data, v) :: items =>
    (offsetAt start, data.length, v) :: placed (alignUp start + entryLen data) items

theorem le_alignUp (n : ℕ) : n ≤ alignUp n := by
  simp only [alignUp, itemAlignment]
  omega

theorem length_entry (data : Bytes) : (Journal.entry data).length = entryLen data := by
  simp only [Journal.entry, entryLen, length_append, length_write, Fixed.length_putU32]

theorem entryLen_pos (data : Bytes) : 5 ≤ entryLen data := by
  have := size_pos data.length
  rw [entryLen]
  omega

variable {data : Bytes}

/-- **An item is read back**, whatever stands before and after it. -/
theorem parseEntry_entry (before after : Bytes) (hlen : data.length < 2 ^ 32) :
    parseEntry (before ++ Journal.entry data ++ after) before.length =
      .ok (before.length + entryLen data, data) := by
  have hf := size_le_five hlen
  have hm : minItemSize = 5 := rfl
  obtain ⟨sum, hsum⟩ : ∃ sum, crc32 (write data.length ++ data) = sum := ⟨_, rfl⟩
  have hr : (before ++ Journal.entry data ++ after).drop before.length =
      write data.length ++ (data ++ (putU32 sum ++ after)) := by
    simp only [Journal.entry, append_assoc, drop_left, hsum]
  have hln : (data ++ (putU32 sum ++ after)).length = data.length + (4 + after.length) := by
    rw [length_append, length_append, Fixed.length_putU32]
  -- the size is read from the first five bytes, and the bytes that were read too many are given back
  have hsz : (write data.length ++ (data ++ (putU32 sum ++ after))).take minItemSize =
      write data.length ++
        (data ++ (putU32 sum ++ after)).take (minItemSize - size data.length) := by
    rw [take_append, length_write, take_of_length_le]
    rw [length_write]
    exact hf
  have hrm : minItemSize - ((data ++ (putU32 sum ++ after)).take
      (minItemSize - size data.length)).length = size data.length := by
    have := size_pos data.length
    rw [length_take, hln]
    omega
  have hst : getU32 (((data ++ (putU32 sum ++ after)).drop data.length).take 4) = sum := by
    rw [drop_left, take_left' (Fixed.length_putU32 _), Fixed.getU32_putU32]
  rw [parseEntry, hr]
  dsimp only
  rw [if_neg, hsz, read_write (show data.length < 2 ^ (4 * 8) from hlen)]
  · dsimp only
    rw [hrm, ← length_write, drop_left, take_left, if_neg (by omega), take_left, hst,
      if_neg (not_not.2 hsum), length_write, entryLen]
    simp only [Nat.add_assoc]
  · have := size_pos data.length
    rw [length_append, length_write]
    omega

/-! ### Offsets -/

/-- The place has an offset. -/
def Fits (position : ℕ) : Prop := (position + 15) / itemAlignment < 2 ^ 32

instance (position : ℕ) : Decidable (Fits position) := inferInstanceAs (Decidable (_ < _))

variable {n m : ℕ}

theorem Fits.mono (h : Fits n) (hle : m ≤ n) : Fits m :=
  (Nat.div_le_div_right (Nat.add_le_add_right hle 15)).trans_lt h

theorem Fits.computeNextOffset (h : Fits n) : computeNextOffset n = .ok (offsetAt n) := by
  rw [computeNextOffset_eq]
  exact if_pos h

theorem Fits.toNat_offsetAt (h : Fits n) : (offsetAt n).toNat = (n + 15) / itemAlignment := by
  rw [offsetAt, UInt32.toNat_ofNat']
  exact Nat.mod_eq_of_lt h

theorem Fits.offsetAt_mul (h : Fits n) : (offsetAt n).toNat * itemAlignment = alignUp n := by
  rw [h.toNat_offsetAt]
  rfl

theorem Fits.offsetAt_lt_iff (hm : Fits m) (hn : Fits n) :
    offsetAt m < offsetAt n ↔ alignUp m < n := by
  rw [UInt32.lt_iff_toNat_lt, hm.toNat_offsetAt, hn.toNat_offsetAt]
  simp only [alignUp, itemAlignment]
  omega

theorem offsetAt_zero : offsetAt 0 = 0 := by decide

theorem stopOf_cons (start : ℕ) (item : Bytes × V) (items : List (Bytes × V)) :
    stopOf start (item :: items) = stopOf (alignUp start + entryLen item.1) items := rfl

variable {start : ℕ} {items : List (Bytes × V)} {x : Bytes}

theorem Laid.length_eq (h : Laid f start items x) : start + x.length = stopOf start items := by
  induction h with
  | nil => rfl
  | @cons start padding data rest v items hp hu hlen hr ih =>
    have hle := le_alignUp start
    rw [stopOf_cons, ← ih, length_append, length_append, length_entry, hp]
    omega

/-! ### The items are replayed -/

variable {f} {before padding : Bytes}

theorem length_padded (hp : padding.length = alignUp before.length - before.length) :
    (before ++ (padding ++ Journal.entry data)).length = alignUp before.length + entryLen data := by
  have hle := le_alignUp before.length
  rw [length_append, length_append, length_entry, hp]
  omega

theorem parseEntry_padded (after : Bytes)
    (hp : padding.length = alignUp before.length - before.length) (hlen : data.length < 2 ^ 32) :
    parseEntry (before ++ (padding ++ Journal.entry data ++ after)) (alignUp before.length) =
      .ok (alignUp before.length + entryLen data, data) := by
  have hle := le_alignUp before.length
  have hln : (before ++ padding).length = alignUp before.length := by
    rw [length_append, hp]
    omega
  rw [← append_assoc, ← append_assoc, ← hln]
  exact parseEntry_entry _ after hlen

variable {v : V}

theorem readBuffered_entry (after : Bytes)
    (hp : padding.length = alignUp before.length - before.length)
    (hu : f.unpack data = some v) (hlen : data.length < 2 ^ 32) (hbf : Fits before.length)
    (hst : Fits (alignUp before.length + entryLen data)) :
    readBuffered f (before ++ (padding ++ Journal.entry data ++ after)) (offsetAt before.length) =
      .ok (offsetAt (alignUp before.length + entryLen data),
        alignUp before.length + entryLen data, data.length, v) := by
  rw [readBuffered, hbf.offsetAt_mul, parseEntry_padded after hp hlen]
  simp only [bind, Except.bind, unpackItem, hu, offsetBehind, hst.computeNextOffset]
  rfl

/-- **The items of a section are replayed**; then the replay goes on behind them. -/
theorem replayLoop_laid (h : Laid f start items x) {before tail : Bytes}
    (hbf : before.length = start) (hfits : Fits (before ++ (x ++ tail)).length) (fuel valid : ℕ) :
    replayLoop f (before ++ (x ++ tail)) (offsetAt (before ++ (x ++ tail)).length)
        (fuel + items.length) (offsetAt start) valid =
      let rest := replayLoop f (before ++ (x ++ tail)) (offsetAt (before ++ (x ++ tail)).length) fuel
        (offsetAt (stopOf start items)) (if items = [] then valid else stopOf start items)
      ⟨placed start items ++ rest.items, rest.stop⟩ := by
  induction h generalizing before valid with
  | nil start => rfl
  | @cons start padding data rest v items hp hu hlen hr ih =>
    subst hbf
    have hps := entryLen_pos data
    have hle := le_alignUp before.length
    have hln : (before ++ (padding ++ Journal.entry data)).length = _ := length_padded hp
    have hac : before ++ (padding ++ Journal.entry data ++ rest ++ tail) =
        before ++ (padding ++ Journal.entry data) ++ (rest ++ tail) := by
      simp only [append_assoc]
    have ht : alignUp before.length + entryLen data ≤
        (before ++ (padding ++ Journal.entry data ++ rest ++ tail)).length := by
      rw [hac, length_append, hln]
      exact Nat.le_add_right _ _
    have hst : Fits before.length := hfits.mono (by omega)
    have hrd := readBuffered_entry (rest ++ tail) hp hu hlen hst
      (hfits.mono ht)
    rw [← append_assoc, ← hac] at hrd
    have hmr : ¬ offsetAt (before ++ (padding ++ Journal.entry data ++ rest ++ tail)).length ≤
        offsetAt before.length := by
      rw [UInt32.not_le, hst.offsetAt_lt_iff hfits]
      omega
    rw [length_cons, ← Nat.add_assoc, replayLoop_succ, if_neg hmr, hrd]
    have hnx := ih hln (by rwa [← hac]) (alignUp before.length + entryLen data)
    rw [← hac] at hnx
    simp only [hnx, placed, stopOf_cons, cons_append]
    by_cases hnl : items = []
    · subst hnl
      simp [stopOf]
    · simp [hnl]

theorem stopOf_append (start : ℕ) (items more : List (Bytes × V)) :
    stopOf start (items ++ more) = stopOf (stopOf start items) more := foldl_append

theorem placed_append (start : ℕ) (items more : List (Bytes × V)) :
    placed start (items ++ more) = placed start items ++ placed (stopOf start items) more := by
  induction items generalizing start with
  | nil => rfl
  | cons item items ih =>
    rw [cons_append, placed, placed, ih, cons_append, stopOf_cons]

theorem length_placed (start : ℕ) (items : List (Bytes × V)) :
    (placed start items).length = items.length := by
  induction items generalizing start with
  | nil => rfl
  | cons item items ih => rw [placed, length_cons, length_cons, ih]

variable {k : ℕ}

theorem drop_placed (hk : k ≤ items.length) :
    (placed 0 items).drop k = placed (stopOf 0 (items.take k)) (items.drop k) := by
  conv_lhs => rw [← take_append_drop k items, placed_append]
  exact drop_left' (by rw [length_placed, length_take_of_le hk])

variable {more : List (Bytes × V)}

theorem Laid.split (h : Laid f start (items ++ more) x) :
    ∃ x₁ x₂, x = x₁ ++ x₂ ∧ Laid f start items x₁ ∧ Laid f (stopOf start items) more x₂ := by
  induction items generalizing start x with
  | nil => exact ⟨[], x, rfl, .nil start, h⟩
  | cons item items ih =>
    cases h with
    | cons hp hu hlen hr =>
      obtain ⟨x₁, x₂, rfl, h₁, h₂⟩ := ih hr
      exact ⟨_, x₂, by rw [← append_assoc], .cons hp hu hlen h₁, h₂⟩

theorem Laid.snoc (h : Laid f start items x) {padding : Bytes}
    (hp : padding.length = alignUp (start + x.length) - (start + x.length))
    (hu : f.unpack data = some v) (hlen : data.length < 2 ^ 32) :
    Laid f start (items ++ [(data, v)]) (x ++ (padding ++ Journal.entry data)) := by
  induction h with
  | nil start =>
    have hls := Laid.cons hp hu hlen (.nil (alignUp start + entryLen data))
    rwa [append_nil] at hls
  | @cons start padding' data' rest v' items hp' hu' hlen' hr ih =>
    have hle := le_alignUp start
    have hst : start + (padding' ++ Journal.entry data' ++ rest).length =
        alignUp start + entryLen data' + rest.length := by
      rw [length_append, length_append, length_entry, hp']
      omega
    rw [hst] at hp
    rw [append_assoc]
    exact .cons hp' hu' hlen' (ih hp)

/-- The place where an item starts is before the end. -/
theorem Laid.start_lt (h : Laid f start items x) (hne : items ≠ []) :
    alignUp start < start + x.length := by
  cases h with
  | nil => exact absurd rfl hne
  | @cons _ padding data rest v items hp hu hlen hr =>
    have hle := le_alignUp start
    have hps := entryLen_pos data
    rw [length_append, length_append, length_entry, hp]
    omega

theorem read_laid (h : Laid f 0 items x) {tail : Bytes} (hfits : Fits (x ++ tail).length) {i : ℕ}
    {item : Bytes × V} (hi : items[i]? = some item) :
    ∃ next, read f (x ++ tail) (offsetAt (stopOf 0 (items.take i))) =
      .ok (next, item.1.length, item.2) := by
  have hlt : i < items.length := (List.getElem?_eq_some_iff.1 hi).1
  have hsp : items = items.take i ++ item :: items.drop (i + 1) := by
    conv_lhs => rw [← take_append_drop i items]
    rw [drop_eq_getElem_cons hlt, (List.getElem?_eq_some_iff.1 hi).2]
  rw [hsp] at h
  obtain ⟨x₁, x₂, rfl, h₁, h₂⟩ := h.split
  have hln : x₁.length = stopOf 0 (items.take i) := by
    have := h₁.length_eq
    rwa [Nat.zero_add] at this
  cases h₂ with
  | @cons _ padding data rest v items' hp hu hlen hr =>
    rw [← hln] at hp ⊢
    have hle := le_alignUp x₁.length
    have hac : x₁ ++ (padding ++ Journal.entry data ++ rest) ++ tail =
        x₁ ++ (padding ++ Journal.entry data ++ (rest ++ tail)) := by
      simp only [append_assoc]
    have hst : Fits (alignUp x₁.length + entryLen data) := by
      refine hfits.mono ?_
      rw [hac, ← append_assoc, length_append, length_padded hp]
      exact Nat.le_add_right _ _
    refine ⟨offsetAt (alignUp x₁.length + entryLen data), ?_⟩
    rw [read, (hst.mono (by omega)).offsetAt_mul, hac, parseEntry_padded _ hp hlen]
    simp only [bind, Except.bind, unpackItem, hu, offsetBehind, hst.computeNextOffset]
    rfl

/-! ### The end of a section -/

/-- The errors at which a section is cut. -/
def Torn {α : Type} : Except ReadError α → Prop
  | .error .insufficientLength => True
  | .error (.journal (.checksumMismatch _ _)) => True
  | _ => False

variable {blob : Bytes} {maxOffset offset : UInt32}

/-- What the replay does where no item can be read. -/
theorem replayLoop_end (fuel valid : ℕ) (hmr : ¬ maxOffset ≤ offset)
    (hbad : ∀ r, readBuffered f blob offset ≠ .ok r) : (Torn (readBuffered f blob offset) →
      replayLoop f blob maxOffset (fuel + 1) offset valid =
        ⟨[], .ended (Fixed.resize blob valid)⟩) ∧ (¬ Torn (readBuffered f blob offset) →
      ∃ e, replayLoop f blob maxOffset (fuel + 1) offset valid = ⟨[], .failing e⟩) := by
  rw [replayLoop_succ, if_neg hmr]
  cases hrd : readBuffered f blob offset with
  | ok r => exact absurd hrd (hbad r)
  | error e =>
    cases e with
    | insufficientLength => exact ⟨fun _ => rfl, fun h => absurd trivial h⟩
    | journal e =>
      cases e with
      | checksumMismatch stored computed => exact ⟨fun _ => rfl, fun h => absurd trivial h⟩
      | _ => exact ⟨fun h => absurd h id, fun _ => ⟨_, rfl⟩⟩

theorem length_le_stopOf (start : ℕ) (items : List (Bytes × V)) :
    (start + 15) / itemAlignment + items.length ≤ (stopOf start items + 15) / itemAlignment := by
  induction items generalizing start with
  | nil => exact Nat.le_refl _
  | cons item items ih =>
    have hnx := ih (alignUp start + entryLen item.1)
    have hp := entryLen_pos item.1
    rw [stopOf_cons, length_cons]
    simp only [alignUp, itemAlignment] at hnx ⊢
    omega

section Boundary

variable {items : List (Bytes × V)} {x tail : Bytes} (hx : Laid f 0 items x)
include hx

theorem Laid.length_of_zero : x.length = stopOf 0 items := by
  have h := hx.length_eq
  rwa [Nat.zero_add] at h

/-- The replay from a boundary between two items on comes to the end of the items. -/
theorem replaySection_boundary (hfits : Fits (x ++ tail).length) (hk : k ≤ items.length)
    (hsk : k = items.length → 0 < k → alignUp x.length ≤ (x ++ tail).length) :
    ∃ fuel, replaySection f (x ++ tail) (offsetAt (x ++ tail).length)
        (offsetAt (stopOf 0 (items.take k))) =
      let rest := replayLoop f (x ++ tail) (offsetAt (x ++ tail).length) (fuel + 1)
        (offsetAt x.length) (if k = items.length then 0 else x.length)
      ⟨(placed 0 items).drop k ++ rest.items, rest.stop⟩ := by
  have hln := hx.length_of_zero
  have hsp := hx
  rw [← take_append_drop k items] at hsp
  obtain ⟨x₁, x₂, rfl, h₁, h₂⟩ := hsp.split
  have hln₁ := h₁.length_of_zero
  rw [← hln₁] at h₂ ⊢
  have ht : x₁.length ≤ (x₁ ++ x₂ ++ tail).length := by
    rw [length_append, length_append]
    omega
  have hst : Fits x₁.length := hfits.mono ht
  -- the start is in the section
  have hin : ¬ (offsetAt x₁.length ≠ 0 ∧
      (x₁ ++ x₂ ++ tail).length < (offsetAt x₁.length).toNat * itemAlignment) := by
    rintro ⟨hne, hlt⟩
    rw [hst.offsetAt_mul] at hlt
    rcases Nat.lt_or_ge k items.length with hkl | hkl
    · have hbf := h₂.start_lt (by simpa using hkl)
      rw [length_append, length_append] at hlt
      omega
    · have hkq : k = items.length := le_antisymm hk hkl
      have hx₂ : x₂ = [] := by
        rw [hkq, drop_length] at h₂
        cases h₂
        rfl
      rcases Nat.eq_zero_or_pos k with hz | hp
      · rw [hz, take_zero] at hln₁
        rw [hln₁] at hne
        exact hne offsetAt_zero
      · have := hsk hkq hp
        rw [hx₂, append_nil] at this hlt
        omega
  -- there is fuel for the items that follow
  have hf : (items.drop k).length ≤ (offsetAt (x₁ ++ x₂ ++ tail).length).toNat := by
    have hcn := (Nat.le_add_left _ _).trans (length_le_stopOf 0 items)
    have hle : stopOf 0 items ≤ (x₁ ++ x₂ ++ tail).length := by
      rw [← hln, @length_append _ _ tail]
      exact Nat.le_add_right _ _
    rw [hfits.toNat_offsetAt, length_drop]
    have hmn : (stopOf 0 items + 15) / itemAlignment ≤
        ((x₁ ++ x₂ ++ tail).length + 15) / itemAlignment :=
      Nat.div_le_div_right (Nat.add_le_add_right hle 15)
    omega
  obtain ⟨fuel, hf⟩ := Nat.exists_eq_add_of_le hf
  have hso : stopOf x₁.length (items.drop k) = (x₁ ++ x₂).length := by
    rw [hln, hln₁, ← stopOf_append, take_append_drop]
  have hnl : items.drop k = [] ↔ k = items.length := by
    rw [drop_eq_nil_iff]
    omega
  have hac : x₁ ++ x₂ ++ tail = x₁ ++ (x₂ ++ tail) := append_assoc _ _ _
  refine ⟨fuel, ?_⟩
  rw [replaySection, if_neg hin, hf, show (items.drop k).length + fuel + 1 =
    fuel + 1 + (items.drop k).length by omega, hac,
    replayLoop_laid h₂ rfl (by rwa [← hac]) (fuel + 1) 0, drop_placed hk, ← hln₁, hso]
  simp only [hnl]

/-- A boundary behind the end of the section. -/
theorem replaySection_unseekable (hne : items ≠ []) (hfits : Fits (x ++ tail).length)
    (hot : (x ++ tail).length < alignUp x.length) :
    replaySection f (x ++ tail) (offsetAt (x ++ tail).length) (offsetAt (stopOf 0 items)) =
      ⟨[], .unseekable⟩ := by
  have hst := hfits.mono (prefix_append x tail).length_le
  have hp := hx.start_lt hne
  rw [← hx.length_of_zero, replaySection, if_pos]
  refine ⟨fun hz => ?_, by rwa [hst.offsetAt_mul]⟩
  have := hst.toNat_offsetAt
  rw [hz] at this
  simp only [UInt32.toNat_zero, itemAlignment] at this
  omega

end Boundary

/-! ### Journals -/

/-- Where an item was read ends within the blob. -/
theorem parseEntry_le {position : ℕ} {item : Bytes}
    (h : parseEntry blob start = .ok (position, item)) : position ≤ blob.length := by
  rw [parseEntry] at h
  dsimp only at h
  split_ifs at h with hsh
  split at h
  · cases h
  · split_ifs at h with hb hs
    cases h
    rw [length_drop, length_drop] at hb
    rw [length_drop] at hsh
    have hm : minItemSize = 5 := rfl
    omega

theorem readBuffered_le {next : UInt32} {position size : ℕ}
    (h : readBuffered f blob offset = .ok (next, position, size, v)) : position ≤ blob.length := by
  obtain ⟨⟨position', item⟩, hpr, h⟩ := bind_eq_ok.1 h
  obtain ⟨v', -, h⟩ := bind_eq_ok.1 h
  obtain ⟨next', -, h⟩ := bind_eq_ok.1 h
  cases h
  exact parseEntry_le hpr

variable {blob' : Bytes}

/-- A replay does not make a section longer. -/
theorem replayLoop_le {fuel valid : ℕ} (hvl : valid ≤ blob.length)
    (h : (replayLoop f blob maxOffset fuel offset valid).stop = .ended blob') :
    blob'.length ≤ blob.length := by
  induction fuel generalizing offset valid with
  | zero =>
    cases h
    exact le_refl _
  | succ fuel ih =>
    by_cases hm : maxOffset ≤ offset
    · rw [replayLoop_succ, if_pos hm] at h
      cases h
      exact le_refl _
    by_cases hrd : ∃ r, readBuffered f blob offset = .ok r
    · obtain ⟨⟨next, position, size, v⟩, hrd⟩ := hrd
      rw [replayLoop_succ, if_neg hm, hrd] at h
      exact ih (readBuffered_le hrd) h
    · obtain ⟨hc, hf⟩ := replayLoop_end fuel valid hm (not_exists.1 hrd)
      by_cases ht : Torn (readBuffered f blob offset)
      · rw [hc ht] at h
        cases h
        rw [Fixed.resize, length_append, length_take, length_replicate]
        omega
      · obtain ⟨e, he⟩ := hf ht
        rw [he] at h
        cases h

theorem replaySection_le
    (h : (replaySection f blob maxOffset offset).stop = .ended blob') :
    blob'.length ≤ blob.length := by
  rw [replaySection] at h
  split_ifs at h
  exact replayLoop_le (Nat.zero_le _) h

/-- The sections from a section on have offsets for their ends. -/
def AllFit (j : Journal) (s : ℕ) : Prop :=
  ∀ index blob, j.blobs.get? index = some blob → s ≤ index → Fits blob.length

theorem reached_cons (r : ℕ × Replay V) (rest : List (ℕ × Replay V)) :
    ∃ rest', Journal.reached (r :: rest) = r :: rest' ∧ rest' ⊆ rest := by
  induction rest generalizing r with
  | nil =>
    refine ⟨[], ?_, fun r hr => hr⟩
    rw [Journal.reached]
    split <;> rfl
  | cons r' rest ih =>
    rw [Journal.reached]
    split
    · exact ⟨[], rfl, nil_subset _⟩
    · obtain ⟨rest', hrs', hs⟩ := ih r'
      exact ⟨r' :: rest', by rw [hrs'], cons_subset_cons r' hs⟩

variable {replays : List (ℕ × Replay V)} {blobs : OrdMap ℕ Bytes} {s : ℕ}

theorem get?_repaired_of_ne (hne : ∀ r ∈ replays, r.1 ≠ s) :
    (Journal.repaired blobs replays).get? s = blobs.get? s := by
  induction replays generalizing blobs with
  | nil => rfl
  | cons r replays ih =>
    have hrs := fun r' hr' => hne r' (mem_cons_of_mem r hr')
    have hr := hne r mem_cons_self
    rw [Journal.repaired, foldl_cons, ← Journal.repaired, ih hrs]
    split
    · exact OrdMap.get?_insert_of_ne _ _ (Ne.symm hr)
    · rfl

/-- What is left of a section is what was there, or what its replay left. -/
theorem get?_repaired {index : ℕ}
    (h : (Journal.repaired blobs replays).get? index = some blob) :
    blobs.get? index = some blob ∨ ∃ r ∈ replays, r.1 = index ∧ r.2.stop = .ended blob := by
  induction replays generalizing blobs with
  | nil => exact .inl h
  | cons r replays ih =>
    rw [Journal.repaired, foldl_cons, ← Journal.repaired] at h
    rcases ih h with hg | ⟨r', hr', hed⟩
    · cases hst : r.2.stop with
      | ended blob' =>
        simp only [hst, OrdMap.get?_insert] at hg
        split_ifs at hg with heq
        · exact .inr ⟨r, mem_cons_self, heq.symm, by rw [hst, Option.some.inj hg]⟩
        · exact .inl hg
      | unseekable | failing e =>
        rw [hst] at hg
        exact .inl hg
    · exact .inr ⟨r', mem_cons_of_mem r hr', hed⟩

namespace Journal

variable {j : Journal} {s : ℕ}

theorem fit_of_replay {offset : UInt32} {r : List (ℕ × Replay V) × Journal}
    (h : j.replay f s offset = .ok r) : AllFit j s := by
  obtain ⟨sections, hsc, -⟩ := bind_eq_ok.1 h
  intro index blob hg hle
  have hmem : (index, blob) ∈ j.blobs.entries.filter fun entry => decide (s ≤ entry.1) :=
    mem_filter.2 ⟨(OrdMap.mem_entries_iff _).2 hg, decide_eq_true hle⟩
  obtain ⟨section_, hst⟩ := exists_of_mapM_eq_ok hsc hmem
  obtain ⟨maxOffset, hm, -⟩ := bind_eq_ok.1 hst
  rw [computeNextOffset_eq] at hm
  split_ifs at hm with hfits
  exact hfits

/-- The replay starts with the section, and the others do not touch it. -/
theorem replay_of_fit (hft : AllFit j s) {blob : Bytes} (hg : j.blobs.get? s = some blob)
    (offset : UInt32) : ∃ rest j', j.replay f s offset =
        .ok ((s, replaySection f blob (offsetAt blob.length) offset) :: rest, j') ∧
      j'.oldestRetainedSection = j.oldestRetainedSection ∧ AllFit j' s ∧
      ∀ blob', (replaySection f blob (offsetAt blob.length) offset).stop = .ended blob' →
        j'.blobs.get? s = some blob' := by
  obtain ⟨others, hf, hlr⟩ := j.blobs.filter_le_entries hg
  have hmem : ∀ entry ∈ (s, blob) :: others, j.blobs.get? entry.1 = some entry.2 ∧ s ≤ entry.1 := by
    intro entry het
    rw [← hf, mem_filter, decide_eq_true_iff] at het
    exact ⟨(OrdMap.mem_entries_iff _).1 het.1, het.2⟩
  have hsn : ((s, blob) :: others).mapM (fun entry => do
      let maxOffset ← computeNextOffset entry.2.length
      pure (entry.1, entry.2, maxOffset)) = .ok (((s, blob) :: others).map fun entry =>
        (entry.1, entry.2, offsetAt entry.2.length)) := by
    refine mapM_eq_ok fun entry het => ?_
    obtain ⟨het, hle⟩ := hmem entry het
    rw [(hft _ _ het hle).computeNextOffset]
    rfl
  set replays := (((s, blob) :: others).map fun entry =>
    (entry.1, entry.2, offsetAt entry.2.length)).map fun section_ =>
      (section_.1, replaySection f section_.2.1 section_.2.2
        (if section_.1 = s then offset else 0)) with hrp
  obtain ⟨rest, hrc, hs⟩ := reached_cons
    (s, replaySection f blob (offsetAt blob.length) (if s = s then offset else 0)) replays.tail
  have hcn : replays = (s, replaySection f blob (offsetAt blob.length)
      (if s = s then offset else 0)) :: replays.tail := rfl
  rw [if_pos rfl] at hrc hcn
  -- every replay is that of a section, and leaves no more than that
  have hed : ∀ r ∈ replays, ∀ blob', r.2.stop = .ended blob' → s ≤ r.1 →
      Fits blob'.length := by
    intro r hr blob' hst hle
    obtain ⟨section_, hsc, rfl⟩ := mem_map.1 hr
    obtain ⟨entry, het, rfl⟩ := mem_map.1 hsc
    exact (hft _ _ (hmem entry het).1 (hmem entry het).2).mono (replaySection_le hst)
  have hne : ∀ r ∈ rest, r.1 ≠ s := by
    intro r hr
    obtain ⟨section_, hsc, rfl⟩ := mem_map.1 (hs hr)
    obtain ⟨entry, het, rfl⟩ := mem_map.1 hsc
    exact (hlr entry het).ne'
  refine ⟨rest, { j with blobs := repaired j.blobs (reached replays) }, ?_, rfl, ?_, ?_⟩
  · rw [replay, hf, hsn]
    refine bind_eq_ok.2 ⟨_, rfl, ?_⟩
    rw [← hrp, ← hrc, ← hcn]
    rfl
  · intro index blob' hbl' hle
    rcases get?_repaired hbl' with hol | ⟨r, hr, rfl, hst⟩
    · exact hft _ _ hol hle
    · refine hed r ?_ blob' hst hle
      rw [hcn, hrc] at hr
      rw [hcn]
      exact cons_subset_cons _ hs hr
  · intro blob' hst
    change (repaired j.blobs (reached replays)).get? s = some blob'
    rw [hcn, hrc, repaired, foldl_cons, ← repaired, get?_repaired_of_ne hne, hst]
    exact OrdMap.get?_insert_self _ _ _

theorem pruneGuard_eq (hol : j.oldestRetainedSection ≤ s) : j.pruneGuard s = .ok () :=
  if_neg (Nat.not_lt.2 hol)

theorem get_eq (hol : j.oldestRetainedSection ≤ s) {blob : Bytes}
    (hg : j.blobs.get? s = some blob) {offset next : UInt32} {size : ℕ}
    (hrd : read f blob offset = .ok (next, size, v)) : j.get f s offset = .ok v := by
  rw [get, pruneGuard_eq hol, hg]
  refine bind_eq_ok.2 ⟨(), rfl, ?_⟩
  exact bind_eq_ok.2 ⟨_, hrd, rfl⟩

end Journal

open Journal

/-! ### Appending -/

/-- The bytes of a section with some items, and not more than the padding behind them. -/
def Holds (f : Format V) (items : List (Bytes × V)) (blob : Bytes) : Prop :=
  ∃ x tail, blob = x ++ tail ∧ Laid f 0 items x ∧ blob.length ≤ alignUp x.length

theorem alignUp_eq_of_le (hle : m ≤ n) (hup : n ≤ alignUp m) :
    (n + 15) / itemAlignment = (m + 15) / itemAlignment := by
  simp only [alignUp, itemAlignment] at hup ⊢
  omega

variable {j : Journal}

theorem Holds.append (h : Holds f items blob)
    (hol : j.oldestRetainedSection ≤ s) (hg : j.blobs.get? s = some blob)
    (hpc : f.pack v = some data) (hlen : data.length < 2 ^ 32) (hfits : Fits (stopOf 0 items)) :
    ∃ offset blob', j.append f s v = .ok (offset, { j with blobs := j.blobs.insert s blob' }) ∧
      Holds f (items ++ [(data, v)]) blob' ∧ blob'.length = stopOf 0 (items ++ [(data, v)]) := by
  obtain ⟨x, tail, rfl, hx, hup⟩ := h
  have hln := hx.length_of_zero
  have hle := (prefix_append x tail).length_le
  have hrn := alignUp_eq_of_le hle hup
  have hof : Fits (x ++ tail).length := by
    rw [Fits, hrn, hln]
    exact hfits
  have hmul : (offsetAt (x ++ tail).length).toNat * itemAlignment = alignUp x.length := by
    rw [hof.offsetAt_mul, alignUp, hrn]
    rfl
  set padding : Bytes := replicate
    ((offsetAt (x ++ tail).length).toNat * itemAlignment - (x ++ tail).length) 0 with hp
  have hld : Laid f 0 (items ++ [(data, v)]) (x ++ (tail ++ padding ++ entry data)) := by
    refine hx.snoc ?_ (f.unpack_pack v data hpc) hlen
    rw [hp, length_append, length_replicate, hmul, Nat.zero_add]
    rw [length_append] at hup ⊢
    omega
  have hac : x ++ tail ++ padding ++ entry data =
      x ++ (tail ++ padding ++ entry data) := by
    simp only [append_assoc]
  refine ⟨offsetAt (x ++ tail).length, x ++ tail ++ padding ++ entry data, ?_, ?_, ?_⟩
  · rw [append, pruneGuard_eq hol, hg, hpc]
    refine bind_eq_ok.2 ⟨(), rfl, ?_⟩
    dsimp only [Option.getD_some]
    rw [if_neg (Nat.not_le.2 hlen), hof.computeNextOffset]
    rfl
  · exact ⟨_, [], by rw [append_nil, hac], hld, by
      rw [hac]
      exact le_alignUp _⟩
  · rw [hac]
    exact hld.length_of_zero

theorem Holds.appendAll (h : Holds f items blob)
    (hol : j.oldestRetainedSection ≤ s) (hg : j.blobs.get? s = some blob)
    (hmr : ∀ item ∈ more, f.pack item.2 = some item.1 ∧ item.1.length < 2 ^ 32)
    (hfits : ∀ i < more.length, Fits (stopOf 0 (items ++ more.take i))) :
    ∃ j' blob', j.appendAll f s (more.map Prod.snd) = .ok j' ∧
      j'.oldestRetainedSection = j.oldestRetainedSection ∧ j'.blobs.get? s = some blob' ∧
      (∀ index ≠ s, j'.blobs.get? index = j.blobs.get? index) ∧ Holds f (items ++ more) blob' ∧
      (more ≠ [] → blob'.length = stopOf 0 (items ++ more)) := by
  induction more generalizing items blob j with
  | nil =>
    refine ⟨j, blob, rfl, rfl, hg, fun _ _ => rfl, ?_, fun hne => absurd rfl hne⟩
    rwa [append_nil]
  | cons item more ih =>
    obtain ⟨data, v⟩ := item
    obtain ⟨hpc, hlen⟩ := hmr _ mem_cons_self
    have hf : Fits (stopOf 0 items) := by
      have := hfits 0 (Nat.succ_pos _)
      rwa [take_zero, append_nil] at this
    obtain ⟨offset, blob₁, hap, hh, hln⟩ := h.append hol hg hpc hlen hf
    obtain ⟨j', blob', ha, hol', hg', hot, hh', hln'⟩ := ih hh
      (j := { j with blobs := j.blobs.insert s blob₁ }) hol (OrdMap.get?_insert_self _ _ _)
      (fun item hit => hmr item (mem_cons_of_mem _ hit)) (fun i hi => by
        have := hfits (i + 1) (Nat.succ_lt_succ hi)
        rwa [take_succ_cons, append_cons] at this)
    rw [← append_cons] at hh' hln'
    refine ⟨j', blob', ?_, hol', hg', fun index hne => ?_, hh', fun _ => ?_⟩
    · rw [map_cons, appendAll, foldlM_cons, hap]
      exact ha
    · rw [hot index hne]
      exact OrdMap.get?_insert_of_ne _ _ hne
    · by_cases hnl : more = []
      · subst hnl
        cases ha
        rw [← hln]
        have hsm := hg'.symm.trans (OrdMap.get?_insert_self _ _ _)
        exact congrArg length (Option.some.inj hsm)
      · exact hln' hnl

/-- The replay of a section without a damaged end. -/
theorem Holds.replaySection (h : Holds f items blob) (hfits : Fits blob.length) :
    replaySection f blob (offsetAt blob.length) 0 = ⟨placed 0 items, .ended blob⟩ := by
  obtain ⟨x, tail, rfl, hx, hup⟩ := h
  have hle := (prefix_append x tail).length_le
  have hdn : offsetAt (x ++ tail).length ≤ offsetAt x.length := by
    rw [← UInt32.not_lt, (hfits.mono hle).offsetAt_lt_iff hfits]
    omega
  obtain ⟨fuel, hrp⟩ := replaySection_boundary hx hfits (Nat.zero_le items.length)
    fun _ hp => absurd hp (Nat.lt_irrefl 0)
  rw [take_zero, show offsetAt (stopOf 0 ([] : List (Bytes × V))) = 0 from offsetAt_zero] at hrp
  rw [hrp, replayLoop_succ, if_pos hdn, drop_zero]
  dsimp only
  rw [append_nil]

/-! ### Repair -/

/-- The bytes are those of an item that is not complete, or that was changed: there are not enough of
them, or the checksum is wrong. -/
def TornItem (rest : Bytes) : Prop :=
  rest.length < minItemSize ∨
    ∃ size varint, Varint.read 4 (rest.take minItemSize) = .ok (size, varint) ∧
      ((rest.drop (minItemSize - varint.length)).length < size + 4 ∨
        crc32 (rest.take (minItemSize - varint.length) ++
            (rest.drop (minItemSize - varint.length)).take size) ≠
          getU32 (((rest.drop (minItemSize - varint.length)).drop size).take 4))

theorem torn_parseEntry (blob : Bytes) (position : ℕ) :
    Torn (parseEntry blob position) ↔ TornItem (blob.drop position) := by
  rw [parseEntry, TornItem]
  dsimp only
  by_cases hsh : (blob.drop position).length < minItemSize
  · rw [if_pos hsh]
    exact ⟨fun _ => .inl hsh, fun _ => trivial⟩
  rw [if_neg hsh]
  cases hrd : Varint.read 4 ((blob.drop position).take minItemSize) with
  | error e =>
    refine ⟨fun h => absurd h id, ?_⟩
    rintro (h | ⟨size, varint, h, -⟩)
    · exact absurd h hsh
    · cases h
  | ok r =>
    obtain ⟨size, varint⟩ := r
    dsimp only
    constructor
    · intro h
      refine .inr ⟨size, varint, rfl, ?_⟩
      by_contra hnt
      rw [not_or] at hnt
      rw [if_neg hnt.1, if_neg hnt.2] at h
      exact h
    · rintro (h | ⟨size', varint', h, hby⟩)
      · exact absurd h hsh
      cases h
      by_cases hb : ((blob.drop position).drop (minItemSize - varint.length)).length < size + 4
      · rw [if_pos hb]
        trivial
      · rw [if_neg hb, if_pos (hby.resolve_left hb)]
        trivial

/-- The errors of the codec and of the offsets are not those at which a section is cut. -/
theorem torn_readBuffered (blob : Bytes) (hfits : Fits n) :
    Torn (readBuffered f blob (offsetAt n)) ↔ TornItem (blob.drop (alignUp n)) := by
  rw [← torn_parseEntry, readBuffered, hfits.offsetAt_mul]
  cases hpr : parseEntry blob (alignUp n) with
  | error e =>
    cases e with
    | insufficientLength => exact Iff.rfl
    | journal e => cases e <;> exact Iff.rfl
  | ok r =>
    obtain ⟨position, data⟩ := r
    refine ⟨fun h => ?_, fun h => absurd h id⟩
    simp only [bind, Except.bind, unpackItem, offsetBehind, computeNextOffset_eq] at h
    cases hdt : f.unpack data with
    | none =>
      rw [hdt] at h
      exact h
    | some v =>
      rw [hdt] at h
      dsimp only at h
      split_ifs at h
      · exact h
      · exact h

/-- An item can be read at the place. -/
def StartsItem (f : Format V) (blob : Bytes) (position : ℕ) : Prop :=
  ∃ next data v, parseEntry blob position = .ok (next, data) ∧ f.unpack data = some v

/-- What a replay from the `k`-th item on should do for a section with some items: the items from there
on are replayed, all items can be read afterwards, and items that are appended are replayed later. -/
def Repaired (f : Format V) (j : Journal) (s : ℕ) (items : List (Bytes × V)) (k : ℕ)
    (more : List (Bytes × V)) : Prop :=
  ∃ blob rest j', j.replay f s (offsetAt (stopOf 0 (items.take k))) =
      .ok ((s, ⟨(placed 0 items).drop k, .ended blob⟩) :: rest, j') ∧
    (∀ i item, items[i]? = some item →
      j'.get f s (offsetAt (stopOf 0 (items.take i))) = .ok item.2) ∧
    ∃ j₁ blob₁ rest₁ j₂, j'.appendAll f s (more.map Prod.snd) = .ok j₁ ∧
      j₁.replay f s 0 = .ok ((s, ⟨placed 0 (items ++ more), .ended blob₁⟩) :: rest₁, j₂)

theorem readBuffered_ne_ok (hfits : Fits n) (hbad : ¬ StartsItem f blob (alignUp n))
    (r : UInt32 × ℕ × ℕ × V) : readBuffered f blob (offsetAt n) ≠ .ok r := by
  intro h
  obtain ⟨⟨next, data⟩, hpr, h⟩ := bind_eq_ok.1 h
  obtain ⟨v, hu, -⟩ := bind_eq_ok.1 h
  rw [hfits.offsetAt_mul] at hpr
  refine hbad ⟨next, data, v, hpr, ?_⟩
  rw [unpackItem] at hu
  cases hdt : f.unpack data with
  | none =>
    rw [hdt] at hu
    cases hu
  | some v' =>
    rw [hdt] at hu
    exact congrArg some (Except.ok.inj hu)

theorem resize_append (x tail : Bytes) : Fixed.resize (x ++ tail) x.length = x := by
  have hle := (prefix_append x tail).length_le
  rw [Fixed.resize, take_left, Nat.sub_eq_zero_of_le hle, replicate_zero, append_nil]

section Repair

variable {items : List (Bytes × V)} {x tail : Bytes} (hx : Laid f 0 items x)
  (hbad : ¬ StartsItem f (x ++ tail) (alignUp x.length)) (hfits : Fits (x ++ tail).length)
include hx hbad hfits

/-- The replay from an item on, if it keeps what it should. -/
theorem replaySection_keeps (hk : k ≤ items.length)
    (ht : alignUp x.length < (x ++ tail).length →
      Torn (readBuffered f (x ++ tail) (offsetAt x.length)))
    (hls : k = items.length → 0 < k → (x ++ tail).length = alignUp x.length) :
    ∃ blob, replaySection f (x ++ tail) (offsetAt (x ++ tail).length)
        (offsetAt (stopOf 0 (items.take k))) = ⟨(placed 0 items).drop k, .ended blob⟩ ∧
      Holds f items blob := by
  have hle := (prefix_append x tail).length_le
  have hst := hfits.mono hle
  obtain ⟨fuel, hrp⟩ := replaySection_boundary hx hfits hk fun hkl hp => (hls hkl hp).ge
  by_cases hmr : alignUp x.length < (x ++ tail).length
  · have hc := (replayLoop_end fuel (if k = items.length then 0 else x.length)
      (UInt32.not_le.2 ((hst.offsetAt_lt_iff hfits).2 hmr))
      (readBuffered_ne_ok hst hbad)).1 (ht hmr)
    -- if nothing was read then there is nothing before
    have hvl : (if k = items.length then 0 else x.length) = x.length := by
      by_cases hkl : k = items.length
      · rw [if_pos hkl, hx.length_of_zero]
        rcases Nat.eq_zero_or_pos k with hz | hp
        · rw [eq_nil_of_length_eq_zero (hkl.symm.trans hz)]
          rfl
        · have := hls hkl hp
          omega
      · exact if_neg hkl
    refine ⟨x, ?_, x, [], (append_nil x).symm, hx, le_alignUp _⟩
    rw [hrp, hc, hvl, resize_append]
    dsimp only
    rw [append_nil]
  · have hdn : offsetAt (x ++ tail).length ≤ offsetAt x.length := by
      rw [← UInt32.not_lt, hst.offsetAt_lt_iff hfits]
      exact hmr
    refine ⟨x ++ tail, ?_, x, tail, rfl, hx, Nat.not_lt.1 hmr⟩
    rw [hrp, replayLoop_succ, if_pos hdn]
    dsimp only
    rw [append_nil]

/-- If the replay from an item on comes to an end, then the section is cut at an error that says that
it is torn. -/
theorem torn_of_ended (hk : k ≤ items.length) {r : Replay V} {blob : Bytes}
    (hst : r.stop = .ended blob) (hrp : replaySection f (x ++ tail)
      (offsetAt (x ++ tail).length) (offsetAt (stopOf 0 (items.take k))) = r)
    (hmr : alignUp x.length < (x ++ tail).length) :
    Torn (readBuffered f (x ++ tail) (offsetAt x.length)) ∧
      blob = Fixed.resize (x ++ tail) (if k = items.length then 0 else x.length) := by
  have hle := (prefix_append x tail).length_le
  have hsr := hfits.mono hle
  obtain ⟨fuel, hbn⟩ := replaySection_boundary hx hfits hk fun _ _ => hmr.le
  have hed := replayLoop_end fuel (if k = items.length then 0 else x.length)
    (UInt32.not_le.2 ((hsr.offsetAt_lt_iff hfits).2 hmr)) (readBuffered_ne_ok hsr hbad)
  rw [← hrp, hbn] at hst
  by_cases ht : Torn (readBuffered f (x ++ tail) (offsetAt x.length))
  · rw [hed.1 ht] at hst
    exact ⟨ht, (Stop.ended.inj hst).symm⟩
  · obtain ⟨e, he⟩ := hed.2 ht
    rw [he] at hst
    cases hst

end Repair

theorem resize_zero (blob : Bytes) : Fixed.resize blob 0 = [] := by
  rw [Fixed.resize, take_zero, Nat.zero_sub, replicate_zero, append_nil]

/-- **When a replay repairs a section.** -/
theorem repaired_iff {j : Journal} {s : ℕ} {items : List (Bytes × V)} {x tail : Bytes}
    (hx : Laid f 0 items x) (hbad : ¬ StartsItem f (x ++ tail) (alignUp x.length))
    (hget : j.blobs.get? s = some (x ++ tail)) (hold : j.oldestRetainedSection ≤ s) {k : ℕ}
    (hk : k ≤ items.length) {more : List (Bytes × V)}
    (hmore : ∀ item ∈ more, f.pack item.2 = some item.1 ∧ item.1.length < 2 ^ 32)
    (hstarts : ∀ i < more.length, Fits (stopOf 0 (items ++ more.take i))) :
    Repaired f j s items k more ↔ AllFit j s ∧ Fits (stopOf 0 (items ++ more)) ∧
        (alignUp x.length < (x ++ tail).length → TornItem ((x ++ tail).drop (alignUp x.length))) ∧
        (k = items.length → 0 < k → (x ++ tail).length = alignUp x.length) := by
  have hle := (prefix_append x tail).length_le
  constructor
  · rintro ⟨blob, rest, j', hrp, hrd, j₁, blob₁, rest₁, j₂, hap, hlr⟩
    have hft := Journal.fit_of_replay hrp
    have hfits := hft s _ hget (Nat.le_refl s)
    obtain ⟨rest', j'', hrp', hold', -, hbl⟩ := Journal.replay_of_fit hft hget
      (f := f) (offsetAt (stopOf 0 (items.take k)))
    rw [hrp'] at hrp
    injection hrp with hpair
    obtain ⟨hcn, rfl⟩ := Prod.mk.inj hpair
    have hsc := (Prod.mk.inj (cons.inj hcn).1).2
    have hst : (replaySection f (x ++ tail) (offsetAt (x ++ tail).length)
        (offsetAt (stopOf 0 (items.take k)))).stop = .ended blob := by
      rw [hsc]
    have ht := fun hln => (torn_of_ended hx hbad hfits hk hst rfl hln).1
    have hls : k = items.length → 0 < k → (x ++ tail).length = alignUp x.length := by
      intro hkl hps
      have hne : items ≠ [] := by
        rintro rfl
        exact hps.ne' hkl
      rcases Nat.lt_trichotomy (x ++ tail).length (alignUp x.length) with hsh | heq | hln
      · -- the replay cannot start
        have hun := replaySection_unseekable hx hne hfits hsh
        rw [← take_length (l := items), ← hkl, hsc] at hun
        cases congrArg Replay.stop hun
      · exact heq
      · -- everything is cut off, and the first item cannot be read
        obtain ⟨-, hc⟩ := torn_of_ended hx hbad hfits hk hst rfl hln
        rw [if_pos hkl, resize_zero] at hc
        obtain ⟨item, hit⟩ : ∃ item, items[0]? = some item :=
          ⟨_, getElem?_eq_getElem (hkl ▸ hps)⟩
        have hf := hrd 0 item hit
        rw [Journal.get, hbl blob hst, hc] at hf
        obtain ⟨-, -, hf⟩ := bind_eq_ok.1 hf
        obtain ⟨r, hr, -⟩ := bind_eq_ok.1 hf
        obtain ⟨p, hp, -⟩ := bind_eq_ok.1 hr
        rw [parseEntry, drop_nil] at hp
        cases hp
    refine ⟨hft, ?_, fun hln => (torn_readBuffered _ (hfits.mono hle)).1 (ht hln), hls⟩
    -- the end of the last item is the end of the section at the later replay
    obtain ⟨blob', hsc', hh⟩ := replaySection_keeps hx hbad hfits hk ht hls
    have hbl' := hbl blob' (by rw [hsc'])
    obtain ⟨j₃, blob₃, hap', -, hget₃, -, hh₃, hlg₃⟩ :=
      hh.appendAll (hold'.trans_le hold) hbl' hmore hstarts
    rw [hap'] at hap
    cases hap
    have hft₃ := Journal.fit_of_replay hlr s blob₃ hget₃ (Nat.le_refl s)
    obtain ⟨x₃, tail₃, rfl, hx₃, -⟩ := hh₃
    rw [← hx₃.length_of_zero]
    exact hft₃.mono (prefix_append x₃ tail₃).length_le
  · rintro ⟨hft, he, ht, hls⟩
    have hfits := hft s _ hget (Nat.le_refl s)
    obtain ⟨blob, hsc, hh⟩ := replaySection_keeps hx hbad hfits hk
      (fun hln => (torn_readBuffered _ (hfits.mono hle)).2 (ht hln)) hls
    obtain ⟨rest, j', hrp, hold', hft', hbl⟩ := Journal.replay_of_fit hft hget
      (f := f) (offsetAt (stopOf 0 (items.take k)))
    rw [hsc] at hrp hbl
    have hget' := hbl blob rfl
    have hold' := hold'.trans_le hold
    have hfits' := hft' s _ hget' (Nat.le_refl s)
    obtain ⟨j₁, blob₁, hap, hold₁, hget₁, hot, hh₁, hlg₁⟩ :=
      hh.appendAll hold' hget' hmore hstarts
    have hfits₁ : Fits blob₁.length := by
      by_cases hnl : more = []
      · subst hnl
        cases hap
        cases hget'.symm.trans hget₁
        exact hfits'
      · rw [hlg₁ hnl]
        exact he
    have hft₁ : AllFit j₁ s := by
      intro index b hb hin
      by_cases heq : index = s
      · subst heq
        cases hget₁.symm.trans hb
        exact hfits₁
      · rw [hot index heq] at hb
        exact hft' index b hb hin
    obtain ⟨rest₁, j₂, hrp₁, -⟩ := Journal.replay_of_fit hft₁ hget₁ (f := f) 0
    rw [hh₁.replaySection hfits₁] at hrp₁
    refine ⟨blob, rest, j', hrp, ?_, j₁, blob₁, rest₁, j₂, hap, hrp₁⟩
    intro i item hi
    obtain ⟨x', tail', rfl, hx', -⟩ := hh
    obtain ⟨next, hrd⟩ := read_laid hx' hfits' hi
    exact Journal.get_eq hold' hget' hrd

namespace Sample

/-- Items that are stored as they are. -/
def plain : Format Bytes := ⟨some, some, fun _ _ h => h.symm⟩

def empty : Bytes := 0 :: putU32 (crc32 [0])

/-- An empty item, the padding behind it and the first byte of another item. -/
def torn : Bytes := empty ++ replicate 12 0

def journal : Journal := ⟨OrdMap.empty.insert 0 torn, 0⟩

theorem entry_nil : entry [] = empty := by
  rw [entry, length_nil, write, if_pos (by decide)]
  rfl

theorem laid : Laid plain 0 [([], [])] empty := by
  have h : Laid plain 0 [([], [])] ([] ++ entry [] ++ []) :=
    .cons rfl rfl (by decide) (.nil _)
  rwa [append_nil, nil_append, entry_nil] at h

theorem not_startsItem : ¬ StartsItem plain torn (alignUp empty.length) := by
  rintro ⟨next, data, v, hpr, -⟩
  cases hpr

end Sample

open Sample

/-- A replay from the start cuts off the first byte of the second item. -/
theorem repaired_from_start : Repaired plain journal 0 [([], [])] 0 [([], [])] := by
  refine (repaired_iff laid (show ¬ StartsItem _ (empty ++ replicate 12 0) _ from
    not_startsItem) rfl (Nat.le_refl 0) (Nat.zero_le _) ?_ ?_).2 ⟨?_, ?_, ?_, ?_⟩
  · intro item hit
    rw [mem_singleton.1 hit]
    exact ⟨rfl, by decide⟩
  · intro i hi
    rw [Nat.lt_one_iff.1 hi]
    decide
  · intro index blob hg _
    obtain rfl : index = 0 := by
      by_contra hne
      rw [journal, OrdMap.get?_insert_of_ne _ _ hne] at hg
      cases hg
    cases hg
    decide
  · decide
  · exact fun _ => .inl (by decide)
  · intro h
    cases h

/-- **A replay that removes all items.**  It starts at the damaged item, so it reads none, and the
section is cut to nothing. -/
theorem items_lost :
    ∃ j', journal.replay plain 0 1 = .ok ([(0, ⟨[], .ended []⟩)], j') ∧
      journal.get plain 0 0 = .ok [] ∧
      j'.get plain 0 0 = .error .insufficientLength :=
  ⟨⟨journal.blobs.insert 0 [], 0⟩, rfl, rfl, rfl⟩

end Commonware.Segment
