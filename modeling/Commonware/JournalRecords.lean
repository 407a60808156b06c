/-
**The records of a journal.**

A journal of items of fixed size is determined by the sequence of all its records and by the index
of its oldest blob: the records of the blobs before that one do not matter.  The operations of the
journal are operations on this sequence.

Main definitions:

* `Journal.ofRecords` — the journal that holds a sequence of records;
* `Partition.ofRecords` — what is stored of it.

Main results:

* `append_ofRecords`, `rewind_ofRecords`, `prune_ofRecords`, `readRecord_ofRecords` — **the
  operations on the sequence**;
* `init_ofRecords` — **a journal that was stored is opened again without its last invalid
  records**;
* `initJournalAtSize_eq` — a journal at a size is one of zeros.
-/

import Commonware.FixedJournal

set_option autoImplicit false

namespace Commonware.Fixed

open List Journal

variable {A : Type} (cfg : Config A)

/-! ### Pieces of one length -/

variable {l : List (List UInt8)} {c : ℕ}

theorem length_flatten (hl : ∀ r ∈ l, r.length = c) : l.flatten.length = l.length * c := by
  rw [List.length_flatten, map_congr_left hl, map_const', sum_replicate_nat]

theorem split_flatten (hl : ∀ r ∈ l, r.length = c) (i : ℕ) :
    l.flatten.take (i * c) = (l.take i).flatten ∧ l.flatten.drop (i * c) = (l.drop i).flatten := by
  rcases Nat.le_total i l.length with hi | hi
  · have hlen : (l.take i).flatten.length = i * c := by
      rw [length_flatten fun r hr => hl r (mem_of_mem_take hr), length_take_of_le hi]
    have hsp : l.flatten = (l.take i).flatten ++ (l.drop i).flatten := by
      rw [← flatten_append, take_append_drop]
    rw [hsp]
    exact ⟨take_left' hlen, drop_left' hlen⟩
  · have hlen : l.flatten.length ≤ i * c :=
      (length_flatten hl).trans_le (Nat.mul_le_mul_right c hi)
    rw [take_of_length_le hi, drop_of_length_le hi]
    exact ⟨take_of_length_le hlen, drop_of_length_le hlen⟩

variable {r : List UInt8}

theorem readAt_flatten {i : ℕ} (hl : ∀ r ∈ l, r.length = c) (hi : l[i]? = some r) :
    readAt l.flatten (i * c) c = r := by
  have hr : r.length = c := hl r (mem_of_getElem? hi)
  obtain ⟨hlt, rfl⟩ := List.getElem?_eq_some_iff.1 hi
  rw [readAt, (split_flatten hl i).2, drop_eq_getElem_cons hlt, flatten_cons]
  rw [take_append_of_le_length hr.ge, take_of_length_le hr.le]

theorem records_flatten {cfg : Config A} (hl : ∀ r ∈ l, r.length = cfg.chunkSize) :
    records cfg l.flatten = l := by
  have hlen : l.flatten.length / cfg.chunkSize = l.length := by
    rw [length_flatten hl, Nat.mul_div_cancel _ Config.chunkSize_pos]
  refine ext_getElem? fun i => ?_
  rcases Nat.lt_or_ge i l.length with hi | hi
  · rw [getElem?_records (by rwa [hlen]), readAt_flatten hl (getElem?_eq_getElem hi),
      getElem?_eq_getElem hi]
  · rw [getElem?_eq_none (by rwa [length_records, hlen]), getElem?_eq_none hi]

/-! ### The journal of a sequence of records -/

def slice (rs : List (List UInt8)) (index : ℕ) : List (List UInt8) :=
  (rs.drop (index * cfg.itemsPerBlob)).take cfg.itemsPerBlob

/-- The journal with the records `rs`, of which those before the blob `oldest` are gone. -/
def Journal.ofRecords (oldest : ℕ) (rs : List (List UInt8)) : Journal where
  blobs := (range' oldest (rs.length / cfg.itemsPerBlob - oldest)).map fun index =>
    (slice cfg rs index).flatten
  tail := (slice cfg rs (rs.length / cfg.itemsPerBlob)).flatten
  tailIndex := rs.length / cfg.itemsPerBlob
  size := rs.length
  pruningBoundary := oldest * cfg.itemsPerBlob

def Partition.ofRecords (oldest : ℕ) (rs : List (List UInt8)) : Partition :=
  Partition.consecutive oldest
    ((range' oldest (rs.length / cfg.itemsPerBlob - oldest)).map (fun index =>
      (slice cfg rs index).flatten) ++ [(slice cfg rs (rs.length / cfg.itemsPerBlob)).flatten])

variable {cfg} {oldest : ℕ} {rs : List (List UInt8)}

@[simp] theorem size_ofRecords : (ofRecords cfg oldest rs).size = rs.length := rfl

@[simp] theorem tailIndex_ofRecords :
    (ofRecords cfg oldest rs).tailIndex = rs.length / cfg.itemsPerBlob := rfl

variable {index : ℕ}

theorem length_slice_of_lt (h : index < rs.length / cfg.itemsPerBlob) :
    (slice cfg rs index).length = cfg.itemsPerBlob := by
  have he : (index + 1) * cfg.itemsPerBlob ≤ rs.length :=
    (Nat.le_div_iff_mul_le cfg.itemsPerBlob.pos).1 h
  rw [Nat.succ_mul] at he
  rw [slice, length_take, length_drop]
  omega

theorem blob_split (cfg : Config A) (n : ℕ) : n / cfg.itemsPerBlob * cfg.itemsPerBlob +
    n % cfg.itemsPerBlob = n ∧ n % cfg.itemsPerBlob < cfg.itemsPerBlob :=
  ⟨Nat.div_add_mod' n _, Nat.mod_lt n cfg.itemsPerBlob.pos⟩

theorem length_tail_slice :
    (slice cfg rs (rs.length / cfg.itemsPerBlob)).length = rs.length % cfg.itemsPerBlob := by
  obtain ⟨hsp, hm⟩ := blob_split cfg rs.length
  rw [slice, length_take, length_drop]
  omega

theorem tail_slice : slice cfg rs (rs.length / cfg.itemsPerBlob) =
      rs.drop (rs.length / cfg.itemsPerBlob * cfg.itemsPerBlob) := by
  obtain ⟨hsp, hm⟩ := blob_split cfg rs.length
  rw [slice, take_of_length_le]
  rw [length_drop]
  omega

theorem length_of_mem_slice (hrs : ∀ r ∈ rs, r.length = c) :
    ∀ r ∈ slice cfg rs index, r.length = c :=
  fun r hr => hrs r (mem_of_mem_drop (mem_of_mem_take hr))

theorem length_blob (hrs : ∀ r ∈ rs, r.length = cfg.chunkSize)
    (h : index < rs.length / cfg.itemsPerBlob) :
    (slice cfg rs index).flatten.length = cfg.fullSize := by
  rw [length_flatten (length_of_mem_slice hrs), length_slice_of_lt h, Config.fullSize]

theorem length_tail (hrs : ∀ r ∈ rs, r.length = cfg.chunkSize) :
    (ofRecords cfg oldest rs).tail.length =
      rs.length % cfg.itemsPerBlob * cfg.chunkSize := by
  rw [ofRecords, length_flatten (length_of_mem_slice hrs), length_tail_slice]

theorem oldestBlobIndex_ofRecords (h : oldest ≤ rs.length / cfg.itemsPerBlob) :
    (ofRecords cfg oldest rs).oldestBlobIndex = oldest := by
  simp only [oldestBlobIndex, ofRecords, length_map, length_range']
  omega

theorem getElem?_slice {i : ℕ} (hi : i < cfg.itemsPerBlob) :
    (slice cfg rs index)[i]? = rs[index * cfg.itemsPerBlob + i]? := by
  rw [slice, getElem?_take, if_pos hi, getElem?_drop]

variable {n : ℕ}

theorem slice_take (h : (index + 1) * cfg.itemsPerBlob ≤ n) :
    slice cfg (rs.take n) index = slice cfg rs index := by
  rw [Nat.succ_mul] at h
  rw [slice, slice, drop_take, take_take, Nat.min_eq_left (by omega)]

/-- The blobs before a point are those of every sequence with the same records before it. -/
theorem blobs_congr {rs' : List (List UInt8)} {t : ℕ}
    (h : rs.take (t * cfg.itemsPerBlob) = rs'.take (t * cfg.itemsPerBlob)) :
    (range' oldest (t - oldest)).map (fun index => (slice cfg rs index).flatten) =
      (range' oldest (t - oldest)).map fun index => (slice cfg rs' index).flatten := by
  refine map_congr_left fun index hin => ?_
  rw [mem_range'_1] at hin
  have he : (index + 1) * cfg.itemsPerBlob ≤ t * cfg.itemsPerBlob :=
    Nat.mul_le_mul_right _ (by omega)
  rw [← slice_take he, h, slice_take he]

/-! ### Operations -/

theorem length_record (item : A) : (record cfg item).length = cfg.chunkSize := by
  rw [record, length_append, cfg.codec.length_encode, length_putU32, Config.chunkSize, Nat.add_comm]

theorem verifyIntegrity_record (item : A) : verifyIntegrity cfg (record cfg item) = .ok item := by
  have ht : (record cfg item).take cfg.codec.size = cfg.codec.encode item := by
    rw [record, ← cfg.codec.length_encode item, take_left]
  have hdr : (record cfg item).drop cfg.codec.size = putU32 (crc32 (cfg.codec.encode item)) := by
    rw [record, ← cfg.codec.length_encode item, drop_left]
  simp only [verifyIntegrity, ht, hdr, getU32_putU32, ne_eq, not_true, if_false,
    cfg.codec.decode_encode]

theorem blobs_append (r : List UInt8) :
    (range' oldest (rs.length / cfg.itemsPerBlob - oldest)).map
        (fun index => (slice cfg (rs ++ [r]) index).flatten) =
      (ofRecords cfg oldest rs).blobs :=
  blobs_congr (take_append_of_le_length (Nat.div_mul_le_self _ _))

theorem tail_slice_append (r : List UInt8) : slice cfg (rs ++ [r]) (rs.length / cfg.itemsPerBlob) =
      slice cfg rs (rs.length / cfg.itemsPerBlob) ++ [r] := by
  obtain ⟨hsp, hm⟩ := blob_split cfg rs.length
  have hlen : (slice cfg rs (rs.length / cfg.itemsPerBlob)).length =
      rs.length % cfg.itemsPerBlob := length_tail_slice
  rw [tail_slice] at hlen ⊢
  rw [slice, drop_append_of_le_length (by omega), take_of_length_le]
  rw [length_append, hlen, length_singleton]
  omega

theorem ofRecords_append_of_lt (r : List UInt8)
    (h : rs.length % cfg.itemsPerBlob + 1 < cfg.itemsPerBlob) :
    ofRecords cfg oldest (rs ++ [r]) =
      { ofRecords cfg oldest rs with
        tail := (ofRecords cfg oldest rs).tail ++ r, size := rs.length + 1 } := by
  have hdv : (rs ++ [r]).length / cfg.itemsPerBlob = rs.length / cfg.itemsPerBlob := by
    obtain ⟨hsp, -⟩ := blob_split cfg rs.length
    rw [length_append, length_singleton, Nat.div_eq_iff cfg.itemsPerBlob.pos]
    omega
  rw [ofRecords, hdv, blobs_append, tail_slice_append, flatten_append]
  simp [ofRecords]

theorem ofRecords_append_of_eq (ho : oldest ≤ rs.length / cfg.itemsPerBlob) (r : List UInt8)
    (h : rs.length % cfg.itemsPerBlob + 1 = cfg.itemsPerBlob) :
    ofRecords cfg oldest (rs ++ [r]) =
      { ofRecords cfg oldest rs with
        blobs := (ofRecords cfg oldest rs).blobs ++
          [(ofRecords cfg oldest rs).tail ++ r]
        tail := []
        tailIndex := rs.length / cfg.itemsPerBlob + 1
        size := rs.length + 1 } := by
  obtain ⟨hsp, -⟩ := blob_split cfg rs.length
  have hlen : (rs ++ [r]).length = (rs.length / cfg.itemsPerBlob + 1) * cfg.itemsPerBlob := by
    rw [length_append, length_singleton, Nat.succ_mul]
    omega
  have hdv : (rs ++ [r]).length / cfg.itemsPerBlob = rs.length / cfg.itemsPerBlob + 1 := by
    rw [hlen, Nat.mul_div_cancel _ cfg.itemsPerBlob.pos]
  have ht : slice cfg (rs ++ [r]) (rs.length / cfg.itemsPerBlob + 1) = [] := by
    rw [slice, drop_of_length_le hlen.le, take_nil]
  have hrn : rs.length / cfg.itemsPerBlob + 1 - oldest =
      rs.length / cfg.itemsPerBlob - oldest + 1 := by omega
  have hls : oldest + (rs.length / cfg.itemsPerBlob - oldest) =
      rs.length / cfg.itemsPerBlob := by omega
  rw [ofRecords, hdv, hrn, range'_1_concat, map_append, blobs_append,
    map_singleton, hls, ht, tail_slice_append, flatten_append]
  simp [ofRecords]

theorem append_ofRecords (hrs : ∀ r ∈ rs, r.length = cfg.chunkSize)
    (ho : oldest ≤ rs.length / cfg.itemsPerBlob) (item : A) :
    (ofRecords cfg oldest rs).append cfg item =
      .ok (rs.length, ofRecords cfg oldest (rs ++ [record cfg item])) := by
  obtain ⟨hsp, hm⟩ := blob_split cfg rs.length
  have ht : (ofRecords cfg oldest rs).tail.length =
      rs.length % cfg.itemsPerBlob * cfg.chunkSize := length_tail hrs
  have hsize : (ofRecords cfg oldest rs).tail.length / cfg.chunkSize =
      rs.length % cfg.itemsPerBlob := by rw [ht, Nat.mul_div_cancel _ Config.chunkSize_pos]
  have hr : ¬ cfg.fullSize ≤ (ofRecords cfg oldest rs).tail.length := by
    rw [ht, Nat.not_le]
    exact Nat.mul_lt_mul_of_pos_right hm Config.chunkSize_pos
  have hal : ¬ (ofRecords cfg oldest rs).tail.length % cfg.chunkSize ≠ 0 := by
    rw [ht, Nat.mul_mod_left]
    exact not_not.2 rfl
  have hp : rs.length % cfg.itemsPerBlob + cfg.itemsPerBlob * (rs.length / cfg.itemsPerBlob) =
      rs.length := by rw [Nat.mul_comm, Nat.add_comm, hsp]
  have hf : (ofRecords cfg oldest rs).tail.length + cfg.chunkSize = cfg.fullSize ↔
      rs.length % cfg.itemsPerBlob + 1 = cfg.itemsPerBlob := by
    rw [ht, ← Nat.succ_mul, Config.fullSize]
    exact Nat.mul_left_inj Config.chunkSize_pos.ne'
  rw [append]
  simp only [if_neg hr, if_neg hal, hsize]
  by_cases hls : rs.length % cfg.itemsPerBlob + 1 = cfg.itemsPerBlob
  · rw [if_pos (hf.2 hls), ofRecords_append_of_eq ho _ hls]
    exact congrArg (fun pos => Except.ok (pos, _)) hp
  · rw [if_neg (mt hf.1 hls), ofRecords_append_of_lt _ (by omega)]
    exact congrArg (fun pos => Except.ok (pos, _)) hp

/-- Blobs become the tail, the last one first. -/
theorem popBlobs_range' {f : ℕ → List UInt8} {t k size pruningBoundary : ℕ} (h : oldest + k ≤ t) :
    popBlobs k ⟨(range' oldest (t - oldest)).map f, f t, t, size, pruningBoundary⟩ =
      .ok ⟨(range' oldest (t - k - oldest)).map f, f (t - k), t - k, size,
        pruningBoundary⟩ := by
  induction k generalizing t with
  | zero => rfl
  | succ k ih =>
    have hrn : t - oldest = t - 1 - oldest + 1 := by omega
    have hls : oldest + (t - 1 - oldest) = t - 1 := by omega
    rw [popBlobs, hrn, range'_1_concat, map_append, hls]
    simp only [map_singleton, getLast?_concat, dropLast_concat]
    rw [ih (by omega)]
    have hs : t - 1 - k = t - (k + 1) := by omega
    rw [hs]

theorem rewind_ofRecords (hrs : ∀ r ∈ rs, r.length = cfg.chunkSize) (hn : n ≤ rs.length)
    (ho : oldest ≤ n / cfg.itemsPerBlob) : (ofRecords cfg oldest rs).rewind cfg n =
      .ok (ofRecords cfg oldest (rs.take n)) := by
  have hB : 0 < (cfg.itemsPerBlob : ℕ) := cfg.itemsPerBlob.pos
  have hdv : n / cfg.itemsPerBlob ≤ rs.length / cfg.itemsPerBlob := Nat.div_le_div_right hn
  rw [rewind, size_ofRecords, if_neg (Nat.not_lt.2 hn)]
  by_cases heq : n = rs.length
  · rw [if_pos heq, heq, take_length]
  · have hlen : (rs.take n).length = n := length_take_of_le hn
    have hs : rs.length / cfg.itemsPerBlob -
        (rs.length / cfg.itemsPerBlob - n / cfg.itemsPerBlob) = n / cfg.itemsPerBlob := by omega
    have hp : popBlobs (rs.length / cfg.itemsPerBlob - n / cfg.itemsPerBlob)
        (ofRecords cfg oldest rs) = _ := popBlobs_range' (by omega)
    rw [hs] at hp
    have hbn : ¬ n < oldest * cfg.itemsPerBlob := by
      rw [Nat.not_lt, ← Nat.le_div_iff_mul_le hB]
      exact ho
    have ht : resize (slice cfg rs (n / cfg.itemsPerBlob)).flatten
        (n % cfg.itemsPerBlob * cfg.chunkSize) =
        (slice cfg (rs.take n) (n / cfg.itemsPerBlob)).flatten := by
      obtain ⟨hsp, hm⟩ := blob_split cfg n
      have hsl : slice cfg (rs.take n) (n / cfg.itemsPerBlob) =
          (slice cfg rs (n / cfg.itemsPerBlob)).take (n % cfg.itemsPerBlob) := by
        rw [slice, slice, drop_take, take_take, take_take]
        congr 1
        omega
      have hle : n % cfg.itemsPerBlob ≤ (slice cfg rs (n / cfg.itemsPerBlob)).length := by
        rw [slice, length_take, length_drop]
        omega
      rw [hsl, resize, length_flatten (length_of_mem_slice hrs),
        Nat.sub_eq_zero_of_le (Nat.mul_le_mul_right _ hle), replicate_zero, append_nil,
        (split_flatten (length_of_mem_slice hrs) _).1]
    have hbl := @blobs_congr _ cfg oldest (rs.take n) rs (n / cfg.itemsPerBlob)
      (by rw [take_take, Nat.min_eq_left (Nat.div_mul_le_self _ _)])
    rw [if_neg heq]
    simp only [oldestBlobIndex_ofRecords (ho.trans hdv), if_neg (Nat.not_lt.2 ho),
      tailIndex_ofRecords, hp]
    simp only [bind, Except.bind, if_neg hbn, ht]
    simp only [ofRecords, hlen, hbl]
    rfl

theorem prune_ofRecords (ho : oldest ≤ rs.length / cfg.itemsPerBlob) (pos : ℕ) :
    (ofRecords cfg oldest rs).prune cfg pos =
      (decide (oldest < min (pos / cfg.itemsPerBlob) (rs.length / cfg.itemsPerBlob)),
        ofRecords cfg
          (max oldest (min (pos / cfg.itemsPerBlob) (rs.length / cfg.itemsPerBlob))) rs) := by
  rw [prune, oldestBlobIndex_ofRecords ho, tailIndex_ofRecords]
  generalize hnw : min (pos / cfg.itemsPerBlob) (rs.length / cfg.itemsPerBlob) = new
  by_cases h : oldest < new
  · have hle : new ≤ rs.length / cfg.itemsPerBlob := by omega
    have hf : oldest + (new - oldest) = new := by omega
    have hcn : rs.length / cfg.itemsPerBlob - oldest - (new - oldest) =
        rs.length / cfg.itemsPerBlob - new := by omega
    simp only [if_pos h, Nat.max_eq_right h.le, decide_eq_true h]
    simp only [ofRecords, ← map_drop, drop_range', Nat.mul_one, hf, hcn]
  · simp only [if_neg h, Nat.max_eq_left (Nat.not_lt.1 h), decide_eq_false h]

theorem getElem?_blobs (hlo : oldest ≤ index) (hle : index ≤ rs.length / cfg.itemsPerBlob) :
    ((ofRecords cfg oldest rs).blobs ++ [(ofRecords cfg oldest rs).tail])[
      index - oldest]? = some (slice cfg rs index).flatten := by
  have hlen : (ofRecords cfg oldest rs).blobs.length =
      rs.length / cfg.itemsPerBlob - oldest := by
    simp [ofRecords]
  rcases Nat.lt_or_eq_of_le hle with hlt | rfl
  · have hsh : oldest + (index - oldest) = index := by omega
    rw [getElem?_append_left (by omega)]
    simp only [ofRecords, getElem?_map]
    rw [getElem?_range' (by omega), Nat.one_mul, hsh]
    rfl
  · rw [← hlen, getElem?_concat_length]
    rfl

theorem readRecord_ofRecords (hrs : ∀ r ∈ rs, r.length = cfg.chunkSize)
    (ho : oldest ≤ rs.length / cfg.itemsPerBlob) {pos : ℕ} (hp : oldest * cfg.itemsPerBlob ≤ pos)
    (hr : rs[pos]? = some r) : (ofRecords cfg oldest rs).readRecord cfg pos = .ok r := by
  have hB : 0 < (cfg.itemsPerBlob : ℕ) := cfg.itemsPerBlob.pos
  have hlt := (List.getElem?_eq_some_iff.1 hr).1
  have hm := Nat.mod_lt pos hB
  have hlo : oldest ≤ pos / cfg.itemsPerBlob := (Nat.le_div_iff_mul_le hB).2 hp
  have hsl : (slice cfg rs (pos / cfg.itemsPerBlob))[pos % cfg.itemsPerBlob]? = some r := by
    rw [getElem?_slice hm, Nat.div_add_mod', hr]
  have hin : (ofRecords cfg oldest rs).oldestBlobIndex = oldest :=
    oldestBlobIndex_ofRecords ho
  have hbl : ((ofRecords cfg oldest rs).blobs ++ [(ofRecords cfg oldest rs).tail])[
      pos / cfg.itemsPerBlob - (ofRecords cfg oldest rs).oldestBlobIndex]? =
        some (slice cfg rs (pos / cfg.itemsPerBlob)).flatten := by
    rw [hin]
    exact getElem?_blobs hlo (Nat.div_le_div_right hlt.le)
  have hof : pos % cfg.itemsPerBlob * cfg.chunkSize <
      (slice cfg rs (pos / cfg.itemsPerBlob)).flatten.length := by
    rw [length_flatten (length_of_mem_slice hrs)]
    exact Nat.mul_lt_mul_of_pos_right (List.getElem?_eq_some_iff.1 hsl).1 Config.chunkSize_pos
  rw [readRecord_eq (by simp [ofRecords]) (hin.le.trans hlo) hbl hof,
    readAt_flatten (length_of_mem_slice hrs) hsl]

/-! ### Opening a journal again -/

theorem trimLoop_isOk {tail : List UInt8} (h : ∀ r ∈ records cfg tail, mismatch cfg r = false →
      ∃ item, verifyIntegrity cfg r = .ok item) (hn : n ≤ tail.length / cfg.chunkSize) :
    ∃ tail', trimLoop cfg tail n = .ok tail' := by
  induction n with
  | zero => exact ⟨_, rfl⟩
  | succ n ih =>
    have hmem := mem_of_getElem? (getElem?_records hn)
    rw [trimLoop]
    cases hm : mismatch cfg (readAt tail (n * cfg.chunkSize) cfg.chunkSize) with
    | true =>
      obtain ⟨stored, computed, hvr⟩ := verifyIntegrity_of_mismatch hm
      rw [hvr]
      exact ih (by omega)
    | false =>
      obtain ⟨item, hvr⟩ := h _ hmem hm
      rw [hvr]
      exact ⟨_, rfl⟩

theorem trimTail_flatten (hl : ∀ r ∈ l, r.length = cfg.chunkSize)
    (h : ∀ r ∈ l, mismatch cfg r = false → ∃ item, verifyIntegrity cfg r = .ok item) :
    trimTail cfg l.flatten = .ok (l.rdropWhile (mismatch cfg)).flatten := by
  have hrc : ∀ r ∈ records cfg l.flatten, mismatch cfg r = false →
      ∃ item, verifyIntegrity cfg r = .ok item := by rwa [records_flatten hl]
  obtain ⟨tail', ht⟩ := trimLoop_isOk hrc le_rfl
  rw [trimTail, ht, trimTail_eq_ok ht, records_flatten hl, (split_flatten hl _).1,
    ← prefix_iff_eq_take.1 ( rdropWhile_prefix _ _)]

/-- What is left of the records when a journal is opened. -/
def settle (cfg : Config A) (rs : List (List UInt8)) : List (List UInt8) :=
  rs.take (rs.length / cfg.itemsPerBlob * cfg.itemsPerBlob) ++
    (slice cfg rs (rs.length / cfg.itemsPerBlob)).rdropWhile (mismatch cfg)

/-- **A journal that was stored is opened again without its last invalid records.** -/
theorem init_ofRecords (hrs : ∀ r ∈ rs, r.length = cfg.chunkSize)
    (ho : oldest ≤ rs.length / cfg.itemsPerBlob)
    (h : ∀ r ∈ slice cfg rs (rs.length / cfg.itemsPerBlob), mismatch cfg r = false →
      ∃ item, verifyIntegrity cfg r = .ok item) :
    init cfg (Partition.ofRecords cfg oldest rs) =
      .ok (ofRecords cfg oldest (settle cfg rs)) := by
  have hB : 0 < (cfg.itemsPerBlob : ℕ) := cfg.itemsPerBlob.pos
  generalize ht : rs.length / cfg.itemsPerBlob = t at *
  have hte : t * cfg.itemsPerBlob ≤ rs.length := by
    rw [← ht]
    exact Nat.div_mul_le_self _ _
  generalize hl : (slice cfg rs t).rdropWhile (mismatch cfg) = left
  have hlf : left.length < cfg.itemsPerBlob := by
    have hsl : (slice cfg rs (rs.length / cfg.itemsPerBlob)).length < cfg.itemsPerBlob := by
      rw [length_tail_slice]
      exact Nat.mod_lt _ hB
    rw [← hl, ← ht]
    exact ( rdropWhile_prefix _ _).length_le.trans_lt hsl
  have hst : settle cfg rs = rs.take (t * cfg.itemsPerBlob) ++ left := by
    rw [settle, ht, hl]
  have hlen : (settle cfg rs).length = t * cfg.itemsPerBlob + left.length := by
    rw [hst, length_append, length_take_of_le hte]
  have hdv : (settle cfg rs).length / cfg.itemsPerBlob = t := by
    rw [hlen, Nat.mul_comm, Nat.mul_add_div hB, Nat.div_eq_of_lt hlf, Nat.add_zero]
  -- the blobs before the tail are as before
  have hbl := @blobs_congr _ cfg oldest (settle cfg rs) rs t
    (by rw [hst, take_left' (length_take_of_le hte)])
  have htl : slice cfg (settle cfg rs) t = left := by
    rw [slice, hst, drop_left' (length_take_of_le hte), take_of_length_le hlf.le]
  have hf : ∀ blob ∈ (range' oldest (t - oldest)).map fun index =>
      (slice cfg rs index).flatten, blob.length = cfg.fullSize := by
    intro blob hbb
    obtain ⟨index, hin, rfl⟩ := mem_map.1 hbb
    rw [mem_range'_1] at hin
    exact length_blob hrs (by omega)
  have hls : ∀ r ∈ left, r ∈ slice cfg rs t := by
    intro r hr
    rw [← hl] at hr
    exact ( rdropWhile_prefix _ _).subset hr
  have hll : left.flatten.length = left.length * cfg.chunkSize :=
    length_flatten fun r hr => length_of_mem_slice hrs r (hls r hr)
  have hol : oldest + (t - oldest) = t := by omega
  have hs : t - (t - oldest) = oldest := by omega
  rw [Partition.ofRecords, ht, init_consecutive oldest _ hf,
    trimTail_flatten (length_of_mem_slice hrs) h, hl]
  simp only [length_map, length_range', hol]
  rw [openTail_of_lt hll hlf, length_map, length_range', hs]
  simp only [ofRecords, hdv, htl, hbl]
  rw [hlen]

theorem close_ofRecords (ho : oldest ≤ rs.length / cfg.itemsPerBlob) :
    (ofRecords cfg oldest rs).close = Partition.ofRecords cfg oldest rs := by
  rw [close, oldestBlobIndex_ofRecords ho]
  rfl

theorem settle_eq_self
    (h : ∀ r ∈ (slice cfg rs (rs.length / cfg.itemsPerBlob)).getLast?, mismatch cfg r = false) :
    settle cfg rs = rs := by
  have hkp : (slice cfg rs (rs.length / cfg.itemsPerBlob)).rdropWhile (mismatch cfg) =
      slice cfg rs (rs.length / cfg.itemsPerBlob) := by
    refine rdropWhile_eq_self_iff.2 fun hne => ?_
    rw [h _ (getLast?_eq_getLast_of_ne_nil hne)]
    exact Bool.false_ne_true
  rw [settle, hkp, tail_slice, take_append_drop]

theorem mismatch_of_verifyIntegrity {item : A} (h : verifyIntegrity cfg r = .ok item) :
    mismatch cfg r = false := by
  cases hm : mismatch cfg r with
  | false => rfl
  | true =>
    obtain ⟨stored, computed, hvr⟩ := verifyIntegrity_of_mismatch hm
    rw [hvr] at h
    cases h

theorem slice_replicate (size index : ℕ) (r : List UInt8) :
    slice cfg (replicate size r) index =
      replicate (min cfg.itemsPerBlob (size - index * cfg.itemsPerBlob)) r := by
  rw [slice, drop_replicate, take_replicate]

/-- A journal at a size holds zeros. -/
theorem initJournalAtSize_eq (size : ℕ) :
    initJournalAtSize cfg size = ofRecords cfg (size / cfg.itemsPerBlob)
      (replicate size (replicate cfg.chunkSize 0)) := by
  obtain ⟨hsp, hm⟩ := blob_split cfg size
  have hcn : min (cfg.itemsPerBlob : ℕ) (size - size / cfg.itemsPerBlob * cfg.itemsPerBlob) =
      size % cfg.itemsPerBlob := by omega
  have hbn : size - size % cfg.itemsPerBlob =
      size / cfg.itemsPerBlob * cfg.itemsPerBlob := by omega
  simp only [initJournalAtSize, ofRecords, length_replicate, Nat.sub_self,
    range'_zero, map_nil, slice_replicate, hcn, hbn, resize, take_nil,
    nil_append, length_nil, Nat.sub_zero, flatten_replicate_replicate]

end Commonware.Fixed
