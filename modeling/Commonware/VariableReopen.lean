/-
**Reopening a journal of items of variable size.**

A journal is created at a size, items are appended, and the journal is closed and opened again.  What
is opened is the journal that was closed if and only if the journal was created at the start of a
section and the items of every section fit into the range of offsets.

A journal that starts in the middle of a section is not the same afterwards.  If no item was
appended, the zeros that stand for the missing offsets are dropped as invalid.  If the items fill
only the first section, its start is taken for the position of the first item.  Otherwise the
positions before the first item look as if they could be read.

Main definitions:

* `layout` — a section with given items;
* `Holds` — a journal after items were appended;
* `Reopened` — what a journal that was closed should be.

Main results:

* `append_holds`, `appendAll_holds` — the step and the run;
* `reopened_iff` — **when a journal that was created at a size survives**.
-/

import Commonware.Outcome
import Commonware.VariableJournal
import Mathlib

set_option autoImplicit false

namespace Commonware.Variable

open List Journal

open Fixed (Error Failure record)

variable {V : Type} (cfg : Config V)

/-! ### Sections -/

/-- An item that is appended to a section of `size` bytes. -/
def place (size : ℕ) (item : V) : Entry V :=
  let offset := (size + 15) / itemAlignment
  ⟨UInt32.ofNat offset, offset * itemAlignment + Segmented.entryLen cfg item, item⟩

/-- The section of some items. -/
def layout (items : List V) : Blob V :=
  items.foldl (fun blob item =>
    ⟨blob.entries ++ [place cfg blob.size item], (place cfg blob.size item).stop⟩) ⟨[], 0⟩

/-- The items of a section of a journal whose first item has the position `n`. -/
def itemsIn (n : ℕ) (items : List V) (index : ℕ) : List V :=
  ((items.zipIdx n).filter fun entry => decide (entry.2 / cfg.itemsPerSection = index)).map Prod.fst

variable {cfg}

theorem layout_concat (items : List V) (item : V) : layout cfg (items ++ [item]) =
      ⟨(layout cfg items).entries ++ [place cfg (layout cfg items).size item],
        (place cfg (layout cfg items).size item).stop⟩ := by
  simp [layout]

theorem size_lt_stop (size : ℕ) (item : V) : size < (place cfg size item).stop ∧
      (size + 15) / itemAlignment < ((place cfg size item).stop + 15) / itemAlignment := by
  simp only [place, itemAlignment, Segmented.entryLen]
  omega

/-- The entries of the first items stay where they are. -/
theorem layout_append (items rest : List V) :
    (layout cfg items).size ≤ (layout cfg (items ++ rest)).size ∧
      (layout cfg items).entries <+: (layout cfg (items ++ rest)).entries := by
  induction rest using reverseRecOn with
  | nil => simp
  | append_singleton rest item ih =>
    rw [← append_assoc, layout_concat]
    exact ⟨ih.1.trans (size_lt_stop _ item).1.le, ih.2.trans (prefix_append _ _)⟩

variable {items : List V}

theorem offset_lt {entry : Entry V} (h : entry ∈ (layout cfg items).entries) :
    entry.offset.toNat < ((layout cfg items).size + 15) / itemAlignment := by
  induction items using reverseRecOn with
  | nil => cases h
  | append_singleton items item ih =>
    rw [layout_concat] at h ⊢
    refine lt_of_le_of_lt ?_ (size_lt_stop _ item).2
    rcases mem_append.1 h with h | h
    · exact (ih h).le
    · rw [mem_singleton.1 h, place, UInt32.toNat_ofNat']
      exact Nat.mod_le _ _

theorem itemsIn_concat (n : ℕ) (items : List V) (item : V) (index : ℕ) :
    itemsIn cfg n (items ++ [item]) index = itemsIn cfg n items index ++
      (if (n + items.length) / cfg.itemsPerSection = index then [item] else []) := by
  rw [itemsIn, zipIdx_append, filter_append, map_append]
  split_ifs with h <;> simp [itemsIn, h]

theorem length_itemsIn (n : ℕ) (items : List V) (index : ℕ) : (itemsIn cfg n items index).length =
      min (n + items.length) (index * cfg.itemsPerSection + cfg.itemsPerSection) -
        max n (index * cfg.itemsPerSection) := by
  have hB : 0 < (cfg.itemsPerSection : ℕ) := cfg.itemsPerSection.pos
  induction items using reverseRecOn with
  | nil => simp [itemsIn]
  | append_singleton items item ih =>
    have hif : (n + items.length) / cfg.itemsPerSection = index ↔
        index * cfg.itemsPerSection ≤ n + items.length ∧
          n + items.length < index * cfg.itemsPerSection + cfg.itemsPerSection := by
      rw [Nat.div_eq_iff hB]
      omega
    rw [itemsIn_concat, length_append, ih, length_append, length_singleton]
    split_ifs with h
    · rw [hif] at h
      rw [length_singleton]
      omega
    · rw [hif] at h
      rw [length_nil]
      omega

/-! ### Appending items -/

/-- The size of the section of an item before the item is appended. -/
def sizeBefore (cfg : Config V) (n : ℕ) (items : List V) (i : ℕ) : ℕ :=
  (layout cfg (itemsIn cfg n (items.take i) ((n + i) / cfg.itemsPerSection))).size

/-- The records of the offsets of a journal that was created at a size. -/
def offsetRecords (cfg : Config V) (n : ℕ) (offs : List UInt32) : List (List UInt8) :=
  replicate n (replicate cfg.offsets.chunkSize 0) ++ offs.map (record cfg.offsets)

/-- A journal that was created at the size `n`, after items were appended. -/
structure Holds (cfg : Config V) (n : ℕ) (items : List V) (offs : List UInt32) (j : Journal V) :
    Prop where
  size_eq : j.size = n + items.length
  oldest_eq : j.oldestRetainedPos = n
  guard_eq : j.data.oldestRetainedSection = 0
  get?_blobs : ∀ index, j.data.blobs.get? index =
    if itemsIn cfg n items index = [] then none else some (layout cfg (itemsIn cfg n items index))
  offsets_eq : j.offsets =
    Fixed.Journal.ofRecords cfg.offsets (n / cfg.itemsPerSection) (offsetRecords cfg n offs)
  length_eq : offs.length = items.length
  offset_eq : ∀ i item, items[i]? = some item →
    offs[i]? = some (place cfg (sizeBefore cfg n items i) item).offset ∧
      (sizeBefore cfg n items i + 15) / itemAlignment < 2 ^ 32

theorem length_offsetRecords (n : ℕ) (offs : List UInt32) :
    (offsetRecords cfg n offs).length = n + offs.length := by
  simp [offsetRecords]

variable {n : ℕ} {offs : List UInt32}

theorem length_of_mem_offsetRecords :
    ∀ r ∈ offsetRecords cfg n offs, r.length = cfg.offsets.chunkSize := by
  intro r hr
  rcases mem_append.1 hr with hr | hr
  · rw [eq_of_mem_replicate hr, length_replicate]
  · obtain ⟨offset, -, rfl⟩ := mem_map.1 hr
    exact Fixed.length_record offset

theorem oldest_le (n : ℕ) (offs : List UInt32) :
    n / cfg.itemsPerSection ≤ (offsetRecords cfg n offs).length / cfg.offsets.itemsPerBlob := by
  rw [length_offsetRecords]
  exact Nat.div_le_div_right (Nat.le_add_right n _)

theorem holds_initAtSize (n : ℕ) :
    ∃ j, initAtSize cfg destroyed n = .ok j ∧ Holds cfg n [] [] j := by
  refine ⟨_, rfl, ⟨rfl, rfl, rfl, fun index => rfl, ?_, rfl, fun i item h => by simp at h⟩⟩
  rw [offsetRecords, map_nil, append_nil]
  exact Fixed.initJournalAtSize_eq n

variable {item : V} {i : ℕ}

theorem sizeBefore_concat (hi : i ≤ items.length) :
    sizeBefore cfg n (items ++ [item]) i = sizeBefore cfg n items i := by
  rw [sizeBefore, sizeBefore, take_append_of_le_length hi]

theorem orFail_eq_ok {α : Type} {x : Except Error α} {a : α} : orFail x = .ok a ↔ x = .ok a := by
  cases x with
  | error | ok => simp [orFail]

variable {index : ℕ} {offset : UInt32}

theorem segmented_append_eq_ok {data data' : Segmented V}
    (hbl : data.blobs.get? index = if items = [] then none else some (layout cfg items))
    (h : data.append cfg index item = .ok (offset, data')) :
    offset = (place cfg (layout cfg items).size item).offset ∧
      ((layout cfg items).size + 15) / itemAlignment < 2 ^ 32 ∧
      data' = { data with blobs := data.blobs.insert index (layout cfg (items ++ [item])) } := by
  have hg : (data.blobs.get? index).getD ⟨[], 0⟩ = layout cfg items := by
    rw [hbl]
    split_ifs with hnl
    · rw [hnl]
      rfl
    · rfl
  obtain ⟨-, -, h⟩ := bind_eq_ok.1 h
  split_ifs at h with hlen
  simp only [hg, computeNextOffset_eq] at h
  obtain ⟨offset', hof, h⟩ := bind_eq_ok.1 h
  split_ifs at hof with hfits
  cases hof
  cases h
  refine ⟨rfl, hfits, ?_⟩
  have hnt : (UInt32.ofNat (((layout cfg items).size + 15) / itemAlignment)).toNat =
      ((layout cfg items).size + 15) / itemAlignment := by
    rw [UInt32.toNat_ofNat', Nat.mod_eq_of_lt hfits]
  rw [layout_concat, place, hnt]

variable {j' j : Journal V} {position : ℕ}

/-- **One more item.** -/
theorem append_holds (hj : Holds cfg n items offs j)
    (h : j.append cfg item = .ok (position, j')) : position = n + items.length ∧
      ∃ offset, Holds cfg n (items ++ [item]) (offs ++ [offset]) j' := by
  have hsc : j.currentSection cfg = (n + items.length) / cfg.itemsPerSection := by
    rw [currentSection, hj.size_eq]
  rw [append] at h
  obtain ⟨⟨offset, data⟩, hdt, h⟩ := bind_eq_ok.1 h
  obtain ⟨hos, hfits, rfl⟩ :=
    segmented_append_eq_ok (hj.get?_blobs (j.currentSection cfg)) (orFail_eq_ok.1 hdt)
  rw [hj.offsets_eq] at h
  simp only [Fixed.append_ofRecords length_of_mem_offsetRecords (oldest_le n offs)] at h
  obtain ⟨⟨offsetsPos, offsets⟩, hof, h⟩ := bind_eq_ok.1 h
  cases hof
  simp only at h
  split_ifs at h with hp
  cases h
  have hbf : sizeBefore cfg n (items ++ [item]) items.length =
      (layout cfg (itemsIn cfg n items (j.currentSection cfg))).size := by
    rw [sizeBefore, take_left, hsc]
  refine ⟨hj.size_eq, offset, ?_, hj.oldest_eq, hj.guard_eq, ?_, ?_, ?_, ?_⟩
  · rw [hj.size_eq, length_append, length_singleton, Nat.add_assoc]
  · intro index
    rw [OrdMap.get?_insert, itemsIn_concat, hj.get?_blobs, hsc]
    by_cases hin : index = (n + items.length) / cfg.itemsPerSection
    · subst hin
      simp
    · simp [hin, Ne.symm hin]
  · rw [offsetRecords, offsetRecords, map_append, append_assoc]
    rfl
  · simp [hj.length_eq]
  · intro i item' hi
    rcases Nat.lt_trichotomy i items.length with hlt | rfl | hgt
    · rw [getElem?_append_left hlt] at hi
      rw [sizeBefore_concat hlt.le, getElem?_append_left (by rwa [hj.length_eq])]
      exact hj.offset_eq i item' hi
    · rw [getElem?_concat_length] at hi
      cases hi
      rw [hbf, ← hj.length_eq, getElem?_concat_length, hos]
      exact ⟨rfl, hfits⟩
    · rw [getElem?_eq_none (by simp; omega)] at hi
      cases hi

/-- **All items.** -/
theorem appendAll_holds (hj : Holds cfg n [] [] j)
    (h : j.appendAll cfg items = .ok j') : ∃ offs, Holds cfg n items offs j' := by
  induction items using reverseRecOn generalizing j' with
  | nil =>
    cases h
    exact ⟨[], hj⟩
  | append_singleton items item ih =>
    rw [appendAll, foldlM_append] at h
    obtain ⟨j₁, ha, h⟩ := bind_eq_ok.1 h
    obtain ⟨offs, hj₁⟩ := ih ha
    simp only [foldlM_cons, foldlM_nil] at h
    obtain ⟨j₂, hst, h⟩ := bind_eq_ok.1 h
    cases h
    obtain ⟨⟨position, j₃⟩, hap, h⟩ := bind_eq_ok.1 hst
    cases h
    obtain ⟨-, offset, hj₃⟩ := append_holds hj₁ hap
    exact ⟨_, hj₃⟩

/-! ### The offsets -/

theorem mismatch_zeros :
    Fixed.mismatch cfg.offsets (replicate cfg.offsets.chunkSize 0) = true := by
  have hby : Fixed.mismatch cfg.offsets (replicate cfg.offsets.chunkSize 0) =
      decide (Fixed.crc32 [0, 0, 0, 0] ≠ Fixed.getU32 [0, 0, 0, 0]) := rfl
  rw [hby]
  decide +kernel

/-- What is left of the offsets when they are opened again. -/
theorem init_offsets (n : ℕ) (offs : List UInt32) :
    Fixed.Journal.init cfg.offsets (Fixed.Journal.ofRecords cfg.offsets (n / cfg.itemsPerSection)
        (offsetRecords cfg n offs)).close =
      .ok (Fixed.Journal.ofRecords cfg.offsets (n / cfg.itemsPerSection)
        (Fixed.settle cfg.offsets (offsetRecords cfg n offs))) := by
  rw [Fixed.close_ofRecords (oldest_le n offs)]
  refine Fixed.init_ofRecords length_of_mem_offsetRecords (oldest_le n offs) fun r hr hvl => ?_
  rcases mem_append.1 (mem_of_mem_drop (mem_of_mem_take hr)) with hr | hr
  · rw [eq_of_mem_replicate hr, mismatch_zeros] at hvl
    cases hvl
  · obtain ⟨offset, -, rfl⟩ := mem_map.1 hr
    exact ⟨offset, Fixed.verifyIntegrity_record offset⟩

/-- Behind the zeros nothing is dropped. -/
theorem settle_offsetRecords (n : ℕ) (hne : offs ≠ []) :
    Fixed.settle cfg.offsets (offsetRecords cfg n offs) = offsetRecords cfg n offs := by
  refine Fixed.settle_eq_self fun r hr => ?_
  have hls : (offsetRecords cfg n offs).getLast? =
      some (record cfg.offsets (offs.getLast hne)) := by
    rw [offsetRecords, getLast?_append_of_ne_nil _ (by simpa using hne), getLast?_map,
      getLast?_eq_getLast_of_ne_nil hne]
    rfl
  rw [Fixed.tail_slice, getLast?_drop, hls] at hr
  split_ifs at hr
  · cases hr
  · cases hr
    exact Fixed.mismatch_of_verifyIntegrity (Fixed.verifyIntegrity_record _)

theorem settle_zeros (n : ℕ) : Fixed.settle cfg.offsets (offsetRecords cfg n []) =
      offsetRecords cfg (n / cfg.itemsPerSection * cfg.itemsPerSection) [] := by
  have hnl : ∀ m, offsetRecords cfg m [] =
      replicate m (replicate cfg.offsets.chunkSize 0) := by
    intro m
    rw [offsetRecords, map_nil, append_nil]
  have hdr : ∀ m, (replicate m (replicate cfg.offsets.chunkSize (0 : UInt8))).rdropWhile
      (Fixed.mismatch cfg.offsets) = [] := by
    intro m
    refine rdropWhile_eq_nil_iff.2 fun r hr => ?_
    rw [eq_of_mem_replicate hr, mismatch_zeros]
  rw [hnl, hnl, Fixed.settle, Fixed.slice_replicate, hdr, append_nil, take_replicate,
    length_replicate]
  congr 1
  exact Nat.min_eq_left (Nat.div_mul_le_self _ _)

/-! ### The data journal -/

section

variable {n : ℕ} {items : List V} {offs : List UInt32} {j : Journal V}

theorem Holds.isSome_get? (hj : Holds cfg n items offs j) :
    (j.data.blobs.get? index).isSome ↔ itemsIn cfg n items index ≠ [] := by
  rw [hj.get?_blobs]
  split_ifs with hnl <;> simp [hnl]

/-- The section of the last item. -/
def lastSection (cfg : Config V) (n : ℕ) (items : List V) : ℕ :=
  (n + items.length - 1) / cfg.itemsPerSection

theorem itemsIn_ne_nil_iff (hne : items ≠ []) : itemsIn cfg n items index ≠ [] ↔
    n / cfg.itemsPerSection ≤ index ∧ index ≤ lastSection cfg n items := by
  have hp := length_pos_iff.2 hne
  have hB : 0 < (cfg.itemsPerSection : ℕ) := cfg.itemsPerSection.pos
  rw [← length_pos_iff, length_itemsIn, lastSection, Nat.le_div_iff_mul_le hB, ← Nat.lt_succ_iff,
    Nat.div_lt_iff_lt_mul hB, Nat.succ_mul]
  omega

theorem first_le_last (hne : items ≠ []) : n / cfg.itemsPerSection ≤ lastSection cfg n items := by
  have hp := length_pos_iff.2 hne
  exact Nat.div_le_div_right (by omega)

theorem entries_ne_nil {K W : Type} [LinearOrder K] {m : OrdMap K W} {k : K}
    (h : (m.get? k).isSome) : m.entries ≠ [] := by
  intro hnl
  rw [OrdMap.get?, hnl] at h
  simp at h

theorem Holds.first? (hj : Holds cfg n items offs j) (hne : items ≠ []) :
    ∃ blob, j.data.blobs.first? = some (n / cfg.itemsPerSection, blob) := by
  have hsm := hj.isSome_get?.2 ((itemsIn_ne_nil_iff hne).2 ⟨le_rfl, first_le_last hne⟩)
  obtain ⟨⟨index, blob⟩, hf⟩ : ∃ entry, j.data.blobs.first? = some entry :=
    ⟨_, head?_eq_some_head (entries_ne_nil hsm)⟩
  have hle := j.data.blobs.le_of_first? hf hsm
  have hin := hj.isSome_get?.1 (by rw [j.data.blobs.get?_of_first? hf]; rfl)
  rw [Nat.le_antisymm hle ((itemsIn_ne_nil_iff hne).1 hin).1] at hf
  exact ⟨blob, hf⟩

theorem lastSection_mul (cfg : Config V) (n : ℕ) (items : List V) :
    lastSection cfg n items * cfg.itemsPerSection ≤ n + items.length - 1 ∧
      n + items.length - 1 < lastSection cfg n items * cfg.itemsPerSection + cfg.itemsPerSection := by
  have hsp := Nat.div_add_mod' (n + items.length - 1) cfg.itemsPerSection
  have hm := Nat.mod_lt (n + items.length - 1) cfg.itemsPerSection.pos
  rw [lastSection]
  omega

theorem Holds.last? (hj : Holds cfg n items offs j) (hne : items ≠ []) :
    j.data.blobs.last? = some (lastSection cfg n items,
      layout cfg (itemsIn cfg n items (lastSection cfg n items))) := by
  have hsm := hj.isSome_get?.2 ((itemsIn_ne_nil_iff hne).2 ⟨first_le_last hne, le_rfl⟩)
  obtain ⟨⟨index, blob⟩, hls⟩ : ∃ entry, j.data.blobs.last? = some entry :=
    ⟨_, getLast?_eq_getLast_of_ne_nil (entries_ne_nil hsm)⟩
  have hg := j.data.blobs.get?_of_last? hls
  have hin := hj.isSome_get?.1 (by rw [hg]; rfl)
  obtain rfl := Nat.le_antisymm ((itemsIn_ne_nil_iff hne).1 hin).2
    (j.data.blobs.le_of_last? hls hsm)
  rw [hj.get?_blobs, if_neg hin] at hg
  cases hg
  exact hls

theorem length_entries (items : List V) : (layout cfg items).entries.length = items.length := by
  induction items using reverseRecOn with
  | nil => rfl
  | append_singleton items item ih => simp [layout_concat, ih]

variable {data : Segmented V}

theorem replay_last {blob : Blob V} (h : data.blobs.last? = some (index, blob)) :
    data.replay index 0 =
      (computeNextOffset blob.size).map fun _ => Segmented.Blob.itemsFrom blob 0 := by
  obtain ⟨older, het⟩ : ∃ older, data.blobs.entries = older ++ [(index, blob)] :=
    ⟨_, (dropLast_append_getLast? _ h).symm⟩
  have hsr := data.blobs.sorted
  rw [het, map_append, pairwise_append] at hsr
  have hf : data.blobs.entries.filter (fun entry => decide (index ≤ entry.1)) =
      [(index, blob)] := by
    have hnn : older.filter (fun entry => decide (index ≤ entry.1)) = [] := by
      refine filter_eq_nil_iff.2 fun entry her => ?_
      have hlt := hsr.2.2 entry.1 (mem_map_of_mem her) index (by simp)
      simpa using hlt
    rw [het, filter_append, hnn, nil_append]
    simp
  simp only [Segmented.replay, hf]
  cases hof : computeNextOffset blob.size with
  | error e => simp [hof, bind, Except.bind, Except.map]
  | ok offset => simp [hof, bind, Except.bind, pure, Except.pure, Except.map]

theorem length_itemsFrom (blob : Blob V) :
    (Segmented.Blob.itemsFrom blob 0).length = blob.entries.length := by
  have ha : blob.entries.filter (fun entry => decide (0 ≤ entry.offset)) = blob.entries := by
    refine filter_eq_self.2 fun entry _ => ?_
    simp
  rw [Segmented.Blob.itemsFrom, ha, length_map]

/-! ### Alignment -/

variable {oldest : ℕ}

theorem alignOffsets_eq_ok {offsets offsets' : Fixed.Journal} {dataOldestPos dataSize size : ℕ}
    (h : alignOffsets cfg data offsets dataOldestPos dataSize = .ok (oldest, size, offsets')) :
    oldest = dataOldestPos ∧ size = dataSize := by
  rw [alignOffsets] at h
  split_ifs at h
  obtain ⟨offsets₁, -, h⟩ := bind_eq_ok.1 h
  obtain ⟨offsets₂, -, h⟩ := bind_eq_ok.1 h
  split_ifs at h
  cases h
  exact ⟨rfl, rfl⟩

/-- Offsets that agree with the data stay as they are. -/
theorem alignOffsets_self {rs : List (List UInt8)} (hlt : oldest * cfg.itemsPerSection < rs.length) :
    alignOffsets cfg data (Fixed.Journal.ofRecords cfg.offsets oldest rs)
        (oldest * cfg.itemsPerSection) rs.length = .ok (oldest * cfg.itemsPerSection, rs.length,
        Fixed.Journal.ofRecords cfg.offsets oldest rs) := by
  have hof : (Fixed.Journal.ofRecords cfg.offsets oldest rs).oldestRetainedPos =
      some (oldest * cfg.itemsPerSection) := by
    rw [Fixed.Journal.oldestRetainedPos, if_neg]
    · rfl
    · exact hlt.ne
  simp only [alignOffsets, alignPruning, alignSize, hof, if_neg hlt.ne, Nat.lt_irrefl, if_false,
    bind, Except.bind, Fixed.size_ofRecords, ne_eq, not_true]
  rfl

theorem Holds.length_records (hj : Holds cfg n items offs j) :
    (offsetRecords cfg n offs).length = n + items.length := by
  rw [length_offsetRecords, hj.length_eq]

/-- What the data journal says about the size. -/
theorem Holds.alignJournals_eq (hj : Holds cfg n items offs j) (hne : items ≠ [])
    (offsets : Fixed.Journal) : alignJournals cfg (Segmented.init j.data.blobs) offsets =
      match computeNextOffset (layout cfg (itemsIn cfg n items
        (lastSection cfg n items))).size with
      | .error e => .error (.error e)
      | .ok _ => alignOffsets cfg (Segmented.init j.data.blobs) offsets
          (n / cfg.itemsPerSection * cfg.itemsPerSection)
          (lastSection cfg n items * cfg.itemsPerSection +
            (itemsIn cfg n items (lastSection cfg n items)).length) := by
  obtain ⟨first, hf⟩ := hj.first? hne
  have hls := hj.last? hne
  have hit : itemsIn cfg n items _ ≠ [] :=
    (itemsIn_ne_nil_iff hne).2 ⟨first_le_last hne, le_rfl⟩
  have hrp : (Segmented.init j.data.blobs).replay _ 0 = _ := replay_last hls
  simp only [alignJournals, Segmented.init, hf, hls] at hrp ⊢
  rw [hrp]
  cases hof : computeNextOffset (layout cfg (itemsIn cfg n items
      (lastSection cfg n items))).size with
  | error e => rfl
  | ok offset =>
    simp only [Except.map, orFail, bind, Except.bind]
    rw [length_itemsFrom, length_entries]
    exact if_neg fun h => hit (length_eq_zero_iff.1 h.2)

/-! ### Reading -/

theorem itemsIn_split (h : items[i]? = some item) :
    itemsIn cfg n items ((n + i) / cfg.itemsPerSection) =
      itemsIn cfg n (items.take i) ((n + i) / cfg.itemsPerSection) ++ [item] ++
        itemsIn cfg (n + i + 1) (items.drop (i + 1)) ((n + i) / cfg.itemsPerSection) := by
  obtain ⟨hi, rfl⟩ := List.getElem?_eq_some_iff.1 h
  have hsp : items = items.take i ++ items[i] :: items.drop (i + 1) := by
    rw [← drop_eq_getElem_cons hi, take_append_drop]
  have hlen : (items.take i).length = i := length_take_of_le hi.le
  conv_lhs => rw [hsp]
  rw [itemsIn, zipIdx_append, filter_append, map_append, hlen, zipIdx_cons,
    filter_cons, if_pos (by simp), map_cons, append_assoc]
  rfl

theorem find?_layout {before after : List V}
    (hfits : ((layout cfg before).size + 15) / itemAlignment < 2 ^ 32) :
    (layout cfg (before ++ [item] ++ after)).entries.find? (fun entry =>
        decide (entry.offset = (place cfg (layout cfg before).size item).offset)) =
      some (place cfg (layout cfg before).size item) := by
  obtain ⟨rest, hr⟩ : (layout cfg (before ++ [item])).entries <+: _ :=
    (layout_append (before ++ [item]) after).2
  rw [← hr, layout_concat, append_assoc, find?_append]
  have hnn : (layout cfg before).entries.find? (fun entry =>
      decide (entry.offset = (place cfg (layout cfg before).size item).offset)) = none := by
    refine find?_eq_none.2 fun entry het => ?_
    have hlt := offset_lt het
    have hof : (place cfg (layout cfg before).size item).offset.toNat =
        ((layout cfg before).size + 15) / itemAlignment := by
      rw [place, UInt32.toNat_ofNat', Nat.mod_eq_of_lt hfits]
    intro heq
    rw [of_decide_eq_true heq] at hlt
    omega
  rw [hnn]
  simp

theorem Holds.read_eq (hj : Holds cfg n items offs j)
    (h : items[i]? = some item) : j.read cfg (n + i) =
      (computeNextOffset (place cfg (sizeBefore cfg n items i) item).stop).map fun _ => item := by
  have hi : i < items.length := (List.getElem?_eq_some_iff.1 h).1
  obtain ⟨hof, hfits⟩ := hj.offset_eq i item h
  have hrc : (offsetRecords cfg n offs)[n + i]? =
      some (record cfg.offsets (place cfg (sizeBefore cfg n items i) item).offset) := by
    rw [offsetRecords, List.getElem?_append_right (by simp), length_replicate,
      Nat.add_sub_cancel_left, List.getElem?_map, hof]
    rfl
  have hlo : n / cfg.itemsPerSection * cfg.offsets.itemsPerBlob ≤ n + i :=
    (Nat.div_mul_le_self _ _).trans (Nat.le_add_right n i)
  have hrd : j.offsets.read cfg.offsets (n + i) =
      .ok (place cfg (sizeBefore cfg n items i) item).offset := by
    rw [hj.offsets_eq, Fixed.read_of_readRecord (Fixed.readRecord_ofRecords
      length_of_mem_offsetRecords (oldest_le n offs) hlo hrc), Fixed.verifyIntegrity_record]
  have hsp : itemsIn cfg n items _ = _ := itemsIn_split h
  have hne : itemsIn cfg n items ((n + i) / cfg.itemsPerSection) ≠ [] := by
    rw [hsp]
    simp
  have hbl := hj.get?_blobs ((n + i) / cfg.itemsPerSection)
  rw [if_neg hne, hsp] at hbl
  have hf : (layout cfg (itemsIn cfg n (items.take i) ((n + i) / cfg.itemsPerSection) ++ [item] ++
      itemsIn cfg (n + i + 1) (items.drop (i + 1)) ((n + i) / cfg.itemsPerSection))).entries.find?
        (fun entry => decide (entry.offset = (place cfg (sizeBefore cfg n items i) item).offset)) =
      some (place cfg (sizeBefore cfg n items i) item) := find?_layout hfits
  rw [Journal.read, hj.size_eq, hj.oldest_eq, if_neg (by omega), if_neg (by omega), hrd]
  simp only [bind, Except.bind, Segmented.get, Segmented.pruneGuard, hj.guard_eq,
    if_neg (Nat.not_lt_zero _), hbl, hf]
  cases computeNextOffset (place cfg (sizeBefore cfg n items i) item).stop with
  | error | ok => rfl

/-! ### Opening the journal again -/

/-- The items of every section fit into the range of offsets. -/
def FitsSections (cfg : Config V) (n : ℕ) (items : List V) : Prop :=
  ∀ index, (layout cfg (itemsIn cfg n items index)).size ≤ itemAlignment * (2 ^ 32 - 1)

/-- A journal that was created at the size `n` has kept its size and its items. -/
def Reopened (cfg : Config V) (n : ℕ) (items : List V) (r : Except Failure (Journal V)) : Prop :=
  ∃ j, r = .ok j ∧ j.size = n + items.length ∧
    (∀ i item, items[i]? = some item → j.read cfg (n + i) = .ok item) ∧
    (∀ position < n, j.read cfg position = .error (.itemPruned position)) ∧
    (∀ item, j.append cfg item ≠ .error .panic) ∧
    ∀ item position j', j.append cfg item = .ok (position, j') → position = n + items.length

variable {disk : Disk V}

theorem init_of_align {offsets offsets' : Fixed.Journal} {size : ℕ}
    (hof : Fixed.Journal.init cfg.offsets disk.offsets = .ok offsets)
    (hal : alignJournals cfg (Segmented.init disk.data) offsets = .ok (oldest, size, offsets'))
    (hm : oldest % cfg.itemsPerSection = 0) :
    init cfg disk = .ok ⟨Segmented.init disk.data, offsets', size, oldest⟩ := by
  simp only [init, hof, hal, bind, Except.bind, hm, ne_eq, not_true, if_false]
  rfl

theorem init_eq_ok (h : init cfg disk = .ok j') :
    ∃ offsets offsets', Fixed.Journal.init cfg.offsets disk.offsets = .ok offsets ∧
      alignJournals cfg (Segmented.init disk.data) offsets =
        .ok (j'.oldestRetainedPos, j'.size, offsets') := by
  obtain ⟨offsets, hof, h⟩ := bind_eq_ok.1 h
  obtain ⟨⟨oldest, size, offsets'⟩, hal, h⟩ := bind_eq_ok.1 h
  refine ⟨offsets, offsets', hof, ?_⟩
  simp only at h
  split_ifs at h
  cases h
  exact hal

/-- Where the last section ends, if it is not the one in which the journal was created. -/
theorem Holds.dataSize_eq (hj : Holds cfg n items offs j) (hne : items ≠ [])
    (h : n ≤ lastSection cfg n items * cfg.itemsPerSection) :
    lastSection cfg n items * cfg.itemsPerSection +
        (itemsIn cfg n items (lastSection cfg n items)).length =
      (offsetRecords cfg n offs).length := by
  have hp := length_pos_iff.2 hne
  have hls := lastSection_mul cfg n items
  rw [length_itemsIn, hj.length_records]
  omega

theorem Holds.offs_ne_nil (hj : Holds cfg n items offs j) (hne : items ≠ []) : offs ≠ [] := by
  intro hnl
  have hlen := hj.length_eq
  rw [hnl, length_nil] at hlen
  exact hne (length_eq_zero_iff.1 hlen.symm)

/-- A journal whose last section starts behind its first item is opened with all its items. -/
theorem Holds.init_close_of_le (hj : Holds cfg n items offs j) (hne : items ≠ [])
    (h : n ≤ lastSection cfg n items * cfg.itemsPerSection)
    (hfits : computeNextOffset (layout cfg (itemsIn cfg n items
      (lastSection cfg n items))).size = .ok offset) : init cfg j.close =
      .ok { j with oldestRetainedPos := n / cfg.itemsPerSection * cfg.itemsPerSection } := by
  have hp := length_pos_iff.2 hne
  have hle : n / cfg.itemsPerSection * cfg.itemsPerSection ≤ n := Nat.div_mul_le_self _ _
  have hdt : Segmented.init j.data.blobs = j.data := by rw [Segmented.init, ← hj.guard_eq]
  have hof : Fixed.Journal.init cfg.offsets j.close.offsets = .ok j.offsets := by
    rw [close, hj.offsets_eq, init_offsets, settle_offsetRecords n (hj.offs_ne_nil hne)]
  have hal : alignJournals cfg (Segmented.init j.close.data) j.offsets =
      .ok (n / cfg.itemsPerSection * cfg.itemsPerSection, n + items.length, j.offsets) := by
    rw [close, hj.alignJournals_eq hne, hfits]
    simp only
    rw [hj.dataSize_eq hne h, hj.offsets_eq, alignOffsets_self, hj.length_records]
    rw [hj.length_records]
    omega
  rw [init_of_align hof hal (Nat.mul_mod_left _ _), ← hj.size_eq, close, hdt]

/-- A journal without items is opened at the start of its section. -/
theorem Holds.init_close_of_nil (hj : Holds cfg n [] offs j) :
    ∃ j', init cfg j.close = .ok j' ∧
      j'.size = n / cfg.itemsPerSection * cfg.itemsPerSection ∧
      ((cfg.itemsPerSection : ℕ) ∣ n → j' = j) := by
  obtain rfl : offs = [] := length_eq_zero_iff.1 hj.length_eq
  have hdt : Segmented.init j.data.blobs = j.data := by rw [Segmented.init, ← hj.guard_eq]
  have hem : j.data.blobs.entries = [] := by
    refine eq_nil_iff_forall_not_mem.2 fun entry het => ?_
    have hg := j.data.blobs.mem_entries_iff.1 het
    rw [hj.get?_blobs] at hg
    simp [itemsIn] at hg
  generalize hq : n / (cfg.itemsPerSection : ℕ) = q at *
  obtain ⟨o, ho⟩ : ∃ o, Fixed.Journal.ofRecords cfg.offsets q
      (offsetRecords cfg (q * cfg.itemsPerSection) []) = o := ⟨_, rfl⟩
  have hof : Fixed.Journal.init cfg.offsets j.close.offsets = .ok o := by
    have hin : Fixed.Journal.init cfg.offsets _ = _ := init_offsets n []
    rw [settle_zeros, hq, ho] at hin
    rw [close, hj.offsets_eq, hq]
    exact hin
  have hlen : o.size = q * cfg.itemsPerSection := by
    rw [← ho, Fixed.size_ofRecords]
    exact length_offsetRecords _ _
  have hal : alignJournals cfg (Segmented.init j.close.data) o =
      .ok (q * cfg.itemsPerSection, q * cfg.itemsPerSection, o) := by
    have hnn : o.oldestRetainedPos = none := by
      rw [Fixed.Journal.oldestRetainedPos, hlen, ← ho]
      exact if_pos rfl
    have hf : (Segmented.init j.close.data).blobs.first? = none := by
      rw [OrdMap.first?, Segmented.init, close, hem]
      rfl
    simp only [alignJournals, hf, alignEmpty, hnn, hlen]
  refine ⟨_, init_of_align hof hal (Nat.mul_mod_left _ _), rfl, fun hdv => ?_⟩
  have hn : q * cfg.itemsPerSection = n := by
    rw [← hq]
    exact Nat.div_mul_cancel hdv
  have hof' := hj.offsets_eq
  have hsize := hj.size_eq
  have hol := hj.oldest_eq
  rw [hq] at hof'
  rw [length_nil, Nat.add_zero] at hsize
  obtain ⟨data, offsets, size, oldest⟩ := j
  simp only at hof' hsize hol hdt
  subst hof' hsize hol
  rw [← ho, hn, close, hdt]

variable (hj : Holds cfg n items offs j)
include hj

theorem Holds.append_ne_panic (item : V) : j.append cfg item ≠ .error .panic := by
  rw [append]
  cases hdt : j.data.append cfg (j.currentSection cfg) item with
  | error e =>
    simp only [orFail, bind, Except.bind]
    intro h
    cases h
  | ok r =>
    obtain ⟨offset, data⟩ := r
    have hp : (offsetRecords cfg n offs).length = j.size := by
      rw [hj.length_records, hj.size_eq]
    simp only [orFail, bind, Except.bind, hj.offsets_eq,
      Fixed.append_ofRecords length_of_mem_offsetRecords (oldest_le n offs), hp, ne_eq, not_true,
      if_false]
    intro h
    cases h

/-- A journal with its items, if they fit. -/
theorem Holds.reopened (hfits : FitsSections cfg n items) : Reopened cfg n items (.ok j) := by
  refine ⟨j, rfl, hj.size_eq, fun i item hit => ?_, fun position hlt => ?_, hj.append_ne_panic,
    fun item position j' hap => (append_holds hj hap).1⟩
  · have hst : (place cfg (sizeBefore cfg n items i) item).stop ≤
        itemAlignment * (2 ^ 32 - 1) := by
      refine le_trans ?_ (hfits ((n + i) / cfg.itemsPerSection))
      rw [itemsIn_split hit]
      refine le_trans ?_ (layout_append _ _).1
      rw [layout_concat]
      rfl
    obtain ⟨offset, hof⟩ := computeNextOffset_isOk_iff.2 hst
    rw [hj.read_eq hit, hof]
    rfl
  · rw [Journal.read, hj.size_eq, hj.oldest_eq, if_neg (by omega), if_pos hlt]

/-- A journal with items that could be opened: its last section fits, and its size is computed from
this section. -/
theorem Holds.of_init_close (hne : items ≠ [])
    (h : init cfg j.close = .ok j') :
    (∃ offset, computeNextOffset (layout cfg (itemsIn cfg n items
      (lastSection cfg n items))).size = .ok offset) ∧
      j'.size = lastSection cfg n items * cfg.itemsPerSection +
        (itemsIn cfg n items (lastSection cfg n items)).length := by
  obtain ⟨offsets, offsets', -, hal⟩ := init_eq_ok h
  rw [close, hj.alignJournals_eq hne] at hal
  cases hof : computeNextOffset (layout cfg (itemsIn cfg n items
      (lastSection cfg n items))).size with
  | error e =>
    rw [hof] at hal
    cases hal
  | ok offset =>
    rw [hof] at hal
    exact ⟨⟨offset, rfl⟩, (alignOffsets_eq_ok hal).2⟩

/-- The position before the first item, if the journal is taken to start before it. -/
theorem Holds.read_zeros
    (hof : n / cfg.itemsPerSection * cfg.itemsPerSection ≤ position) (hlo : oldest ≤ position)
    (hlt : position < n) :
    { j with oldestRetainedPos := oldest }.read cfg position ≠ .error (.itemPruned position) := by
  have hrc : (offsetRecords cfg n offs)[position]? =
      some (replicate cfg.offsets.chunkSize 0) := by
    rw [offsetRecords, getElem?_append_left (by simpa using hlt), getElem?_replicate,
      if_pos hlt]
  obtain ⟨stored, computed, hvr⟩ : ∃ stored computed, Fixed.verifyIntegrity cfg.offsets _ = _ :=
    Fixed.verifyIntegrity_of_mismatch mismatch_zeros
  have hrd : j.offsets.read cfg.offsets position =
      .error (.checksumMismatch stored computed) := by
    rw [hj.offsets_eq, Fixed.read_of_readRecord (Fixed.readRecord_ofRecords
      length_of_mem_offsetRecords (oldest_le n offs) hof hrc), hvr]
  have hsize := hj.size_eq
  rw [Journal.read, if_neg (by simp only; omega), if_neg (Nat.not_lt.2 hlo)]
  simp only [hrd, bind, Except.bind]
  intro h
  cases h

/-- An item that ends behind the range of offsets cannot be read. -/
theorem Holds.exists_read_error (hfits : ¬ FitsSections cfg n items) :
    ∃ i item, items[i]? = some item ∧ j.read cfg (n + i) ≠ .ok item := by
  have hB : 0 < (cfg.itemsPerSection : ℕ) := cfg.itemsPerSection.pos
  obtain ⟨index, hin⟩ := not_forall.1 hfits
  have hp : 0 < (itemsIn cfg n items index).length := by
    refine length_pos_iff.2 fun hnl => hin ?_
    rw [hnl]
    exact Nat.zero_le _
  rw [length_itemsIn] at hp
  -- the last item of the section
  obtain ⟨i, hi⟩ : ∃ i, n + i + 1 =
      min (n + items.length) (index * cfg.itemsPerSection + cfg.itemsPerSection) :=
    ⟨min (n + items.length) (index * cfg.itemsPerSection + cfg.itemsPerSection) - 1 - n, by omega⟩
  have hlt : i < items.length := by omega
  have hsc : (n + i) / cfg.itemsPerSection = index := by
    rw [Nat.div_eq_iff hB]
    omega
  have hit := getElem?_eq_getElem hlt
  have hr : itemsIn cfg (n + i + 1) (items.drop (i + 1)) index = [] := by
    refine length_eq_zero_iff.1 ?_
    rw [length_itemsIn, length_drop]
    omega
  have hsp : itemsIn cfg n items ((n + i) / cfg.itemsPerSection) = _ := itemsIn_split hit
  rw [hsc, hr, append_nil] at hsp
  have hst : (place cfg (sizeBefore cfg n items i) items[i]).stop =
      (layout cfg (itemsIn cfg n items index)).size := by
    rw [hsp, layout_concat, sizeBefore, hsc]
  refine ⟨i, items[i], hit, ?_⟩
  rw [hj.read_eq hit, hst]
  cases hof : computeNextOffset (layout cfg (itemsIn cfg n items index)).size with
  | error e =>
    intro h
    cases h
  | ok offset => exact absurd (computeNextOffset_isOk_iff.1 ⟨offset, hof⟩) hin

end

/-- A journal that was created at a size, or that was synced and had to be created at a size. -/
inductive Created (cfg : Config V) (n : ℕ) (j : Journal V) : Prop
  | initAtSize (h : initAtSize cfg destroyed n = .ok j)
  | initSync {disk : Disk V} {old : Journal V} {stop : ℕ} (hinit : init cfg disk = .ok old)
      (hsize : old.size ≤ n) (hne : old.size = 0 → n ≠ 0)
      (h : initSync cfg disk n stop = .ok (some j))

theorem Created.holds (h : Created cfg n j) : Holds cfg n [] [] j := by
  obtain ⟨j', hcr, hh⟩ : ∃ j', Journal.initAtSize cfg _ n = .ok j' ∧ _ :=
    holds_initAtSize n
  cases h with
  | initAtSize h =>
    rw [h] at hcr
    cases hcr
    exact hh
  | @initSync disk old stop hin hsize hne h =>
    simp only [Journal.initSync, hin, bind, Except.bind, hcr] at h
    split_ifs at h with hst hz hn
    · exact absurd hn (hne hz)
    · cases h
      exact hh
    · cases h
    · cases h
      exact hh

/-- **A journal that was created at a size survives exactly if this was the start of a section**, and
if the items of every section fit into the range of offsets. -/
theorem reopened_iff {n : ℕ} {j₀ j : Journal V} {items : List V} (hcreated : Created cfg n j₀)
    (h : j₀.appendAll cfg items = .ok j) : Reopened cfg n items (init cfg j.close) ↔
      (cfg.itemsPerSection : ℕ) ∣ n ∧ FitsSections cfg n items := by
  obtain ⟨offs, hj⟩ := appendAll_holds hcreated.holds h
  by_cases hdv : (cfg.itemsPerSection : ℕ) ∣ n
  · have hn : n / cfg.itemsPerSection * cfg.itemsPerSection = n := Nat.div_mul_cancel hdv
    by_cases hne : items = []
    · subst hne
      obtain ⟨j', hin, -, heq⟩ := hj.init_close_of_nil
      rw [heq hdv] at hin
      have hfits : FitsSections cfg n [] := fun index => Nat.zero_le _
      rw [hin]
      exact ⟨fun _ => ⟨hdv, hfits⟩, fun _ => hj.reopened hfits⟩
    · have hle : n ≤ lastSection cfg n items * cfg.itemsPerSection := by
        conv_lhs => rw [← hn]
        exact Nat.mul_le_mul_right _ (first_le_last hne)
      have hsm : { j with oldestRetainedPos :=
          n / cfg.itemsPerSection * cfg.itemsPerSection } = j := by
        rw [hn, ← hj.oldest_eq]
      constructor
      · rintro ⟨j', hin, -, hrd, -⟩
        refine ⟨hdv, ?_⟩
        by_contra hfits
        obtain ⟨⟨offset, hof⟩, -⟩ := hj.of_init_close hne hin
        rw [hj.init_close_of_le hne hle hof, hsm] at hin
        cases hin
        obtain ⟨i, item, hit, hnq⟩ := hj.exists_read_error hfits
        exact hnq (hrd i item hit)
      · rintro ⟨-, hfits⟩
        obtain ⟨offset, hof⟩ := computeNextOffset_isOk_iff.2
          (hfits (lastSection cfg n items))
        rw [hj.init_close_of_le hne hle hof, hsm]
        exact hj.reopened hfits
  · refine ⟨fun hrp => ?_, fun hcn => absurd hcn.1 hdv⟩
    exfalso
    obtain ⟨j', hin, hsize, -, hpr, -⟩ := hrp
    have hq : n / cfg.itemsPerSection * cfg.itemsPerSection < n :=
      lt_of_le_of_ne (Nat.div_mul_le_self _ _) fun heq => hdv ⟨_, (Nat.mul_comm _ _).trans heq |>.symm⟩
    by_cases hne : items = []
    · subst hne
      obtain ⟨j'', hin', hsize', -⟩ := hj.init_close_of_nil
      rw [hin'] at hin
      cases hin
      rw [hsize', length_nil] at hsize
      omega
    · have hp := length_pos_iff.2 hne
      obtain ⟨⟨offset, hof⟩, hdt⟩ := hj.of_init_close hne hin
      rcases Nat.lt_or_ge (lastSection cfg n items * cfg.itemsPerSection) n with
        hlt | hle
      · -- the items are in the section in which the journal was created
        have hls := lastSection_mul cfg n items
        rw [length_itemsIn] at hdt
        omega
      · rw [hj.init_close_of_le hne hle hof] at hin
        cases hin
        exact hj.read_zeros (Nat.le_sub_one_of_lt hq) (Nat.le_sub_one_of_lt hq) (by omega)
          (hpr (n - 1) (by omega))

/-- Journals of single bytes, three of them in a section. -/
def Sample.bytes : Config UInt8 := ⟨fun _ => 1, Fixed.Sample.bytes.itemsPerBlob⟩

theorem Sample.layout_size_le (items : List UInt8) :
    (layout Sample.bytes items).size ≤ 21 * items.length := by
  induction items using reverseRecOn with
  | nil => rfl
  | append_singleton items item ih =>
    have hlen : Segmented.entryLen Sample.bytes item = encodeSize 1 + 1 + 4 := rfl
    have hone : encodeSize 1 = 1 := by decide
    rw [layout_concat, length_append, length_singleton]
    simp only [place, itemAlignment, hlen, hone]
    omega

/-- A journal that was created at the start of a section. -/
theorem reopened_at_section : ∃ j₀ j, initAtSize Sample.bytes destroyed 3 = .ok j₀ ∧
      j₀.appendAll Sample.bytes [7, 8, 9, 5] = .ok j ∧
      Reopened Sample.bytes 3 [7, 8, 9, 5] (init Sample.bytes j.close) := by
  have hr : (do
      let j₀ ← initAtSize Sample.bytes destroyed 3
      let j ← j₀.appendAll Sample.bytes [7, 8, 9, 5]
      pure j.size) = .ok 7 := by decide +kernel
  obtain ⟨j₀, hcr, h⟩ := bind_eq_ok.1 hr
  obtain ⟨j, ha, -⟩ := bind_eq_ok.1 h
  have hfits : FitsSections Sample.bytes 3 [7, 8, 9, 5] := by
    intro index
    have hsize := Sample.layout_size_le (itemsIn Sample.bytes 3 [7, 8, 9, 5] index)
    have hlen : (itemsIn Sample.bytes 3 [7, 8, 9, 5] index).length = _ := length_itemsIn _ _ _
    simp only [itemAlignment, length_cons, length_nil] at hlen ⊢
    omega
  exact ⟨j₀, j, hcr, ha, (reopened_iff (.initAtSize hcr) ha).2 ⟨dvd_refl 3, hfits⟩⟩

/-- A journal that was created in the middle of a section has lost its size. -/
theorem size_lost : ∃ j₀ j j', initAtSize Sample.bytes destroyed 1 = .ok j₀ ∧
      j₀.appendAll Sample.bytes [7] = .ok j ∧ j.size = 2 ∧
      init Sample.bytes j.close = .ok j' ∧ j'.size = 1 := by
  have hr : (do
      let j₀ ← initAtSize Sample.bytes destroyed 1
      let j ← j₀.appendAll Sample.bytes [7]
      let j' ← init Sample.bytes j.close
      pure (j.size, j'.size)) = .ok (2, 1) := by decide +kernel
  obtain ⟨j₀, hcr, h⟩ := bind_eq_ok.1 hr
  obtain ⟨j, ha, h⟩ := bind_eq_ok.1 h
  obtain ⟨j', hin, h⟩ := bind_eq_ok.1 h
  have hsz : j.size = 2 ∧ j'.size = 1 := Prod.mk.inj (Except.ok.inj h)
  exact ⟨j₀, j, j', hcr, ha, hsz.1, hin, hsz.2⟩

end Commonware.Variable
