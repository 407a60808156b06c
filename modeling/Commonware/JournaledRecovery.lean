/-
**Recovery of a range after a crash.**

A crash can happen at any point: while nodes are written, while leaves are removed, while the journal is
pruned, and while the range is opened again.  The journal then has some prefix of the nodes that were
written, which may end between a leaf and its parents.  Opening the range completes the last leaf.

The pinned nodes of a range are looked up through the largest size that is not larger than a position,
and the source has this function panic for the size of the largest range, that of `2 ^ 62` leaves.  Such
a range is the only one that is not recovered.

Main definitions:

* `leavesKept` — the number of leaves among the first nodes;
* `System`, `JournaledReach` — the runs of a range with crashes;
* `Recovered` — what a range has after its recovery; `Atomic` — a removal that fails changes nothing.

Main results:

* `init_tracks` — opening what a crash has left;
* `JournaledReach.spec` — **every operation and every crash leaves a range that can be opened**;
* `recovered_iff` — **recovery after a crash**;
* `pop_atomic_iff` — when **removing leaves** is atomic.
-/

import Commonware.JournaledReach
import Commonware.FreeHash
import Mathlib

set_option autoImplicit false

namespace Commonware.Mmr

open MountainRange List Fixed
open Journaled (Metadata Disk CleanJournaled DirtyJournaled)

variable {Sym D S : Type} {cfg : Fixed.Config D} {hasher : Hasher Sym D} {es es' : List (List Sym)}
  {k oldest : ℕ}

/-! ### Leaves among the first nodes -/

/-- The number of leaves whose positions are below `kept`. -/
def leavesKept (kept : ℕ) : ℕ := ((Finset.range kept).filter fun a => size a < kept).card

variable {n kept : ℕ}

theorem leavesKept_eq (hlo : ∀ a < n, size a < kept) (hhi : kept ≤ size n) :
    leavesKept kept = n := by
  have hf : (Finset.range kept).filter (fun a => size a < kept) = Finset.range n := by
    ext a
    rw [Finset.mem_filter, Finset.mem_range, Finset.mem_range]
    constructor
    · rintro ⟨-, hlt⟩
      exact size_lt_size_iff.1 (hlt.trans_le hhi)
    · intro ha
      exact ⟨(le_size a).trans_lt (hlo a ha), hlo a ha⟩
  rw [leavesKept, hf, Finset.card_range]

@[simp] theorem leavesKept_size (n : ℕ) : leavesKept (size n) = n :=
  leavesKept_eq (fun _ ha => size_lt_size_iff.2 ha) le_rfl

theorem leavesKept_of_lt (hlo : size n < kept) (hhi : kept ≤ size (n + 1)) :
    leavesKept kept = n + 1 := by
  refine leavesKept_eq (fun a ha => ?_) hhi
  exact (size_le_size_iff.2 (Nat.le_of_lt_succ ha)).trans_lt hlo

/-- The largest range among the first nodes: it has all leaves, or the last one is without some of its
parents. -/
theorem exists_largest (kept : ℕ) : ∃ n, size n ≤ kept ∧ kept < size (n + 1) ∧
      (kept = size n ∧ leavesKept kept = n ∨ size n < kept ∧ leavesKept kept = n + 1) := by
  obtain ⟨n, hlo, hhi⟩ := exists_size kept
  refine ⟨n, hlo, hhi, ?_⟩
  rcases Nat.eq_or_lt_of_le hlo with rfl | hlt
  · exact .inl ⟨rfl, leavesKept_size n⟩
  · exact .inr ⟨hlt, leavesKept_of_lt hlt hhi.le⟩

/-! ### What a crash leaves -/

/-- Opening the journal finds the first `kept` nodes, from the blob `oldest` on. -/
def Keeps (cfg : Fixed.Config D) (hasher : Hasher Sym D) (es : List (List Sym)) (oldest kept : ℕ)
    (journal : Fixed.Partition) : Prop :=
  Fixed.Journal.init cfg journal = .ok (nodeJournal cfg hasher es oldest kept)

/-- A journal that was stored as it is. -/
theorem keeps_ofRecords (ho : oldest * cfg.itemsPerBlob ≤ kept) (hkp : kept ≤ size es.length) :
    Keeps cfg hasher es oldest kept
      (Fixed.Partition.ofRecords cfg oldest (nodeRecords cfg hasher es kept)) := by
  have hvl : ∀ r ∈ nodeRecords cfg hasher es kept,
      ∃ item, verifyIntegrity cfg r = .ok item := by
    intro r hr
    obtain ⟨d, -, rfl⟩ := mem_map.1 hr
    exact ⟨d, verifyIntegrity_record d⟩
  have hsl : ∀ {index}, ∀ r ∈ slice cfg (nodeRecords cfg hasher es kept) index,
      r ∈ nodeRecords cfg hasher es kept := fun r hr => mem_of_mem_drop (mem_of_mem_take hr)
  have hst : settle cfg (nodeRecords cfg hasher es kept) =
      nodeRecords cfg hasher es kept := by
    refine settle_eq_self fun r hr => ?_
    obtain ⟨item, hit⟩ := hvl r (hsl r (mem_of_getLast? hr))
    exact mismatch_of_verifyIntegrity hit
  rw [Keeps, init_ofRecords length_of_mem_nodeRecords (oldest_le ho hkp)
    fun r hr _ => hvl r (hsl r hr), hst, nodeJournal]

/-- What is on disk after a crash: the nodes of all leaves up to the pruning boundary, at least. -/
structure Down (cfg : Fixed.Config D) (hasher : Hasher Sym D) (es : List (List Sym)) (disk : Disk D)
    (oldest kept : ℕ) : Prop where
  keeps : Keeps cfg hasher es oldest kept disk.journal
  kept_le : kept ≤ size es.length
  oldest_le : oldest * cfg.itemsPerBlob ≤ disk.metadata.pruneToPos
  pins : Pins hasher es disk.metadata
  valid : ∃ v ≤ maxLocation, disk.metadata.pruneToPos ≤ size v ∧ size v ≤ kept

variable {disk : Disk D}

theorem Down.pruned_le (hd : Down cfg hasher es disk oldest kept) :
    disk.metadata.pruneToPos ≤ kept := by
  obtain ⟨v, -, hlo, hhi⟩ := hd.valid
  exact hlo.trans hhi

theorem Down.pruned_le_size (hd : Down cfg hasher es disk oldest kept) (hhi : kept < size (n + 1)) :
    disk.metadata.pruneToPos ≤ size n := by
  obtain ⟨v, -, hprune, hv⟩ := hd.valid
  have hvn : v ≤ n := Nat.le_of_lt_succ (size_lt_size_iff.1 (hv.trans_lt hhi))
  exact hprune.trans (size_le_size_iff.2 hvn)

/-! ### Recovering a leaf -/

variable {s : CleanJournaled D}

/-- The range with the leaf whose parents are missing, before it is written. -/
theorem recoverLeaf_eq (hs : TracksClean cfg hasher (es.take n) s n oldest) (hn : n < es.length)
    (hm : n ≤ maxLocation) : ∃ s₁, TracksClean cfg hasher (es.take (n + 1)) s₁ n oldest ∧
      s₁.prunedToPos = s.prunedToPos ∧ s₁.metadata = s.metadata ∧
      Journaled.recoverLeaf cfg hasher s (digestAt hasher es 0 n) = (do
        let s ← s₁.sync cfg
        if s.size ≠ s.journal.size then .error .panic else pure s) := by
  have hm' : maxLocation = 2 ^ 62 - 1 := rfl
  have hlen : (es.take n).length = n := length_take_of_le hn.le
  obtain ⟨pin, st⟩ := hs.holds.stored
  have hsize : s.memMmr.intoDirty.size = size n := by
    rw [← hlen]
    exact st.size_eq
  have hdr := intoDirty_holds hs.holds
  have hlf : hasher.leafDigest (size n) (es.getD n []) = digestAt hasher es 0 n := rfl
  obtain ⟨x, m₁, ha⟩ := exists_add hdr (by omega) (es.getD n [])
  have hsn : es.take n ++ [es.getD n []] = es.take (n + 1) := by
    rw [take_add_one, getD_eq_getElem _ _ hn, List.getElem?_eq_getElem hn]
    rfl
  obtain ⟨hm₁, hx, hpr₁⟩ := add_holds hdr ha
  rw [hsn] at hm₁
  rw [hlen] at hx
  have hlen' : (es.take (n + 1)).length = n + 1 := length_take_of_le hn
  obtain ⟨m₂, hmr, hm₂, hpr₂⟩ := merkleize_holds hm₁ (by omega)
  have hpn : m₂.pinnedNodes = s.memMmr.pinnedNodes :=
    (merkleize_pinnedNodes hmr).trans (addLeafDigest_pinnedNodes ha)
  have htk : (es.take n).take n = (es.take (n + 1)).take n := by
    rw [take_take, take_take, Nat.min_self, Nat.min_eq_left (Nat.le_succ n)]
  have ht := hs.tracks.of_mem htk (by omega) (hpr₂.trans hpr₁) hpn
  refine ⟨_, ⟨ht, hm₂⟩, rfl, rfl, ?_⟩
  rw [MemMmr.add, hsize, hlf] at ha
  rw [Journaled.recoverLeaf, ha]
  refine Eq.trans (b := do
    let memMmr ← Journaled.ofMmr (m₁.merkleize hasher)
    if x ≠ s.journalSize then .error .panic
    else do
      let s ← Journaled.sync cfg { s with memMmr := memMmr }
      if s.size ≠ s.journal.size then .error .panic else pure s) rfl ?_
  rw [hmr, hx, hs.tracks.journalSize_eq]
  simp [Journaled.ofMmr, bind, Except.bind]

/-! ### Opening what a crash has left -/

theorem toNearestSize_of (hm : kept ≤ maxPosition) (hlo : size n ≤ kept)
    (hhi : kept < size (n + 1)) : toNearestSize kept = some (size n) := by
  obtain ⟨n', hn', hlo', hhi', -⟩ := toNearestSize_spec hm
  obtain rfl := largest_unique hlo hhi hlo' hhi'
  exact hn'

theorem le_maxPosition_of_toNearestSize {v : ℕ} (h : toNearestSize kept = some v) :
    kept ≤ maxPosition := by
  by_contra hlt
  rw [toNearestSize, if_pos (Nat.not_le.1 hlt)] at h
  cases h

section

variable {oldest' : ℕ} (hd : Down cfg hasher es disk oldest' kept)
  (ho : oldest * cfg.itemsPerBlob ≤ disk.metadata.pruneToPos)

include hd ho

section

variable (hlo : size n ≤ kept) (hhi : kept < size (n + 1)) (hprune : disk.metadata.pruneToPos ≤ size n)

include hlo hhi hprune

/-- A journal that ends with a node whose leaf has all its parents. -/
theorem recover_complete (hm : n ≤ maxLocation) (heq : kept = size n) :
    ∃ s, Journaled.recover cfg hasher disk.metadata (nodeJournal cfg hasher es oldest kept) = .ok s ∧
      TracksClean cfg hasher (es.take n) s n oldest ∧ s.prunedToPos = disk.metadata.pruneToPos ∧
      s.metadata = disk.metadata := by
  have hnl : n ≤ es.length := size_le_size_iff.1 (hlo.trans hd.kept_le)
  obtain ⟨s, hop, hs, hpr, hmt⟩ := openAt_tracks hd.pins hnl hm ho hprune
  refine ⟨s, ?_, hs, hpr, hmt⟩
  rw [Journaled.recover, size_nodeJournal hd.kept_le,
    toNearestSize_of (by rw [heq]; exact size_le_maxPosition hm) hlo hhi]
  refine bind_eq_ok.2 ⟨_, rfl, ?_⟩
  rw [if_neg (by rw [heq]; exact fun h => h rfl), heq, hop]

/-- A journal that ends between a leaf and the last of its parents. -/
theorem recover_leaf (hm : n ≤ maxLocation) (hp : kept ≤ maxPosition) (hlt : size n < kept) :
    ∃ s₁, TracksClean cfg hasher (es.take (n + 1)) s₁ n oldest ∧
      s₁.prunedToPos = disk.metadata.pruneToPos ∧ s₁.metadata = disk.metadata ∧
      Journaled.recover cfg hasher disk.metadata (nodeJournal cfg hasher es oldest kept) = (do
        let s ← s₁.sync cfg
        if s.size ≠ s.journal.size then .error .panic else pure s) := by
  have hn : n < es.length := size_lt_size_iff.1 (hlt.trans_le hd.kept_le)
  have hrd : (nodeJournal cfg hasher es oldest kept).read cfg (size n) =
      .ok (digestAt hasher es 0 n) := by
    rw [← pos_zero_left n]
    refine read_nodeJournal hd.kept_le ?_ ?_
    · rwa [pos_zero_left]
    · rw [pos_zero_left]
      exact ho.trans hprune
  obtain ⟨s, hop, hs, hpr, hmt⟩ := openAt_tracks hd.pins hn.le hm ho hprune
  obtain ⟨s₁, hs₁, hpr₁, hmt₁, hrc⟩ := recoverLeaf_eq hs hn hm
  refine ⟨s₁, hs₁, hpr₁.trans hpr, hmt₁.trans hmt, ?_⟩
  rw [← hrc, Journaled.recover, size_nodeJournal hd.kept_le, toNearestSize_of hp hlo hhi]
  simp only [Journaled.ofMmr, orPanic, bind, Except.bind, if_pos hlt.ne, hrd,
    rewind_nodeJournal hd.kept_le hlo (ho.trans hprune), Journaled.ofJournal, hop, Except.toOption]

end

theorem recover_tracks (hm : leavesKept kept ≤ maxLocation) :
    ∃ s, Journaled.recover cfg hasher disk.metadata (nodeJournal cfg hasher es oldest kept) = .ok s ∧
      TracksClean cfg hasher (es.take (leavesKept kept)) s (leavesKept kept) oldest ∧
      s.prunedToPos = disk.metadata.pruneToPos ∧ s.metadata = disk.metadata := by
  obtain ⟨n, hlo, hhi, hcs⟩ := exists_largest kept
  have hprune := hd.pruned_le_size hhi
  rcases hcs with ⟨heq, hlv⟩ | ⟨hlt, hlv⟩
  · rw [hlv] at hm ⊢
    exact recover_complete hd ho hlo hhi hprune hm heq
  · rw [hlv] at hm ⊢
    have hp : kept ≤ maxPosition := hhi.le.trans (size_le_maxPosition hm)
    have hn : n < es.length := size_lt_size_iff.1 (hlt.trans_le hd.kept_le)
    have hlen : (es.take (n + 1)).length = n + 1 := length_take_of_le hn
    obtain ⟨s₁, hs₁, hpr, hmt, hrc⟩ :=
      recover_leaf hd ho hlo hhi hprune (by omega) hp hlt
    obtain ⟨s, hsy, hs, hpr', hmt'⟩ := sync_tracks hs₁ (hlen.trans_le hm)
    have hsize : s.size = s.journal.size := by
      rw [hs.tracks.journal_eq, size_nodeJournal le_rfl]
      exact hs.holds.stored.choose_spec.size_eq
    rw [hlen] at hs
    refine ⟨s, ?_, hs, hpr'.trans hpr, hmt'.trans hmt⟩
    rw [hrc, hsy]
    exact if_neg fun hne => hne hsize

theorem le_of_recover
    (h : Journaled.recover cfg hasher disk.metadata (nodeJournal cfg hasher es oldest kept) = .ok s) :
    leavesKept kept ≤ maxLocation := by
  obtain ⟨n, hlo, hhi, hcs⟩ := exists_largest kept
  have hprune := hd.pruned_le_size hhi
  have hp : kept ≤ maxPosition := by
    rw [Journaled.recover, size_nodeJournal hd.kept_le] at h
    obtain ⟨last, hls, -⟩ := bind_eq_ok.1 h
    exact le_maxPosition_of_toNearestSize (orPanic_eq_ok.1 (ofMmr_eq_ok.1 hls))
  have hn : n ≤ maxLocation := by
    by_contra hlt
    have ht := size_two_pow 62
    have hm : maxLocation = 2 ^ 62 - 1 := rfl
    have hm' : maxPosition = 2 ^ 63 - 2 := rfl
    have hle : size (2 ^ 62) ≤ size n := size_le_size_iff.2 (by omega)
    omega
  rcases hcs with ⟨-, hlv⟩ | ⟨hlt, hlv⟩
  · rw [hlv]
    exact hn
  · have hnl : n < es.length := size_lt_size_iff.1 (hlt.trans_le hd.kept_le)
    obtain ⟨s₁, hs₁, -, -, hrc⟩ := recover_leaf hd ho hlo hhi hprune hn hp hlt
    rw [hrc] at h
    obtain ⟨s₂, hsy, -⟩ := bind_eq_ok.1 h
    have hle := length_le_of_sync hs₁ hsy
    rw [length_take_of_le hnl] at hle
    rw [hlv]
    exact hle

end

/-- How opening continues: the journal is pruned to the boundary of the metadata. -/
theorem init_eq_recover (hd : Down cfg hasher es disk oldest kept) (hp : kept ≠ 0) :
    ∃ oldest', oldest' * cfg.itemsPerBlob ≤ disk.metadata.pruneToPos ∧
      Journaled.init cfg hasher disk =
        Journaled.recover cfg hasher disk.metadata (nodeJournal cfg hasher es oldest' kept) := by
  have hle := hd.pruned_le
  have hprune := @oldest_prune _ _ cfg hasher es oldest _ kept (hd.oldest_le.trans hle) hd.kept_le
    hd.oldest_le hle
  have hol : (nodeJournal cfg hasher es oldest kept).oldestRetainedPos.getD 0 ≤
      disk.metadata.pruneToPos := by
    rw [Fixed.Journal.oldestRetainedPos]
    split_ifs
    · exact Nat.zero_le _
    · exact hd.oldest_le
  rw [Journaled.init, hd.keeps]
  simp only [Journaled.ofJournal, bind, Except.bind, size_nodeJournal hd.kept_le, if_neg hp]
  split_ifs
  · exact ⟨oldest, hd.oldest_le, rfl⟩
  · omega
  · exact ⟨_, Nat.div_mul_le_self _ _, by rw [hprune]⟩

theorem not_mem_peaks {p : ℕ} {node : ℕ × ℕ} (hp : size p ≤ 0) : node ∉ peaks p := by
  have hz : p = 0 := Nat.le_zero.1 ((le_size p).trans hp)
  simp [hz, peaks, peaksBelow]

theorem init_empty (hd : Down cfg hasher es disk oldest 0) :
    ∃ s, Journaled.init cfg hasher disk = .ok s ∧ TracksClean cfg hasher [] s 0 oldest ∧
      s.prunedToPos = disk.metadata.pruneToPos ∧ s.metadata = disk.metadata := by
  have hz : disk.metadata.pruneToPos = 0 := Nat.le_zero.1 hd.pruned_le
  obtain ⟨m, hm, hh, hpr, hpn⟩ := @init_holds _ _ hasher [] (Nat.zero_le _)
  have hrg : RightPins hasher [] 0 m.pinnedNodes := by
    rw [hpn]
    exact RightPins.peaks le_rfl
  have hnl : peakDigests hasher ([] : List (List Sym)) = [] := by
    simp [peakDigests, peaks, peaksBelow]
  rw [hnl, length_nil, size_zero] at hm
  have ht : es.take 0 = ([] : List (List Sym)).take 0 := rfl
  refine ⟨⟨m, nodeJournal cfg hasher es oldest 0, 0, disk.metadata, 0⟩, ?_, ⟨?_, hh⟩, hz.symm, rfl⟩
  · rw [Journaled.init, hd.keeps]
    simp only [Journaled.ofJournal, bind, Except.bind, size_nodeJournal hd.kept_le, if_true]
    rw [hm]
    rfl
  · refine ⟨le_rfl, Nat.zero_le _, ?_, size_zero.symm, hpr, ?_, Nat.zero_le _, hz,
      hd.pins.of_take ht hz.le, hrg, ?_⟩
    · simp only [nodeJournal, size_zero]
      rw [nodeRecords_of_take ht (Nat.zero_le _) (Nat.zero_le _) (Nat.zero_le _)]
    · exact hd.oldest_le.trans hz.le
    · intro p h q hlo _ hmem
      exact absurd hmem (not_mem_peaks hlo)

/-- **Opening what a crash has left.** -/
theorem init_tracks (hd : Down cfg hasher es disk oldest kept)
    (hm : leavesKept kept ≤ maxLocation) : ∃ s oldest', Journaled.init cfg hasher disk = .ok s ∧
      TracksClean cfg hasher (es.take (leavesKept kept)) s (leavesKept kept) oldest' ∧
      s.prunedToPos = disk.metadata.pruneToPos ∧ s.metadata = disk.metadata := by
  rcases Nat.eq_zero_or_pos kept with rfl | hp
  · have hlv : leavesKept 0 = 0 := leavesKept_size 0
    obtain ⟨s, hs⟩ := init_empty hd
    rw [hlv, take_zero]
    exact ⟨s, oldest, hs⟩
  · obtain ⟨oldest', ho, hin⟩ := init_eq_recover hd hp.ne'
    obtain ⟨s, hs⟩ := recover_tracks hd ho hm
    rw [← hin] at hs
    exact ⟨s, oldest', hs⟩

theorem le_of_init (hd : Down cfg hasher es disk oldest kept)
    (h : Journaled.init cfg hasher disk = .ok s) : leavesKept kept ≤ maxLocation := by
  rcases Nat.eq_zero_or_pos kept with rfl | hp
  · rw [show leavesKept 0 = 0 from leavesKept_size 0]
    exact Nat.zero_le _
  · obtain ⟨oldest', ho, hin⟩ := init_eq_recover hd hp.ne'
    rw [hin] at h
    exact le_of_recover hd ho h

/-! ### Runs -/

/-- A range that is open, or what a crash has left of it: the number of nodes in its journal is known
to the reader of a run only. -/
inductive System (D : Type)
  | clean (s : CleanJournaled D)
  | dirty (s : DirtyJournaled D)
  | down (disk : Disk D) (kept : ℕ)

/-- **The runs of a range**, with the elements that it holds.  The elements of a range that is down are
those whose nodes were being written. -/
inductive JournaledReach (cfg : Fixed.Config D) (hasher : Hasher Sym D) :
    System D → List (List Sym) → Prop
  | fresh : JournaledReach cfg hasher (.down ⟨OrdMap.empty, ⟨0, OrdMap.empty⟩⟩ 0) []
  | init {disk : Disk D} {kept : ℕ} {es : List (List Sym)} {s : CleanJournaled D} :
      JournaledReach cfg hasher (.down disk kept) es → Journaled.init cfg hasher disk = .ok s →
      JournaledReach cfg hasher (.clean s) (es.take (leavesKept kept))
  | add {s s' : CleanJournaled D} {es : List (List Sym)} {element : List Sym} {x : ℕ} :
      JournaledReach cfg hasher (.clean s) es → s.add hasher element = .ok (x, s') →
      JournaledReach cfg hasher (.clean s') (es ++ [element])
  | addDirty {s s' : DirtyJournaled D} {es : List (List Sym)} {element : List Sym} {x : ℕ} :
      JournaledReach cfg hasher (.dirty s) es → s.addDirty hasher element = .ok (x, s') →
      JournaledReach cfg hasher (.dirty s') (es ++ [element])
  | intoDirty {s : CleanJournaled D} {es : List (List Sym)} :
      JournaledReach cfg hasher (.clean s) es → JournaledReach cfg hasher (.dirty s.intoDirty) es
  | merkleize {s : DirtyJournaled D} {s' : CleanJournaled D} {es : List (List Sym)} :
      JournaledReach cfg hasher (.dirty s) es → s.merkleize hasher = .ok s' →
      JournaledReach cfg hasher (.clean s') es
  | sync {s s' : CleanJournaled D} {es : List (List Sym)} :
      JournaledReach cfg hasher (.clean s) es → s.sync cfg = .ok s' →
      JournaledReach cfg hasher (.clean s') es
  | prune {s s' : CleanJournaled D} {es : List (List Sym)} {x : ℕ} :
      JournaledReach cfg hasher (.clean s) es → s.pruneToPos cfg x = .ok s' →
      JournaledReach cfg hasher (.clean s') es
  | pop {s s' : CleanJournaled D} {es : List (List Sym)} {n : ℕ} :
      JournaledReach cfg hasher (.clean s) es → s.pop cfg hasher n = .ok (.ok (), s') →
      JournaledReach cfg hasher (.clean s') (es.take (es.length - n))
  -- a removal that fails may have removed some of the leaves
  | popError {s s' : CleanJournaled D} {es : List (List Sym)} {n : ℕ} {e : Error} :
      JournaledReach cfg hasher (.clean s) es → s.pop cfg hasher n = .ok (.error e, s') →
      JournaledReach cfg hasher (.clean s') (es.take (leavesKept s'.size))
  | popDirty {s s' : DirtyJournaled D} {es : List (List Sym)} {n : ℕ} :
      JournaledReach cfg hasher (.dirty s) es → s.popDirtyLeaves cfg n = .ok (.ok (), s') →
      JournaledReach cfg hasher (.dirty s') (es.take (es.length - n))
  | popDirtyError {s s' : DirtyJournaled D} {es : List (List Sym)} {n : ℕ} {e : Error} :
      JournaledReach cfg hasher (.dirty s) es → s.popDirtyLeaves cfg n = .ok (.error e, s') →
      JournaledReach cfg hasher (.dirty s') (es.take (leavesKept s'.size))
  -- before or while nodes are written
  | crash {s : CleanJournaled D} {es : List (List Sym)} {disk : Disk D} {kept : ℕ} :
      JournaledReach cfg hasher (.clean s) es → s.journalSize ≤ kept → kept ≤ s.size →
      Keeps cfg hasher es s.journal.oldestBlobIndex kept disk.journal →
      disk.metadata = s.metadata → JournaledReach cfg hasher (.down disk kept) es
  | crashDirty {s : DirtyJournaled D} {es : List (List Sym)} {disk : Disk D} :
      JournaledReach cfg hasher (.dirty s) es →
      Keeps cfg hasher es s.journal.oldestBlobIndex s.journalSize disk.journal →
      disk.metadata = s.metadata → JournaledReach cfg hasher (.down disk s.journalSize) es
  -- while the journal is rewound
  | crashPop {s : CleanJournaled D} {es : List (List Sym)} {disk : Disk D} {m : CleanMmr D}
      {n left newSize kept : ℕ} :
      JournaledReach cfg hasher (.clean s) es →
      Journaled.popCached (Journaled.popClean hasher) n s.memMmr = .ok (.ok left, m) → left ≠ 0 →
      Journaled.popTarget s.prunedToPos m.size left = .ok newSize →
      newSize ≤ kept → kept ≤ s.journalSize →
      Keeps cfg hasher es s.journal.oldestBlobIndex kept disk.journal →
      disk.metadata = s.metadata → JournaledReach cfg hasher (.down disk kept) es
  | crashPopDirty {s : DirtyJournaled D} {es : List (List Sym)} {disk : Disk D} {m : DirtyMmr D}
      {n left newSize kept : ℕ} :
      JournaledReach cfg hasher (.dirty s) es →
      Journaled.popCached Journaled.popDirty n s.memMmr = .ok (.ok left, m) → left ≠ 0 →
      Journaled.popTarget s.prunedToPos m.size left = .ok newSize →
      newSize ≤ kept → kept ≤ s.journalSize →
      Keeps cfg hasher es s.journal.oldestBlobIndex kept disk.journal →
      disk.metadata = s.metadata → JournaledReach cfg hasher (.down disk kept) es
  -- while blobs are removed, with the new pruning boundary in the metadata
  | crashPrune {s s₁ : CleanJournaled D} {es : List (List Sym)} {disk : Disk D} {x oldest : ℕ}
      {pins : List (ℕ × D)} :
      JournaledReach cfg hasher (.clean s) es → s.prunedToPos < x → x ≤ s.size →
      s.sync cfg = .ok s₁ → s₁.updateMetadata cfg x = .ok (pins, disk.metadata) →
      s₁.journal.oldestBlobIndex ≤ oldest →
      oldest ≤ (s₁.journal.prune cfg x).2.oldestBlobIndex →
      Keeps cfg hasher es oldest s₁.size disk.journal →
      JournaledReach cfg hasher (.down disk s₁.size) es
  -- while the range is opened: blobs are removed, the journal is rewound, the last leaf is completed
  | crashInit {es : List (List Sym)} {disk disk' : Disk D} {journal : Fixed.Journal}
      {kept kept' lastValid oldest : ℕ} :
      JournaledReach cfg hasher (.down disk kept) es →
      Fixed.Journal.init cfg disk.journal = .ok journal → toNearestSize kept = some lastValid →
      lastValid ≤ kept' → kept' ≤ size (leavesKept kept) → journal.oldestBlobIndex ≤ oldest →
      oldest ≤ (journal.prune cfg disk.metadata.pruneToPos).2.oldestBlobIndex →
      Keeps cfg hasher es oldest kept' disk'.journal → disk'.metadata = disk.metadata →
      JournaledReach cfg hasher (.down disk' kept') es

def SystemHolds (cfg : Fixed.Config D) (hasher : Hasher Sym D) (es : List (List Sym)) :
    System D → Prop
  | .clean s => ∃ k oldest, TracksClean cfg hasher es s k oldest
  | .dirty s => ∃ k oldest, TracksDirty cfg hasher es s k oldest
  | .down disk kept => ∃ oldest, Down cfg hasher es disk oldest kept

theorem oldestBlobIndex_nodeJournal (ho : oldest * cfg.itemsPerBlob ≤ kept)
    (hkp : kept ≤ size es.length) :
    (nodeJournal cfg hasher es oldest kept).oldestBlobIndex = oldest :=
  oldestBlobIndex_ofRecords (oldest_le ho hkp)

theorem Tracks.oldestBlobIndex_eq {s : Journaled D S} (hs : Tracks cfg hasher es s k oldest) :
    s.journal.oldestBlobIndex = oldest := by
  rw [hs.journal_eq]
  exact oldestBlobIndex_nodeJournal (hs.oldest_le.trans hs.pruned_le)
    (size_le_size_iff.2 hs.le_length)

/-- A crash that leaves the blobs and the metadata as they were. -/
theorem Tracks.down {s : Journaled D S} (hs : Tracks cfg hasher es s k oldest) (hn : n ≤ k)
    (hlo : s.prunedToPos ≤ size n) (hle : size n ≤ kept) (hkp : kept ≤ size es.length)
    (hkeeps : Keeps cfg hasher es s.journal.oldestBlobIndex kept disk.journal)
    (hmt : disk.metadata = s.metadata) : Down cfg hasher es disk oldest kept where
  keeps := hs.oldestBlobIndex_eq ▸ hkeeps
  kept_le := hkp
  oldest_le := by
    rw [hmt, hs.prunePos_eq]
    exact hs.oldest_le
  pins := hmt ▸ hs.pins
  valid := by
    rw [hmt, hs.prunePos_eq]
    exact ⟨n, hn.trans hs.le_max, hlo, hle⟩

/-- A crash while the journal is rewound. -/
theorem Tracks.down_pop {s : Journaled D S} {m : MemMmr D S} {n left newSize : ℕ}
    {H : List (List Sym) → MemMmr D S → Prop}
    {popOne : MemMmr D S → Except Journaled.Failure (Except Error ℕ × MemMmr D S)}
    (hs : Tracks cfg hasher es s k oldest) (hp : PopSpec H k popOne) (hm : H es s.memMmr)
    (hsize : ∀ {es m}, H es m → m.size = size es.length)
    (hcc : Journaled.popCached popOne n s.memMmr = .ok (.ok left, m)) (hlf : left ≠ 0)
    (ht : Journaled.popTarget s.prunedToPos m.size left = .ok newSize) (hlo : newSize ≤ kept)
    (hhi : kept ≤ s.journalSize) (hkeeps : Keeps cfg hasher es s.journal.oldestBlobIndex kept disk.journal)
    (hmt : disk.metadata = s.metadata) : Down cfg hasher es disk oldest kept := by
  obtain ⟨r, m', j, hcc', -, hj, hH, -, -, -, hr⟩ :=
    popCached_spec (n := n) hp hm hs.boundary hs.le_length
  cases hcc.symm.trans hcc'
  obtain rfl := hr.2 hlf
  have hms : m.size = size j := by rw [hsize hH, length_take_of_le hj]
  obtain ⟨i, rfl, hi, hprune⟩ := (popTarget_tracks hs hms hlf).1 ht
  rw [hs.journalSize_eq] at hhi
  exact hs.down (by omega) hprune hlo (hhi.trans (size_le_size_iff.2 hs.le_length)) hkeeps hmt

theorem down_fresh :
    Down cfg hasher [] (⟨OrdMap.empty, ⟨0, OrdMap.empty⟩⟩ : Disk D) 0 0 where
  keeps := by
    have hf : cfg.fullSize ≠ 0 :=
      (Nat.mul_pos cfg.itemsPerBlob.pos Fixed.Config.chunkSize_pos).ne'
    simp [Keeps, Fixed.Journal.init, OrdMap.empty, OrdMap.last?, checkHistorical,
      trimTail, trimLoop, Fixed.Journal.openTail, hf.symm, nodeJournal, nodeRecords,
      Fixed.Journal.ofRecords, slice]
  kept_le := Nat.zero_le _
  oldest_le := by simp
  pins := ⟨fun x d hx => (by cases hx), fun p h q hlo _ hmem => absurd hmem (not_mem_peaks hlo)⟩
  valid := ⟨0, Nat.zero_le _, by simp, by simp⟩

theorem TracksClean.size_eq (hs : TracksClean cfg hasher es s k oldest) :
    s.size = size es.length := hs.holds.stored.choose_spec.size_eq

theorem TracksDirty.size_eq {s : DirtyJournaled D} (hs : TracksDirty cfg hasher es s k oldest) :
    s.size = size es.length := hs.holds.1.stored.choose_spec.size_eq

theorem TracksClean.down_prune {s₁ : CleanJournaled D} {x oldest' : ℕ} {pins : List (ℕ × D)}
    (hs : TracksClean cfg hasher es s k oldest) (hx : s.prunedToPos < x) (hle : x ≤ s.size)
    (hsy : s.sync cfg = .ok s₁) (hu : s₁.updateMetadata cfg x = .ok (pins, disk.metadata))
    (hhi : oldest' ≤ (s₁.journal.prune cfg x).2.oldestBlobIndex)
    (hkeeps : Keeps cfg hasher es oldest' s₁.size disk.journal) :
    Down cfg hasher es disk oldest' s₁.size := by
  have hlen := length_le_of_sync hs hsy
  obtain ⟨s₂, hsy', hs₁, hpr, -⟩ := sync_tracks hs hlen
  obtain rfl := Except.ok.inj (hsy.symm.trans hsy')
  rw [hs.size_eq] at hle
  have hx₁ : s₁.prunedToPos ≤ x := hpr.trans_le hx.le
  obtain ⟨p, hlo, hhi'⟩ := exists_size x
  obtain ⟨metadata, hme, hmq, hpn⟩ := updateMetadata_tracks hs₁ hx₁ hlo hhi' hle
  obtain ⟨-, rfl⟩ := Prod.mk.inj (Except.ok.inj (hme.symm.trans hu))
  have hmt : disk.metadata.pruneToPos = x := by rw [hmq]
  have hol := hs₁.tracks.oldest_le.trans hx₁
  rw [hs₁.tracks.journal_eq, oldest_prune (hol.trans hle) le_rfl hol hle,
    oldestBlobIndex_nodeJournal ((Nat.div_mul_le_self _ _).trans hle) le_rfl] at hhi
  refine ⟨hkeeps, hs₁.size_eq.le, ?_, hpn, es.length, hlen, ?_, hs₁.size_eq.ge⟩
  · rw [hmt]
    exact (Nat.mul_le_mul_right _ hhi).trans (Nat.div_mul_le_self _ _)
  · rw [hmt]
    exact hle

theorem Down.again {disk' : Disk D} {journal : Fixed.Journal} {kept' lastValid oldest' : ℕ}
    (hd : Down cfg hasher es disk oldest kept)
    (hjr : Fixed.Journal.init cfg disk.journal = .ok journal)
    (hvl : toNearestSize kept = some lastValid) (hlo : lastValid ≤ kept')
    (hhi : kept' ≤ size (leavesKept kept))
    (hol : oldest' ≤ (journal.prune cfg disk.metadata.pruneToPos).2.oldestBlobIndex)
    (hkeeps : Keeps cfg hasher es oldest' kept' disk'.journal)
    (hmt : disk'.metadata = disk.metadata) : Down cfg hasher es disk' oldest' kept' := by
  obtain rfl := Except.ok.inj (hd.keeps.symm.trans hjr)
  have hle := hd.pruned_le
  rw [oldest_prune (hd.oldest_le.trans hle) hd.kept_le hd.oldest_le hle,
    oldestBlobIndex_nodeJournal ((Nat.div_mul_le_self _ _).trans hle) hd.kept_le] at hol
  obtain ⟨n, hn, hn', hcs⟩ := exists_largest kept
  rw [toNearestSize_of (le_maxPosition_of_toNearestSize hvl) hn hn', Option.some.injEq] at hvl
  subst hvl
  obtain ⟨v, hv, hprune, hvk⟩ := hd.valid
  have hvn : v ≤ n := Nat.le_of_lt_succ (size_lt_size_iff.1 (hvk.trans_lt hn'))
  have hlv : leavesKept kept ≤ es.length := by
    rcases hcs with ⟨heq, hlv⟩ | ⟨hlt, hlv⟩
    · rw [hlv, ← size_le_size_iff, ← heq]
      exact hd.kept_le
    · rw [hlv]
      exact size_lt_size_iff.1 (hlt.trans_le hd.kept_le)
  refine ⟨hkeeps, hhi.trans (size_le_size_iff.2 hlv), ?_, hmt ▸ hd.pins, v, hv, ?_, ?_⟩
  · rw [hmt]
    exact (Nat.mul_le_mul_right _ hol).trans (Nat.div_mul_le_self _ _)
  · rw [hmt]
    exact hprune
  · exact (size_le_size_iff.2 hvn).trans hlo

/-- **Every operation and every crash leaves a range that can be opened.** -/
theorem JournaledReach.spec {sys : System D} (hrc : JournaledReach cfg hasher sys es) :
    SystemHolds cfg hasher es sys := by
  induction hrc with
  | fresh => exact ⟨0, down_fresh⟩
  | init _ hin ih =>
    obtain ⟨oldest, hd⟩ := ih
    obtain ⟨s', oldest', hin', hs', -⟩ := init_tracks hd (le_of_init hd hin)
    obtain rfl := Except.ok.inj (hin.symm.trans hin')
    exact ⟨_, oldest', hs'⟩
  | add _ ha ih =>
    obtain ⟨k, oldest, hs⟩ := ih
    exact ⟨k, oldest, add_tracks hs ha⟩
  | addDirty _ ha ih =>
    obtain ⟨k, oldest, hs⟩ := ih
    exact ⟨k, oldest, addDirty_tracks hs ha⟩
  | intoDirty _ ih =>
    obtain ⟨k, oldest, hs⟩ := ih
    exact ⟨k, oldest, intoDirty_tracks hs⟩
  | merkleize _ hmr ih =>
    obtain ⟨k, oldest, hs⟩ := ih
    exact ⟨k, oldest, merkleize_tracks hs hmr⟩
  | sync _ hsy ih =>
    obtain ⟨k, oldest, hs⟩ := ih
    obtain ⟨s', hsy', hs', -⟩ := sync_tracks hs (length_le_of_sync hs hsy)
    obtain rfl := Except.ok.inj (hsy.symm.trans hsy')
    exact ⟨_, oldest, hs'⟩
  | prune _ hprune ih =>
    obtain ⟨k, oldest, hs⟩ := ih
    rcases pruneToPos_tracks hs hprune with rfl | hs'
    · exact ⟨k, oldest, hs⟩
    · exact ⟨_, _, hs'⟩
  | pop _ hp ih =>
    obtain ⟨k, oldest, hs⟩ := ih
    obtain ⟨r, s', j, k', hp', -, hs', -, hr⟩ := pop_tracks hs _
    cases hp.symm.trans hp'
    rw [← hr.2]
    exact ⟨k', oldest, hs'⟩
  | popError _ hp ih =>
    obtain ⟨k, oldest, hs⟩ := ih
    obtain ⟨r, s', j, k', hp', hj, hs', -⟩ := pop_tracks hs _
    cases hp.symm.trans hp'
    rw [hs'.size_eq, leavesKept_size, length_take_of_le hj]
    exact ⟨k', oldest, hs'⟩
  | popDirty _ hp ih =>
    obtain ⟨k, oldest, hs⟩ := ih
    obtain ⟨r, s', j, k', hp', -, hs', -, hr⟩ := popDirtyLeaves_tracks hs _
    cases hp.symm.trans hp'
    rw [← hr.2]
    exact ⟨k', oldest, hs'⟩
  | popDirtyError _ hp ih =>
    obtain ⟨k, oldest, hs⟩ := ih
    obtain ⟨r, s', j, k', hp', hj, hs', -⟩ := popDirtyLeaves_tracks hs _
    cases hp.symm.trans hp'
    rw [hs'.size_eq, leavesKept_size, length_take_of_le hj]
    exact ⟨k', oldest, hs'⟩
  | crash _ hlo hhi hkeeps hmt ih =>
    obtain ⟨k, oldest, hs⟩ := ih
    rw [hs.tracks.journalSize_eq] at hlo
    rw [hs.size_eq] at hhi
    exact ⟨oldest, hs.tracks.down le_rfl hs.tracks.pruned_le hlo hhi hkeeps hmt⟩
  | crashDirty _ hkeeps hmt ih =>
    obtain ⟨k, oldest, hs⟩ := ih
    rw [hs.tracks.journalSize_eq] at hkeeps ⊢
    exact ⟨oldest, hs.tracks.down le_rfl hs.tracks.pruned_le le_rfl
      (size_le_size_iff.2 hs.tracks.le_length) hkeeps hmt⟩
  | crashPop _ hcc hlf ht hlo hhi hkeeps hmt ih =>
    obtain ⟨k, oldest, hs⟩ := ih
    exact ⟨oldest, hs.tracks.down_pop popClean_spec hs.holds
      (fun hm => hm.stored.choose_spec.size_eq) hcc hlf ht hlo hhi hkeeps hmt⟩
  | crashPopDirty _ hcc hlf ht hlo hhi hkeeps hmt ih =>
    obtain ⟨k, oldest, hs⟩ := ih
    exact ⟨oldest, hs.tracks.down_pop popDirty_spec hs.holds
      (fun hm => hm.1.stored.choose_spec.size_eq) hcc hlf ht hlo hhi hkeeps hmt⟩
  | crashPrune _ hx hle hsy hu _ hhi hkeeps ih =>
    obtain ⟨k, oldest, hs⟩ := ih
    exact ⟨_, hs.down_prune hx hle hsy hu hhi hkeeps⟩
  | crashInit _ hjr hvl hlo hhi _ hol hkeeps hmt ih =>
    obtain ⟨oldest, hd⟩ := ih
    exact ⟨_, hd.again hjr hvl hlo hhi hol hkeeps hmt⟩

/-! ### Recovery -/

/-- What a range has after its recovery, by the range `m` in memory of the same leaves. -/
structure Recovered (cfg : Fixed.Config D) (leaves : List (List Sym)) (pruneToPos : ℕ)
    (s : CleanJournaled D) (m : CleanMmr D) : Prop where
  leaves_eq : s.memMmr.leaves = .ok leaves.length
  size_eq : s.size = m.size
  root_eq : s.root = m.root
  prunedToPos_eq : s.prunedToPos = pruneToPos
  node : ∀ x, pruneToPos ≤ x → x < s.size →
    ∃ d, m.getNode x = some d ∧ s.getNode cfg x = .ok (some d)
  pinned : ∃ positions, nodesToPin pruneToPos = some positions ∧
    ∀ x ∈ positions, ∃ d, m.getNode x = some d ∧ s.getNode cfg x = .ok (some d)

/-- What can be read of a range, from a position on, is that of the range in memory of some leaves. -/
def Shows (cfg : Fixed.Config D) (hasher : Hasher Sym D) (leaves : List (List Sym)) (x : ℕ)
    (s : CleanJournaled D) : Prop :=
  ∃ m, Reach hasher (.inr m) leaves ∧ m.prunedToPos = 0 ∧ s.size = m.size ∧ s.root = m.root ∧
    ∀ y, x ≤ y → y < s.size → ∃ d, m.getNode y = some d ∧ s.getNode cfg y = .ok (some d)

variable {m : CleanMmr D}

/-- A range and the range in memory of the same leaves. -/
theorem TracksClean.agrees (hs : TracksClean cfg hasher es s k oldest)
    (hm : HoldsClean hasher es m) (hpr : m.prunedToPos = 0) :
    s.size = m.size ∧ s.root = m.root ∧ ∀ y, s.prunedToPos ≤ y → y < s.size →
      ∃ d, m.getNode y = some d ∧ s.getNode cfg y = .ok (some d) := by
  obtain ⟨pin, st⟩ := hm.stored
  refine ⟨hs.size_eq.trans st.size_eq.symm, hs.holds.root_eq.trans hm.root_eq.symm,
    fun x hx hlt => ?_⟩
  rw [hs.size_eq] at hlt
  obtain ⟨h, q, rfl, he⟩ := exists_pos hlt
  exact ⟨_, st.getNode_of he (by simp) (.inl (hpr.trans_le (Nat.zero_le _))),
    getNode_tracks hs he (p := 0) (.inl hx)⟩

theorem TracksClean.shows (hs : TracksClean cfg hasher es s k oldest) :
    Shows cfg hasher es s.prunedToPos s := by
  obtain ⟨m, hrc, hpr⟩ := exists_range hasher hs.holds.length_le
  exact ⟨m, hrc, hpr, hs.agrees hrc.holds hpr⟩

theorem TracksClean.recovered (hs : TracksClean cfg hasher es s k oldest)
    (hlen : es.length ≤ maxLocation) (hm : HoldsClean hasher es m) (hpr : m.prunedToPos = 0) :
    Recovered cfg es s.prunedToPos s m := by
  obtain ⟨pin, st⟩ := hm.stored
  have hmx : s.prunedToPos ≤ maxPosition :=
    hs.tracks.pruned_le.trans (size_le_maxPosition hs.tracks.le_max)
  obtain ⟨p, hpn, hlo, hhi⟩ := nodesToPin_eq hmx
  have hp : p ≤ es.length :=
    (size_le_size_iff.1 (hlo.trans hs.tracks.pruned_le)).trans hs.tracks.le_length
  obtain ⟨hsize, hr, hnd⟩ := hs.agrees hm hpr
  refine ⟨?_, hsize, hr, rfl, hnd, _, hpn, fun x hx => ?_⟩
  · have hsize : s.memMmr.size = size es.length := hs.size_eq
    rw [MemMmr.leaves, hsize, Location.tryFrom_size hlen]
    rfl
  · obtain ⟨⟨h, q⟩, hnd, rfl⟩ := mem_map.1 hx
    have he := (peak_end_le hnd).trans hp
    exact ⟨_, st.getNode_of he (by simp) (.inl (hpr.trans_le (Nat.zero_le _))),
      getNode_tracks hs he (.inr ⟨hlo, hhi, hnd⟩)⟩

/-- **In every run the root and the size are those of a range in memory** with the same leaves. -/
theorem root_of_leaves {s : CleanJournaled D}
    (h : JournaledReach cfg hasher (.clean s) es) (hm : Reach hasher (.inr m) es) :
    s.root = m.root ∧ s.size = m.size := by
  obtain ⟨k, oldest, hs⟩ := h.spec
  obtain ⟨pin, st⟩ := hm.holds.stored
  exact ⟨hs.holds.root_eq.trans hm.holds.root_eq.symm, hs.size_eq.trans st.size_eq.symm⟩

/-! ### Removing leaves -/

/-- **A removal of leaves that is atomic**: an error leaves the range as it was. -/
def Atomic (cfg : Fixed.Config D) (hasher : Hasher Sym D) (es : List (List Sym)) (n : ℕ)
    (s s' : CleanJournaled D) : Except Error Unit → Prop
  | .ok _ => n ≤ es.length ∧ Shows cfg hasher (es.take (es.length - n)) s.prunedToPos s'
  | .error _ => s'.size = s.size ∧ s'.root = s.root ∧ ∀ x, s'.getNode cfg x = s.getNode cfg x

/-- The same for a dirty range: its root and its nodes are read once it is clean. -/
def AtomicDirty (cfg : Fixed.Config D) (hasher : Hasher Sym D) (es : List (List Sym)) (n : ℕ)
    (s s' : DirtyJournaled D) : Except Error Unit → Prop
  | .ok _ => n ≤ es.length ∧ s'.size = size (es.length - n) ∧
      ∀ clean, s'.merkleize hasher = .ok clean →
        Shows cfg hasher (es.take (es.length - n)) s.prunedToPos clean
  | .error _ => s'.size = s.size ∧ s'.merkleize hasher = s.merkleize hasher

/-- All nodes are in the journal if the sizes are the same. -/
theorem Tracks.synced_iff {s : Journaled D S} (hs : Tracks cfg hasher es s k oldest)
    (hsize : s.size = size es.length) : s.journalSize = s.size ↔ k = es.length := by
  rw [hs.journalSize_eq, hsize]
  refine ⟨fun h => le_antisymm (size_le_size_iff.1 h.le) (size_le_size_iff.1 h.ge), ?_⟩
  rintro rfl
  rfl

theorem TracksClean.atomic_iff (hs : TracksClean cfg hasher es s k oldest) (n : ℕ) :
    ∃ r s', s.pop cfg hasher n = .ok (r, s') ∧ (Atomic cfg hasher es n s s' r ↔
        Removable es s.prunedToPos n ∨ s.journalSize = s.size) := by
  obtain ⟨r, s', j, k', hp, hj, hs', hpr, hr⟩ := pop_tracks hs n
  refine ⟨r, s', hp, ?_⟩
  rw [hs.tracks.synced_iff hs.size_eq]
  cases r with
  | ok u =>
    obtain ⟨hrm, rfl⟩ := hr
    have hsh := hs'.shows
    rw [hpr] at hsh
    exact ⟨fun _ => .inl hrm, fun _ => ⟨hrm.1, hsh⟩⟩
  | error e =>
    obtain ⟨hrm, rfl, hsm⟩ := hr
    constructor
    · rintro ⟨hsize, -⟩
      rw [hs'.size_eq, hs.size_eq, length_take_of_le hj] at hsize
      exact .inr (le_antisymm hj (size_le_size_iff.1 hsize.ge))
    · rintro (h | h)
      · exact absurd h hrm
      · rw [hsm h]
        exact ⟨rfl, rfl, fun _ => rfl⟩

theorem TracksDirty.atomic_iff {s : DirtyJournaled D} (hs : TracksDirty cfg hasher es s k oldest)
    (n : ℕ) : ∃ r s', s.popDirtyLeaves cfg n = .ok (r, s') ∧ (AtomicDirty cfg hasher es n s s' r ↔
        Removable es s.prunedToPos n ∨ s.journalSize = s.size) := by
  obtain ⟨r, s', j, k', hp, hj, hs', hpr, hr⟩ := popDirtyLeaves_tracks hs n
  have hsize' := hs'.size_eq
  rw [length_take_of_le hj] at hsize'
  refine ⟨r, s', hp, ?_⟩
  rw [hs.tracks.synced_iff hs.size_eq]
  cases r with
  | ok u =>
    obtain ⟨hrm, rfl⟩ := hr
    refine ⟨fun _ => .inl hrm, fun _ => ⟨hrm.1, hsize', fun clean hcl => ?_⟩⟩
    have hsh := (merkleize_tracks hs' hcl).shows
    obtain ⟨m, -, hrs⟩ := bind_eq_ok.1 hcl
    cases hrs
    rwa [hpr] at hsh
  | error e =>
    obtain ⟨hrm, rfl, hsm⟩ := hr
    constructor
    · rintro ⟨hsize, -⟩
      rw [hsize', hs.size_eq] at hsize
      exact .inr (le_antisymm hj (size_le_size_iff.1 hsize.ge))
    · rintro (h | h)
      · exact absurd h hrm
      · rw [hsm h]
        exact ⟨rfl, rfl⟩

/-- **Removing leaves is atomic** just if the leaves can be removed, or if all nodes are in the
journal: a removal that fails has removed the leaves that were only in memory. -/
theorem pop_atomic_iff (cfg : Fixed.Config D) (hasher : Hasher Sym D) (es : List (List Sym)) (n : ℕ) :
    (∀ s, JournaledReach cfg hasher (.clean s) es → ∃ r s', s.pop cfg hasher n = .ok (r, s') ∧
        (Atomic cfg hasher es n s s' r ↔ Removable es s.prunedToPos n ∨ s.journalSize = s.size)) ∧
    ∀ s, JournaledReach cfg hasher (.dirty s) es → ∃ r s', s.popDirtyLeaves cfg n = .ok (r, s') ∧
        (AtomicDirty cfg hasher es n s s' r ↔
          Removable es s.prunedToPos n ∨ s.journalSize = s.size) := by
  constructor
  · intro s hrc
    obtain ⟨k, oldest, hs⟩ := hrc.spec
    exact hs.atomic_iff n
  · intro s hrc
    obtain ⟨k, oldest, hs⟩ := hrc.spec
    exact hs.atomic_iff n

/-! ### Ranges that are not written yet -/

theorem exists_journaled_add {k : ℕ} (hs : TracksClean cfg hasher es s k oldest)
    (hlen : es.length < 2 ^ 62) (e : List Sym) :
    ∃ x s', s.add hasher e = .ok (x, s') ∧ s'.metadata = s.metadata := by
  obtain ⟨x, m, ha⟩ := exists_add (intoDirty_holds hs.holds) hlen.le e
  obtain ⟨hm, -, -⟩ := add_holds (intoDirty_holds hs.holds) ha
  obtain ⟨m', hmr, -, -⟩ :=
    merkleize_holds hm (by rw [length_append, length_singleton]; omega)
  refine ⟨x, { s with memMmr := m' }, ?_, rfl⟩
  rw [Journaled.add, ha]
  refine bind_eq_ok.2 ⟨_, rfl, ?_⟩
  simp only [hmr]
  rfl

theorem exists_journaled (hlen : es.length ≤ 2 ^ 62) :
    ∃ s : CleanJournaled D, JournaledReach cfg hasher (.clean s) es ∧
      TracksClean cfg hasher es s 0 0 ∧ s.metadata = ⟨0, OrdMap.empty⟩ := by
  induction es using List.reverseRecOn with
  | nil =>
    have hd := @down_fresh _ _ cfg hasher
    obtain ⟨s, hin, hs, -, hmt⟩ := init_empty hd
    refine ⟨s, ?_, hs, hmt⟩
    have hrc := JournaledReach.init JournaledReach.fresh hin
    rwa [take_nil] at hrc
  | append_singleton es e ih =>
    rw [length_append, length_singleton] at hlen
    obtain ⟨s, hrc, hs, hmt⟩ := ih (by omega)
    obtain ⟨x, s', ha, hmt'⟩ := exists_journaled_add hs (by omega) e
    exact ⟨s', hrc.add ha, add_tracks hs ha, hmt'.trans hmt⟩

/-- A crash can leave any number of nodes that were being written. -/
theorem exists_crash (hlen : es.length ≤ 2 ^ 62) (hkp : kept ≤ size es.length) :
    ∃ disk : Disk D, JournaledReach cfg hasher (.down disk kept) es := by
  obtain ⟨s, hrc, hs, hmt⟩ := @exists_journaled _ _ cfg hasher es hlen
  refine ⟨⟨Fixed.Partition.ofRecords cfg 0 (nodeRecords cfg hasher es kept), s.metadata⟩,
    hrc.crash ?_ ?_ ?_ rfl⟩
  · rw [hs.tracks.journalSize_eq, size_zero]
    exact Nat.zero_le _
  · rw [hs.size_eq]
    exact hkp
  · rw [hs.tracks.oldestBlobIndex_eq]
    exact keeps_ofRecords (by simp) hkp

def Sample.oneByte : Hasher UInt8 UInt8 where
  leafDigest := fun x element => UInt8.ofNat x + element.sum
  nodeDigest := fun x left right => UInt8.ofNat x + 3 * left + 5 * right
  root := fun x digests => UInt8.ofNat x + digests.sum
  empty := 0

/-- A range has one leaf, which is not written yet.  The removal of two leaves fails, and the leaf is
gone. -/
theorem pop_not_atomic : ∃ s s' : CleanJournaled UInt8, ∃ e,
      JournaledReach Fixed.Sample.bytes Sample.oneByte (.clean s) [[1]] ∧
      s.pop Fixed.Sample.bytes Sample.oneByte 2 = .ok (.error e, s') ∧ s.size = 1 ∧ s'.size = 0 := by
  have hone : size 1 = 1 := by norm_num [size, ones]
  obtain ⟨s, hrc, hs, -⟩ :=
    @exists_journaled _ _ Fixed.Sample.bytes Sample.oneByte [[1]] (by norm_num)
  obtain ⟨r, s', j, k', hp, -, hs', -, hr⟩ := pop_tracks hs 2
  cases r with
  | ok u => exact absurd hr.1.1 (by decide)
  | error e =>
    obtain ⟨-, rfl, -⟩ := hr
    exact ⟨s, s', e, hrc, hp, hs.size_eq.trans hone, hs'.size_eq.trans size_zero⟩

/-- The removal of the one leaf does not fail. -/
theorem pop_atomic_one :
    ∃ s r s', JournaledReach Fixed.Sample.bytes Sample.oneByte (.clean s) [[1]] ∧
      s.pop Fixed.Sample.bytes Sample.oneByte 1 = .ok (r, s') ∧
      Atomic Fixed.Sample.bytes Sample.oneByte [[1]] 1 s s' r := by
  obtain ⟨s, hrc, hs, -⟩ :=
    @exists_journaled _ _ Fixed.Sample.bytes Sample.oneByte [[1]] (by norm_num)
  obtain ⟨r, s', hp, hif⟩ :=
    (pop_atomic_iff Fixed.Sample.bytes Sample.oneByte [[1]] 1).1 s hrc
  exact ⟨s, r, s', hrc, hp, hif.2 (.inl ⟨le_rfl, hs.tracks.pruned_le⟩)⟩

theorem root_of_one_leaf : ∃ s m, JournaledReach Fixed.Sample.bytes Sample.oneByte (.clean s) [[1]] ∧
    Reach Sample.oneByte (.inr m) [[1]] ∧ s.root = m.root ∧ s.size = m.size := by
  obtain ⟨s, hrc, -⟩ :=
    @exists_journaled _ _ Fixed.Sample.bytes Sample.oneByte [[1]] (by norm_num)
  obtain ⟨m, hm, -⟩ := exists_range Sample.oneByte (show [[1]].length ≤ 2 ^ 62 by norm_num)
  exact ⟨s, m, hrc, hm, root_of_leaves hrc hm⟩

end Commonware.Mmr
