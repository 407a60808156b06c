/-
**Ranges that are made of pinned nodes.**

A range can be made of nothing but its size and its pinned nodes, as if it had been populated, synced
and pruned to its size.  Its journal is created at this size, with zeros where the tail blob would have
nodes (`init_journal_at_size` in `storage/src/qmdb/any/unordered/fixed/sync.rs`).  When the journal is
opened again, records of zeros at its end are taken for a torn write and removed.  Nothing is removed
exactly if the size is a multiple of the number of nodes in a blob.

Main definitions:

* `populate` — a range that is populated, synced and pruned to its size;
* `Op`, `observe` — what later operations return;
* `Equivalent`, `Preserved` — the ranges behave alike, and are the same once they are opened again.

Main results:

* `initFromPinnedNodes_eq` — if the size is a multiple, **both ranges are the same**;
* `pinned_equivalent_iff` — **when a range of pinned nodes is as good as a populated one**.
-/

import Commonware.JournaledRecovery

set_option autoImplicit false

namespace Commonware.Mmr

open MountainRange List Fixed
open Journaled (Metadata Disk CleanJournaled)

variable {Sym D S : Type} {cfg : Fixed.Config D} {hasher : Hasher Sym D} {es : List (List Sym)}
  {k oldest : ℕ}

/-! ### Observations -/

/-- A range that is populated, synced and pruned to its size. -/
def populate (cfg : Fixed.Config D) (hasher : Hasher Sym D) (es : List (List Sym)) :
    Except Journaled.Failure (CleanJournaled D) := do
  let s ← Journaled.init cfg hasher ⟨OrdMap.empty, ⟨0, OrdMap.empty⟩⟩
  let s ← es.foldlM (fun s e => (s.add hasher e).map Prod.snd) s
  let s ← s.sync cfg
  s.pruneToPos cfg s.size

inductive Op (Sym : Type)
  | add (element : List Sym)
  | proof (start stop : ℕ)
  | historicalProof (size start stop : ℕ)
  | pop (leavesToPop : ℕ)
  | prune (pos : ℕ)
  | sync
  | reopen

inductive Output (D : Type)
  | added (pos : ℕ)
  | proof (result : Except Journaled.Failure (Proof D))
  | popped (result : Except Error Unit)
  | done

def Op.run (cfg : Fixed.Config D) (hasher : Hasher Sym D) (s : CleanJournaled D) :
    Op Sym → Except Journaled.Failure (Output D × CleanJournaled D)
  | .add element => do
      let (pos, s) ← s.add hasher element
      pure (.added pos, s)
  | .proof start stop => pure (.proof (s.rangeProof cfg start stop), s)
  | .historicalProof size start stop =>
    pure (.proof (s.historicalRangeProof cfg size start stop), s)
  | .pop leavesToPop => do
      let (result, s) ← s.pop cfg hasher leavesToPop
      pure (.popped result, s)
  | .prune pos => do
      let s ← s.pruneToPos cfg pos
      pure (.done, s)
  | .sync => do
      let s ← s.sync cfg
      pure (.done, s)
  | .reopen => do
      let disk ← s.close cfg
      let s ← Journaled.init cfg hasher disk
      pure (.done, s)

/-- What can be seen of an operation: its output, and the size, the root and the pruning boundary
after it. -/
structure Seen (D : Type) where
  output : Output D
  size : ℕ
  root : D
  prunedToPos : ℕ

/-- What can be seen of operations, up to the first one that fails. -/
def observe (cfg : Fixed.Config D) (hasher : Hasher Sym D) :
    List (Op Sym) → CleanJournaled D → List (Except Journaled.Failure (Seen D))
  | [], _ => []
  | op :: ops, s =>
    match op.run cfg hasher s with
    | .error f => [.error f]
    | .ok (output, s) =>
      .ok ⟨output, s.size, s.root, s.prunedToPos⟩ :: observe cfg hasher ops s

/-- Two ranges behave alike. -/
def Equivalent (cfg : Fixed.Config D) (hasher : Hasher Sym D) (s s' : CleanJournaled D) : Prop :=
  s.size = s'.size ∧ s.root = s'.root ∧ s.prunedToPos = s'.prunedToPos ∧
    ∀ ops, observe cfg hasher ops s = observe cfg hasher ops s'

/-- A range of the leaves `es`, with more leaves or without, is the same after it was closed and
opened. -/
def Preserved (cfg : Fixed.Config D) (hasher : Hasher Sym D) (es : List (List Sym))
    (s : CleanJournaled D) : Prop :=
  ∀ added s' disk, added.foldlM (fun s e => (s.add hasher e).map Prod.snd) s = .ok s' →
    s'.close cfg = .ok disk → ∃ s'', Journaled.init cfg hasher disk = .ok s'' ∧
      s''.size = size (es ++ added).length ∧ s''.root = rootOf hasher (es ++ added) ∧
      s''.prunedToPos = s.prunedToPos

/-! ### Adding and closing -/

variable {s : CleanJournaled D} {added : List (List Sym)}

theorem addAll_tracks {s' : CleanJournaled D}
    (hs : TracksClean cfg hasher es s k oldest)
    (ha : added.foldlM (fun s e => (s.add hasher e).map Prod.snd) s = .ok s') :
    TracksClean cfg hasher (es ++ added) s' k oldest ∧ s'.prunedToPos = s.prunedToPos ∧
      s'.metadata = s.metadata := by
  induction added generalizing es s with
  | nil =>
    cases ha
    rw [append_nil]
    exact ⟨hs, rfl, rfl⟩
  | cons e added ih =>
    rw [foldlM_cons] at ha
    obtain ⟨s₁, hst, hr⟩ := bind_eq_ok.1 ha
    cases hone : s.add hasher e with
    | error f =>
      rw [hone] at hst
      cases hst
    | ok result =>
      obtain ⟨x, s₂⟩ := result
      rw [hone] at hst
      cases hst
      have hs₁ := add_tracks hs hone
      obtain ⟨⟨y, dirty⟩, -, hrn⟩ := bind_eq_ok.1 hone
      obtain ⟨m, -, hrn⟩ := bind_eq_ok.1 hrn
      cases hrn
      obtain ⟨hs', hpr, hmt⟩ := ih hs₁ hr
      rw [append_assoc, singleton_append] at hs'
      exact ⟨hs', hpr, hmt⟩

/-- **A range is the same after it was closed and opened.** -/
theorem TracksClean.preserved (hs : TracksClean cfg hasher es s k oldest) :
    Preserved cfg hasher es s := by
  intro added s' disk ha hcl
  obtain ⟨hs', hpr, -⟩ := addAll_tracks hs ha
  obtain ⟨s₁, hsy, hr⟩ := bind_eq_ok.1 hcl
  cases hr
  have hlen := length_le_of_sync hs' hsy
  obtain ⟨s₂, hsy', hs₁, hpr', -⟩ := sync_tracks hs' hlen
  obtain rfl := Except.ok.inj (hsy.symm.trans hsy')
  have ho := hs₁.tracks.oldest_le.trans hs₁.tracks.pruned_le
  have hkeeps : Keeps cfg hasher (es ++ added) s₁.journal.oldestBlobIndex (size (es ++ added).length)
      s₁.journal.close := by
    rw [hs₁.tracks.oldestBlobIndex_eq, hs₁.tracks.journal_eq, nodeJournal,
      close_ofRecords (oldest_le ho le_rfl)]
    exact keeps_ofRecords ho le_rfl
  have hd : Down cfg hasher (es ++ added) (⟨s₁.journal.close, s₁.metadata⟩ : Disk D) oldest
      (size (es ++ added).length) :=
    hs₁.tracks.down le_rfl hs₁.tracks.pruned_le le_rfl le_rfl hkeeps rfl
  obtain ⟨s'', oldest'', hin, hs'', hpr'', -⟩ :=
    init_tracks hd (by rwa [leavesKept_size])
  rw [leavesKept_size, take_length] at hs''
  refine ⟨s'', hin, hs''.size_eq, hs''.holds.root_eq, ?_⟩
  rw [hpr'', hs₁.tracks.prunePos_eq, hpr', hpr]

theorem exists_addAll (hs : TracksClean cfg hasher es s k oldest)
    (hlen : (es ++ added).length ≤ 2 ^ 62) :
    ∃ s', added.foldlM (fun s e => (s.add hasher e).map Prod.snd) s = .ok s' := by
  induction added generalizing es s with
  | nil => exact ⟨s, rfl⟩
  | cons e added ih =>
    have hr : es.length < 2 ^ 62 := by
      rw [length_append, length_cons] at hlen
      omega
    obtain ⟨x, s₁, ha, -⟩ := exists_journaled_add hs hr e
    obtain ⟨s', hrs⟩ := ih (add_tracks hs ha) (by rwa [append_assoc])
    refine ⟨s', ?_⟩
    rw [foldlM_cons, ha]
    exact hrs

/-! ### A size at the start of a blob -/

/-- The range that is left when all nodes are pruned. -/
def prunedMmr (hasher : Hasher Sym D) (es : List (List Sym)) : CleanMmr D :=
  ⟨[], size es.length, (peaks es.length).map fun node =>
    (pos node.1 node.2, digestAt hasher es node.1 node.2), ⟨rootOf hasher es⟩⟩

variable {m : CleanMmr D}

theorem eq_prunedMmr (hm : HoldsClean hasher es m) (hpr : m.prunedToPos = size es.length)
    (hpn : m.pinnedNodes = peakEntries hasher es es.length) : m = prunedMmr hasher es := by
  obtain ⟨pin, st⟩ := hm.stored
  have hsize : m.nodes.length + m.prunedToPos = size es.length := st.size_eq
  have hnd : m.nodes = [] := eq_nil_of_length_eq_zero (by omega)
  have hr : m.state = ⟨rootOf hasher es⟩ := congrArg Clean.mk hm.root_eq
  obtain ⟨nodes, prunedToPos, pinnedNodes, state⟩ := m
  dsimp only at hnd hpr hpn hr
  rw [hnd, hpr, hpn, hr, prunedMmr]

theorem init_prunedMmr (hlen : es.length ≤ maxLocation) :
    MemMmr.init [] (size es.length) (peakDigests hasher es) hasher = .ok (prunedMmr hasher es) := by
  obtain ⟨m, hm, hh, hpr, hpn⟩ := @init_holds _ _ hasher es hlen
  rw [hm, eq_prunedMmr hh hpr hpn]

theorem pruneAll_prunedMmr (hm : HoldsClean hasher es m) (hlen : es.length ≤ maxLocation)
    (h : m.nodes = [] → m = prunedMmr hasher es) : m.pruneAll = .ok (prunedMmr hasher es) := by
  obtain ⟨m', hprune, hh, hpr, ⟨hnl, rfl⟩ | hpn⟩ := pruneAll_holds hm hlen
  · rw [hprune, h hnl]
  · rw [hprune, eq_prunedMmr hh hpr hpn]

theorem addPinnedNodes_nil (m : MemMmr D S) : m.addPinnedNodes [] = m := by
  simp [MemMmr.addPinnedNodes]

theorem addPinnedNodes_self (m : MemMmr D S) : m.addPinnedNodes m.pinnedNodes = m := by
  have hf : m.pinnedNodes.filter (fun node =>
      decide (node.1 ∉ m.pinnedNodes.map Prod.fst)) = [] := by
    refine filter_eq_nil_iff.2 fun node hnd => ?_
    simpa using ⟨node.2, hnd⟩
  rw [MemMmr.addPinnedNodes, hf, append_nil]

/-- The metadata with the peaks of a range that is pruned to its size. -/
def peakMetadata (hasher : Hasher Sym D) (es : List (List Sym)) : Metadata D :=
  ⟨size es.length, ((peaks es.length).map fun node =>
    (pos node.1 node.2, digestAt hasher es node.1 node.2)).foldl
      (fun nodes node => nodes.insert node.1 node.2) OrdMap.empty⟩

/-- A range that is pruned to its size, over a journal. -/
def prunedRange (hasher : Hasher Sym D) (es : List (List Sym)) (journal : Fixed.Journal) :
    CleanJournaled D :=
  ⟨prunedMmr hasher es, journal, size es.length, peakMetadata hasher es, size es.length⟩

theorem initFromPinnedNodes_eq (hlen : es.length ≤ maxLocation) :
    Journaled.initFromPinnedNodes cfg hasher (peakDigests hasher es) (size es.length) =
      .ok (prunedRange hasher es (initJournalAtSize cfg (size es.length))) := by
  have hp := nodesToPin_of (size_le_maxPosition hlen) le_rfl (size_lt_size_succ es.length)
  rw [Journaled.initFromPinnedNodes, hp, init_prunedMmr hlen, peakDigests]
  refine bind_eq_ok.2 ⟨_, rfl, bind_eq_ok.2 ⟨_, rfl, ?_⟩⟩
  rw [zip_digests]
  rfl

theorem sync_prunedMmr (hs : TracksClean cfg hasher es s k oldest) (hlen : es.length ≤ maxLocation)
    (hpr : s.prunedToPos = 0) (h : s.memMmr.nodes = [] → s.memMmr = prunedMmr hasher es) :
    s.sync cfg = .ok ⟨prunedMmr hasher es, nodeJournal cfg hasher es oldest (size es.length),
      size es.length, s.metadata, 0⟩ := by
  have hlo : size 0 ≤ s.prunedToPos := by rw [hpr, size_zero]
  have hhi : s.prunedToPos < size (0 + 1) := by
    rw [hpr, ← size_zero]
    exact size_lt_size_succ 0
  have hnl : peaks 0 = [] := by simp [peaks, peaksBelow]
  rw [sync_eq hs (pruneAll_prunedMmr hs.holds hlen h) hlo hhi, peakEntries, hnl,
    map_nil, addPinnedNodes_nil, hpr]

theorem init_fresh : Journaled.init cfg hasher ⟨OrdMap.empty, ⟨0, OrdMap.empty⟩⟩ =
      .ok ⟨prunedMmr hasher [], nodeJournal cfg hasher [] 0 0, 0, ⟨0, OrdMap.empty⟩, 0⟩ := by
  have hd := @down_fresh _ _ cfg hasher
  have hm := @init_prunedMmr _ _ hasher [] (Nat.zero_le _)
  have hnl : peakDigests hasher ([] : List (List Sym)) = [] := by
    simp [peakDigests, peaks, peaksBelow]
  rw [hnl, length_nil, size_zero] at hm
  rw [Journaled.init, hd.keeps]
  simp only [Journaled.ofJournal, bind, Except.bind, size_nodeJournal hd.kept_le, if_true]
  rw [hm]
  rfl

/-- A range that is pruned to its size, after it was synced. -/
theorem pruneToPos_prunedMmr (hs : TracksClean cfg hasher es s k oldest)
    (hlen : es.length ≤ maxLocation) (hpr : s.prunedToPos = 0)
    (hmt : s.metadata.nodes = OrdMap.empty) (hp : 0 < size es.length)
    (h : s.memMmr.nodes = [] → s.memMmr = prunedMmr hasher es) :
    s.pruneToPos cfg (size es.length) = .ok (prunedRange hasher es
      (nodeJournal cfg hasher es (size es.length / cfg.itemsPerBlob) (size es.length))) := by
  obtain ⟨s₁, hsy, hs₁, hpr₁, hmt₁⟩ := sync_tracks hs hlen
  have hsy' := sync_prunedMmr hs hlen hpr h
  obtain rfl := Except.ok.inj (hsy.symm.trans hsy')
  obtain ⟨metadata, hu, hmq, -⟩ := updateMetadata_tracks hs₁ (Nat.zero_le (size es.length))
    le_rfl (size_lt_size_succ es.length) le_rfl
  have hol : oldest * cfg.itemsPerBlob ≤ size es.length := hs₁.tracks.oldest_le.trans (Nat.zero_le _)
  rw [Journaled.pruneToPos, hs.size_eq, if_neg (Nat.lt_irrefl _), hpr, if_neg (Nat.not_le.2 hp)]
  refine bind_eq_ok.2 ⟨_, hsy', bind_eq_ok.2 ⟨_, hu, ?_⟩⟩
  dsimp only
  rw [hmq, hmt, oldest_prune hol le_rfl hol le_rfl]
  exact congrArg (fun m => Except.ok (⟨m, _, _, _, _⟩ : CleanJournaled D))
    (addPinnedNodes_self (prunedMmr hasher es))

/-- **What is left of a range that was populated and pruned.** -/
theorem populate_eq (h : populate cfg hasher es = .ok s) :
    es.length ≤ maxLocation ∧ (∃ k oldest, TracksClean cfg hasher es s k oldest) ∧
      s = prunedRange hasher es
        (nodeJournal cfg hasher es (size es.length / cfg.itemsPerBlob) (size es.length)) := by
  obtain ⟨s₀, hin, h⟩ := bind_eq_ok.1 h
  obtain ⟨s₁, ha, h⟩ := bind_eq_ok.1 h
  obtain ⟨s₂, hsy, h⟩ := bind_eq_ok.1 h
  obtain ⟨s₀', hin', hs₀, -⟩ := init_empty (@down_fresh _ _ cfg hasher)
  obtain rfl := Except.ok.inj (hin.symm.trans hin')
  obtain rfl := Except.ok.inj (hin.symm.trans init_fresh)
  obtain ⟨hs₁, hpr, hmt⟩ := addAll_tracks hs₀ ha
  rw [nil_append] at hs₁
  have hlen := length_le_of_sync hs₁ hsy
  have hmem : s₁.memMmr.nodes = [] → s₁.memMmr = prunedMmr hasher es := by
    intro hnl
    obtain ⟨pin, st⟩ := hs₁.holds.stored
    have hsize : s₁.memMmr.nodes.length + s₁.memMmr.prunedToPos = size es.length := st.size_eq
    rw [hnl, hs₁.tracks.boundary, length_nil, size_zero] at hsize
    have hnn : es = [] := eq_nil_of_length_eq_zero
      (Nat.le_zero.1 ((le_size es.length).trans hsize.ge))
    subst hnn
    cases ha
    rfl
  have hsy' := sync_prunedMmr hs₁ hlen hpr hmem
  obtain ⟨s₂', hsy'', hs₂, -⟩ := sync_tracks hs₁ hlen
  obtain rfl := Except.ok.inj (hsy.symm.trans hsy'')
  obtain rfl := Except.ok.inj (hsy.symm.trans hsy')
  have ht : ∃ k oldest, TracksClean cfg hasher es s k oldest := by
    rcases pruneToPos_tracks hs₂ h with rfl | hs
    · exact ⟨_, _, hs₂⟩
    · exact ⟨_, _, hs⟩
  refine ⟨hlen, ht, ?_⟩
  rw [hs₂.size_eq] at h
  rcases Nat.eq_zero_or_pos (size es.length) with hz | hp
  · have hnn : es = [] := eq_nil_of_length_eq_zero
      (Nat.le_zero.1 ((le_size es.length).trans hz.le))
    subst hnn
    rw [Journaled.pruneToPos, if_neg (by rw [hz]; exact Nat.not_lt_zero _),
      if_pos (by rw [hz])] at h
    cases h
    simp [hmt, prunedRange, peakMetadata, peaks, peaksBelow]
  · have hprune := pruneToPos_prunedMmr hs₂ hlen rfl (by rw [hmt]) hp fun _ => rfl
    exact Except.ok.inj (h.symm.trans hprune)

theorem exists_prune_all (hs : TracksClean cfg hasher es s k oldest)
    (hlen : es.length ≤ maxLocation) : ∃ s', s.pruneToPos cfg s.size = .ok s' := by
  rw [hs.size_eq, Journaled.pruneToPos, if_neg (by rw [hs.size_eq]; exact Nat.lt_irrefl _)]
  split_ifs with hle
  · exact ⟨s, rfl⟩
  · obtain ⟨s₁, hsy, hs₁, hpr, -⟩ := sync_tracks hs hlen
    obtain ⟨metadata, hu, -⟩ := updateMetadata_tracks hs₁
      (hpr.trans_le (Nat.le_of_not_le hle)) le_rfl (size_lt_size_succ es.length) le_rfl
    exact ⟨_, bind_eq_ok.2 ⟨_, hsy, bind_eq_ok.2 ⟨_, hu, rfl⟩⟩⟩

/-! ### A journal that is created at a size -/

theorem initJournalAtSize_nodeJournal (h : (cfg.itemsPerBlob : ℕ) ∣ size es.length) :
    initJournalAtSize cfg (size es.length) =
      nodeJournal cfg hasher es (size es.length / cfg.itemsPerBlob) (size es.length) := by
  have hsl : ∀ rs : List (List UInt8), rs.length = size es.length →
      slice cfg rs (size es.length / cfg.itemsPerBlob) = [] := by
    intro rs hrs
    rw [slice, Nat.div_mul_cancel h, drop_of_length_le hrs.le, take_nil]
  rw [initJournalAtSize_eq, nodeJournal]
  simp only [Fixed.Journal.ofRecords, length_replicate, length_nodeRecords le_rfl,
    Nat.sub_self, range'_zero, map_nil, hsl _ length_replicate,
    hsl _ (length_nodeRecords le_rfl)]

theorem size_initJournalAtSize (n : ℕ) : (initJournalAtSize cfg n).size = n := by
  rw [initJournalAtSize_eq, size_ofRecords, length_replicate]

theorem sync_pinned (hlen : es.length ≤ maxLocation) :
    (prunedRange hasher es (initJournalAtSize cfg (size es.length))).sync cfg =
      .ok (prunedRange hasher es (initJournalAtSize cfg (size es.length))) := by
  have hp := nodesToPin_of (size_le_maxPosition hlen) le_rfl (size_lt_size_succ es.length)
  have hsize : (prunedMmr hasher es).size = size es.length := Nat.zero_add _
  have hrd : ((peaks es.length).map fun node => pos node.1 node.2).mapM
      (fun x => Journaled.ofMmr ((prunedMmr hasher es).getNodeUnchecked x)) =
        .ok ((peaks es.length).map fun node => digestAt hasher es node.1 node.2) := by
    rw [mapM_map]
    refine mapM_eq_ok fun node hnd => ?_
    have hlt : pos node.1 node.2 < size es.length := pos_lt_size_iff.2 (peak_end_le hnd)
    have hg : (prunedMmr hasher es).getNode (pos node.1 node.2) =
        some (digestAt hasher es node.1 node.2) := by
      rw [MemMmr.getNode, prunedMmr, if_pos hlt]
      exact @lookup_peaks _ (digestAt hasher es) _ _ hnd
    exact ofMmr_eq_ok.2 (orPanic_eq_ok.2 hg)
  have hprune : (prunedMmr hasher es).pruneAll = .ok (prunedMmr hasher es) := if_pos rfl
  simp only [Journaled.sync, prunedRange, Journaled.size, hsize, Nat.sub_self, range'_zero]
  refine bind_eq_ok.2 ⟨_, rfl, ?_⟩
  rw [if_neg (by rw [size_initJournalAtSize]; exact fun h => h rfl), hp]
  refine bind_eq_ok.2 ⟨_, rfl, bind_eq_ok.2 ⟨_, hrd, ?_⟩⟩
  rw [hprune, zip_digests]
  exact congrArg (fun m => Except.ok (⟨m, _, _, _, _⟩ : CleanJournaled D))
    (addPinnedNodes_self (prunedMmr hasher es))

variable {sz : ℕ}

/-- **The zeros at the end are removed.** -/
theorem init_zeros (hz : mismatch cfg (replicate cfg.chunkSize 0) = true) :
    Fixed.Journal.init cfg (initJournalAtSize cfg sz).close =
      .ok (initJournalAtSize cfg (sz / cfg.itemsPerBlob * cfg.itemsPerBlob)) := by
  have hrs : ∀ r ∈ replicate sz (replicate cfg.chunkSize (0 : UInt8)),
      r.length = cfg.chunkSize := by
    intro r hr
    rw [eq_of_mem_replicate hr, length_replicate]
  have hle : sz / cfg.itemsPerBlob ≤
      (replicate sz (replicate cfg.chunkSize (0 : UInt8))).length / cfg.itemsPerBlob := by
    rw [length_replicate]
  have ha : ∀ r ∈ slice cfg (replicate sz (replicate cfg.chunkSize (0 : UInt8)))
      (sz / cfg.itemsPerBlob), mismatch cfg r = true := by
    intro r hr
    rw [slice_replicate] at hr
    rw [eq_of_mem_replicate hr, hz]
  have hst : settle cfg (replicate sz (replicate cfg.chunkSize (0 : UInt8))) =
      replicate (sz / cfg.itemsPerBlob * cfg.itemsPerBlob)
        (replicate cfg.chunkSize 0) := by
    rw [settle, length_replicate, rdropWhile_eq_nil_iff.2 ha, append_nil,
      take_replicate, Nat.min_eq_left (Nat.div_mul_le_self _ _)]
  rw [initJournalAtSize_eq, close_ofRecords hle, init_ofRecords hrs hle, hst,
    initJournalAtSize_eq, Nat.mul_div_cancel _ cfg.itemsPerBlob.pos]
  intro r hr hm
  rw [length_replicate] at hr
  rw [ha r hr] at hm
  cases hm

theorem init_size {x : ℕ} {pins : List D} (h : MemMmr.init [] x pins hasher = .ok m) :
    m.size = x := by
  simp only [MemMmr.init] at h
  split_ifs at h with hvl
  obtain ⟨positions, -, h⟩ := bind_eq_ok.1 h
  split_ifs at h with hpn
  obtain ⟨m', hsr, h⟩ := bind_eq_ok.1 h
  obtain ⟨peaks, -, h⟩ := bind_eq_ok.1 h
  obtain ⟨digests, -, h⟩ := bind_eq_ok.1 h
  cases h
  simp only [MemMmr.merkleizeSerial, mergeSort_nil] at hsr
  cases hsr
  exact Nat.zero_add _

variable {metadata : Metadata D}

theorem openAt_size {journal : Fixed.Journal} {x : ℕ}
    (h : Journaled.openAt cfg hasher metadata journal x = .ok s) : s.size = x := by
  obtain ⟨positions, -, h⟩ := bind_eq_ok.1 h
  obtain ⟨pins, -, h⟩ := bind_eq_ok.1 h
  obtain ⟨m, hm, h⟩ := bind_eq_ok.1 h
  obtain ⟨m', hm', h⟩ := bind_eq_ok.1 h
  obtain ⟨positions', -, hm'⟩ := bind_eq_ok.1 hm'
  obtain ⟨digests, -, hm'⟩ := bind_eq_ok.1 hm'
  cases hm'
  cases h
  have hsize : m.size = x := init_size (ofMmr_eq_ok.1 hm)
  exact hsize

/-- A journal of whole blobs that are all pruned cannot be rewound. -/
theorem rewind_zeros {v : ℕ} (hdv : (cfg.itemsPerBlob : ℕ) ∣ sz) (hv : v < sz) :
    (initJournalAtSize cfg sz).rewind cfg v = .error (.error (.invalidRewind v)) := by
  have hlt : v / cfg.itemsPerBlob < sz / cfg.itemsPerBlob :=
    Nat.div_lt_div_of_lt_of_dvd hdv hv
  rw [initJournalAtSize_eq, Fixed.Journal.rewind, size_ofRecords,
    length_replicate, if_neg (Nat.not_lt.2 hv.le), if_neg hv.ne]
  rw [oldestBlobIndex_ofRecords (by rw [length_replicate])]
  exact if_pos hlt

theorem recover_zeros (hdv : (cfg.itemsPerBlob : ℕ) ∣ sz)
    (h : Journaled.recover cfg hasher metadata (initJournalAtSize cfg sz) = .ok s) :
    s.size = sz := by
  rw [Journaled.recover, size_initJournalAtSize] at h
  obtain ⟨v, hv, h⟩ := bind_eq_ok.1 h
  have hv := orPanic_eq_ok.1 (ofMmr_eq_ok.1 hv)
  split_ifs at h with hne
  · have hle : v ≤ sz := by
      obtain ⟨n, hn, hle, -⟩ := toNearestSize_spec (le_maxPosition_of_toNearestSize hv)
      obtain rfl := Option.some.inj (hv.symm.trans hn)
      exact hle
    rw [rewind_zeros hdv (by omega)] at h
    obtain ⟨j, hj, -⟩ := bind_eq_ok.1 h
    cases hj
  · exact openAt_size h

/-- **What is opened of a range of pinned nodes** loses the nodes of the tail blob. -/
theorem init_zeros_size (hz : mismatch cfg (replicate cfg.chunkSize 0) = true)
    (h : Journaled.init cfg hasher ⟨(initJournalAtSize cfg sz).close, metadata⟩ = .ok s) :
    s.size = sz / cfg.itemsPerBlob * cfg.itemsPerBlob := by
  have hdv : (cfg.itemsPerBlob : ℕ) ∣ sz / cfg.itemsPerBlob * cfg.itemsPerBlob :=
    Nat.dvd_mul_left _ _
  rw [Journaled.init, init_zeros hz] at h
  generalize hc : sz / cfg.itemsPerBlob * cfg.itemsPerBlob = c at *
  have hprune : ((initJournalAtSize cfg c).prune cfg metadata.pruneToPos).2 =
      initJournalAtSize cfg c := by
    rw [initJournalAtSize_eq, prune_ofRecords (by rw [length_replicate]),
      length_replicate, Nat.max_eq_left (Nat.min_le_right _ _)]
  obtain ⟨journal, hjr, h⟩ := bind_eq_ok.1 h
  cases hjr
  dsimp only at h
  rw [size_initJournalAtSize, hprune] at h
  split_ifs at h with hnl
  · obtain ⟨m, hm, h⟩ := bind_eq_ok.1 h
    cases h
    have hms : m.size = 0 := init_size (ofMmr_eq_ok.1 hm)
    exact hms.trans hnl.symm
  · exact recover_zeros hdv h
  · exact recover_zeros hdv h

/-! ### When both ranges behave alike -/

/-- **When a range of pinned nodes is as good as a populated one.**  A record of zeros has an invalid
checksum, as it is with the digests of the source. -/
theorem pinned_equivalent_iff {s : CleanJournaled D} (h : populate cfg hasher es = .ok s) :
    ∃ s', Journaled.initFromPinnedNodes cfg hasher (peakDigests hasher es) (size es.length) = .ok s' ∧
      ((cfg.itemsPerBlob : ℕ) ∣ size es.length →
        Equivalent cfg hasher s s' ∧ Preserved cfg hasher es s') ∧
      (mismatch cfg (replicate cfg.chunkSize 0) = true →
        (Equivalent cfg hasher s s' ∧ Preserved cfg hasher es s' ↔
          (cfg.itemsPerBlob : ℕ) ∣ size es.length)) := by
  obtain ⟨hlen, ⟨k, oldest, ht⟩, hs⟩ := populate_eq h
  have hal : (cfg.itemsPerBlob : ℕ) ∣ size es.length →
      Equivalent cfg hasher s
        (prunedRange hasher es (initJournalAtSize cfg (size es.length))) ∧
      Preserved cfg hasher es
        (prunedRange hasher es (initJournalAtSize cfg (size es.length))) := by
    intro hdv
    rw [@initJournalAtSize_nodeJournal _ _ cfg hasher es hdv, ← hs]
    exact ⟨⟨rfl, rfl, rfl, fun _ => rfl⟩, ht.preserved⟩
  refine ⟨_, initFromPinnedNodes_eq hlen, hal, fun hz => ⟨fun ⟨_, hkp⟩ => ?_, hal⟩⟩
  -- it is closed at once, and opened again
  obtain ⟨s', hin, hsize, -⟩ := hkp [] _ _ rfl (bind_eq_ok.2 ⟨_, sync_pinned hlen, rfl⟩)
  rw [append_nil] at hsize
  have hls := init_zeros_size hz hin
  rw [hsize] at hls
  exact Dvd.intro_left _ hls.symm

/-- The digests of the source have 32 bytes. -/
example : crc32 (replicate 32 0) ≠ 0 := by decide +kernel

theorem exists_populate (hlen : es.length ≤ maxLocation) : ∃ s, populate cfg hasher es = .ok s := by
  have hm : es.length ≤ 2 ^ 62 := hlen.trans (by norm_num [maxLocation])
  obtain ⟨s₀, hin, hs₀, hpr₀, hmt₀⟩ := init_empty (@down_fresh _ _ cfg hasher)
  obtain ⟨s₁, ha⟩ := exists_addAll hs₀ (by rwa [nil_append])
  obtain ⟨hs₁, -⟩ := addAll_tracks hs₀ ha
  rw [nil_append] at hs₁
  obtain ⟨s₂, hsy, hs₂, -⟩ := sync_tracks hs₁ hlen
  obtain ⟨s₃, hprune⟩ := exists_prune_all hs₂ hlen
  exact ⟨s₃, bind_eq_ok.2 ⟨_, hin, bind_eq_ok.2 ⟨_, ha, bind_eq_ok.2 ⟨_, hsy, hprune⟩⟩⟩⟩

/-- Two leaves and their parent fill one blob. -/
theorem full_blob_equivalent :
    ∃ s s', populate Fixed.Sample.bytes Sample.oneByte [[1], [2]] = .ok s ∧
      Journaled.initFromPinnedNodes Fixed.Sample.bytes Sample.oneByte
        (peakDigests Sample.oneByte [[1], [2]]) 3 = .ok s' ∧
      Equivalent Fixed.Sample.bytes Sample.oneByte s s' ∧
      Preserved Fixed.Sample.bytes Sample.oneByte [[1], [2]] s' := by
  have ht : size 2 = 3 := by norm_num [size, ones]
  obtain ⟨s, hs⟩ := @exists_populate _ _ Fixed.Sample.bytes Sample.oneByte [[1], [2]]
    (by norm_num [maxLocation])
  obtain ⟨s', hin, hal, -⟩ := pinned_equivalent_iff hs
  have hdv : (Fixed.Sample.bytes.itemsPerBlob : ℕ) ∣ size [[(1 : UInt8)], [2]].length := by
    rw [show [[(1 : UInt8)], [2]].length = 2 from rfl, ht]
    exact dvd_rfl
  rw [show [[(1 : UInt8)], [2]].length = 2 from rfl, ht] at hin
  exact ⟨s, s', hs, hin, hal hdv⟩

/-- One leaf does not fill a blob: it is gone once the range is opened again. -/
theorem partial_blob_lost :
    ∃ s disk s', Journaled.initFromPinnedNodes Fixed.Sample.bytes Sample.oneByte
        (peakDigests Sample.oneByte [[1]]) 1 = .ok s ∧
      s.size = 1 ∧ s.close Fixed.Sample.bytes = .ok disk ∧
      Journaled.init Fixed.Sample.bytes Sample.oneByte disk = .ok s' ∧ s'.size = 0 := by
  have hone : size [[(1 : UInt8)]].length = 1 := by norm_num [size, ones]
  have hlen : [[(1 : UInt8)]].length ≤ maxLocation := by norm_num [maxLocation]
  have hin := @initFromPinnedNodes_eq _ _ Fixed.Sample.bytes Sample.oneByte _ hlen
  have hsy := @sync_pinned _ _ Fixed.Sample.bytes Sample.oneByte _ hlen
  have hz : mismatch Fixed.Sample.bytes
      (replicate Fixed.Sample.bytes.chunkSize 0) = true := by decide +kernel
  have hop : ∃ s', Journaled.init Fixed.Sample.bytes Sample.oneByte
      ⟨(initJournalAtSize Fixed.Sample.bytes 1).close, peakMetadata Sample.oneByte [[1]]⟩ =
        .ok s' := by
    have hm := @init_prunedMmr _ _ Sample.oneByte [] (Nat.zero_le _)
    have hjr := @init_zeros _ Fixed.Sample.bytes 1 hz
    exact ⟨_, bind_eq_ok.2 ⟨_, ofJournal_eq_ok.2 hjr, bind_eq_ok.2 ⟨_, ofMmr_eq_ok.2 hm, rfl⟩⟩⟩
  obtain ⟨s', hs'⟩ := hop
  rw [hone] at hin hsy
  refine ⟨_, _, s', hin, hone, bind_eq_ok.2 ⟨_, hsy, rfl⟩, hs', ?_⟩
  rw [init_zeros_size hz hs']
  rfl

end Commonware.Mmr
