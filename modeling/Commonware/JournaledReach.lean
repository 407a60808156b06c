/-
**What a range on disk holds.**

A range that holds some elements has written the nodes of the first `k` of them to its journal, and
keeps the other nodes in memory.  The metadata has the pinned nodes of the pruning boundary, and so
has the range in memory.  Every operation keeps this.

Main definitions:

* `Tracks` — the journal, the metadata and the memory of a range by its elements.

Main results:

* `add_tracks`, `pop_tracks`, `sync_tracks`, `pruneToPos_tracks` — **the operations**;
* `openAt_tracks` — opening the range of a size that is valid.
-/

import Commonware.JournaledNodes

set_option autoImplicit false

namespace Commonware.Mmr

open MountainRange List
open Journaled (Metadata CleanJournaled DirtyJournaled)

variable {Sym D S : Type} {cfg : Fixed.Config D} {hasher : Hasher Sym D} {es es' : List (List Sym)}
  {k oldest : ℕ}

/-- The nodes of the first `k` leaves are in the journal, from the blob `oldest` on. -/
structure Tracks (cfg : Fixed.Config D) (hasher : Hasher Sym D) (es : List (List Sym))
    (s : Journaled D S) (k oldest : ℕ) : Prop where
  le_length : k ≤ es.length
  le_max : k ≤ maxLocation
  journal_eq : s.journal = nodeJournal cfg hasher es oldest (size k)
  journalSize_eq : s.journalSize = size k
  boundary : s.memMmr.prunedToPos = size k
  oldest_le : oldest * cfg.itemsPerBlob ≤ s.prunedToPos
  pruned_le : s.prunedToPos ≤ size k
  prunePos_eq : s.metadata.pruneToPos = s.prunedToPos
  pins : Pins hasher es s.metadata
  right : RightPins hasher es k s.memMmr.pinnedNodes
  cached : ∀ p h q, size p ≤ s.prunedToPos → s.prunedToPos < size (p + 1) → (h, q) ∈ peaks p →
    s.memMmr.pinnedNodes.lookup (pos h q) = some (digestAt hasher es h q)

/-- A clean range tracks some elements. -/
structure TracksClean (cfg : Fixed.Config D) (hasher : Hasher Sym D) (es : List (List Sym))
    (s : CleanJournaled D) (k oldest : ℕ) : Prop where
  tracks : Tracks cfg hasher es s k oldest
  holds : HoldsClean hasher es s.memMmr

/-- A dirty range tracks some elements. -/
structure TracksDirty (cfg : Fixed.Config D) (hasher : Hasher Sym D) (es : List (List Sym))
    (s : DirtyJournaled D) (k oldest : ℕ) : Prop where
  tracks : Tracks cfg hasher es s k oldest
  holds : AnyHolds hasher es (.inl s.memMmr)

theorem ofMmr_eq_ok {α : Type} {x : Except Failure α} {a : α} :
    Journaled.ofMmr x = .ok a ↔ x = .ok a := by
  cases x with
  | ok b => simp [Journaled.ofMmr]
  | error f =>
    cases f with
    | error e | panic => simp [Journaled.ofMmr]

theorem ofJournal_eq_ok {α : Type} {x : Except Fixed.Failure α} {a : α} :
    Journaled.ofJournal x = .ok a ↔ x = .ok a := by
  cases x with
  | ok b => simp [Journaled.ofJournal]
  | error f =>
    cases f with
    | error e | panic => simp [Journaled.ofJournal]

/-- A change of the nodes in memory, after those that are in the journal. -/
theorem Tracks.of_mem {S' : Type} {s : Journaled D S} {m : MemMmr D S'}
    (hs : Tracks cfg hasher es s k oldest) (ht : es.take k = es'.take k) (hk : k ≤ es'.length)
    (hpr : m.prunedToPos = s.memMmr.prunedToPos) (hpn : m.pinnedNodes = s.memMmr.pinnedNodes) :
    Tracks cfg hasher es' ⟨m, s.journal, s.journalSize, s.metadata, s.prunedToPos⟩ k oldest :=
  { hs with
    le_length := hk
    journal_eq := by
      rw [nodeJournal, ← nodeRecords_of_take ht hs.le_length hk le_rfl]
      exact hs.journal_eq
    boundary := hpr.trans hs.boundary
    pins := hs.pins.of_take ht (hs.prunePos_eq.trans_le hs.pruned_le)
    right := by
      rw [hpn]
      exact hs.right.of_take ht
    cached := by
      intro p h q hlo hhi hmem
      have hp : p ≤ k := size_le_size_iff.1 (hlo.trans hs.pruned_le)
      rw [hpn, hs.cached p h q hlo hhi hmem,
        digestAt_of_take ht ((peak_end_le hmem).trans hp)] }

/-! ### Adding leaves -/

variable {m' : DirtyMmr D} {x : ℕ}

theorem addLeafDigest_pinnedNodes {m : DirtyMmr D} {digest : D}
    (h : m.addLeafDigest hasher digest = .ok (x, m')) : m'.pinnedNodes = m.pinnedNodes := by
  obtain ⟨peaks, -, h⟩ := bind_eq_ok.1 h
  obtain ⟨needing, -, h⟩ := bind_eq_ok.1 h
  cases h
  exact (MemMmr.addParents_fields hasher.empty needing.length 1 _).2.2

theorem addDirty_tracks {s s' : DirtyJournaled D} {element : List Sym}
    (hs : TracksDirty cfg hasher es s k oldest) (ha : s.addDirty hasher element = .ok (x, s')) :
    TracksDirty cfg hasher (es ++ [element]) s' k oldest := by
  obtain ⟨⟨x, m⟩, hm, hr⟩ := bind_eq_ok.1 ha
  cases hr
  rw [ofMmr_eq_ok] at hm
  obtain ⟨hh, hpr⟩ := hs.holds.add hm
  refine ⟨hs.tracks.of_mem ?_ ?_ hpr (addLeafDigest_pinnedNodes hm), hh⟩
  · rw [take_append_of_le_length hs.tracks.le_length]
  · rw [length_append]
    exact hs.tracks.le_length.trans (Nat.le_add_right _ _)

variable {s : CleanJournaled D}

theorem intoDirty_tracks (hs : TracksClean cfg hasher es s k oldest) :
    TracksDirty cfg hasher es s.intoDirty k oldest :=
  ⟨hs.tracks.of_mem rfl hs.tracks.le_length rfl rfl, AnyHolds.intoDirty hs.holds⟩

variable {s' : CleanJournaled D}

theorem merkleize_tracks {s : DirtyJournaled D} (hs : TracksDirty cfg hasher es s k oldest)
    (hmr : s.merkleize hasher = .ok s') : TracksClean cfg hasher es s' k oldest := by
  obtain ⟨m, hm, hr⟩ := bind_eq_ok.1 hmr
  cases hr
  rw [ofMmr_eq_ok] at hm
  obtain ⟨hh, hpr⟩ := hs.holds.merkleize hm
  exact ⟨hs.tracks.of_mem rfl hs.tracks.le_length hpr (merkleize_pinnedNodes hm), hh⟩

theorem add_eq (s : CleanJournaled D) (element : List Sym) :
    s.add hasher element = (do
      let (x, dirty) ← s.intoDirty.addDirty hasher element
      let s ← dirty.merkleize hasher
      pure (x, s)) := by
  rw [Journaled.add, Journaled.addDirty]
  cases ha : Journaled.ofMmr (s.memMmr.intoDirty.add hasher element) with
  | error f =>
    simp only [Journaled.intoDirty, ha]
    rfl
  | ok result =>
    simp only [Journaled.intoDirty, ha, Journaled.merkleize]
    cases hmr : Journaled.ofMmr (result.2.merkleize hasher) with
    | error f | ok m => simp [bind, Except.bind, pure, Except.pure, hmr]

theorem add_tracks {element : List Sym} (hs : TracksClean cfg hasher es s k oldest)
    (ha : s.add hasher element = .ok (x, s')) :
    TracksClean cfg hasher (es ++ [element]) s' k oldest := by
  rw [add_eq] at ha
  obtain ⟨⟨x, dirty⟩, hdr, hr⟩ := bind_eq_ok.1 ha
  obtain ⟨s₁, hs₁, hr⟩ := bind_eq_ok.1 hr
  cases hr
  exact merkleize_tracks (addDirty_tracks (intoDirty_tracks hs) hdr) hs₁

/-! ### Reading nodes -/

variable {p : ℕ}

/-- **Nodes can be read**: those from the pruning boundary on, and the pinned ones. -/
theorem getNode_tracks (hs : TracksClean cfg hasher es s k oldest) {h q : ℕ}
    (he : (q + 1) * 2 ^ h ≤ es.length) (hkp : s.prunedToPos ≤ pos h q ∨
      size p ≤ s.prunedToPos ∧ s.prunedToPos < size (p + 1) ∧ (h, q) ∈ peaks p) :
    s.getNode cfg (pos h q) = .ok (some (digestAt hasher es h q)) := by
  obtain ⟨pin, st⟩ := hs.holds.stored
  rw [Journaled.getNode]
  rcases Nat.lt_or_ge (pos h q) (size k) with hlt | hge
  · have hlk : s.memMmr.getNode (pos h q) = s.memMmr.pinnedNodes.lookup (pos h q) := by
      rw [MemMmr.getNode, hs.tracks.boundary, if_pos hlt]
    rw [hlk]
    cases hp : s.memMmr.pinnedNodes.lookup (pos h q) with
    | some d => rw [hs.tracks.right.lookup_eq hp]
    | none =>
      rcases hkp with hkp | ⟨hlo, hhi, hmem⟩
      · have hrd : (nodeJournal cfg hasher es oldest (size k)).read cfg (pos h q) =
            .ok (digestAt hasher es h q) :=
          read_nodeJournal (size_le_size_iff.2 hs.tracks.le_length) hlt
            (hs.tracks.oldest_le.trans hkp)
        simp only [hs.tracks.journal_eq, hrd]
      · rw [hs.tracks.cached p h q hlo hhi hmem] at hp
        cases hp
  · have hbn : s.memMmr.prunedToPos ≤ pos h q := hs.tracks.boundary.trans_le hge
    rw [st.getNode_of he (by simp) (.inl hbn)]

variable {n : ℕ}

/-- The peaks of a range that is not before the pruning boundary can be read. -/
theorem getNode_peak (hs : TracksClean cfg hasher es s k oldest) {h q : ℕ} (hx : s.prunedToPos ≤ x)
    (hhi : x < size (n + 1)) (hn : n ≤ es.length) (hmem : (h, q) ∈ peaks n) :
    s.getNode cfg (pos h q) = .ok (some (digestAt hasher es h q)) := by
  obtain ⟨p, hp, hp'⟩ := exists_size s.prunedToPos
  refine getNode_tracks hs ((peak_end_le hmem).trans hn) (p := p) ?_
  rcases Nat.lt_or_ge (pos h q) s.prunedToPos with hlt | hge
  · refine .inr ⟨hp, hp', ?_⟩
    rcases Nat.lt_or_ge (size n) s.prunedToPos with hbf | haf
    · -- both boundaries are within the nodes of one leaf
      obtain rfl := largest_unique hbf.le (by omega) hp hp'
      exact hmem
    · exact peak_of_lt hp hp' haf hmem hlt
  · exact .inl hge

/-! ### Syncing -/

theorem pinned_in_memory {s : Journaled D S} (hs : Tracks cfg hasher es s k oldest)
    (hlo : size p ≤ s.prunedToPos) (hhi : s.prunedToPos < size (p + 1)) :
    ((peaks p).map fun node => pos node.1 node.2).mapM
        (fun x => Journaled.ofMmr (s.memMmr.getNodeUnchecked x)) =
      .ok ((peaks p).map fun node => digestAt hasher es node.1 node.2) := by
  refine mapM_peaks fun {h q} hmem => ?_
  have hp : p ≤ k := size_le_size_iff.1 (hlo.trans hs.pruned_le)
  have hlt : pos h q < s.memMmr.prunedToPos := by
    rw [hs.boundary]
    exact pos_lt_size_iff.2 ((peak_end_le hmem).trans hp)
  rw [MemMmr.getNodeUnchecked, MemMmr.getNode, if_pos hlt, hs.cached p h q hlo hhi hmem]
  rfl

variable {m : MemMmr D S}

theorem lookup_pins {h q : ℕ} (hmem : (h, q) ∈ peaks p) :
    (m.addPinnedNodes (peakEntries hasher es p)).pinnedNodes.lookup (pos h q) =
      some (digestAt hasher es h q) := by
  have hlk := @lookup_peaks _ (digestAt hasher es) _ _ hmem
  rw [lookup_addPinnedNodes, hlk, Option.some_or]

section

variable (hs : TracksClean cfg hasher es s k oldest)
include hs

theorem sync_eq {m : CleanMmr D} (hprune : s.memMmr.pruneAll = .ok m) (hlo : size p ≤ s.prunedToPos)
    (hhi : s.prunedToPos < size (p + 1)) :
    s.sync cfg = .ok ⟨m.addPinnedNodes (peakEntries hasher es p),
      nodeJournal cfg hasher es oldest (size es.length), size es.length, s.metadata,
      s.prunedToPos⟩ := by
  obtain ⟨hs, hh⟩ := hs
  have hm : s.prunedToPos ≤ maxPosition := hs.pruned_le.trans (size_le_maxPosition hs.le_max)
  have hw := appendNodes_nodeJournal hh hs.boundary (hs.oldest_le.trans hs.pruned_le)
  have hsize : s.size = size es.length := hh.stored.choose_spec.size_eq
  rw [Journaled.sync, hsize, hs.journalSize_eq, hs.journal_eq]
  refine bind_eq_ok.2 ⟨_, hw, ?_⟩
  rw [if_neg (by rw [size_nodeJournal le_rfl]; exact fun h => h rfl), nodesToPin_of hm hlo hhi]
  refine bind_eq_ok.2 ⟨_, rfl, bind_eq_ok.2 ⟨_, pinned_in_memory hs hlo hhi, ?_⟩⟩
  rw [hprune, zip_digests]
  rfl

/-- **Syncing** writes all nodes, and drops them from memory. -/
theorem sync_tracks (hlen : es.length ≤ maxLocation) :
    ∃ s', s.sync cfg = .ok s' ∧ TracksClean cfg hasher es s' es.length oldest ∧
      s'.prunedToPos = s.prunedToPos ∧ s'.metadata = s.metadata := by
  have ht := hs.tracks
  obtain ⟨p, hlo, hhi⟩ := exists_size s.prunedToPos
  have hp : p ≤ k := size_le_size_iff.1 (hlo.trans ht.pruned_le)
  have hle : size k ≤ size es.length := size_le_size_iff.2 ht.le_length
  obtain ⟨m, hprune, hm, hpr, hpn⟩ := pruneAll_holds hs.holds hlen
  have hpk := @RightPins.peaks _ _ hasher es _ _ (hp.trans ht.le_length)
  have hrg : RightPins hasher es es.length m.pinnedNodes := by
    rcases hpn with ⟨-, rfl⟩ | hpn
    · exact ht.right.mono ht.le_length
    · rw [hpn]
      exact RightPins.peaks le_rfl
  refine ⟨_, sync_eq hs hprune hlo hhi, ⟨?_, hm.addPinnedNodes hpk⟩, rfl, rfl⟩
  refine ⟨le_rfl, hlen, rfl, rfl, hpr, ht.oldest_le, ht.pruned_le.trans hle,
    ht.prunePos_eq, ht.pins, hpk.addPinnedNodes hrg, ?_⟩
  intro p' h q hlo' hhi' hmem
  obtain rfl := largest_unique hlo' hhi' hlo hhi
  exact lookup_pins hmem

theorem length_le_of_sync (hsy : s.sync cfg = .ok s') : es.length ≤ maxLocation := by
  obtain ⟨hs, hh⟩ := hs
  obtain ⟨pin, st⟩ := hh.stored
  have ha := st.length_add
  by_contra hlt
  have hlen : es.length = 2 ^ 62 := by
    have hle := hh.length_le
    have hm : maxLocation = 2 ^ 62 - 1 := rfl
    omega
  have hk : k < es.length := by
    have := hs.le_max
    omega
  have hsize : size k < size es.length := size_lt_size_iff.2 hk
  have hbn := hs.boundary
  obtain ⟨journal, -, hr⟩ := bind_eq_ok.1 hsy
  split_ifs at hr
  obtain ⟨positions, -, hr⟩ := bind_eq_ok.1 hr
  obtain ⟨digests, -, hr⟩ := bind_eq_ok.1 hr
  obtain ⟨m, hprune, -⟩ := bind_eq_ok.1 hr
  have hnd : s.memMmr.nodes ≠ [] := by
    intro hnl
    rw [hnl, length_nil] at ha
    omega
  rw [ofMmr_eq_ok, MemMmr.pruneAll, if_neg hnd, MemMmr.pruneToPos] at hprune
  obtain ⟨pinned, hpn, -⟩ := bind_eq_ok.1 hprune
  obtain ⟨positions, hps, -⟩ := bind_eq_ok.1 hpn
  have ht : maxPosition < s.memMmr.prunedToPos + s.memMmr.nodes.length := by
    have htw := size_two_pow 62
    have hm : maxPosition = 2 ^ 63 - 2 := rfl
    rw [hlen] at ha
    omega
  rw [orPanic_eq_ok, nodesToPin, toNearestSize, if_pos ht] at hps
  cases hps

/-! ### Pruning -/

theorem updateMetadata_tracks (hx : s.prunedToPos ≤ x)
    (hlo : size p ≤ x) (hhi : x < size (p + 1)) (hle : x ≤ size k) :
    ∃ metadata, s.updateMetadata cfg x = .ok (peakEntries hasher es p, metadata) ∧
      metadata = ⟨x, (peakEntries hasher es p).foldl
          (fun nodes node => nodes.insert node.1 node.2) s.metadata.nodes⟩ ∧
      Pins hasher es metadata := by
  have hm : x ≤ maxPosition := hle.trans (size_le_maxPosition hs.tracks.le_max)
  have hp : p ≤ k := size_le_size_iff.1 (hlo.trans hle)
  have hrd := @mapM_peaks _ _ hasher es p _ (s.pinnedNode cfg) fun hmem => by
    rw [Journaled.pinnedNode, getNode_peak hs hx hhi (hp.trans hs.tracks.le_length) hmem]
    rfl
  have hpn : Pins hasher es ⟨x, (peakEntries hasher es p).foldl
        (fun nodes node => nodes.insert node.1 node.2) s.metadata.nodes⟩ := by
    have hnd : ∀ y d, ((peakEntries hasher es p).foldl
          (fun nodes node => nodes.insert node.1 node.2) s.metadata.nodes).get? y = some d →
        ∃ h q, y = pos h q ∧ y < x ∧ d = digestAt hasher es h q := by
      intro y d hy
      rcases OrdMap.get?_foldl_insert_or hy with hmem | hg
      · obtain ⟨node, hnd, hpair⟩ := mem_map.1 hmem
        cases hpair
        exact ⟨node.1, node.2, rfl, (pos_lt_size_iff.2 (peak_end_le hnd)).trans_le hlo, rfl⟩
      · obtain ⟨h, q, rfl, hlt, rfl⟩ := hs.tracks.pins.node y d hg
        rw [hs.tracks.prunePos_eq] at hlt
        exact ⟨h, q, rfl, by omega, rfl⟩
    refine ⟨hnd, ?_⟩
    intro p' h q hlo' hhi' hmem
    obtain rfl := largest_unique hlo' hhi' hlo hhi
    obtain ⟨d, hd⟩ := Option.isSome_iff_exists.1
      (OrdMap.exists_get?_foldl_insert (k := pos h q) (l := peakEntries hasher es p) s.metadata.nodes
        (.inr (by simpa using ⟨h, q, hmem, rfl⟩)))
    obtain ⟨h', q', hps, -, rfl⟩ := hnd _ _ hd
    obtain ⟨rfl, rfl⟩ := pos_inj hps
    exact hd
  refine ⟨_, ?_, rfl, hpn⟩
  rw [Journaled.updateMetadata, if_neg (Nat.not_lt.2 hx), nodesToPin_of hm hlo hhi]
  refine bind_eq_ok.2 ⟨_, rfl, bind_eq_ok.2 ⟨_, hrd, ?_⟩⟩
  simp only [zip_digests]
  rfl

omit hs in
theorem oldest_prune {kept : ℕ} (ho : oldest * cfg.itemsPerBlob ≤ kept)
    (hkp : kept ≤ size es.length) (hx : oldest * cfg.itemsPerBlob ≤ x) (hle : x ≤ kept) :
    ((nodeJournal cfg hasher es oldest kept).prune cfg x).2 =
      nodeJournal cfg hasher es (x / cfg.itemsPerBlob) kept := by
  have hdv : x / cfg.itemsPerBlob ≤ kept / cfg.itemsPerBlob := Nat.div_le_div_right hle
  have hol : oldest ≤ x / cfg.itemsPerBlob := (Nat.le_div_iff_mul_le cfg.itemsPerBlob.pos).2 hx
  rw [nodeJournal, Fixed.prune_ofRecords (oldest_le ho hkp), length_nodeRecords hkp,
    Nat.min_eq_left hdv, Nat.max_eq_right hol, nodeJournal]

/-- **Pruning** syncs the range and moves the boundary. -/
theorem pruneToPos_tracks (hprune : s.pruneToPos cfg x = .ok s') :
    s' = s ∨ TracksClean cfg hasher es s' es.length (x / cfg.itemsPerBlob) := by
  rw [Journaled.pruneToPos] at hprune
  split_ifs at hprune with hsize hle
  · exact .inl (Except.ok.inj hprune).symm
  right
  obtain ⟨s₁, hsy, hr⟩ := bind_eq_ok.1 hprune
  have hlen := length_le_of_sync hs hsy
  obtain ⟨s₂, hsy', hs₁, hpr, -⟩ := sync_tracks hs hlen
  obtain rfl := Except.ok.inj (hsy.symm.trans hsy')
  obtain ⟨pin, st⟩ := hs.holds.stored
  have hx : x ≤ size es.length := by
    rw [← st.size_eq]
    exact Nat.not_lt.1 hsize
  obtain ⟨p, hlo, hhi⟩ := exists_size x
  have hp : p ≤ es.length := size_le_size_iff.1 (hlo.trans hx)
  obtain ⟨metadata, hme, hmq, hpn⟩ :=
    updateMetadata_tracks hs₁ (hpr.trans_le (Nat.le_of_not_le hle)) hlo hhi hx
  have hmt : metadata.pruneToPos = x := by rw [hmq]
  rw [hme] at hr
  cases hr
  have hpk := @RightPins.peaks _ _ hasher es _ _ hp
  have hol : oldest * cfg.itemsPerBlob ≤ x :=
    hs₁.tracks.oldest_le.trans (hpr.trans_le (Nat.le_of_not_le hle))
  refine ⟨⟨le_rfl, hlen, ?_, hs₁.tracks.journalSize_eq, hs₁.tracks.boundary, Nat.div_mul_le_self _ _,
    hx, hmt, hpn, hpk.addPinnedNodes hs₁.tracks.right, ?_⟩, hs₁.holds.addPinnedNodes hpk⟩
  · change (s₁.journal.prune cfg x).2 = _
    rw [hs₁.tracks.journal_eq]
    exact oldest_prune (hol.trans hx) le_rfl hol hx
  · intro p' h q hlo' hhi' hmem
    obtain rfl := largest_unique hlo' hhi' hlo hhi
    exact lookup_pins hmem

end

/-! ### Opening -/

variable {metadata : Metadata D}

theorem readPeaks {kept : ℕ} (hpn : Pins hasher es metadata) (hkp : kept ≤ size es.length)
    (ho : oldest * cfg.itemsPerBlob ≤ metadata.pruneToPos) (hlo : metadata.pruneToPos ≤ size n)
    (hhi : size n ≤ kept) :
    ((peaks n).map fun node => pos node.1 node.2).mapM
        (Journaled.getFromMetadataOrJournal cfg metadata (nodeJournal cfg hasher es oldest kept)) =
      .ok (peakDigests hasher (es.take n)) := by
  have hn : n ≤ es.length := size_le_size_iff.1 (hhi.trans hkp)
  have hpk : peakDigests hasher (es.take n) =
      (peaks n).map fun node => digestAt hasher es node.1 node.2 := by
    rw [peakDigests, length_take_of_le hn]
    exact map_congr_left fun node hnd => digestAt_take (peak_end_le hnd)
  rw [hpk]
  exact mapM_peaks fun hmem => getFromMetadataOrJournal_peak hpn hkp ho hlo hhi hmem

/-- The pinned nodes of the pruning boundary are read from the metadata. -/
theorem addExtraPinnedNodes_eq {journal : Fixed.Journal} (hpn : Pins hasher es metadata)
    (hm : metadata.pruneToPos ≤ maxPosition) (hlo : size p ≤ metadata.pruneToPos)
    (hhi : metadata.pruneToPos < size (p + 1)) :
    Journaled.addExtraPinnedNodes cfg m metadata journal metadata.pruneToPos =
      .ok (m.addPinnedNodes (peakEntries hasher es p)) := by
  have hrd := @mapM_peaks _ _ hasher es p _ (Journaled.getFromMetadataOrJournal cfg metadata journal)
    fun hmem => by simp only [Journaled.getFromMetadataOrJournal, hpn.peak p _ _ hlo hhi hmem]
  rw [Journaled.addExtraPinnedNodes, nodesToPin_of hm hlo hhi]
  refine bind_eq_ok.2 ⟨_, rfl, bind_eq_ok.2 ⟨_, hrd, ?_⟩⟩
  rw [zip_digests]
  rfl

/-- A range in memory that holds the first `n` leaves, over the journal of their nodes. -/
theorem tracks_of_opened (hps : Pins hasher es metadata) (hn : n ≤ es.length)
    (hm : n ≤ maxLocation) (ho : oldest * cfg.itemsPerBlob ≤ metadata.pruneToPos)
    (hlo : metadata.pruneToPos ≤ size n) (hp : size p ≤ metadata.pruneToPos)
    (hp' : metadata.pruneToPos < size (p + 1)) (hpr : m.prunedToPos = size n)
    (hrg : RightPins hasher (es.take n) n m.pinnedNodes) : Tracks cfg hasher (es.take n)
      ⟨m.addPinnedNodes (peakEntries hasher es p),
        nodeJournal cfg hasher es oldest (size n), size n, metadata, metadata.pruneToPos⟩
      n oldest := by
  have ht := take_idem es n
  have hlen : (es.take n).length = n := length_take_of_le hn
  have hpn : p ≤ n := size_le_size_iff.1 (hp.trans hlo)
  refine ⟨hlen.ge, hm, ?_, rfl, hpr, ho, hlo, rfl, hps.of_take ht hlo, ?_, ?_⟩
  · simp only [nodeJournal]
    rw [nodeRecords_of_take ht hn hlen.ge le_rfl]
  · exact ((RightPins.peaks hpn).of_take ht).addPinnedNodes hrg
  · intro p' h q hlo' hhi' hmem
    obtain rfl := largest_unique hlo' hhi' hp hp'
    rw [← digestAt_of_take ht ((peak_end_le hmem).trans hpn)]
    exact lookup_pins hmem

/-- **Opening the range of a size that is valid.** -/
theorem openAt_tracks (hps : Pins hasher es metadata) (hn : n ≤ es.length)
    (hmx : n ≤ maxLocation) (ho : oldest * cfg.itemsPerBlob ≤ metadata.pruneToPos)
    (hlo : metadata.pruneToPos ≤ size n) :
    ∃ s, Journaled.openAt cfg hasher metadata (nodeJournal cfg hasher es oldest (size n)) (size n) =
        .ok s ∧
      TracksClean cfg hasher (es.take n) s n oldest ∧ s.prunedToPos = metadata.pruneToPos ∧
      s.metadata = metadata := by
  have hlen : (es.take n).length = n := length_take_of_le hn
  have hpm : metadata.pruneToPos ≤ maxPosition := hlo.trans (size_le_maxPosition hmx)
  obtain ⟨p, hp, hp'⟩ := exists_size _
  have hpn : p ≤ n := size_le_size_iff.1 (hp.trans hlo)
  obtain ⟨m, hm, hh, hpr, hpd⟩ := @init_holds _ _ hasher (es.take n) (hlen.trans_le hmx)
  have hrg : RightPins hasher (es.take n) n m.pinnedNodes := by
    rw [hpd]
    exact RightPins.peaks hlen.le
  rw [hlen] at hm hpr
  have ht := take_idem es n
  refine ⟨_, ?_, ⟨tracks_of_opened hps hn hmx ho hlo hp hp' hpr hrg,
    hh.addPinnedNodes ((RightPins.peaks hpn).of_take ht)⟩, rfl, rfl⟩
  rw [Journaled.openAt, nodesToPin_of (size_le_maxPosition hmx) le_rfl (size_lt_size_succ n)]
  refine bind_eq_ok.2 ⟨_, rfl, bind_eq_ok.2 ⟨_, readPeaks hps (size_le_size_iff.2 hn) ho hlo
    le_rfl, ?_⟩⟩
  rw [hm]
  refine bind_eq_ok.2 ⟨_, rfl, bind_eq_ok.2 ⟨_, addExtraPinnedNodes_eq hps hpm hp hp', rfl⟩⟩

/-! ### Removing leaves -/

/-- What a removal in memory does: the last leaf is gone, or nothing if all leaves are in the
journal. -/
structure PopSpec (H : List (List Sym) → MemMmr D S → Prop) (k : ℕ)
    (popOne : MemMmr D S → Except Journaled.Failure (Except Error ℕ × MemMmr D S)) : Prop where
  pop : ∀ {es m}, H es m → m.prunedToPos = size k → k < es.length →
    ∃ x m', popOne m = .ok (.ok x, m') ∧ H es.dropLast m' ∧ m'.pinnedNodes = m.pinnedNodes ∧
      m'.prunedToPos = m.prunedToPos
  stay : ∀ {es m}, H es m → m.prunedToPos = size k → es.length = k →
    ∃ e, popOne m = .ok (.error e, m) ∧ (es = [] ∧ e = .empty ∨ ∃ x, e = .elementPruned x)

theorem pop_pinnedNodes {m : DirtyMmr D} (h : m.pop = .ok (x, m')) :
    m'.pinnedNodes = m.pinnedNodes ∧ m'.prunedToPos = m.prunedToPos := by
  rw [MemMmr.pop] at h
  split_ifs at h
  obtain ⟨newSize, -, h⟩ := bind_eq_ok.1 h
  cases h
  exact ⟨rfl, rfl⟩

theorem exists_pop {m : DirtyMmr D} (hm : AnyHolds hasher es (.inl m)) (hk : m.prunedToPos = size k)
    (hlt : k < es.length) : ∃ r, m.pop = .ok r := by
  obtain ⟨hz, hsr⟩ := popLoop_holds hm.1 hm.2 (ne_nil_of_length_pos (by omega))
  rw [MemMmr.pop, if_neg hz, hsr, hk, if_pos (size_le_size_iff.2 (by omega))]
  exact ⟨_, rfl⟩

theorem pop_eq_error {m : DirtyMmr D} (hm : AnyHolds hasher es (.inl m))
    (hk : m.prunedToPos = size k) (hlen : es.length = k) :
    ∃ e, m.pop = .error (.error e) ∧ (es = [] ∧ e = .empty ∨ ∃ x, e = .elementPruned x) := by
  by_cases hnl : es = []
  · obtain ⟨⟨⟨pin, st⟩, -⟩, -⟩ := hm
    subst hnl
    rw [MemMmr.pop, if_pos (st.size_eq.trans size_zero)]
    exact ⟨_, rfl, .inl ⟨rfl, rfl⟩⟩
  · have hp := length_pos_of_ne_nil hnl
    obtain ⟨hz, hsr⟩ := popLoop_holds hm.1 hm.2 hnl
    rw [MemMmr.pop, if_neg hz, hsr, hk, if_neg (by rw [size_le_size_iff]; omega)]
    exact ⟨_, rfl, .inr ⟨_, rfl⟩⟩

theorem popDirty_spec :
    PopSpec (fun es (m : DirtyMmr D) => AnyHolds hasher es (.inl m)) k Journaled.popDirty where
  pop := by
    intro es m hm hk hlt
    obtain ⟨⟨x, m'⟩, hp⟩ := exists_pop hm hk hlt
    refine ⟨x, m', ?_, hm.pop hp, pop_pinnedNodes hp⟩
    rw [Journaled.popDirty, hp]
  stay := by
    intro es m hm hk hlen
    obtain ⟨e, hp, he⟩ := pop_eq_error hm hk hlen
    refine ⟨e, ?_, he⟩
    rw [Journaled.popDirty, hp]

theorem popClean_spec : PopSpec (HoldsClean hasher) k (Journaled.popClean hasher) where
  pop := by
    intro es m hm hk hlt
    have hdr : AnyHolds hasher es (.inl m.intoDirty) := AnyHolds.intoDirty hm
    obtain ⟨⟨x, m₁⟩, hp⟩ := exists_pop hdr hk hlt
    obtain ⟨hpn, hpr⟩ := pop_pinnedNodes hp
    have hlen := hm.length_le
    obtain ⟨m', hm', hh, hpr'⟩ :=
      merkleize_holds (hdr.pop hp).1 (by rw [length_dropLast]; omega)
    refine ⟨x, m', ?_, hh, (merkleize_pinnedNodes hm').trans hpn, hpr'.trans hpr⟩
    rw [Journaled.popClean, hp]
    exact bind_eq_ok.2 ⟨m', ofMmr_eq_ok.2 hm', rfl⟩
  stay := by
    intro es m hm hk hlen
    have hdr : AnyHolds hasher es (.inl m.intoDirty) := AnyHolds.intoDirty hm
    obtain ⟨e, hp, he⟩ := pop_eq_error hdr hk hlen
    obtain ⟨m', hm', hh, hpr⟩ := merkleize_holds hdr.1 hm.length_le
    -- no node is in memory, and the root is determined by the leaves
    have hem : ∀ {m : CleanMmr D}, HoldsClean hasher es m → m.prunedToPos = size k →
        m.nodes = [] := by
      intro m hm hk
      obtain ⟨pin, st⟩ := hm.stored
      have ha := st.length_add
      rw [hk, hlen] at ha
      exact eq_nil_of_length_eq_zero (by omega)
    have hnd : m'.nodes = m.nodes := (hem hh (hpr.trans hk)).trans (hem hm hk).symm
    have hr : m'.state.root = m.state.root := hh.root_eq.trans hm.root_eq.symm
    have hpn := merkleize_pinnedNodes hm'
    obtain rfl : m' = m := by
      obtain ⟨nodes, pruned, pinned, ⟨root⟩⟩ := m
      obtain ⟨nodes', pruned', pinned', ⟨root'⟩⟩ := m'
      cases hnd
      cases hr
      cases hpn
      cases hpr
      rfl
    refine ⟨e, ?_, he⟩
    rw [Journaled.popClean, hp]
    exact bind_eq_ok.2 ⟨_, ofMmr_eq_ok.2 hm', rfl⟩

variable {H : List (List Sym) → MemMmr D S → Prop}
  {popOne : MemMmr D S → Except Journaled.Failure (Except Error ℕ × MemMmr D S)}

/-- **Removing leaves that are in memory**: if some are left to be removed, all that are left are in
the journal, and an error means that there are none. -/
theorem popCached_spec (hp : PopSpec H k popOne) (hm : H es m) (hk : m.prunedToPos = size k)
    (hle : k ≤ es.length) :
    ∃ r m' j, Journaled.popCached popOne n m = .ok (r, m') ∧ k ≤ j ∧ j ≤ es.length ∧
      H (es.take j) m' ∧ m'.pinnedNodes = m.pinnedNodes ∧ m'.prunedToPos = m.prunedToPos ∧
      (j = es.length → m' = m) ∧
      match r with
      | .ok left => j + n = es.length + left ∧ (left ≠ 0 → j = k)
      | .error _ => j = k ∧ es.length < n := by
  induction n generalizing es m with
  | zero =>
    exact ⟨.ok 0, m, es.length, rfl, hle, le_rfl, by rwa [take_length], rfl, rfl, fun _ => rfl,
      rfl, fun h => absurd rfl h⟩
  | succ n ih =>
    rw [Journaled.popCached]
    rcases Nat.lt_or_ge k es.length with hlt | hge
    · obtain ⟨x, m₁, hone, hm₁, hpn, hpr⟩ := hp.pop hm hk hlt
      have hdr : es.dropLast.length = es.length - 1 := length_dropLast
      obtain ⟨r, m', j, h, hkj, hj, hH, hpn', hpr', -, hr⟩ :=
        ih hm₁ (hpr.trans hk) (by omega)
      rw [dropLast_eq_take, take_take, Nat.min_eq_left (by omega)] at hH
      refine ⟨r, m', j, bind_eq_ok.2 ⟨_, hone, h⟩, hkj, by omega, hH, hpn'.trans hpn,
        hpr'.trans hpr, fun h => by omega, ?_⟩
      cases r with
      | ok left => exact ⟨by have := hr.1; omega, hr.2⟩
      | error e => exact ⟨hr.1, by have := hr.2; omega⟩
    · have hlen : es.length = k := le_antisymm hge hle
      obtain ⟨e, hone, he⟩ := hp.stay hm hk hlen
      have hst : H (es.take es.length) m := by rwa [take_length]
      rcases he with ⟨rfl, rfl⟩ | ⟨x, rfl⟩
      · exact ⟨.error .empty, m, _, bind_eq_ok.2 ⟨_, hone, rfl⟩, hle, le_rfl, hst, rfl, rfl,
          fun _ => rfl, hlen, Nat.succ_pos n⟩
      · exact ⟨.ok (n + 1), m, es.length, bind_eq_ok.2 ⟨_, hone, rfl⟩, hle, le_rfl, hst, rfl, rfl,
          fun _ => rfl, rfl, fun _ => hlen⟩

/-- **The size after the removal of leaves**: as many leaves are gone, and none of them is before the
pruning boundary. -/
theorem popTarget_iff {y left z : ℕ} (hk : k ≤ 2 ^ 62) (hlo : ∀ i < k, size i < y)
    (hhi : y ≤ size k) : Journaled.popTarget x y (left + 1) = .ok z ↔
      ∃ n, z = size n ∧ n + (left + 1) = k ∧ x ≤ size n := by
  induction y generalizing k left with
  | zero =>
    obtain rfl : k = 0 := by
      by_contra h
      exact Nat.not_lt_zero _ (hlo 0 (Nat.pos_of_ne_zero h))
    rw [Journaled.popTarget]
    exact ⟨nofun, fun ⟨n, _, hn, _⟩ => by omega⟩
  | succ y ih =>
    obtain ⟨i, rfl⟩ : ∃ i, k = i + 1 := by
      refine Nat.exists_eq_succ_of_ne_zero ?_
      rintro rfl
      rw [size_zero] at hhi
      omega
    have hi := hlo i (Nat.lt_succ_self i)
    rw [Journaled.popTarget]
    by_cases hlt : y < x
    · rw [if_pos hlt]
      refine ⟨nofun, ?_⟩
      rintro ⟨n, -, hn, hx⟩
      have := size_le_size_iff.2 (show n ≤ i by omega)
      omega
    rw [if_neg hlt]
    by_cases heq : y = size i
    · subst heq
      rw [if_pos (Position.isMmrSize_size (by omega))]
      cases left with
      | zero =>
        rw [Journaled.popTarget]
        constructor
        · rintro ⟨⟩
          exact ⟨i, rfl, rfl, Nat.not_lt.1 hlt⟩
        · rintro ⟨n, rfl, hn, -⟩
          rw [Nat.add_right_cancel hn]
      | succ left =>
        rw [ih (by omega) (fun j hj => size_lt_size_iff.2 hj) le_rfl]
        simp only [← Nat.add_assoc, Nat.add_right_cancel_iff]
    · rw [if_neg (Position.not_isMmrSize (n := i) (by omega) (by omega))]
      refine ih hk (fun j hj => ?_) (by omega)
      have := size_le_size_iff.2 (Nat.lt_succ_iff.1 hj)
      omega

theorem popTarget_tracks {s : Journaled D S} {left newSize : ℕ}
    (hs : Tracks cfg hasher es s k oldest) (hsize : m.size = size k) (hlf : left ≠ 0) :
    Journaled.popTarget s.prunedToPos m.size left = .ok newSize ↔
      ∃ n, newSize = size n ∧ n + left = k ∧ s.prunedToPos ≤ size n := by
  obtain ⟨left, rfl⟩ := Nat.exists_eq_succ_of_ne_zero hlf
  rw [hsize]
  exact popTarget_iff (hs.le_max.trans (by decide)) (fun _ => size_lt_size_iff.2) le_rfl

variable {fromComponents : ℕ → List D → Except Failure (MemMmr D S)}

/-- **Rewinding the journal** to the range of the first `n` leaves. -/
theorem rewindTo_tracks {s : Journaled D S} (hs : Tracks cfg hasher es s k oldest) (hn : n ≤ k)
    (hlo : s.prunedToPos ≤ size n)
    (hf : ∃ m, fromComponents (size n) (peakDigests hasher (es.take n)) = .ok m ∧
      H (es.take n) m ∧ m.prunedToPos = size n ∧ RightPins hasher (es.take n) n m.pinnedNodes)
    (ha : ∀ {m pins}, H (es.take n) m → RightPins hasher (es.take n) n pins →
      H (es.take n) (m.addPinnedNodes pins)) :
    ∃ s', s.rewindTo cfg fromComponents (size n) = .ok s' ∧
      Tracks cfg hasher (es.take n) s' n oldest ∧ H (es.take n) s'.memMmr ∧
      s'.prunedToPos = s.prunedToPos := by
  have hnl : n ≤ es.length := hn.trans hs.le_length
  have hmx : n ≤ maxLocation := hn.trans hs.le_max
  have hle : size n ≤ size k := size_le_size_iff.2 hn
  have hkl : size k ≤ size es.length := size_le_size_iff.2 hs.le_length
  have hprune := hs.prunePos_eq
  have hpm : s.metadata.pruneToPos ≤ maxPosition := by
    rw [hprune]
    exact hlo.trans (size_le_maxPosition hmx)
  obtain ⟨p, hp, hp'⟩ := exists_size _
  have hpn : p ≤ n := size_le_size_iff.1 (hp.trans (hprune.trans_le hlo))
  have ht := take_idem es n
  obtain ⟨m, hm, hh, hpr, hrg⟩ := hf
  refine ⟨_, ?_, tracks_of_opened hs.pins hnl hmx (hprune ▸ hs.oldest_le) (hprune.trans_le hlo) hp
    hp' hpr hrg, ha hh ((RightPins.peaks hpn).of_take ht), hprune⟩
  rw [Journaled.rewindTo, hs.journal_eq, rewind_nodeJournal hkl hle (hs.oldest_le.trans hlo),
    nodesToPin_of (size_le_maxPosition hmx) le_rfl (size_lt_size_succ n)]
  refine bind_eq_ok.2 ⟨_, rfl, bind_eq_ok.2 ⟨_, rfl, bind_eq_ok.2 ⟨_, readPeaks hs.pins
    (hle.trans hkl) (hprune ▸ hs.oldest_le) (hprune.trans_le hlo) le_rfl, ?_⟩⟩⟩
  rw [hm, ← hprune]
  exact bind_eq_ok.2 ⟨_, rfl, bind_eq_ok.2 ⟨_, addExtraPinnedNodes_eq hs.pins hpm hp hp', rfl⟩⟩

/-- The last `n` leaves are there, and none of them is before the pruning boundary. -/
def Removable (es : List (List Sym)) (prunedToPos n : ℕ) : Prop :=
  n ≤ es.length ∧ prunedToPos ≤ size (es.length - n)

/-- How a removal of `n` leaves ends, if `j` of them are left in the end: an error has removed the
leaves that were in memory. -/
def PopEnds (es : List (List Sym)) (s s' : Journaled D S) (k n j : ℕ) : Except Error Unit → Prop
  | .ok _ => Removable es s.prunedToPos n ∧ j = es.length - n
  | .error _ => ¬Removable es s.prunedToPos n ∧ j = k ∧ (k = es.length → s' = s)

theorem popWith_tracks {s : Journaled D S} (hs : Tracks cfg hasher es s k oldest)
    (hm : H es s.memMmr) (hp : PopSpec H k popOne)
    (hsize : ∀ {es m}, H es m → m.size = size es.length)
    (hf : ∀ n ≤ k, ∃ m, fromComponents (size n) (peakDigests hasher (es.take n)) = .ok m ∧
      H (es.take n) m ∧ m.prunedToPos = size n ∧ RightPins hasher (es.take n) n m.pinnedNodes)
    (ha : ∀ {n m pins}, H (es.take n) m → RightPins hasher (es.take n) n pins →
      H (es.take n) (m.addPinnedNodes pins)) (n : ℕ) :
    ∃ r s' j k', Journaled.popWith cfg popOne fromComponents s n = .ok (r, s') ∧ j ≤ es.length ∧
      Tracks cfg hasher (es.take j) s' k' oldest ∧ H (es.take j) s'.memMmr ∧
      s'.prunedToPos = s.prunedToPos ∧ PopEnds es s s' k n j r := by
  obtain ⟨result, m, j, hcc, hkj, hj, hH, hpn, hpr, hsm, hr⟩ :=
    popCached_spec (n := n) hp hm hs.boundary hs.le_length
  have ht : es.take k = (es.take j).take k := by rw [take_take, Nat.min_eq_left hkj]
  have hjl : (es.take j).length = j := length_take_of_le hj
  have hs₁ := hs.of_mem ht (hkj.trans hjl.ge) hpr hpn
  have hst : j = k → k = es.length → { s with memMmr := m } = s := by
    intro hjk hk
    rw [hsm (hjk.trans hk)]
  have hkp : size k ≤ size j := size_le_size_iff.2 hkj
  cases result with
  | error e =>
    exact ⟨.error e, _, j, k, bind_eq_ok.2 ⟨_, hcc, rfl⟩, hj, hs₁, hH, rfl,
      fun h => absurd h.1 (Nat.not_le.2 hr.2), hr.1, hst hr.1⟩
  | ok left =>
    obtain ⟨hsu, hjk⟩ := hr
    by_cases hz : left = 0
    · refine ⟨.ok (), _, j, k, bind_eq_ok.2 ⟨_, hcc, by simp only [if_pos hz]; rfl⟩, hj, hs₁,
        hH, rfl, ⟨by omega, hs.pruned_le.trans (hkp.trans_eq ?_)⟩, by omega⟩
      rw [show j = es.length - n by omega]
    obtain rfl := hjk hz
    have hms : m.size = size j := by rw [hsize hH, hjl]
    have hif : ∀ i, i + left = j → i = es.length - n := fun i hi => by omega
    cases h : Journaled.popTarget s.prunedToPos m.size left with
    | error e =>
      refine ⟨.error e, _, j, j, bind_eq_ok.2 ⟨_, hcc, ?_⟩, hj, hs₁, hH, rfl, ?_, rfl, hst rfl⟩
      · simp only [if_neg hz, Journaled.size, h]
        rfl
      · rintro ⟨hn, hx⟩
        cases h.symm.trans ((popTarget_tracks hs hms hz).2 ⟨es.length - n, rfl, by omega, hx⟩)
    | ok newSize =>
      obtain ⟨i, rfl, hi, hlo⟩ := (popTarget_tracks hs hms hz).1 h
      have ht' : (es.take j).take i = es.take i := by
        rw [take_take, Nat.min_eq_left (by omega)]
      obtain ⟨s₂, hrw, hs₂, hH₂, hprune⟩ := rewindTo_tracks hs₁ (show i ≤ j by omega) hlo
        (by rw [ht']; exact hf i (by omega)) (by rw [ht']; exact ha)
      rw [ht'] at hs₂ hH₂
      refine ⟨.ok (), s₂, i, i, bind_eq_ok.2 ⟨_, hcc, ?_⟩, by omega, hs₂, hH₂, hprune,
        ⟨by omega, ?_⟩, hif i hi⟩
      · simp only [if_neg hz, Journaled.size, h]
        exact bind_eq_ok.2 ⟨s₂, hrw, rfl⟩
      · rwa [← hif i hi]

theorem fromComponents_take (hn : n ≤ es.length) (hmx : n ≤ maxLocation) :
    ∃ m, MemMmr.fromComponents [] (size n) (peakDigests hasher (es.take n)) = .ok m ∧
      AnyHolds hasher (es.take n) (.inl m) ∧ m.prunedToPos = size n ∧
      RightPins hasher (es.take n) n m.pinnedNodes := by
  have hlen : (es.take n).length = n := length_take_of_le hn
  have hmx' : maxLocation = 2 ^ 62 - 1 := rfl
  obtain ⟨m, hm, hh, hpr, hrg⟩ :=
    @fromComponents_holds _ _ hasher (es.take n) (hlen.trans_le hmx)
  rw [hlen] at hm hpr hrg
  exact ⟨m, hm, ⟨hh, by omega⟩, hpr, hrg⟩

theorem pop_tracks (hs : TracksClean cfg hasher es s k oldest) (n : ℕ) :
    ∃ r s' j k', s.pop cfg hasher n = .ok (r, s') ∧ j ≤ es.length ∧
      TracksClean cfg hasher (es.take j) s' k' oldest ∧ s'.prunedToPos = s.prunedToPos ∧
      PopEnds es s s' k n j r := by
  have hf : ∀ n ≤ k, ∃ m, Journaled.cleanFromComponents hasher (size n)
      (peakDigests hasher (es.take n)) = .ok m ∧ HoldsClean hasher (es.take n) m ∧
      m.prunedToPos = size n ∧ RightPins hasher (es.take n) n m.pinnedNodes := by
    intro n hn
    have hmx := hs.tracks.le_max
    have hmx' : maxLocation = 2 ^ 62 - 1 := rfl
    obtain ⟨m, hm, hh, hpr, hrg⟩ := @fromComponents_take _ _ hasher es n
      (hn.trans hs.tracks.le_length) (hn.trans hmx)
    obtain ⟨m', hm', hh', hpr'⟩ := merkleize_holds hh.1 ((length_take_le n es).trans (by omega))
    refine ⟨m', bind_eq_ok.2 ⟨m, hm, hm'⟩, hh', hpr'.trans hpr, ?_⟩
    rw [merkleize_pinnedNodes hm']
    exact hrg
  obtain ⟨r, s', j, k', hp, hj, ht, hh, hr⟩ := popWith_tracks hs.tracks hs.holds
    popClean_spec (fun hm => hm.stored.choose_spec.size_eq) hf HoldsClean.addPinnedNodes n
  exact ⟨r, s', j, k', hp, hj, ⟨ht, hh⟩, hr⟩

theorem popDirtyLeaves_tracks {s : DirtyJournaled D} (hs : TracksDirty cfg hasher es s k oldest)
    (n : ℕ) : ∃ r s' j k', s.popDirtyLeaves cfg n = .ok (r, s') ∧ j ≤ es.length ∧
      TracksDirty cfg hasher (es.take j) s' k' oldest ∧ s'.prunedToPos = s.prunedToPos ∧
      PopEnds es s s' k n j r := by
  obtain ⟨r, s', j, k', hp, hj, ht, hh, hr⟩ := popWith_tracks hs.tracks hs.holds
    popDirty_spec (fun hm => hm.1.stored.choose_spec.size_eq)
    (fun _ hn => fromComponents_take (hn.trans hs.tracks.le_length) (hn.trans hs.tracks.le_max))
    (fun hm hpn => ⟨hm.1.addPinnedNodes hpn, hm.2⟩) n
  exact ⟨r, s', j, k', hp, hj, ⟨ht, hh⟩, hr⟩

end Commonware.Mmr
