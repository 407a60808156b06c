/-
**The nodes of a range, in memory and in a journal.**

The nodes of a range stand in the journal in the order of their positions: each leaf is followed by the
parents that it completes.  A node of the range can be read from memory, from the metadata or from the
journal, whichever of them still has it, and all of them have the digest that the elements give it.

Main definitions:

* `nodesUpTo` — the digests of the nodes of the first leaves, by position;
* `Pins` — what the metadata says of the nodes before its pruning boundary.

Main results:

* `getElem?_nodesUpTo` — what stands at the position of a node;
* `Stored.addPinnedNodes`, `fromPeaks_stored`, `pruneAll_holds` — ranges in memory;
* `getFromMetadataOrJournal_peak` — **the peaks of a range can be read after a restart**.
-/

import Commonware.JournaledMmr
import Commonware.JournalRecords
import Commonware.MmrReach

set_option autoImplicit false

namespace Commonware.Mmr

open MountainRange List Option Fixed

variable {Sym D S : Type} {hasher : Hasher Sym D} {es es' : List (List Sym)}

/-! ### Nodes by position -/

variable {n x : ℕ}

/-- The digests of the leaf `a` and of the parents that it completes. -/
def completed (hasher : Hasher Sym D) (es : List (List Sym)) (a : ℕ) : List D :=
  (range (size (a + 1) - size a)).map fun h => digestAt hasher es h ((a + 1) / 2 ^ h - 1)

/-- The digests of the nodes of the first `n` leaves, by position. -/
def nodesUpTo (hasher : Hasher Sym D) (es : List (List Sym)) (n : ℕ) : List D :=
  (range n).flatMap (completed hasher es)

theorem nodesUpTo_succ (n : ℕ) :
    nodesUpTo hasher es (n + 1) = nodesUpTo hasher es n ++ completed hasher es n := by
  rw [nodesUpTo, range_succ, flatMap_append, flatMap_singleton]
  rfl

@[simp] theorem length_nodesUpTo (n : ℕ) : (nodesUpTo hasher es n).length = size n := by
  induction n with
  | zero => rfl
  | succ n ih =>
    have hlt := size_lt_size_succ n
    rw [nodesUpTo_succ, length_append, ih, completed, length_map, length_range]
    omega

variable {h q : ℕ}

theorem getElem?_nodesUpTo (he : (q + 1) * 2 ^ h ≤ n) :
    (nodesUpTo hasher es n)[pos h q]? = some (digestAt hasher es h q) := by
  induction n with
  | zero =>
    have : 0 < (q + 1) * 2 ^ h := by positivity
    omega
  | succ n ih =>
    rw [nodesUpTo_succ]
    rcases Nat.lt_or_ge n ((q + 1) * 2 ^ h) with hlt | hle
    · have hls : (q + 1) * 2 ^ h = n + 1 := by omega
      have hp := pos_of_end hls
      have hpos_lt := pos_lt_size_iff.2 he
      rw [getElem?_append_right (by rw [length_nodesUpTo]; omega), length_nodesUpTo, hp,
        Nat.add_sub_cancel_left, completed, getElem?_map,
        getElem?_range (by omega), map_some, ← hls,
        Nat.mul_div_cancel _ (Nat.two_pow_pos h), Nat.add_sub_cancel]
    · rw [getElem?_append_left (by rw [length_nodesUpTo]; exact pos_lt_size_iff.2 hle)]
      exact ih hle

variable {k : ℕ}

/-- The nodes of the first leaves do not depend on the other ones. -/
theorem digestAt_of_take (ht : es.take k = es'.take k) (he : (q + 1) * 2 ^ h ≤ k) :
    digestAt hasher es h q = digestAt hasher es' h q := by
  rw [← digestAt_take he, ht, digestAt_take he]

theorem nodesUpTo_of_take (ht : es.take k = es'.take k) (hn : n ≤ k) :
    nodesUpTo hasher es n = nodesUpTo hasher es' n := by
  refine ext_getElem? fun x => ?_
  rcases Nat.lt_or_ge x (size n) with hlt | hge
  · obtain ⟨h, q, rfl, he⟩ := exists_pos hlt
    rw [getElem?_nodesUpTo he, getElem?_nodesUpTo he, digestAt_of_take ht (he.trans hn)]
  · rw [getElem?_eq_none (by rwa [length_nodesUpTo]),
      getElem?_eq_none (by rwa [length_nodesUpTo])]

theorem take_nodesUpTo (hk : k ≤ n) :
    (nodesUpTo hasher es n).take (size k) = nodesUpTo hasher es k := by
  refine ext_getElem? fun x => ?_
  rw [getElem?_take]
  rcases Nat.lt_or_ge x (size k) with hlt | hge
  · obtain ⟨h, q, rfl, he⟩ := exists_pos hlt
    rw [if_pos hlt, getElem?_nodesUpTo (he.trans hk), getElem?_nodesUpTo he]
  · rw [if_neg (Nat.not_lt.2 hge), getElem?_eq_none (by rwa [length_nodesUpTo])]

/-! ### Peaks -/

/-- A peak before a boundary is a peak of the largest range before it. -/
theorem peak_of_lt {p : ℕ} (hlo : size p ≤ x) (hhi : x < size (p + 1)) (hn : x ≤ size n)
    (hmem : (h, q) ∈ peaks n) (hlt : pos h q < x) : (h, q) ∈ peaks p := by
  have hev := (mem_peaks.1 hmem).2
  have he : (q + 1) * 2 ^ h ≤ p + 1 := by
    rw [← pos_lt_size_iff]
    exact hlt.trans hhi
  -- the node is not one of those that the leaf after the boundary completes
  have hne : (q + 1) * 2 ^ h ≠ p + 1 := by
    intro heq
    obtain ⟨r, rfl⟩ : ∃ r, q = 2 * r := ⟨q / 2, by omega⟩
    have hsize := size_child_end h r
    rw [heq] at hsize
    omega
  have hp : p ≤ n := by
    rw [← size_le_size_iff]
    exact hlo.trans hn
  exact mem_peaks.2 ⟨Nat.div_eq_of_lt_le (by omega) (hp.trans_lt (lt_of_peak hmem)), hev⟩

/-! ### Ranges in memory -/

variable {pins : List (ℕ × D)} {m : MemMmr D S}

theorem lookup_addPinnedNodes :
    (m.addPinnedNodes pins).pinnedNodes.lookup x = (pins.lookup x).or (m.pinnedNodes.lookup x) := by
  rw [MemMmr.addPinnedNodes, lookup_append]
  cases hpn : pins.lookup x with
  | some d => rfl
  | none =>
    have hnt : x ∉ pins.map Prod.fst := by
      intro hmem
      obtain ⟨node, hnd, rfl⟩ := mem_map.1 hmem
      simpa using lookup_eq_none_iff.1 hpn node hnd
    rw [none_or, none_or]
    induction m.pinnedNodes with
    | nil => rfl
    | cons node nodes ih =>
      rw [filter_cons, lookup_cons]
      by_cases heq : x = node.1
      · subst heq
        rw [if_pos (decide_eq_true hnt), lookup_cons, beq_self_eq_true]
      · rw [beq_false_of_ne heq]
        by_cases hkp : node.1 ∈ pins.map Prod.fst
        · rw [if_neg (by simpa using hkp)]
          exact ih
        · rw [if_pos (decide_eq_true hkp), lookup_cons, beq_false_of_ne heq]
          exact ih

/-- The digests of pinned nodes are those of the first leaves. -/
def RightPins (hasher : Hasher Sym D) (es : List (List Sym)) (n : ℕ) (pins : List (ℕ × D)) : Prop :=
  ∀ x d, pins.lookup x = some d →
    ∃ h q, x = pos h q ∧ (q + 1) * 2 ^ h ≤ n ∧ d = digestAt hasher es h q

namespace RightPins

variable {n : ℕ} {pins pins' : List (ℕ × D)}

theorem lookup_eq (hpn : RightPins hasher es n pins) {h q : ℕ} {d : D}
    (hlk : pins.lookup (pos h q) = some d) : d = digestAt hasher es h q := by
  obtain ⟨h', q', hp, -, rfl⟩ := hpn _ _ hlk
  obtain ⟨rfl, rfl⟩ := pos_inj hp
  rfl

theorem peaks {p : ℕ} (hp : p ≤ n) : RightPins hasher es n (peakEntries hasher es p) := by
  intro x d hlk
  obtain ⟨l₁, l₂, heq, -⟩ := lookup_eq_some_iff.1 hlk
  have hmem : (x, d) ∈ peakEntries hasher es p := by
    rw [heq]
    exact mem_append_right _ mem_cons_self
  obtain ⟨node, hnd, hpair⟩ := mem_map.1 hmem
  cases hpair
  exact ⟨node.1, node.2, rfl, (peak_end_le hnd).trans hp, rfl⟩

variable (hpn : RightPins hasher es n pins)
include hpn

theorem mono {n' : ℕ} (hn : n ≤ n') : RightPins hasher es n' pins := by
  intro x d hlk
  obtain ⟨h, q, rfl, he, rfl⟩ := hpn x d hlk
  exact ⟨h, q, rfl, he.trans hn, rfl⟩

theorem of_take (ht : es.take n = es'.take n) : RightPins hasher es' n pins := by
  intro x d hlk
  obtain ⟨h, q, rfl, he, rfl⟩ := hpn x d hlk
  exact ⟨h, q, rfl, he, digestAt_of_take ht he⟩

theorem addPinnedNodes (hm : RightPins hasher es n m.pinnedNodes) :
    RightPins hasher es n (m.addPinnedNodes pins).pinnedNodes := by
  intro x d hlk
  rw [lookup_addPinnedNodes] at hlk
  rcases or_eq_some_iff.1 hlk with hlk | ⟨-, hlk⟩
  · exact hpn x d hlk
  · exact hm x d hlk

end RightPins

/-- Pinning more nodes, with their digests, changes nothing. -/
theorem Stored.addPinnedNodes {dirty : List (ℕ × ℕ)} {pin : ℕ}
    (st : Stored hasher es m dirty pin) (hpn : RightPins hasher es n pins) :
    Stored hasher es (m.addPinnedNodes pins) dirty pin := by
  refine { st with pinned := fun node hnd => ?_ }
  rw [lookup_addPinnedNodes]
  cases hlk : pins.lookup (pos node.1 node.2) with
  | some d => rw [some_or, hpn.lookup_eq hlk]
  | none => rw [none_or, st.pinned node hnd]

variable {m : CleanMmr D}

theorem HoldsClean.addPinnedNodes (hm : HoldsClean hasher es m) (hpn : RightPins hasher es n pins) :
    HoldsClean hasher es (m.addPinnedNodes pins) := by
  obtain ⟨⟨pin, st⟩, hr, hlen⟩ := hm
  exact ⟨⟨pin, st.addPinnedNodes hpn⟩, hr, hlen⟩

theorem Holds.addPinnedNodes {m : DirtyMmr D} (hm : Holds hasher es m)
    (hpn : RightPins hasher es n pins) : Holds hasher es (m.addPinnedNodes pins) := by
  obtain ⟨⟨pin, st⟩, hcl⟩ := hm
  exact ⟨⟨pin, st.addPinnedNodes hpn⟩, hcl⟩

/-- Reading the digests of peaks, one after the other. -/
theorem mapM_peaks {ε : Type} {f : ℕ → Except ε D}
    (hrd : ∀ {h q}, (h, q) ∈ peaks n → f (pos h q) = .ok (digestAt hasher es h q)) :
    ((peaks n).map fun node => pos node.1 node.2).mapM f =
      .ok ((peaks n).map fun node => digestAt hasher es node.1 node.2) := by
  rw [mapM_map]
  exact mapM_eq_ok fun _ hnd => hrd hnd

theorem take_idem (es : List (List Sym)) (n : ℕ) : es.take n = (es.take n).take n := by
  rw [take_take, Nat.min_self]

theorem zip_digests (n : ℕ) :
    ((peaks n).map fun node => pos node.1 node.2).zip
        ((peaks n).map fun node => digestAt hasher es node.1 node.2) = peakEntries hasher es n :=
  zip_map'

/-- **A range that is given by its peaks.** -/
theorem fromPeaks_stored (st : S) :
    Stored hasher es ⟨[], size es.length, peakEntries hasher es es.length, st⟩ [] es.length where
  size_eq := Nat.zero_add _
  pin_le := le_rfl
  lt_pin := size_lt_size_succ _
  pinned := fun node hnd => lookup_peaks hnd
  retained := fun h q he hge => by
    have hlt := pos_lt_size_iff.2 he
    exact absurd hge (Nat.not_le.2 hlt)
  dirty_node := fun x h hmem => by cases hmem

theorem fromPeaks_holds :
    Holds hasher es ⟨[], size es.length, peakEntries hasher es es.length, ⟨[]⟩⟩ :=
  ⟨⟨es.length, fromPeaks_stored _⟩, fun h q hmem => by cases hmem⟩

theorem fromComponents_holds (hlen : es.length ≤ maxLocation) :
    ∃ m, MemMmr.fromComponents [] (size es.length) (peakDigests hasher es) = .ok m ∧
      Holds hasher es m ∧ m.prunedToPos = size es.length ∧
      RightPins hasher es es.length m.pinnedNodes := by
  have hp := nodesToPin_of (size_le_maxPosition hlen) le_rfl (size_lt_size_succ _)
  refine ⟨_, ?_, fromPeaks_holds, rfl, RightPins.peaks le_rfl⟩
  rw [MemMmr.fromComponents, hp, peakDigests, ← zip_digests]
  simp [orPanic, bind, Except.bind]
  rfl

theorem recompute_pinnedNodes {l : List (ℕ × ℕ)} {m m' : DirtyMmr D}
    (h : l.foldlM (MemMmr.recompute hasher) m = .ok m') : m'.pinnedNodes = m.pinnedNodes := by
  refine foldlM_keeps (P := fun m' => m'.pinnedNodes = m.pinnedNodes) (fun _ hpn hst => ?_) rfl h
  rw [recompute_eq] at hst
  exact (updateNodeDigests_same hst).pinnedNodes.trans hpn

theorem merkleize_pinnedNodes {m : DirtyMmr D} {m' : CleanMmr D} (h : m.merkleize hasher = .ok m') :
    m'.pinnedNodes = m.pinnedNodes := by
  obtain ⟨m₁, hsr, hr⟩ := bind_eq_ok.1 h
  obtain ⟨peaks, -, hr⟩ := bind_eq_ok.1 hr
  obtain ⟨digests, -, hr⟩ := bind_eq_ok.1 hr
  cases hr
  exact (recompute_pinnedNodes hsr).trans rfl

/-- **Opening a range that is pruned completely.** -/
theorem init_holds (hlen : es.length ≤ maxLocation) :
    ∃ m, MemMmr.init [] (size es.length) (peakDigests hasher es) hasher = .ok m ∧
      HoldsClean hasher es m ∧ m.prunedToPos = size es.length ∧
      m.pinnedNodes = peakEntries hasher es es.length := by
  have hlen' : es.length ≤ 2 ^ 62 := hlen.trans (by norm_num [maxLocation])
  have hp := nodesToPin_of (size_le_maxPosition hlen) le_rfl (size_lt_size_succ es.length)
  obtain ⟨m, hm, hh, hpr⟩ := merkleize_holds (@fromPeaks_holds _ _ hasher es) hlen'
  refine ⟨m, ?_, hh, hpr, merkleize_pinnedNodes hm⟩
  have hsize : Position.isMmrSize (size es.length + ([] : List D).length) ≠ false := by
    rw [length_nil, Nat.add_zero, Position.isMmrSize_size hlen']
    exact Bool.noConfusion
  simp only [MemMmr.init, if_neg hsize, hp]
  refine bind_eq_ok.2 ⟨_, rfl, ?_⟩
  rw [if_neg (by simp [peakDigests]), peakDigests, zip_digests]
  exact hm

/-- **Dropping all nodes of a range.** -/
theorem pruneAll_holds (hm : HoldsClean hasher es m) (hlen : es.length ≤ maxLocation) :
    ∃ m', m.pruneAll = .ok m' ∧ HoldsClean hasher es m' ∧ m'.prunedToPos = size es.length ∧
      (m.nodes = [] ∧ m' = m ∨ m'.pinnedNodes = peakEntries hasher es es.length) := by
  obtain ⟨pin, st⟩ := hm.stored
  have ha := st.length_add
  rw [MemMmr.pruneAll]
  split_ifs with hnl
  · rw [hnl, length_nil, Nat.zero_add] at ha
    exact ⟨m, rfl, hm, ha, .inl ⟨hnl, rfl⟩⟩
  · have hsize : m.prunedToPos + m.nodes.length = size es.length := by omega
    obtain ⟨m', hprune, hh, hpr, n, hlo, hhi, hpn⟩ :=
      exists_pruneToPos hm st.boundary_le le_rfl (size_le_maxPosition hlen)
    obtain rfl := largest_unique hlo hhi le_rfl (size_lt_size_succ es.length)
    exact ⟨m', hsize ▸ hprune, hh, hpr, .inr hpn⟩

/-! ### Nodes in the journal -/

open Journaled (Metadata)

variable {cfg : Fixed.Config D} {oldest : ℕ}

def nodeRecords (cfg : Fixed.Config D) (hasher : Hasher Sym D) (es : List (List Sym)) (kept : ℕ) :
    List (List UInt8) :=
  ((nodesUpTo hasher es es.length).take kept).map (record cfg)

variable {kept : ℕ}

theorem length_nodeRecords (h : kept ≤ size es.length) :
    (nodeRecords cfg hasher es kept).length = kept := by
  rw [nodeRecords, length_map, length_take, length_nodesUpTo, Nat.min_eq_left h]

theorem length_of_mem_nodeRecords :
    ∀ r ∈ nodeRecords cfg hasher es kept, r.length = cfg.chunkSize := by
  intro r hr
  obtain ⟨d, -, rfl⟩ := mem_map.1 hr
  exact length_record d

theorem take_nodeRecords {kept' : ℕ} (h : kept' ≤ kept) :
    (nodeRecords cfg hasher es kept).take kept' = nodeRecords cfg hasher es kept' := by
  rw [nodeRecords, ← map_take, take_take, Nat.min_eq_left h, nodeRecords]

theorem getElem?_nodeRecords (hkp : kept ≤ size es.length) (hlt : pos h q < kept) :
    (nodeRecords cfg hasher es kept)[pos h q]? = some (record cfg (digestAt hasher es h q)) := by
  have he : (q + 1) * 2 ^ h ≤ es.length := pos_lt_size_iff.1 (by omega)
  rw [nodeRecords, getElem?_map, getElem?_take, if_pos hlt, getElem?_nodesUpTo he]
  rfl

theorem nodeRecords_of_take (ht : es.take k = es'.take k) (hk : k ≤ es.length)
    (hk' : k ≤ es'.length) (hkp : kept ≤ size k) :
    nodeRecords cfg hasher es kept = nodeRecords cfg hasher es' kept := by
  rw [← take_nodeRecords hkp, ← @take_nodeRecords _ _ _ es' _ _ _ hkp]
  simp only [nodeRecords, take_nodesUpTo hk, take_nodesUpTo hk', nodesUpTo_of_take ht le_rfl]

def nodeJournal (cfg : Fixed.Config D) (hasher : Hasher Sym D) (es : List (List Sym))
    (oldest kept : ℕ) : Fixed.Journal :=
  Fixed.Journal.ofRecords cfg oldest (nodeRecords cfg hasher es kept)

theorem oldest_le (ho : oldest * cfg.itemsPerBlob ≤ kept) (hkp : kept ≤ size es.length) :
    oldest ≤ (nodeRecords cfg hasher es kept).length / cfg.itemsPerBlob := by
  rw [length_nodeRecords hkp]
  exact (Nat.le_div_iff_mul_le cfg.itemsPerBlob.pos).2 ho

theorem size_nodeJournal (hkp : kept ≤ size es.length) :
    (nodeJournal cfg hasher es oldest kept).size = kept := length_nodeRecords hkp

theorem rewind_nodeJournal {sz : ℕ} (hkp : kept ≤ size es.length) (hle : sz ≤ kept)
    (ho : oldest * cfg.itemsPerBlob ≤ sz) : (nodeJournal cfg hasher es oldest kept).rewind cfg sz =
      .ok (nodeJournal cfg hasher es oldest sz) := by
  rw [nodeJournal, rewind_ofRecords length_of_mem_nodeRecords
    (by rwa [length_nodeRecords hkp]) ((Nat.le_div_iff_mul_le cfg.itemsPerBlob.pos).2 ho),
    take_nodeRecords hle, nodeJournal]

/-- **Reading a node of the journal.** -/
theorem read_nodeJournal (hkp : kept ≤ size es.length) (hlt : pos h q < kept)
    (ho : oldest * cfg.itemsPerBlob ≤ pos h q) :
    (nodeJournal cfg hasher es oldest kept).read cfg (pos h q) = .ok (digestAt hasher es h q) := by
  have hrc : (nodeJournal cfg hasher es oldest kept).readRecord cfg (pos h q) =
      .ok (record cfg (digestAt hasher es h q)) :=
    readRecord_ofRecords length_of_mem_nodeRecords
      (oldest_le (ho.trans hlt.le) hkp) ho (getElem?_nodeRecords hkp hlt)
  rw [Fixed.Journal.read, hrc]
  exact verifyIntegrity_record _

theorem appendNodes_eq {rs : List (List UInt8)} {positions : List ℕ} {ds : List D}
    (hrs : ∀ r ∈ rs, r.length = cfg.chunkSize) (ho : oldest ≤ rs.length / cfg.itemsPerBlob)
    (hg : List.Forall₂ (fun x d => m.getNode x = some d) positions ds) :
    Journaled.appendNodes cfg m (Fixed.Journal.ofRecords cfg oldest rs) positions =
      .ok (Fixed.Journal.ofRecords cfg oldest (rs ++ ds.map (record cfg))) := by
  induction hg generalizing rs with
  | nil => rw [map_nil, append_nil]; rfl
  | @cons x d positions ds hx hrt ih =>
    have hap := append_ofRecords hrs ho d
    have hrs' : ∀ r ∈ rs ++ [record cfg d], r.length = cfg.chunkSize := by
      intro r hr
      rcases mem_append.1 hr with hr | hr
      · exact hrs r hr
      · rw [mem_singleton.1 hr, length_record]
    have ho' : oldest ≤ (rs ++ [record cfg d]).length / cfg.itemsPerBlob := by
      rw [length_append]
      exact ho.trans (Nat.div_le_div_right (Nat.le_add_right _ _))
    have hrn := ih hrs' ho'
    rw [append_assoc, singleton_append] at hrn
    rw [Journaled.appendNodes, foldlM_cons]
    refine bind_eq_ok.2 ⟨_, ?_, hrn⟩
    rw [MemMmr.getNodeUnchecked, hx]
    refine bind_eq_ok.2 ⟨d, rfl, ?_⟩
    rw [hap]
    rfl

/-- **Writing the nodes of new leaves.** -/
theorem appendNodes_nodeJournal (hm : HoldsClean hasher es m) (hk : m.prunedToPos = size k)
    (ho : oldest * cfg.itemsPerBlob ≤ size k) :
    Journaled.appendNodes cfg m (nodeJournal cfg hasher es oldest (size k))
        (List.range' (size k) (size es.length - size k)) =
      .ok (nodeJournal cfg hasher es oldest (size es.length)) := by
  obtain ⟨⟨pin, st⟩, -, -⟩ := hm
  have hle : size k ≤ size es.length := hk ▸ st.boundary_le
  have hg : List.Forall₂ (fun x d => m.getNode x = some d)
      (List.range' (size k) (size es.length - size k))
      ((nodesUpTo hasher es es.length).drop (size k)) := by
    refine forall₂_iff_get.2 ⟨by simp, fun i h₁ h₂ => ?_⟩
    rw [length_range'] at h₁
    obtain ⟨h, q, hp, he⟩ := exists_pos (show size k + i < size es.length by omega)
    have hnd := @getElem?_nodesUpTo _ _ hasher es _ _ _ he
    have hrd := st.getNode_of he (by simp) (.inl (show m.prunedToPos ≤ pos h q by omega))
    simp only [get_eq_getElem, getElem_range', Nat.one_mul, getElem_drop, hp, hrd,
      Option.some.injEq]
    exact (List.getElem?_eq_some_iff.1 hnd).2.symm
  rw [nodeJournal, appendNodes_eq length_of_mem_nodeRecords (oldest_le ho hle) hg, nodeJournal,
    nodeRecords, nodeRecords, ← map_append, take_append_drop,
    take_of_length_le (by rw [length_nodesUpTo])]

/-! ### Nodes in the metadata -/

/-- The metadata has digests of nodes before its pruning boundary, among them the peaks of the
largest range before it. -/
structure Pins (hasher : Hasher Sym D) (es : List (List Sym)) (metadata : Metadata D) : Prop where
  node : ∀ x d, metadata.nodes.get? x = some d →
    ∃ h q, x = pos h q ∧ x < metadata.pruneToPos ∧ d = digestAt hasher es h q
  peak : ∀ p h q, size p ≤ metadata.pruneToPos → metadata.pruneToPos < size (p + 1) →
    (h, q) ∈ peaks p → metadata.nodes.get? (pos h q) = some (digestAt hasher es h q)

variable {metadata : Metadata D}

theorem Pins.of_take (hpn : Pins hasher es metadata) (ht : es.take k = es'.take k)
    (hk : metadata.pruneToPos ≤ size k) : Pins hasher es' metadata := by
  refine ⟨?_, ?_⟩
  · intro x d hx
    obtain ⟨h, q, rfl, hlt, rfl⟩ := hpn.node x d hx
    exact ⟨h, q, rfl, hlt, digestAt_of_take ht (pos_lt_size_iff.1 (hlt.trans_le hk))⟩
  · intro p h q hlo hhi hmem
    have hp : p ≤ k := size_le_size_iff.1 (hlo.trans hk)
    rw [hpn.peak p h q hlo hhi hmem, digestAt_of_take ht ((peak_end_le hmem).trans hp)]

/-- A node that the metadata or the journal has. -/
theorem getFromMetadataOrJournal_eq (hpn : Pins hasher es metadata)
    (hkp : kept ≤ size es.length) (hlt : pos h q < kept)
    (hsm : metadata.nodes.get? (pos h q) = none → oldest * cfg.itemsPerBlob ≤ pos h q) :
    Journaled.getFromMetadataOrJournal cfg metadata (nodeJournal cfg hasher es oldest kept) (pos h q) =
      .ok (digestAt hasher es h q) := by
  rw [Journaled.getFromMetadataOrJournal]
  cases hg : metadata.nodes.get? (pos h q) with
  | some d =>
    obtain ⟨h', q', hp, -, rfl⟩ := hpn.node _ _ hg
    obtain ⟨rfl, rfl⟩ := pos_inj hp
    rfl
  | none =>
    simp only [read_nodeJournal hkp hlt (hsm hg)]

/-- **The peaks of a range can be read after a restart**, from the metadata or the journal. -/
theorem getFromMetadataOrJournal_peak (hpn : Pins hasher es metadata)
    (hkp : kept ≤ size es.length) (ho : oldest * cfg.itemsPerBlob ≤ metadata.pruneToPos)
    (hlo : metadata.pruneToPos ≤ size n) (hhi : size n ≤ kept) (hmem : (h, q) ∈ peaks n) :
    Journaled.getFromMetadataOrJournal cfg metadata (nodeJournal cfg hasher es oldest kept) (pos h q) =
      .ok (digestAt hasher es h q) := by
  refine getFromMetadataOrJournal_eq hpn hkp
    ((pos_lt_size_iff.2 (peak_end_le hmem)).trans_le hhi) ?_
  intro hnn
  by_contra hlt
  obtain ⟨p, hp, hp'⟩ := exists_size metadata.pruneToPos
  have hpk := peak_of_lt hp hp' hlo hmem (by omega)
  rw [hpn.peak p h q hp hp' hpk] at hnn
  cases hnn

end Commonware.Mmr
