/-
**Completeness of inclusion proofs.**

A proof can be generated for every range of leaves that are retained, against the root of the leaves
that the range had at some earlier time, and the verifier accepts it: pruning and popping never drop
a node that a proof needs.  The same holds for leaves one by one, in any order and with repetitions.

A proof against an earlier root is one for the leaves as they are now, so leaves that were changed
since do not have one.

Main results:

* `verify_complete` — the verifier accepts the digests of the required nodes;
* `historicalRangeProof_eq`, `multiProof_eq` — the required nodes can be read;
* `proofs_complete` — **every retained leaf can be proven**;
* `updated_leaf_unproven` — a leaf that was changed is not proven against the root from before.
-/

import Commonware.MmrInclusion
import Commonware.MmrRequired

set_option autoImplicit false

namespace Commonware.Mmr

open MountainRange List OrdMap

variable {Sym D : Type} {hasher : Hasher Sym D} {es : List (List Sym)}

/-! ### The verifier -/

/-- The digest of a node in the range of some elements. -/
def nodeDigestAt (hasher : Hasher Sym D) (es : List (List Sym)) (node : ℕ × ℕ) : D :=
  digestAt hasher es node.1 node.2

variable {n : ℕ}

theorem rootOf_take (hn : n ≤ es.length) :
    rootOf hasher (es.take n) = hasher.root (size n) ((peaks n).map (nodeDigestAt hasher es)) := by
  have hlen : (es.take n).length = n := by
    rw [length_take]
    omega
  rw [rootOf, peakDigests, hlen]
  exact congrArg _ (map_congr_left fun node hnd => digestAt_take (peak_end_le hnd))

theorem extraDigests_last [DecidableEq D] (ds rest : List D) {st : Feed Sym D}
    (hst : st.siblings = ds.reverse) : Proof.extraDigests (ds ++ rest) ds.length st = false := by
  rw [Proof.extraDigests, hst]
  cases ds using List.reverseRecOn with
  | nil => rfl
  | append_singleton ds d =>
    rw [reverse_append, reverse_singleton, singleton_append]
    simp

section Verifier

variable [DecidableEq D] {a k : ℕ} (hn : n ≤ es.length) (hlen : n ≤ 2 ^ 62) (hk : k ≠ 0)
  (hak : a + k ≤ n)

include hn hlen hk hak

/-- **The verifier reconstructs the digests of the peaks from those of the required nodes**, and has
the digests of the nodes that it has met. -/
theorem reconstruct_complete :
    (Proof.mk (size n) ((required n a (a + k - 1)).map (nodeDigestAt hasher es))).reconstructPeakDigests
      hasher ((es.drop a).take k) a = .ok ((peaks n).map (nodeDigestAt hasher es),
        labelled (digestAt hasher es) (metBelow a (a + k - 1) (peaks n))) := by
  have hcn : ((es.drop a).take k).length = k := by
    rw [length_take, length_drop]
    omega
  have hne : (es.drop a).take k ≠ [] := fun hnl => hk (by rw [← hcn, hnl]; rfl)
  have hdg : (required n a (a + k - 1)).map (nodeDigestAt hasher es) =
      (others a (a + k - 1) (peaks n)).map (nodeDigestAt hasher es) ++
        ((along a (a + k - 1) (siblings a (a + k - 1)) (peaks n)).map
          (nodeDigestAt hasher es)).reverse := by
    rw [required, map_append, map_reverse]
  generalize hs : along a (a + k - 1) (siblings a (a + k - 1)) (peaks n) = sib at hdg
  generalize hot : others a (a + k - 1) (peaks n) = oth at hdg
  -- what the verifier is given
  have hg : Given hasher (digestAt hasher es)
      ⟨(es.drop a).take k, (oth.map (nodeDigestAt hasher es) ++
        (sib.map (nodeDigestAt hasher es)).reverse).reverse, []⟩
      ⟨[], (oth.map (nodeDigestAt hasher es)).reverse, []⟩
      (leavesBelow a (a + k - 1) (peaks n))
      (along a (a + k - 1) (siblings a (a + k - 1)) (peaks n)) := by
    rw [hs]
    refine ⟨⟨(es.drop a).take k, (append_nil _).symm, ?_⟩, ?_⟩
    · rw [leavesBelow_peaks (by omega) (by omega)]
      have hrn : a + k - 1 + 1 - a = k := by omega
      rw [hrn]
      refine forall₂_iff_get.2 ⟨by rw [hcn, length_range'], fun i hi hi' => ?_⟩
      rw [length_range'] at hi'
      have hlt : a + i < es.length := by omega
      simp only [get_eq_getElem, getElem_range', getElem_take, getElem_drop,
        one_mul, digestAt, getD_eq_getElem?_getD, List.getElem?_eq_getElem hlt, Option.getD_some]
    · rw [reverse_append, reverse_reverse]
      rfl
  obtain ⟨st, hlp, ⟨hlf, hr⟩, hc⟩ := peakLoop_complete
    (sib.map (nodeDigestAt hasher es)).reverse (fun node _ => rfl) hg
  refine (reconstruct_eq_ok_iff hne).2 ⟨n, (sib.map (nodeDigestAt hasher es)).reverse, st, hlen,
    rfl, by rw [hcn]; exact hak, ?_, hlf, ?_, by rw [hc]; rfl⟩
  · rw [hcn]
    simp only [hdg]
    rw [hot] at hlp
    exact hlp
  · have hu : ((required n a (a + k - 1)).map (nodeDigestAt hasher es)).length -
        ((sib.map (nodeDigestAt hasher es)).reverse).length =
          (oth.map (nodeDigestAt hasher es)).length := by
      rw [hdg, length_append]
      omega
    simp only [hu]
    rw [hdg]
    exact extraDigests_last _ _ hr

/-- **The verifier accepts the digests of the required nodes.** -/
theorem verify_complete :
    (Proof.mk (size n) ((required n a (a + k - 1)).map (nodeDigestAt hasher es))).verifyRangeInclusion
      hasher ((es.drop a).take k) a (rootOf hasher (es.take n)) = true := by
  rw [Proof.verifyRangeInclusion, Proof.reconstructRoot]
  simp only [Position.isMmrSize_size hlen, Bool.true_eq_false, if_false,
    reconstruct_complete hn hlen hk hak, bind, Except.bind, pure, Except.pure, rootOf_take hn,
    decide_true]

end Verifier

/-! ### The generator -/

variable {m : CleanMmr D}

theorem getNode_required (hm : HoldsClean hasher es m) {a b : ℕ} (hn : n ≤ es.length) (hab : a ≤ b)
    (hbn : b < n) (hbd : m.prunedToPos ≤ size a) {node : ℕ × ℕ} (hnd : node ∈ required n a b) :
    m.getNode (nodePos node) = some (nodeDigestAt hasher es node) := by
  obtain ⟨pin, st⟩ := hm.stored
  obtain ⟨h, q⟩ := node
  have hcl : (pos h q, h) ∉ ([] : List (ℕ × ℕ)) := by simp
  obtain ⟨he, hcs⟩ := mem_required hnd
  rcases hcs with ⟨hpk, -⟩ | ⟨-, hmt, ⟨hev, -⟩ | ⟨-, hrg⟩⟩
  · have hle : size a ≤ size n := size_le_size_iff.2 (by omega)
    exact st.getNode_of_peak hn (hbd.trans hle) hpk hcl
  · -- a left child, whose parent has a leaf of the range
    refine st.getNode_of_even (he.trans hn) hcl hev hbd ?_
    have hlt := hmt.1
    have hp : (q / 2 + 1) * 2 ^ (h + 1) = (q + 2) * 2 ^ h := by
      have hq : q + 2 = 2 * (q / 2 + 1) := by omega
      rw [hq]
      ring
    rwa [hp] at hlt
  · -- a right child, behind the range
    have hlt : b < (q + 1) * 2 ^ h := hrg.trans_le (Nat.mul_le_mul_right _ (Nat.le_succ q))
    exact st.getNode_of_le (he.trans hn) hcl hbd (hab.trans_lt hlt)

variable {getNode : ℕ → Option D}

theorem fetchNode_eq {x : ℕ} {digest : D}
    (h : getNode x = some digest) : fetchNode getNode x = .ok digest := by
  rw [fetchNode, h]

/-- A proof of a range, if the digests of the required nodes can be read. -/
theorem historicalRangeProof_of {a b : ℕ} (hlen : n ≤ 2 ^ 62) (hab : a ≤ b)
    (hbn : b < n) (hg : ∀ node ∈ required n a b,
      getNode (nodePos node) = some (nodeDigestAt hasher es node)) :
    historicalRangeProof getNode (size n) a (b + 1) =
      .ok ⟨size n, (required n a b).map (nodeDigestAt hasher es)⟩ := by
  rw [historicalRangeProof, nodesRequired_eq hlen hab hbn]
  refine bind_eq_ok.2 ⟨_, rfl, bind_eq_ok.2 ⟨(required n a b).map (nodeDigestAt hasher es), ?_, rfl⟩⟩
  rw [mapM_map]
  exact mapM_eq_ok fun node hnd => fetchNode_eq (hg node hnd)

theorem historicalRangeProof_eq (hm : HoldsClean hasher es m) {a b : ℕ} (hn : n ≤ es.length)
    (hab : a ≤ b) (hbn : b < n) (hbd : m.prunedToPos ≤ size a) :
    historicalRangeProof m.getNode (size n) a (b + 1) =
      .ok ⟨size n, (required n a b).map (nodeDigestAt hasher es)⟩ :=
  historicalRangeProof_of (hn.trans hm.length_le) hab hbn fun _ hnd =>
    getNode_required hm hn hab hbn hbd hnd

/-! ### Leaves one by one -/

/-- The positions that single leaves need. -/
def requiredAll (n : ℕ) (locations : List ℕ) : List ℕ :=
  locations.flatMap fun loc => (required n loc loc).map nodePos

variable {locations : List ℕ}

theorem mem_keys_requiredAll (x : ℕ) :
    x ∈ ((requiredAll n locations).foldl (fun acc pos => acc.insert pos ()) empty).keys ↔
      x ∈ requiredAll n locations := by
  rw [mem_keys_foldl_insert]
  simp [OrdMap.keys, empty]

theorem not_maxLocation_lt {loc : ℕ} (hn : n ≤ 2 ^ 62) (hlt : loc < n) : ¬ maxLocation < loc := by
  unfold maxLocation
  omega

theorem nodesRequiredForMultiProof_eq (hn : n ≤ 2 ^ 62) (hne : locations ≠ [])
    (hlc : ∀ loc ∈ locations, loc < n) :
    ∃ positions, nodesRequiredForMultiProof (size n) locations = .ok positions ∧
      ∀ x, x ∈ positions.keys ↔ x ∈ requiredAll n locations := by
  refine ⟨_, ?_, mem_keys_requiredAll⟩
  rw [nodesRequiredForMultiProof, Position.isMmrSize_size hn, if_neg (by simp), if_neg hne,
    requiredAll, foldl_flatMap]
  refine foldlM_eq_pure fun acc loc hl => ?_
  rw [if_neg (not_maxLocation_lt hn (hlc loc hl)), nodesRequired_eq hn le_rfl (hlc loc hl)]
  rfl

variable {elements : List (List Sym × ℕ)}

theorem foldl_prod {α A B : Type} (f : A → α → A) (g : B → α → B) (l : List α) (a : A) (b : B) :
    l.foldl (fun acc x => (f acc.1 x, g acc.2 x)) (a, b) = (l.foldl f a, l.foldl g b) := by
  induction l generalizing a b with
  | nil => rfl
  | cons x l ih => exact ih _ _

theorem collectRequired_eq (hn : n ≤ 2 ^ 62) (hlc : ∀ item ∈ elements, item.2 < n) :
    ∃ positions requireds, Proof.collectRequired (size n) elements = some (positions, requireds) ∧
      (∀ x, x ∈ positions.keys ↔ x ∈ requiredAll n (elements.map Prod.snd)) ∧
      ∀ item ∈ elements, requireds.get? item.2 = some ((required n item.2 item.2).map nodePos) := by
  refine ⟨_, ((elements.map Prod.snd).map fun loc => (loc, (required n loc loc).map nodePos)).foldl
    (fun m item => m.insert item.1 item.2) .empty, ?_, mem_keys_requiredAll, fun item hit => ?_⟩
  · rw [requiredAll, foldl_flatMap, foldl_map, foldl_map, foldl_map, ← foldl_prod]
    refine foldlM_eq_pure fun acc item hit => ?_
    rw [if_neg (not_maxLocation_lt hn (hlc item hit)), nodesRequired_eq hn le_rfl (hlc item hit)]
    rfl
  · rw [get?_foldl_insert, if_pos (mem_map_of_mem hit)]

/-- The digest of the node at a position, as the range has it. -/
def digestOr (m : CleanMmr D) (default : D) (x : ℕ) : D := (m.getNode x).getD default

theorem getNode_requiredAll (hm : HoldsClean hasher es m)
    (hlc : ∀ loc ∈ locations, loc < es.length ∧ m.prunedToPos ≤ size loc) {x : ℕ}
    (hx : x ∈ requiredAll es.length locations) :
    m.getNode x = some (digestOr m hasher.empty x) := by
  obtain ⟨loc, hl, hx⟩ := mem_flatMap.1 hx
  obtain ⟨node, hnd, rfl⟩ := mem_map.1 hx
  obtain ⟨hlt, hbn⟩ := hlc loc hl
  rw [digestOr, getNode_required hm le_rfl le_rfl hlt hbn hnd]
  rfl

variable {positions : OrdMap ℕ Unit}

theorem multiProof_of {digestOf : ℕ → D}
    (hne : locations ≠ []) (hp : nodesRequiredForMultiProof (size n) locations = .ok positions)
    (hg : ∀ x ∈ positions.keys, getNode x = some (digestOf x)) :
    multiProof getNode (size n) locations = .ok ⟨size n, positions.keys.map digestOf⟩ := by
  rw [multiProof, if_neg hne, hp]
  refine bind_eq_ok.2 ⟨_, rfl, bind_eq_ok.2 ⟨positions.keys.map digestOf, ?_, rfl⟩⟩
  exact mapM_eq_ok fun x hx => fetchNode_eq (hg x hx)

theorem multiProof_eq (hm : HoldsClean hasher es m) (hne : locations ≠ [])
    (hlc : ∀ loc ∈ locations, loc < es.length ∧ m.prunedToPos ≤ size loc) :
    ∃ positions : OrdMap ℕ Unit, multiProof m.getNode m.size locations =
        .ok ⟨size es.length, positions.keys.map (digestOr m hasher.empty)⟩ ∧
      ∀ x, x ∈ positions.keys ↔ x ∈ requiredAll es.length locations := by
  obtain ⟨pin, st⟩ := hm.stored
  obtain ⟨positions, hp, hmem⟩ := nodesRequiredForMultiProof_eq hm.length_le hne
    fun loc hl => (hlc loc hl).1
  refine ⟨positions, ?_, hmem⟩
  rw [st.size_eq]
  exact multiProof_of hne hp fun x hx => getNode_requiredAll hm hlc ((hmem x).1 hx)

theorem verifyMulti_complete [DecidableEq D] (hm : HoldsClean hasher es m) (hne : elements ≠ [])
    (hsm : ∀ loc, loc ∈ locations ↔ loc ∈ elements.map Prod.snd)
    (hel : ∀ item ∈ elements, es[item.2]? = some item.1)
    (hlc : ∀ loc ∈ locations, loc < es.length ∧ m.prunedToPos ≤ size loc)
    (hps : ∀ x, x ∈ positions.keys ↔ x ∈ requiredAll es.length locations) :
    (Proof.mk (size es.length) (positions.keys.map
      (digestOr m hasher.empty))).verifyMultiInclusion hasher elements m.root = true := by
  have hit : ∀ item ∈ elements, item.2 < es.length ∧ m.prunedToPos ≤ size item.2 :=
    fun item hin => hlc _ ((hsm _).2 (mem_map_of_mem hin))
  obtain ⟨positions', requireds, hcl, hmem, hg⟩ := collectRequired_eq hm.length_le
    fun item hin => (hit item hin).1
  have hky : positions'.keys = positions.keys := by
    refine keys_congr fun x => ?_
    rw [hmem, hps, requiredAll, requiredAll, mem_flatMap, mem_flatMap]
    exact exists_congr fun loc => and_congr (hsm loc).symm Iff.rfl
  have hsize : positions'.size = (positions.keys.map (digestOr m hasher.empty)).length := by
    rw [length_map, ← hky]
    exact (length_map _).symm
  have hz : positions'.keys.zip (positions.keys.map (digestOr m hasher.empty)) =
      positions.keys.map fun x => (x, digestOr m hasher.empty x) := by
    rw [hky, ← map_id positions.keys, map_map, zip_map', map_id]
    rfl
  rw [Proof.verifyMultiInclusion, if_neg hne]
  simp only [Position.isMmrSize_size hm.length_le, Bool.true_eq_false, if_false, hcl, hsize,
    ne_eq, not_true_eq_false, hz, all_eq_true]
  intro item hin
  obtain ⟨hlt, hbn⟩ := hit item hin
  -- the digests of one leaf are those of a proof for this leaf alone
  have hdg : ((required es.length item.2 item.2).map nodePos).filterMap
      ((positions.keys.map fun x => (x, digestOr m hasher.empty x)).foldl
        (fun m item => m.insert item.1 item.2) empty).get? =
      (required es.length item.2 item.2).map (nodeDigestAt hasher es) := by
    rw [filterMap_map]
    refine filterMap_eq_map_iff_forall_eq_some.2 fun node hnd => ?_
    have hx : nodePos node ∈ positions.keys := (hps _).2 (mem_flatMap.2
      ⟨item.2, (hsm _).2 (mem_map_of_mem hin), mem_map_of_mem hnd⟩)
    rw [Function.comp_apply, get?_foldl_insert, if_pos hx, digestOr,
      getNode_required hm le_rfl le_rfl hlt hbn hnd]
    rfl
  rw [hg item hin, Option.getD_some, hdg, Proof.verifyElementInclusion]
  have hvr := @verify_complete Sym D hasher es _ _ _ _ (le_refl es.length) hm.length_le
    one_ne_zero (show item.2 + 1 ≤ es.length from hlt)
  have hone : (es.drop item.2).take 1 = [item.1] := by
    rw [take_one_drop_eq_of_lt_length hlt]
    have := hel item hin
    rw [List.getElem?_eq_getElem hlt, Option.some.injEq] at this
    simp [this]
  rw [hone, take_length, ← hm.root_eq] at hvr
  exact hvr

/-! ### Completeness -/

/-- **Every retained leaf can be proven.**  A proof of the leaves from `a` on, up to `b`, against the
first `n` leaves can be generated, and is accepted against the root of every range that holds just
these leaves; and proofs of leaves one by one are accepted against the root of the range. -/
theorem proofs_complete [DecidableEq D] {m : CleanMmr D} (hreach : Reach hasher (.inr m) es) :
    (∀ n a b, n ≤ es.length → a < b → b ≤ n → m.prunedToPos ≤ size a →
      ∃ p, historicalRangeProof m.getNode (size n) a b = .ok p ∧
        ∀ m₀ : CleanMmr D, Reach hasher (.inr m₀) (es.take n) →
          p.verifyRangeInclusion hasher ((es.drop a).take (b - a)) a m₀.root = true) ∧
    (∀ (locations : List ℕ) (elements : List (List Sym × ℕ)), locations ≠ [] →
      (∀ loc ∈ locations, loc < es.length ∧ m.prunedToPos ≤ size loc) →
      (∀ loc, loc ∈ locations ↔ loc ∈ elements.map Prod.snd) →
      (∀ item ∈ elements, es[item.2]? = some item.1) →
      ∃ p, multiProof m.getNode m.size locations = .ok p ∧
        p.verifyMultiInclusion hasher elements m.root = true) := by
  have hh : HoldsClean hasher es m := hreach.holds
  refine ⟨fun n a b hn hab hbn hbd => ?_, fun locations elements hne hlc hsm hel => ?_⟩
  · obtain ⟨k, rfl⟩ := Nat.exists_eq_add_of_lt hab
    refine ⟨_, historicalRangeProof_eq hh hn (by omega) (by omega) hbd, fun m₀ hm₀ => ?_⟩
    have hr : m₀.root = rootOf hasher (es.take n) :=
      HoldsClean.root_eq (show AnyHolds hasher _ (.inr m₀) from hm₀.holds)
    have hk : a + k + 1 - a = k + 1 := by omega
    rw [hr, hk]
    exact verify_complete hn (hn.trans hh.length_le) (Nat.succ_ne_zero k) (by omega)
  · have hne' : elements ≠ [] := by
      rintro rfl
      obtain ⟨loc, hl⟩ := exists_mem_of_ne_nil locations hne
      simpa using (hsm loc).1 hl
    obtain ⟨positions, hpr, hps⟩ := multiProof_eq hh hne hlc
    exact ⟨_, hpr, verifyMulti_complete hh hne' hsm hel hlc hps⟩

theorem proofs_complete_three :
    ∃ m m₀ : CleanMmr FreeHash, Reach freeHasher.standard (.inr m) Sample.three ∧
      Reach freeHasher.standard (.inr m₀) (Sample.three.take 2) ∧ m.prunedToPos ≤ size 0 ∧
      ∃ p, historicalRangeProof m.getNode (size 2) 0 1 = .ok p ∧
        p.verifyRangeInclusion freeHasher.standard [[.inl 7]] 0 m₀.root = true := by
  obtain ⟨m, hm, hpr, -⟩ := Sample.exists_three
  obtain ⟨m₀, hm₀, -⟩ := exists_range freeHasher.standard
    (show (Sample.three.take 2).length ≤ 2 ^ 62 by simp [Sample.three])
  have hbn : m.prunedToPos ≤ size 0 := by rw [hpr, size_zero]
  obtain ⟨p, hpf, hvr⟩ := (proofs_complete hm).1 2 0 1 (by simp [Sample.three]) (by omega)
    (by omega) hbn
  exact ⟨m, m₀, hm, hm₀, hbn, p, hpf, hvr m₀ hm₀⟩

/-- A range had two leaves.  A third one was added, and the first one was changed then.  The second
one is not proven against the root from before: its sibling is not what it was. -/
theorem updated_leaf_unproven : ∃ (m₀ m : CleanMmr FreeHash) (d₁ d₂ : DirtyMmr FreeHash) (x : ℕ),
      Reach freeHasher.standard (.inr m₀) (Sample.three.take 2) ∧
      m₀.intoDirty.add freeHasher.standard [.inl 9] = .ok (x, d₁) ∧
      d₁.updateLeaf freeHasher.standard 0 [.inl 4] = .ok d₂ ∧
      d₂.merkleize freeHasher.standard = .ok m ∧ m.prunedToPos ≤ size 1 ∧
      ∃ p, historicalRangeProof m.getNode (size 2) 1 2 = .ok p ∧
        p.verifyRangeInclusion freeHasher.standard [[.inl 8]] 1 m₀.root = false := by
  obtain ⟨m₀, hm₀, hp₀⟩ := exists_range freeHasher.standard
    (show (Sample.three.take 2).length ≤ 2 ^ 62 by simp [Sample.three])
  have hh₀ : HoldsClean freeHasher.standard (Sample.three.take 2) m₀ := hm₀.holds
  have hdr := intoDirty_holds hh₀
  obtain ⟨x, d₁, ha⟩ := exists_add hdr (by simp [Sample.three]) [.inl 9]
  obtain ⟨hd₁, -, hp₁⟩ := add_holds hdr ha
  obtain ⟨d₂, hu, hp₂⟩ := exists_updateLeaf hd₁ (by simp [Sample.three, maxLocation])
    (show 0 < _ by simp [Sample.three]) (by rw [hp₁]; exact hp₀.le.trans (Nat.zero_le _)) [.inl 4]
  obtain ⟨hd₂, -⟩ := updateLeafBatched_holds hd₁ hu
  obtain ⟨m, hmr, hm, hp⟩ := merkleize_holds hd₂ (by simp [Sample.three, length_setElements])
  have hbn : m.prunedToPos ≤ size 1 := by
    rw [hp, hp₂, hp₁]
    exact hp₀.le.trans (Nat.zero_le _)
  refine ⟨m₀, m, d₁, d₂, x, hm₀, ha, hu, hmr, hbn, _,
    historicalRangeProof_eq hm (n := 2) (by simp [Sample.three, length_setElements]) le_rfl
      (by omega) hbn, ?_⟩
  rw [hh₀.root_eq]
  decide +kernel

end Commonware.Mmr
