/-
**Pinned nodes from accepted proofs.**

A node that synchronizes its state takes the pinned nodes of its first batch of operations from the
proof of the batch (`Proof::extract_pinned_nodes` in `storage/src/mmr/proof.rs`,
`storage/src/qmdb/{verify,sync/engine}.rs`).  This works if the proof has exactly the digests that
are required.  The verifier compares a digest that is left over with the last one that it took from
the front by value, so that it accepts proofs with further digests as long as they end in a copy of
that digest.

Main definitions:

* `Proof.extractPinnedNodes` — the digests of the nodes to pin;
* `Engine.handleFetchResult` — a batch of operations arrives.

Main results:

* `digestAt_inj` — different nodes have different digests;
* `accepted_digests` — the digests of an accepted proof;
* `pinned_nodes_extracted` — **pinned nodes are extracted from an accepted proof exactly if no digest
  occurs twice in it**, and its range has an end;
* `repeated_digest_accepted` — a proof that is accepted, and has too many digests.
-/

import Commonware.MmrCompleteness

set_option autoImplicit false

namespace Commonware.Mmr

open MountainRange List

variable {Sym D : Type}

/-! ### Extraction -/

/-- The digests of the nodes to pin before the start of a range, from a proof for the range. -/
def Proof.extractPinnedNodes (p : Proof D) (start stop : ℕ) : Except Failure (List D) := do
  let startPos ← orError (Position.tryFrom start)
  let pinnedPositions ← orPanic (nodesToPin startPos)
  let requiredPositions ← orError (nodesRequiredForRangeProof p.size start stop)
  if requiredPositions.length ≠ p.digests.length then .error (.error .invalidProofLength)
  -- the slice panics if there are more nodes to pin than nodes in the proof
  else if requiredPositions.length < pinnedPositions.length then .error .panic
  else
    let skip := requiredPositions.length - pinnedPositions.length
    if pinnedPositions = requiredPositions.drop skip then .ok (p.digests.drop skip)
    else
      let positionToDigest : OrdMap ℕ D :=
        (requiredPositions.zip p.digests).foldl (fun m item => m.insert item.1 item.2) .empty
      pinnedPositions.mapM fun pinnedPos =>
        match positionToDigest.get? pinnedPos with
        | some digest => .ok digest
        | none => .error (.error (.missingDigest pinnedPos))

end Commonware.Mmr

namespace Commonware.Qmdb

open Commonware.Mmr List

variable {Sym D Op : Type}

/-- Whether operations stand one after the other from a location on. -/
def verifyProof [DecidableEq D] (c : CHasher Sym D) (encode : Op → List Sym) (proof : Proof D)
    (startLoc : ℕ) (operations : List Op) (targetRoot : D) : Bool :=
  proof.verifyRangeInclusion c.standard (operations.map encode) startLoc targetRoot

def extractPinnedNodes (proof : Proof D) (startLoc operationsLen : ℕ) :
    Except Failure (List D) :=
  match Location.checkedAdd startLoc operationsLen with
  | none => .error (.error (.locationOverflow startLoc))
  | some endLoc => proof.extractPinnedNodes startLoc endLoc

namespace Sync

/-- What the engine that synchronizes a database knows. -/
structure Engine (Op D : Type) where
  outstandingRequests : OrdMap ℕ Unit
  fetchedOperations : OrdMap ℕ (List Op)
  pinnedNodes : Option (List D)
  targetRoot : D
  targetStart : ℕ
  fetchBatchSize : ℕ

/-- A batch of operations that a resolver sends. -/
structure FetchResult (Op D : Type) where
  proof : Proof D
  operations : List Op

namespace Engine

variable [DecidableEq D]

/-- The pinned nodes after a batch that is valid: an error of the extraction is ignored. -/
def pinNodes (s : Engine Op D) (startLoc : ℕ) (result : FetchResult Op D) :
    Except Failure (Option (List D)) :=
  if s.pinnedNodes.isNone ∧ startLoc = s.targetStart then
    match extractPinnedNodes result.proof startLoc result.operations.length with
    | .ok nodes => .ok (some nodes)
    | .error (.error _) => .ok s.pinnedNodes
    | .error .panic => .error .panic
  else .ok s.pinnedNodes

/-- A batch arrives.  The result has whether the batch is reported as valid to the resolver. -/
def handleFetchResult (c : CHasher Sym D) (encode : Op → List Sym) (s : Engine Op D)
    (startLoc : ℕ) (result : FetchResult Op D) : Except Failure (Engine Op D × Bool) :=
  let s := { s with outstandingRequests := s.outstandingRequests.erase startLoc }
  if result.operations.length = 0 ∨ s.fetchBatchSize < result.operations.length then
    .ok (s, false)
  else if verifyProof c encode result.proof startLoc result.operations s.targetRoot then do
    let pinnedNodes ← s.pinNodes startLoc result
    pure ({ s with
      pinnedNodes := pinnedNodes
      fetchedOperations := s.fetchedOperations.insert startLoc result.operations }, true)
  else .ok (s, false)

end Engine

end Sync

end Commonware.Qmdb

namespace Commonware.Mmr

open MountainRange List

variable {Sym D : Type}

/-! ### Different nodes have different digests -/

theorem digestAt_string (c : CHasher Sym D) (es : List (List Sym)) (h q : ℕ) :
    ∃ rest, digestAt c.standard es h q = c.hash (c.u64 (pos h q) ++ rest) := by
  cases h with
  | zero => exact ⟨es.getD q [], by rw [digestAt, pos_zero_left]; rfl⟩
  | succ h =>
    refine ⟨c.bytes (digestAt c.standard es h (2 * q)) ++
      c.bytes (digestAt c.standard es h (2 * q + 1)), ?_⟩
    rw [digestAt, ← append_assoc]
    rfl

/-- **Different nodes have different digests.** -/
theorem digestAt_inj {c : CHasher Sym D} (hinj : Function.Injective c.hash) {es : List (List Sym)}
    {n h q h' q' : ℕ} (hn : n ≤ 2 ^ 62) (hq : (q + 1) * 2 ^ h ≤ n) (hq' : (q' + 1) * 2 ^ h' ≤ n)
    (heq : digestAt c.standard es h q = digestAt c.standard es h' q') : h = h' ∧ q = q' := by
  have hlt : ∀ {h q : ℕ}, (q + 1) * 2 ^ h ≤ n → pos h q < 2 ^ 64 := fun hle =>
    ((pos_lt_size_iff.2 hle).trans (size_lt_two_pow_iff.2 hn)).trans (by norm_num)
  obtain ⟨s, hs⟩ := digestAt_string c es h q
  obtain ⟨s', hs'⟩ := digestAt_string c es h' q'
  rw [hs, hs'] at heq
  obtain ⟨hu64, -⟩ := append_inj (hinj heq) rfl
  exact pos_inj (CHasher.u64_inj (hlt hq) (hlt hq') hu64)

section Accepted

variable {c : CHasher Sym D} {es : List (List Sym)}

theorem required_digests_nodup (hinj : Function.Injective c.hash) (es : List (List Sym))
    {n s e : ℕ} (hn : n ≤ 2 ^ 62) (hse : s ≤ e) : ((required n s e).map (nodeDigestAt c.standard es)).Nodup := by
  refine List.Nodup.map_on (fun a ha b hb heq => ?_) (required_nodup hse)
  obtain ⟨h₁, h₂⟩ := digestAt_inj hinj hn (mem_required ha).1 (mem_required hb).1 heq
  exact Prod.ext h₁ h₂

/-! ### Accepted proofs -/

/-- A list with a given front and a given back that do not overlap. -/
theorem exists_middle {α : Type} {l front back rest rest' : List α}
    (hf : l = front ++ rest) (hbc : l = rest' ++ back)
    (hds : ∀ x ∈ front, x ∉ back) : ∃ middle, l = front ++ middle ++ back := by
  rcases append_eq_append_iff.1 (hf.symm.trans hbc) with ⟨m, rfl, rfl⟩ | ⟨m, rfl, hm⟩
  · exact ⟨m, by rw [hbc]⟩
  · cases m with
    | nil =>
      refine ⟨[], ?_⟩
      rw [hbc, append_nil, append_nil]
    | cons x m =>
      refine absurd ?_ (hds x (by simp))
      rw [hm]
      simp

variable [DecidableEq D] {p : Proof D} {elements : List (List Sym)} {start : ℕ}

/-- **The digests of an accepted proof**: those that are required, and perhaps some more in the
middle, which end in a copy of the last one from the front. -/
theorem accepted_digests (hinj : Function.Injective c.hash) (hes : es.length ≤ 2 ^ 62)
    (hel : elements ≠ [])
    (h : p.verifyRangeInclusion c.standard elements start (rootOf c.standard es) = true) :
    p.size = size es.length ∧ start + elements.length ≤ es.length ∧ ∃ front middle back,
      (required es.length start (start + elements.length - 1)).map (nodeDigestAt c.standard es) =
        front ++ back ∧ p.digests = front ++ middle ++ back ∧
      (middle = [] ∨ ∃ x, x ∈ front ∧ x ∈ middle) := by
  obtain ⟨hsz, cs, hpk⟩ := accepted_peaks hinj hes hel h
  obtain ⟨hle, rest, st, hf, progress, -, het, -⟩ :=
    reconstruct_sound (CHasher.binding hinj es es.length) hel hsz hpk
  have hp : elements.length ≠ 0 := fun h => hel (eq_nil_of_length_eq_zero h)
  have hnd := required_digests_nodup hinj es hes
    (show start ≤ start + elements.length - 1 by omega)
  have hsb := congrArg List.reverse progress.siblings
  rw [reverse_reverse, reverse_append] at hsb
  rw [required, map_append, map_reverse] at hnd ⊢
  have hf' : p.digests = (others start (start + elements.length - 1) (peaks es.length)).map
    (nodeDigestAt c.standard es) ++ rest := hf
  generalize (others start (start + elements.length - 1) (peaks es.length)).map
    (nodeDigestAt c.standard es) = front at hf' hnd ⊢
  obtain ⟨middle, hmd⟩ := exists_middle hf' hsb
    fun x hx hx' => (nodup_append.1 hnd).2.2 x hx x hx' rfl
  refine ⟨hsz, hle, front, middle, _, rfl, hmd, ?_⟩
  -- the digests that are left at the back
  have hlf := append_cancel_right (hsb.symm.trans hmd)
  have hu : p.digests.length - rest.length = front.length := by
    rw [hf', length_append, Nat.add_sub_cancel]
  rw [hu] at het
  cases middle using List.reverseRecOn with
  | nil => exact Or.inl rfl
  | append_singleton middle x =>
    have hst : st.siblings = x :: (front ++ middle).reverse := by
      rw [← reverse_reverse st.siblings, hlf, ← append_assoc, reverse_append]
      rfl
    rw [Proof.extraDigests, hst] at het
    simp only [Bool.or_eq_false_iff, decide_eq_false_iff_not, not_not] at het
    obtain ⟨hne, hx⟩ := het
    rw [hf', List.getElem?_append_left (by omega)] at hx
    exact Or.inr ⟨x, mem_of_getElem? hx.symm, by simp⟩

end Accepted

/-! ### The nodes to pin are required -/

theorem mem_required_of_peak {n s e : ℕ} (hse : s ≤ e) (hen : e < n) {node : ℕ × ℕ}
    (hnd : node ∈ peaks s) : node ∈ required n s e := by
  obtain ⟨h, q⟩ := node
  obtain ⟨hdv, hev⟩ := mem_peaks.1 hnd
  obtain ⟨r, rfl⟩ : ∃ r, q = 2 * r := ⟨q / 2, by omega⟩
  have hlo := peak_end_le hnd
  have hhi := lt_of_peak hnd
  rcases Nat.lt_or_ge n ((2 * r + 1 + 1) * 2 ^ h) with hot | hin
  · -- the parent is not in the range, so the node is a peak
    refine mem_append_left _ (mem_filter.2 ⟨mem_peaks.2 ⟨?_, hev⟩, ?_⟩)
    · exact Nat.div_eq_of_lt_le (by omega) hot
    · exact decide_eq_true fun hm => absurd hm.1 (Nat.not_lt.2 hlo)
  · refine mem_append_right _ (mem_reverse.2 ?_)
    obtain ⟨h', q', -, hpk, hq'⟩ := find_peak (show s < n by omega)
    have hp : s / 2 ^ (h + 1) = r := by
      rw [pow_succ, ← Nat.div_div_eq_div_mul, hdv]
      omega
    have hlt : h + 1 ≤ h' := by
      refine le_of_div_eq hpk hq' ?_
      rw [hp]
      exact le_trans (le_of_eq (by ring)) hin
    have hmt : Meets s e h' q' := by
      refine ⟨by rw [← hq']; exact lt_block_end s h', le_trans ?_ hse⟩
      rw [← hq']
      exact Nat.div_mul_le_self s _
    refine mem_flatMap.2 ⟨(h', q'), hpk, ?_⟩
    rw [if_pos hmt]
    exact mem_siblings_of_left hse hq' hlt hlo hhi

theorem nodePos_injective : Function.Injective nodePos := fun _ _ heq =>
  Prod.ext (pos_inj heq).1 (pos_inj heq).2

theorem nodesToPin_size {s : ℕ} (hs : s ≤ maxLocation) :
    nodesToPin (size s) = some ((peaks s).map nodePos) := by
  obtain ⟨n, hp, hlo, hhi⟩ := nodesToPin_eq (size_le_maxPosition hs)
  obtain rfl : n = s := by
    rw [size_le_size_iff] at hlo
    rw [size_lt_size_iff] at hhi
    omega
  exact hp

/-- The digests of the nodes to pin, from the digests of the required nodes. -/
theorem extractPinnedNodes_eq {n s e : ℕ} (hn : n ≤ 2 ^ 62) (hse : s ≤ e) (hen : e < n)
    (digestOf : ℕ × ℕ → D) :
    (Proof.mk (size n) ((required n s e).map digestOf)).extractPinnedNodes s (e + 1) =
      .ok ((peaks s).map digestOf) := by
  have hs : s ≤ maxLocation := by
    unfold maxLocation
    omega
  have hsb : (peaks s).length ≤ (required n s e).length :=
    (subperm_of_subset (tiles_peaks _).nodup fun node hnd =>
      mem_required_of_peak hse hen hnd).length_le
  rw [Proof.extractPinnedNodes, Position.tryFrom_eq hs, nodesRequired_eq hn hse hen]
  refine bind_eq_ok.2 ⟨_, rfl, bind_eq_ok.2 ⟨_, orPanic_eq_ok.2 (nodesToPin_size hs),
    bind_eq_ok.2 ⟨_, rfl, ?_⟩⟩⟩
  rw [if_neg (by simp), if_neg (by simpa using hsb)]
  dsimp only
  split_ifs with hsf
  · rw [← map_drop] at hsf ⊢
    rw [← map_injective_iff.2 nodePos_injective hsf]
  · rw [mapM_map]
    refine mapM_eq_ok fun node hnd => ?_
    have hz : ((required n s e).map nodePos).zip ((required n s e).map digestOf) =
        (required n s e).map fun node => (nodePos node, digestOf node) := zip_map'
    have hg : ((((required n s e).map nodePos).zip ((required n s e).map digestOf)).foldl
        (fun m item => m.insert item.1 item.2) OrdMap.empty).get? (nodePos node) =
          some (digestOf node) := by
      rw [hz]
      refine OrdMap.get?_foldl_insert_of_mem (fun item hit heq => ?_)
        (.inl (mem_map_of_mem (mem_required_of_peak hse hen hnd)))
      obtain ⟨node', -, rfl⟩ := mem_map.1 hit
      rw [nodePos_injective heq]
    simp only [Function.comp_apply, hg]

end Commonware.Mmr

namespace Commonware.Qmdb

open Commonware.Mmr MountainRange List

variable {Sym D Op : Type} [DecidableEq D]

/-- A valid batch is reported as such, whatever becomes of its pinned nodes. -/
theorem Sync.Engine.handleFetchResult_valid {c : CHasher Sym D} {encode : Op → List Sym}
    {s : Sync.Engine Op D} {start : ℕ} {result : Sync.FetchResult Op D} {nodes : Option (List D)}
    (hlen : 0 < result.operations.length) (hbt : result.operations.length ≤ s.fetchBatchSize)
    (hvr : verifyProof c encode result.proof start result.operations s.targetRoot = true)
    (hp : s.pinNodes start result = .ok nodes) :
    ∃ s', s.handleFetchResult c encode start result = .ok (s', true) ∧ s'.pinnedNodes = nodes := by
  have hg : ¬ (result.operations.length = 0 ∨ s.fetchBatchSize < result.operations.length) := by
    omega
  refine ⟨{ s with
    outstandingRequests := s.outstandingRequests.erase start
    pinnedNodes := nodes
    fetchedOperations := s.fetchedOperations.insert start result.operations }, ?_, rfl⟩
  rw [handleFetchResult]
  simp only [if_neg hg, hvr, if_true]
  exact bind_eq_ok.2 ⟨nodes, hp, rfl⟩

/-- **Pinned nodes are extracted from an accepted proof exactly if no digest occurs twice in it** and
the end of its range is a location.  The number of its digests is what is required then, and the
engine has the pinned nodes after it has reported the first batch of its target as valid. -/
theorem pinned_nodes_extracted {c : CHasher Sym D} (hinj : Function.Injective c.hash)
    {m : CleanMmr D} {es : List (List Sym)} (hreach : Reach c.standard (.inr m) es)
    (encode : Op → List Sym) {p : Proof D} {start : ℕ} {ops : List Op} (hops : ops ≠ [])
    (h : verifyProof c encode p start ops m.root = true) :
    ((∃ positions, nodesRequiredForRangeProof p.size start (start + ops.length) = .ok positions ∧
        p.digests.length = positions.length) ∧
      nodesToPin (size start) = some ((peaks start).map nodePos) ∧
      extractPinnedNodes p start ops.length = .ok ((peaks start).map (nodeDigestAt c.standard es)) ∧
      ∀ s : Sync.Engine Op D, s.targetRoot = m.root → s.targetStart = start →
        s.pinnedNodes = none → ops.length ≤ s.fetchBatchSize →
        ∃ s', s.handleFetchResult c encode start ⟨p, ops⟩ = .ok (s', true) ∧
          s'.pinnedNodes = some ((peaks start).map (nodeDigestAt c.standard es))) ↔
      p.digests.Nodup ∧ start + ops.length ≤ maxLocation := by
  have hh : HoldsClean c.standard es m := hreach.holds
  have hln : (ops.map encode).length = ops.length := length_map _
  have hp : 0 < ops.length := length_pos_iff.2 hops
  have hac := h
  rw [verifyProof, hh.root_eq] at h
  obtain ⟨hsize, hle, front, middle, back, hrq, hdg, hmd⟩ :=
    accepted_digests hinj hh.length_le (by simpa using hops) h
  rw [hln] at hle hrq
  have hnd := required_digests_nodup hinj es hh.length_le
    (show start ≤ start + ops.length - 1 by omega)
  have he : start + ops.length = start + ops.length - 1 + 1 := by omega
  have hps := nodesRequired_eq hh.length_le
    (show start ≤ start + ops.length - 1 by omega) (show start + ops.length - 1 < es.length by omega)
  rw [← he, ← hsize] at hps
  constructor
  · rintro ⟨⟨positions, hp', hlen⟩, -, het, -⟩
    refine ⟨?_, ?_⟩
    · -- as many digests as are required: nothing is left over
      rw [hps, Except.ok.injEq] at hp'
      have hcn := congrArg List.length hrq
      rw [← hp', length_map, hdg] at hlen
      rw [length_map] at hcn
      simp only [length_append] at hlen hcn
      have hnl : middle = [] := eq_nil_of_length_eq_zero (by omega)
      rw [hdg, hnl, append_nil, ← hrq]
      exact hnd
    · rw [extractPinnedNodes, Location.checkedAdd] at het
      by_contra hlt
      rw [if_neg hlt] at het
      cases het
  · rintro ⟨hu, hm⟩
    have hnl : middle = [] := by
      rcases hmd with hnl | ⟨x, hx, hx'⟩
      · exact hnl
      · rw [hdg, append_assoc] at hu
        exact absurd rfl ((nodup_append.1 hu).2.2 x hx x (mem_append_left _ hx'))
    rw [hnl, append_nil, ← hrq] at hdg
    have hpr : p = ⟨size es.length, (required es.length start (start + ops.length - 1)).map
        (nodeDigestAt c.standard es)⟩ := by
      cases p
      simp only at hsize hdg
      rw [hsize, hdg]
    have het : extractPinnedNodes p start ops.length =
        .ok ((peaks start).map (nodeDigestAt c.standard es)) := by
      rw [extractPinnedNodes, Location.checkedAdd, if_pos hm, hpr]
      have := extractPinnedNodes_eq hh.length_le
        (show start ≤ start + ops.length - 1 by omega)
        (show start + ops.length - 1 < es.length by omega) (nodeDigestAt c.standard es)
      rwa [← he] at this
    refine ⟨⟨_, hps, ?_⟩, nodesToPin_size (by omega), het, ?_⟩
    · rw [hdg, length_map, length_map]
    · intro s hr hst hnn hbt
      refine Sync.Engine.handleFetchResult_valid hp hbt (by rw [hr]; exact hac) ?_
      rw [Sync.Engine.pinNodes, if_pos ⟨by rw [hnn]; rfl, hst.symm⟩, het]

theorem pinned_nodes_extracted_three :
    ∃ m : CleanMmr FreeHash, Reach freeHasher.standard (.inr m) Sample.three ∧
      verifyProof freeHasher id ⟨4, [Sample.digest 1 0]⟩ 2 [[.inl 9]] m.root = true ∧
      extractPinnedNodes (Proof.mk 4 [Sample.digest 1 0]) 2 1 = .ok [Sample.digest 1 0] := by
  obtain ⟨m, hm, -, hr⟩ := Sample.exists_three
  have hvr : verifyProof freeHasher id ⟨4, [Sample.digest 1 0]⟩ 2 [[.inl 9]] m.root = true := by
    rw [hr]
    decide +kernel
  have het := ((pinned_nodes_extracted FreeHash.hash_injective hm id (by simp) hvr).2
    ⟨by simp, by simp [maxLocation]⟩).2.2.1
  exact ⟨m, hm, hvr, het⟩

/-- The digest of the only mountain outside of the range, twice: the proof is accepted, but it is too
long to extract pinned nodes, and the engine goes on without them. -/
theorem repeated_digest_accepted :
    ∃ m : CleanMmr FreeHash, Reach freeHasher.standard (.inr m) Sample.three ∧
      verifyProof freeHasher id ⟨4, [Sample.digest 1 0, Sample.digest 1 0]⟩ 2 [[.inl 9]]
        m.root = true ∧ nodesRequiredForRangeProof 4 2 3 = .ok [2] ∧
      extractPinnedNodes (Proof.mk 4 [Sample.digest 1 0, Sample.digest 1 0]) 2 1 =
        .error (.error .invalidProofLength) ∧
      ∃ s', Sync.Engine.handleFetchResult freeHasher id ⟨.empty, .empty, none, m.root, 2, 1⟩ 2
          ⟨⟨4, [Sample.digest 1 0, Sample.digest 1 0]⟩, [[.inl 9]]⟩ = .ok (s', true) ∧
        s'.pinnedNodes = none := by
  obtain ⟨m, hm, -, hr⟩ := Sample.exists_three
  have hvr : verifyProof freeHasher id ⟨4, [Sample.digest 1 0, Sample.digest 1 0]⟩ 2
      [[.inl 9]] m.root = true := by
    rw [hr]
    decide +kernel
  have hrq : nodesRequiredForRangeProof 4 2 3 = .ok [2] := by decide +kernel
  have het : extractPinnedNodes (Proof.mk 4 [Sample.digest 1 0, Sample.digest 1 0]) 2 1 =
      .error (.error .invalidProofLength) := by decide +kernel
  refine ⟨m, hm, hvr, hrq, het,
    Sync.Engine.handleFetchResult_valid (by simp) (by simp) hvr ?_⟩
  rw [Sync.Engine.pinNodes, if_pos ⟨rfl, rfl⟩]
  simp only [length_singleton, het]

end Commonware.Qmdb
