/-
**What proofs about a binary Merkle tree prove.**

The levels of a tree are those of a tower of pairs.  A verifier climbs from leaf digests to the root;
read downwards, each of its digests is one of the level it stands on, because a node digest is hashed
from two digests and a leaf digest from a position and a digest, so that they differ.  Leaf digests
are therefore reached exactly at the bottom level, after as many steps as the tree has levels above
it, and there they fix the position and the leaf.

Main definitions:

* `Complete` — every leaf and every range of leaves has a proof that is accepted;
* `Sound` — what is accepted is in the tree, and the proof has as many levels as the tree.

Main results:

* `build_eq` — the tree of some leaves;
* `sound` — **accepted proofs are sound**;
* `complete` — **all leaves can be proven** as long as their number fits into 32 bits;
* `proofs_complete_iff` — **soundness, and when the proofs are complete**.
-/

import Commonware.BinaryTree

set_option autoImplicit false

namespace Commonware.Bmt

open List

open Mmr (CHasher)
open PairTree

variable {Sym D : Type} {c : CHasher Sym D}

/-! ### The tree of some leaves -/

def hashed (c : CHasher Sym D) (leaves : List D) : List D := leaves.mapIdx (leafDigest c)

@[simp] theorem length_hashed (leaves : List D) : (hashed c leaves).length = leaves.length :=
  length_mapIdx

theorem add_all_eq (leaves : List D) :
    leaves.foldlM (fun hashed leaf => (Builder.add c hashed leaf).map Prod.snd) [] =
      if leaves.length ≤ 2 ^ 32 then some (hashed c leaves) else none := by
  induction leaves using reverseRecOn with
  | nil => rfl
  | append_singleton leaves leaf ih =>
    have hsn : hashed c (leaves ++ [leaf]) =
        hashed c leaves ++ [leafDigest c leaves.length leaf] := mapIdx_concat
    rw [foldlM_append, ih, length_append, length_singleton]
    by_cases hlt : leaves.length < 2 ^ 32
    · have ha : Builder.add c (hashed c leaves) leaf =
          some (leaves.length, hashed c (leaves ++ [leaf])) := by
        rw [Builder.add, length_hashed, if_pos hlt, hsn]
      rw [if_pos hlt.le, if_pos (Nat.succ_le_of_lt hlt)]
      simp [ha]
    · have ha : Builder.add c (hashed c leaves) leaf = none := by
        rw [Builder.add, length_hashed, if_neg hlt]
      rw [if_neg (show ¬leaves.length + 1 ≤ 2 ^ 32 by omega)]
      split_ifs
      · simp [ha]
      · rfl

/-- **The tree of some leaves.** -/
theorem build_eq (leaves : List D) : build c leaves =
      if leaves.length ≤ 2 ^ 32 then some (Tree.new c (hashed c leaves)) else none := by
  rw [build, add_all_eq]
  split_ifs
  · rfl
  · rfl

/-- A level of the tree, counted from the leaves. -/
def level (c : CHasher Sym D) (leaves : List D) (k : ℕ) : List D :=
  (pairUp (nodeDigest c))^[k] (hashed c leaves)

theorem level_succ (leaves : List D) (k : ℕ) :
    level c leaves (k + 1) = pairUp (nodeDigest c) (level c leaves k) :=
  Function.iterate_succ_apply' _ _ _

/-- The levels of the tree of some leaves: the last one is the root alone. -/
theorem levels_new {leaves : List D} (hne : leaves ≠ []) (hle : leaves.length ≤ 2 ^ 32) :
    ∃ h root, (Tree.new c (hashed c leaves)).levels = (range (h + 1)).map (level c leaves) ∧
      level c leaves h = [root] ∧ h ≤ 32 := by
  have hp := length_pos_iff.2 hne
  have hne' : hashed c leaves ≠ [] := by
    rw [← length_pos_iff, length_hashed]
    exact hp
  obtain ⟨h, ht, hls, hbf⟩ :=
    @tower_spec _ (nodeDigest c) _ _ hne' (Nat.le_succ (hashed c leaves).length)
  obtain ⟨root, hr⟩ := length_eq_one_iff.1 hls
  refine ⟨h, root, ?_, hr, ?_⟩
  · rw [Tree.new, if_neg hne']
    exact ht
  · by_contra hlt
    have hsh : (level c leaves 32).length ≤ 1 := length_iterate_le_one (by simpa using hle)
    have hem : ∀ k, (level c leaves k).length ≠ 0 := by
      intro k
      induction k with
      | zero =>
        rw [level, Function.iterate_zero_apply, length_hashed]
        omega
      | succ k ih =>
        rw [level_succ, length_pairUp]
        omega
    exact hbf 32 (by omega) (le_antisymm hsh (Nat.one_le_iff_ne_zero.2 (hem 32)))

/-! ### Digests of leaves and of nodes -/

theorem u32_inj {n m : ℕ} (hn : n < 2 ^ 32) (hm : m < 2 ^ 32) (h : u32 c n = u32 c m) : n = m := by
  have hbt := map_injective_iff.2 c.byte_injective h
  have hby : ∀ i < 4, n / 256 ^ i % 256 = m / 256 ^ i % 256 := by
    intro i hi
    have hmem : i ∈ [3, 2, 1, 0] := by
      simp only [mem_cons, not_mem_nil, or_false]
      omega
    simpa using congrArg UInt8.toNat (map_inj_left.1 hbt i hmem)
  have h₀ := hby 0 (by omega)
  have h₁ := hby 1 (by omega)
  have h₂ := hby 2 (by omega)
  have h₃ := hby 3 (by omega)
  norm_num at *
  omega

section

variable (hinj : Function.Injective c.hash)

include hinj

theorem leafDigest_inj {i j : ℕ} {d d' : D} (hi : i < 2 ^ 32) (hj : j < 2 ^ 32)
    (h : leafDigest c i d = leafDigest c j d') : i = j ∧ d = d' := by
  obtain ⟨hp, hlf⟩ := append_inj (hinj h) rfl
  exact ⟨u32_inj hi hj hp, c.bytes_injective hlf⟩

theorem nodeDigest_inj {l r l' r' : D} (h : nodeDigest c l r = nodeDigest c l' r') :
    l = l' ∧ r = r' := by
  obtain ⟨hl, hr⟩ := CHasher.bytes_append_inj (hinj h)
  exact ⟨hl, c.bytes_injective hr⟩

/-- A leaf digest is no node digest: the hashed strings have different lengths. -/
theorem leafDigest_ne_nodeDigest (hsize : 4 + c.digestSize ≠ c.digestSize + c.digestSize)
    (i : ℕ) (d l r : D) : leafDigest c i d ≠ nodeDigest c l r := by
  intro h
  have hlen := congrArg length (hinj h)
  rw [length_append, length_append, c.length_bytes, c.length_bytes, c.length_bytes] at hlen
  exact hsize hlen

/-- A leaf digest at the bottom level is that of the leaf at this position. -/
theorem getElem?_of_mem_hashed {leaves : List D} {i : ℕ} {d : D} (hle : leaves.length ≤ 2 ^ 32)
    (hi : i < 2 ^ 32) (h : leafDigest c i d ∈ hashed c leaves) : leaves[i]? = some d := by
  obtain ⟨j, hj, heq⟩ := mem_mapIdx.1 h
  obtain ⟨rfl, rfl⟩ := leafDigest_inj hinj (hj.trans_le hle) hi heq
  exact getElem?_eq_getElem hj

end

/-! ### Going down from the root -/

section

variable {leaves : List D} {m : ℕ}

/-- `d` is one of the two digests that `e` is hashed from. -/
def IsChild (c : CHasher Sym D) (d e : D) : Prop :=
  ∃ x, e = nodeDigest c d x ∨ e = nodeDigest c x d

theorem climb_append (siblings : List D) (x d : D) (position : ℕ) :
    IsChild c (climb c siblings d position) (climb c (siblings ++ [x]) d position) := by
  induction siblings generalizing d position with
  | nil =>
    by_cases hev : position % 2 = 0
    · exact ⟨x, .inl (by simp [climb, hev])⟩
    · exact ⟨x, .inr (by simp [climb, hev])⟩
  | cons sibling siblings ih => exact ih _ _

/-- What pairing does: every node has its digest hashed into one of at least half as many. -/
structure Halves (c : CHasher Sym D) (nodes next : List (Node D)) : Prop where
  child : ∀ node ∈ nodes, ∃ parent ∈ next, IsChild c node.digest parent.digest
  length_le : nodes.length ≤ 2 * next.length

variable {nodes next : List (Node D)}

theorem Halves.append {a b p q : List (Node D)} (h : Halves c a p) (h' : Halves c b q) :
    Halves c (a ++ b) (p ++ q) := by
  have hlen := h.length_le
  have hlen' := h'.length_le
  refine ⟨fun node hmem => ?_, by simp only [length_append]; omega⟩
  rcases mem_append.1 hmem with hmem | hmem
  · obtain ⟨parent, hp, hch⟩ := h.child node hmem
    exact ⟨parent, mem_append_left _ hp, hch⟩
  · obtain ⟨parent, hp, hch⟩ := h'.child node hmem
    exact ⟨parent, mem_append_right _ hp, hch⟩

theorem pairLoop_halves {right : Option D}
    (h : pairLoop c right nodes = .ok next) : Halves c nodes next := by
  fun_induction pairLoop c right nodes generalizing next with
  | case1 =>
    cases h
    exact ⟨by simp, by simp⟩
  | case2 node digest =>
    cases h
    exact ⟨by simpa using ⟨digest, .inl rfl⟩, by simp⟩
  | case3 node => cases h
  | case4 first second rest hp ih =>
    obtain ⟨parents, hr, hnx⟩ := bind_eq_ok.1 h
    cases hnx
    refine Halves.append (a := [first, second]) (p := [_]) ⟨?_, by simp⟩ (ih hr)
    simpa using ⟨⟨second.digest, .inl rfl⟩, first.digest, .inr rfl⟩
  | case5 first second rest hp => cases h

/-- **One step of the verifier of ranges.** -/
theorem climbLevel_halves {bounds : Bounds D}
    (h : climbLevel c nodes bounds = .ok next) : Halves c nodes next := by
  cases nodes with
  | nil => cases h
  | cons first rest =>
    obtain ⟨last, hls⟩ := Option.ne_none_iff_exists'.1
      (fun hnn => cons_ne_nil first rest (getLast?_eq_none_iff.1 hnn))
    simp only [climbLevel, hls] at h
    split_ifs at h
    cases hl : bounds.left with
    | none =>
      simp only [hl] at h
      split at h
      · cases h
      · next hpair =>
          cases h
          exact pairLoop_halves hpair
    | some left =>
      simp only [hl] at h
      split at h
      · cases h
      · next hpair =>
          cases h
          refine Halves.append (a := [first]) ⟨?_, by simp⟩ (pairLoop_halves hpair)
          simpa using ⟨left, .inr rfl⟩

variable (hinj : Function.Injective c.hash)
  (hsize : 4 + c.digestSize ≠ c.digestSize + c.digestSize)

include hinj hsize

/-- **One step down**: the children of a digest of a level are digests of the level below. -/
theorem IsChild.mem_level {d e : D} (hch : IsChild c d e) (he : e ∈ level c leaves m) :
    ∃ m', m = m' + 1 ∧ d ∈ level c leaves m' := by
  obtain ⟨x, hx⟩ := hch
  cases m with
  | zero =>
    obtain ⟨i, hi, heq⟩ := mem_mapIdx.1 he
    rcases hx with rfl | rfl
    · exact absurd heq (leafDigest_ne_nodeDigest hinj hsize _ _ _ _)
    · exact absurd heq (leafDigest_ne_nodeDigest hinj hsize _ _ _ _)
  | succ m =>
    refine ⟨m, rfl, ?_⟩
    rw [level_succ] at he
    obtain ⟨a, ha, b, hb, rfl⟩ := exists_of_mem_pairUp he
    rcases hx with hx | hx
    · rw [← (nodeDigest_inj hinj hx).1]
      exact ha
    · rw [← (nodeDigest_inj hinj hx).2]
      exact hb

/-- A leaf digest stands on the bottom level only. -/
theorem eq_zero_of_leafDigest_mem {i : ℕ} {d : D} (h : leafDigest c i d ∈ level c leaves m) :
    m = 0 := by
  cases m with
  | zero => rfl
  | succ m =>
    rw [level_succ] at h
    obtain ⟨a, -, b, -, heq⟩ := exists_of_mem_pairUp h
    exact absurd heq (leafDigest_ne_nodeDigest hinj hsize _ _ _ _)

/-- **The way down of a single proof.** -/
theorem mem_level_of_climb {siblings : List D} {d : D} {position : ℕ}
    (h : climb c siblings d position ∈ level c leaves m) :
    ∃ m', m = m' + siblings.length ∧ d ∈ level c leaves m' := by
  induction siblings using reverseRecOn generalizing m with
  | nil => exact ⟨m, rfl, h⟩
  | append_singleton siblings x ih =>
    obtain ⟨m₁, rfl, hmem⟩ :=
      IsChild.mem_level hinj hsize (climb_append siblings x d position) h
    obtain ⟨m₂, rfl, hd⟩ := ih hmem
    refine ⟨m₂, ?_, hd⟩
    rw [length_append, length_singleton]
    omega

/-- **The way down of a proof for a range.** -/
theorem mem_level_of_foldlM {siblings : List (Bounds D)} {nodes next : List (Node D)}
    (hne : nodes ≠ []) (hrn : siblings.foldlM (climbLevel c) nodes = .ok next)
    (h : ∀ node ∈ next, node.digest ∈ level c leaves m) :
    nodes.length ≤ 2 ^ siblings.length * next.length ∧
      ∃ m', m = m' + siblings.length ∧ ∀ node ∈ nodes, node.digest ∈ level c leaves m' := by
  induction siblings generalizing nodes with
  | nil =>
    cases hrn
    exact ⟨by simp, m, rfl, h⟩
  | cons bounds siblings ih =>
    rw [foldlM_cons] at hrn
    obtain ⟨between, hst, hr⟩ := bind_eq_ok.1 hrn
    obtain ⟨hch, hlen⟩ := climbLevel_halves hst
    have hps := length_pos_iff.2 hne
    have hne' : between ≠ [] := length_pos_iff.1 (by omega)
    obtain ⟨hlen', m₁, rfl, hmem⟩ := ih hne' hr
    -- One node more is enough to see that the level between is not the bottom one.
    have hdw : ∀ node ∈ nodes, ∃ m', m₁ = m' + 1 ∧ node.digest ∈ level c leaves m' := by
      intro node hnd
      obtain ⟨parent, hp, hdg⟩ := hch node hnd
      exact hdg.mem_level hinj hsize (hmem parent hp)
    obtain ⟨first, hf⟩ := exists_mem_of_ne_nil _ hne
    obtain ⟨m₂, rfl, -⟩ := hdw first hf
    refine ⟨?_, m₂, ?_, ?_⟩
    · calc nodes.length ≤ 2 * between.length := hlen
        _ ≤ 2 * (2 ^ siblings.length * next.length) := Nat.mul_le_mul_left 2 hlen'
        _ = 2 ^ (siblings.length + 1) * next.length := by ring
    · rw [length_cons]
      omega
    · intro node hnd
      obtain ⟨m', hm', hmem'⟩ := hdw node hnd
      rw [Nat.succ.inj hm']
      exact hmem'

end

/-! ### Soundness -/

/-- What is accepted is in the tree, and the proof has as many levels as the tree. -/
structure Sound [DecidableEq D] (c : CHasher Sym D) (leaves : List D) (tree : Tree D) (root : D) :
    Prop where
  single : ∀ (p : Proof D) (leaf : D) (position : UInt32),
    p.verify c leaf position root = .ok () →
      leaves[position.toNat]? = some leaf ∧ p.siblings.length + 1 = tree.levels.length
  range : ∀ (p : RangeProof D) (position : UInt32) (some_leaves : List D), some_leaves ≠ [] →
    p.verify c position some_leaves root = .ok () →
      position.toNat + some_leaves.length ≤ leaves.length ∧
        (leaves.drop position.toNat).take some_leaves.length = some_leaves ∧
        p.siblings.length + 1 = tree.levels.length

theorem leafNodes_spec {position : ℕ} {leaves : List D} {nodes : List (Node D)}
    (h : leafNodes c position leaves = .ok nodes) :
    nodes.length = leaves.length ∧ ∀ i d, leaves[i]? = some d → position + i % 2 ^ 32 < 2 ^ 32 ∧
        ∃ node ∈ nodes, node.digest = leafDigest c (position + i % 2 ^ 32) d := by
  obtain ⟨hlen, hg⟩ := forall₂_iff_get.1 (mapM_eq_ok_iff.1 h)
  rw [length_zipIdx] at hlen
  refine ⟨hlen.symm, ?_⟩
  intro i d hd
  obtain ⟨hi, rfl⟩ := List.getElem?_eq_some_iff.1 hd
  have hnd := hg i (by rwa [length_zipIdx]) (hlen ▸ hi)
  simp only [get_eq_getElem, getElem_zipIdx, Nat.zero_add] at hnd
  split_ifs at hnd with hlt
  refine ⟨hlt, nodes[i], getElem_mem _, ?_⟩
  rw [← Except.ok.inj hnd]

/-- What an accepted proof for a range has gone through. -/
theorem RangeProof.verify_eq_ok [DecidableEq D] {p : RangeProof D} {position : UInt32}
    {leaves : List D} {root : D} (hne : leaves ≠ []) (h : p.verify c position leaves root = .ok ()) :
    ∃ nodes node, leafNodes c position.toNat leaves = .ok nodes ∧
      p.siblings.foldlM (climbLevel c) nodes = .ok [node] ∧ node.digest = root := by
  have hp := length_pos_iff.2 hne
  rw [RangeProof.verify, if_neg (by omega), if_neg (by omega)] at h
  split_ifs at h
  obtain ⟨nodes, hnd, hrs⟩ := bind_eq_ok.1 h
  obtain ⟨last, hls, hr⟩ := bind_eq_ok.1 hrs
  match last, hr with
  | [node], hr =>
    refine ⟨nodes, node, hnd, hls, ?_⟩
    by_contra hdf
    simp only [if_neg hdf] at hr
    cases hr

/-- **Accepted proofs are sound.** -/
theorem sound [DecidableEq D] (hinj : Function.Injective c.hash)
    (hsize : 4 + c.digestSize ≠ c.digestSize + c.digestSize) {leaves : List D} {tree : Tree D}
    {root : D} {h : ℕ} (hle : leaves.length ≤ 2 ^ 32) (hh : h ≤ 32)
    (hlv : tree.levels = (List.range (h + 1)).map (level c leaves))
    (hr : level c leaves h = [root]) : Sound c leaves tree root := by
  have hlen : tree.levels.length = h + 1 := by rw [hlv, length_map, length_range]
  have hmem : root ∈ level c leaves h := by rw [hr]; exact mem_singleton_self root
  refine ⟨?_, ?_⟩
  · intro p leaf position hvr
    by_cases hcm : climb c p.siblings (leafDigest c position.toNat leaf) position.toNat = root
    · rw [← hcm] at hmem
      obtain ⟨m, rfl, hlf⟩ := mem_level_of_climb hinj hsize hmem
      obtain rfl := eq_zero_of_leafDigest_mem hinj hsize hlf
      exact ⟨getElem?_of_mem_hashed hinj hle position.toNat_lt hlf, by omega⟩
    · simp only [Proof.verify, if_neg hcm] at hvr
      cases hvr
  · intro p position some_leaves hne hvr
    obtain ⟨nodes, node, hnd, hrn, rfl⟩ := p.verify_eq_ok hne hvr
    obtain ⟨hcn, hdg⟩ := leafNodes_spec hnd
    have hne' : nodes ≠ [] := by
      rw [← length_pos_iff, hcn]
      exact length_pos_iff.2 hne
    have hls : ∀ x ∈ [node], x.digest ∈ level c leaves h := by
      intro x hx
      rw [mem_singleton.1 hx]
      exact hmem
    obtain ⟨hfw, m, rfl, hdw⟩ := mem_level_of_foldlM hinj hsize hne' hrn hls
    -- The digest of the first leaf shows that the way down ends at the bottom level.
    obtain rfl : m = 0 := by
      obtain ⟨-, x, hx, hf⟩ := hdg 0 _ (List.getElem?_eq_getElem (length_pos_iff.2 hne))
      have hbt := hdw x hx
      rw [hf] at hbt
      exact eq_zero_of_leafDigest_mem hinj hsize hbt
    have hcn' : some_leaves.length ≤ 2 ^ 32 := by
      calc some_leaves.length = nodes.length := hcn.symm
        _ ≤ 2 ^ p.siblings.length := by simpa using hfw
        _ ≤ 2 ^ 32 := Nat.pow_le_pow_right (by omega) (by omega)
    have hlf : ∀ i d, some_leaves[i]? = some d → leaves[position.toNat + i]? = some d := by
      intro i d hd
      have hi := (List.getElem?_eq_some_iff.1 hd).1
      obtain ⟨hlt, x, hx, hdi⟩ := hdg i d hd
      rw [Nat.mod_eq_of_lt (by omega)] at hlt hdi
      refine getElem?_of_mem_hashed hinj hle hlt ?_
      rw [← hdi]
      exact hdw x hx
    have he : position.toNat + some_leaves.length ≤ leaves.length := by
      have hp := length_pos_iff.2 hne
      have hls := hlf (some_leaves.length - 1) _ (List.getElem?_eq_getElem (by omega))
      have := (List.getElem?_eq_some_iff.1 hls).1
      omega
    refine ⟨he, ?_, by omega⟩
    refine ext_getElem? fun i => ?_
    rw [List.getElem?_take, List.getElem?_drop]
    split_ifs with hi
    · rw [List.getElem?_eq_getElem hi]
      exact hlf i _ (List.getElem?_eq_getElem hi)
    · rw [List.getElem?_eq_none (by omega)]

/-! ### Completeness -/

/-- Every leaf and every range of leaves has a proof that is accepted. -/
def Complete [DecidableEq D] (c : CHasher Sym D) (leaves : List D) (tree : Tree D) (root : D) :
    Prop :=
  ∀ i j : UInt32, i ≤ j → j.toNat < leaves.length →
    (∃ p, tree.proof i = .ok p ∧ ∀ leaf, leaves[i.toNat]? = some leaf →
      p.verify c leaf i root = .ok ()) ∧
    ∃ p, tree.rangeProof i j = .ok p ∧
      p.verify c i ((leaves.drop i.toNat).take (j.toNat + 1 - i.toNat)) root = .ok ()

variable {l : List D}

theorem getD_pairUp {combine : D → D → D} {i : ℕ} (d₀ : D) (h : 2 * i < l.length) :
    (pairUp combine l).getD i d₀ =
      combine (l.getD (2 * i) d₀) (l.getD (2 * i + 1) (l.getD (2 * i) d₀)) := by
  simp only [getD_eq_getElem?_getD, getElem?_pairUp, getElem?_eq_getElem h,
    Option.map_some, Option.getD_some]

variable {index : ℕ}

theorem right_eq (d₀ : D) (h : index < l.length) :
    (if index + 1 < l.length then l[index + 1]? else l[index]?) =
      some (l.getD (index + 1) (l.getD index d₀)) := by
  split_ifs with hlt
  · rw [getElem?_eq_getElem hlt, getD_eq_getElem _ _ hlt]
  · rw [getElem?_eq_getElem h, getD_eq_default _ _ (by omega),
      getD_eq_getElem _ _ h]

theorem sibling_eq (d₀ : D) (h : index < l.length) : Tree.sibling l index =
      some (if index % 2 = 0 then l.getD (index + 1) (l.getD index d₀)
        else l.getD (index - 1) d₀) := by
  rw [Tree.sibling]
  by_cases hev : index % 2 = 0
  · simp only [if_pos hev]
    exact right_eq d₀ h
  · simp only [if_neg hev]
    have hlt : index - 1 < l.length := by omega
    rw [if_pos hlt, getElem?_eq_getElem hlt, getD_eq_getElem _ _ hlt]

/-- **One step up**: a digest and its sibling are hashed to the digest above them. -/
theorem parent_eq {l : List D} {index : ℕ} (d₀ : D) (h : index < l.length) :
    (if index % 2 = 0 then nodeDigest c (l.getD index d₀) (l.getD (index + 1) (l.getD index d₀))
        else nodeDigest c (l.getD (index - 1) d₀) (l.getD index d₀)) =
      (pairUp (nodeDigest c) l).getD (index / 2) d₀ := by
  rw [getD_pairUp d₀ (by omega)]
  split_ifs
  · rw [show 2 * (index / 2) = index by omega]
  · rw [show 2 * (index / 2) = index - 1 by omega,
      show index - 1 + 1 = index by omega, getD_eq_getElem _ _ h, getD_eq_getElem _ _ h]

/-- **The proof for a leaf leads up to the root.** -/
theorem exists_siblingsLoop {fuel : ℕ} {l : List D} {index : ℕ} (d₀ : D) (hf : l.length ≤ fuel + 1)
    (h : index < l.length) :
    ∃ siblings root, Tree.siblingsLoop (tower (nodeDigest c) fuel l) index = some siblings ∧
      (tower (nodeDigest c) fuel l).getLast? = some [root] ∧
      climb c siblings (l.getD index d₀) index = root := by
  induction fuel generalizing l index with
  | zero =>
    obtain ⟨root, rfl⟩ := length_eq_one_iff.1 (show l.length = 1 by omega)
    obtain rfl : index = 0 := by simpa using h
    exact ⟨[], root, rfl, rfl, rfl⟩
  | succ fuel ih =>
    rw [tower]
    by_cases hone : l.length = 1
    · obtain ⟨root, rfl⟩ := length_eq_one_iff.1 hone
      obtain rfl : index = 0 := by simpa using h
      exact ⟨[], root, rfl, rfl, rfl⟩
    · have hlen : (pairUp (nodeDigest c) l).length = (l.length + 1) / 2 := length_pairUp l
      obtain ⟨siblings, root, hlp, hls, hcl⟩ :=
        @ih (pairUp (nodeDigest c) l) (index / 2) (by omega) (by omega)
      refine ⟨(if index % 2 = 0 then l.getD (index + 1) (l.getD index d₀)
        else l.getD (index - 1) d₀) :: siblings, root, ?_, ?_, ?_⟩
      · rw [if_neg hone, Tree.siblingsLoop, if_neg hone, sibling_eq d₀ h, hlp]
        rfl
      · rw [if_neg hone, getLast?_cons, hls]
        rfl
      · rw [climb, ← hcl, ← parent_eq d₀ h]
        split_ifs
        · rfl
        · rfl

/-- The nodes of a level from an index on. -/
def window (l : List D) (d₀ : D) (start count : ℕ) : List (Node D) :=
  (range' start count).map fun i => ⟨i, l.getD i d₀⟩

theorem window_succ (l : List D) (d₀ : D) (start count : ℕ) :
    window l d₀ start (count + 1) = ⟨start, l.getD start d₀⟩ :: window l d₀ (start + 1) count := rfl

/-- **Pairing the nodes of a level** from an even index on. -/
theorem pairLoop_window {l : List D} (d₀ : D) {right : Option D} {start count : ℕ}
    (hle : 2 * start + count ≤ l.length) (hrg : count % 2 = 1 → right =
      some (l.getD (2 * start + count) (l.getD (2 * start + count - 1) d₀))) :
    pairLoop c right (window l d₀ (2 * start) count) =
      .ok (window (pairUp (nodeDigest c) l) d₀ start ((count + 1) / 2)) := by
  induction count using Nat.twoStepInduction generalizing start with
  | zero => rfl
  | one =>
    rw [hrg rfl]
    simp only [window_succ, show (1 + 1) / 2 = 0 + 1 from rfl, getD_pairUp d₀ hle]
    simp [window, pairLoop]
  | more count ih _ =>
    have hr := @ih (start + 1) (by omega) (by
      intro hod
      rw [hrg (by omega), show 2 * (start + 1) + count = 2 * start + (count + 2) by omega])
    have hsc : l.getD (2 * start + 1) d₀ = l.getD (2 * start + 1) (l.getD (2 * start) d₀) := by
      rw [getD_eq_getElem _ _ (by omega), getD_eq_getElem _ _ (by omega)]
    rw [show (count + 2 + 1) / 2 = (count + 1) / 2 + 1 by omega, window_succ _ _ start,
      getD_pairUp d₀ (by omega), ← hsc, window_succ, window_succ, pairLoop, if_pos rfl,
      show 2 * start + 1 + 1 = 2 * (start + 1) by omega, hr]
    simp only [Nat.mul_div_cancel_left _ Nat.two_pos]
    rfl

theorem bounds_eq {start stop : ℕ} (d₀ : D) (hle : start ≤ stop) (h : stop < l.length) :
    Tree.bounds l start stop = some
      ⟨if start % 2 = 1 then some (l.getD (start - 1) d₀) else none,
        if stop % 2 = 0 then some (l.getD (stop + 1) (l.getD stop d₀)) else none⟩ := by
  have hlf : Tree.leftBound l start =
      some (if start % 2 = 1 then some (l.getD (start - 1) d₀) else none) := by
    rw [Tree.leftBound]
    by_cases hod : start % 2 = 1
    · have hlt : start - 1 < l.length := by omega
      rw [if_pos hod, if_pos hod, getElem?_eq_getElem hlt, getD_eq_getElem _ _ hlt]
      rfl
    · rw [if_neg hod, if_neg hod]
  have hrg : Tree.rightBound l stop =
      some (if stop % 2 = 0 then some (l.getD (stop + 1) (l.getD stop d₀)) else none) := by
    rw [Tree.rightBound]
    by_cases hev : stop % 2 = 0
    · rw [if_pos hev, if_pos hev, ← apply_ite, right_eq d₀ h]
      rfl
    · rw [if_neg hev, if_neg hev]
  rw [Tree.bounds, hlf, hrg]
  rfl

theorem getLast?_window {l : List D} (d₀ : D) {start stop : ℕ} (hle : start ≤ stop) :
    (window l d₀ start (stop + 1 - start)).getLast? = some ⟨stop, l.getD stop d₀⟩ := by
  rw [window, getLast?_map, getLast?_range', if_neg (by omega),
    show start + (stop + 1 - start) - 1 = stop by omega]
  rfl

/-- **One level of the verifier of ranges**, with the siblings of the tree. -/
theorem climbLevel_window {l : List D} {start stop : ℕ} (d₀ : D) {b : Bounds D} (hle : start ≤ stop)
    (h : stop < l.length) (hb : Tree.bounds l start stop = some b) :
    climbLevel c (window l d₀ start (stop + 1 - start)) b =
      .ok (window (pairUp (nodeDigest c) l) d₀ (start / 2) (stop / 2 + 1 - start / 2)) := by
  rw [bounds_eq d₀ hle h] at hb
  obtain rfl := Option.some.inj hb
  have hls := @getLast?_window _ l d₀ _ _ hle
  rw [show stop + 1 - start = stop - start + 1 by omega, window_succ] at hls ⊢
  have hrg : ∀ {a count : ℕ}, 2 * a + count = stop + 1 → count % 2 = 1 →
      (if stop % 2 = 0 then some (l.getD (stop + 1) (l.getD stop d₀)) else none) =
        some (l.getD (2 * a + count) (l.getD (2 * a + count - 1) d₀)) := by
    intro a count hs hod
    rw [if_pos (by omega), hs, Nat.add_sub_cancel]
  simp only [climbLevel, hls]
  by_cases hod : start % 2 = 1
  · have hpair := @pairLoop_window _ _ c l d₀ _ ((start + 1) / 2) (stop - start) (by omega)
      (hrg (by omega))
    rw [show 2 * ((start + 1) / 2) = start + 1 by omega] at hpair
    have hp := @parent_eq _ _ c l start d₀ (by omega)
    rw [if_neg (by omega)] at hp
    rw [show stop / 2 + 1 - start / 2 = (stop - start + 1) / 2 + 1 by omega, window_succ,
      show start / 2 + 1 = (start + 1) / 2 by omega, ← hp]
    simp only [if_pos hod, hpair]
    by_cases hev : stop % 2 = 0
    · simp [hev, hod]
    · simp [hev, hod]
  · have hpair := @pairLoop_window _ _ c l d₀ _ (start / 2) (stop - start + 1) (by omega)
      (hrg (by omega))
    rw [show 2 * (start / 2) = start by omega, window_succ] at hpair
    rw [show stop / 2 + 1 - start / 2 = (stop - start + 1 + 1) / 2 by omega]
    simp only [if_neg hod, hpair]
    by_cases hev : stop % 2 = 0
    · simp [hev, hod]
    · simp [hev, hod]

theorem window_of_length_eq_one {start stop : ℕ} (d₀ : D) (hle : start ≤ stop) (h : stop < l.length)
    (hone : l.length = 1) :
    ∃ root, l = [root] ∧ window l d₀ start (stop + 1 - start) = [⟨0, root⟩] := by
  obtain ⟨root, rfl⟩ := length_eq_one_iff.1 hone
  obtain rfl : stop = 0 := by simpa using h
  obtain rfl : start = 0 := by omega
  exact ⟨root, rfl, rfl⟩

/-- **The proof for a range leads up to the root.** -/
theorem exists_boundsLoop {fuel : ℕ} {l : List D} {start stop : ℕ} (d₀ : D)
    (hf : l.length ≤ fuel + 1) (hle : start ≤ stop) (h : stop < l.length) :
    ∃ siblings root, Tree.boundsLoop (tower (nodeDigest c) fuel l) start stop = some siblings ∧
      (tower (nodeDigest c) fuel l).getLast? = some [root] ∧
      siblings.foldlM (climbLevel c) (window l d₀ start (stop + 1 - start)) = .ok [⟨0, root⟩] := by
  induction fuel generalizing l start stop with
  | zero =>
    obtain ⟨root, rfl, hw⟩ := window_of_length_eq_one d₀ hle h (by omega)
    exact ⟨[], root, rfl, rfl, congrArg Except.ok hw⟩
  | succ fuel ih =>
    rw [tower]
    by_cases hone : l.length = 1
    · obtain ⟨root, rfl, hw⟩ := window_of_length_eq_one d₀ hle h hone
      exact ⟨[], root, rfl, rfl, congrArg Except.ok hw⟩
    · have hlen : (pairUp (nodeDigest c) l).length = (l.length + 1) / 2 := length_pairUp l
      obtain ⟨siblings, root, hlp, hls, hr⟩ :=
        @ih (pairUp (nodeDigest c) l) (start / 2) (stop / 2) (by omega) (by omega) (by omega)
      obtain ⟨b, hb⟩ : ∃ b, Tree.bounds l start stop = some b := ⟨_, bounds_eq d₀ hle h⟩
      have hst := @climbLevel_window _ _ c l start stop d₀ _ hle h hb
      refine ⟨b :: siblings, root, ?_, ?_, ?_⟩
      · rw [if_neg hone, Tree.boundsLoop, if_neg hone, hb, hlp]
        rfl
      · rw [if_neg hone, getLast?_cons, hls]
        rfl
      · rw [foldlM_cons, hst]
        exact hr

theorem leafNodes_window {leaves : List D} {start count : ℕ} (d₀ : D)
    (hle : start + count ≤ leaves.length) (hf : start + count ≤ 2 ^ 32) :
    leafNodes c start ((leaves.drop start).take count) =
      .ok (window (hashed c leaves) d₀ start count) := by
  refine mapM_eq_ok_iff.2 (forall₂_iff_get.2 ⟨?_, ?_⟩)
  · simp only [window, length_zipIdx, length_take, length_drop, length_map, length_range']
    omega
  · intro i h₁ h₂
    have hi : i < count := by simpa [window] using h₂
    have hg : (hashed c leaves).getD (start + i) d₀ =
        leafDigest c (start + i) (leaves[start + i]) := by
      rw [getD_eq_getElem _ _ (by rw [length_hashed]; omega)]
      exact getElem_mapIdx
    simp only [window, get_eq_getElem, getElem_zipIdx, getElem_take,
      getElem_drop, getElem_map, getElem_range', Nat.zero_add, Nat.one_mul,
      Nat.mod_eq_of_lt (show i < 2 ^ 32 by omega), if_pos (show start + i < 2 ^ 32 by omega), hg]

section

variable {leaves : List D} {root : D}

theorem new_of_ne_nil (hne : leaves ≠ []) : Tree.new c (hashed c leaves) =
      ⟨false, tower (nodeDigest c) leaves.length (hashed c leaves)⟩ := by
  have hne' : hashed c leaves ≠ [] := by
    rw [← length_pos_iff, length_hashed]
    exact length_pos_iff.2 hne
  rw [Tree.new, if_neg hne', length_hashed]

theorem leaves_new (hne : leaves ≠ []) :
    (Tree.new c (hashed c leaves)).leaves.length = leaves.length := by
  rw [new_of_ne_nil hne, Tree.leaves, headD_tower, length_hashed]

variable [DecidableEq D]

theorem proof_verify (hlt : leaves.length < 2 ^ 32)
    (hr : (Tree.new c (hashed c leaves)).root = some root) {i : UInt32}
    (hi : i.toNat < leaves.length) : ∃ p, (Tree.new c (hashed c leaves)).proof i = .ok p ∧
      ∀ leaf, leaves[i.toNat]? = some leaf → p.verify c leaf i root = .ok () := by
  have hne : leaves ≠ [] := length_pos_iff.1 (by omega)
  have hcn := @leaves_new _ _ c _ hne
  rw [new_of_ne_nil hne] at hr hcn ⊢
  obtain ⟨siblings, top, hlp, hls, hcl⟩ :=
    @exists_siblingsLoop _ _ c leaves.length (hashed c leaves) i.toNat root
      (by rw [length_hashed]; omega) (by rwa [length_hashed])
  obtain rfl : top = root := by simpa [Tree.root, hls] using hr
  refine ⟨⟨siblings⟩, ?_, ?_⟩
  · rw [Tree.proof, hcn, Nat.mod_eq_of_lt hlt, if_neg (by simpa using hi), hlp]
    rfl
  · intro leaf hlf
    obtain ⟨_, hg⟩ := List.getElem?_eq_some_iff.1 hlf
    have hdg : (hashed c leaves).getD i.toNat top = leafDigest c i.toNat leaf := by
      rw [getD_eq_getElem _ _ (by rwa [length_hashed]), ← hg]
      exact getElem_mapIdx
    rw [hdg] at hcl
    simp only [Proof.verify, hcl, if_true]

theorem rangeProof_verify (hlt : leaves.length < 2 ^ 32)
    (hr : (Tree.new c (hashed c leaves)).root = some root) {i j : UInt32} (hij : i ≤ j)
    (hj : j.toNat < leaves.length) : ∃ p, (Tree.new c (hashed c leaves)).rangeProof i j = .ok p ∧
      p.verify c i ((leaves.drop i.toNat).take (j.toNat + 1 - i.toNat)) root = .ok () := by
  have hle : i.toNat ≤ j.toNat := UInt32.le_iff_toNat_le.1 hij
  have hne : leaves ≠ [] := length_pos_iff.1 (by omega)
  have hcn := @leaves_new _ _ c _ hne
  rw [new_of_ne_nil hne] at hr hcn ⊢
  obtain ⟨siblings, top, hlp, hls, hrn⟩ :=
    @exists_boundsLoop _ _ c leaves.length (hashed c leaves) i.toNat j.toNat root
      (by rw [length_hashed]; omega) hle (by rwa [length_hashed])
  obtain rfl : top = root := by simpa [Tree.root, hls] using hr
  have hnd := @leafNodes_window _ _ c leaves i.toNat (j.toNat + 1 - i.toNat) top
    (by omega) (by omega)
  have hlen : ((leaves.drop i.toNat).take (j.toNat + 1 - i.toNat)).length =
      j.toNat + 1 - i.toNat := by
    rw [length_take, length_drop]
    omega
  refine ⟨⟨siblings⟩, ?_, ?_⟩
  · have hsw : ¬j < i := UInt32.not_lt.2 hij
    simp only [Tree.rangeProof, hcn, Nat.mod_eq_of_lt hlt]
    rw [if_neg (by simp), if_neg hsw, if_neg (by omega), if_neg (by omega), hlp]
    rfl
  · rw [RangeProof.verify, hlen, if_neg (by omega), if_neg (by omega),
      Nat.mod_eq_of_lt (by omega), if_neg (by omega), hnd]
    refine bind_eq_ok.2 ⟨_, rfl, ?_⟩
    refine bind_eq_ok.2 ⟨_, hrn, ?_⟩
    simp

/-- **All leaves can be proven** as long as their number fits into 32 bits. -/
theorem complete (hlt : leaves.length < 2 ^ 32)
    (hr : (Tree.new c (hashed c leaves)).root = some root) :
    Complete c leaves (Tree.new c (hashed c leaves)) root := by
  intro i j hij hj
  have hle : i.toNat ≤ j.toNat := UInt32.le_iff_toNat_le.1 hij
  exact ⟨proof_verify hlt hr (by omega), rangeProof_verify hlt hr hij hj⟩

/-- The first leaf of a tree with `2 ^ 32` leaves has no proof: their number is cast to zero. -/
theorem not_complete (hf : leaves.length = 2 ^ 32) :
    ¬Complete c leaves (Tree.new c (hashed c leaves)) root := by
  intro hcm
  have hps : (0 : UInt32).toNat < leaves.length := by
    rw [hf]
    decide
  obtain ⟨⟨p, hp, -⟩, -⟩ := hcm 0 0 (UInt32.le_refl 0) hps
  have hcn := @leaves_new _ _ c _ (length_pos_iff.1 hps)
  rw [Tree.proof, hcn, hf, if_pos (.inr (Nat.zero_le _))] at hp
  cases hp

end

/-- **Proofs are sound, and complete unless there are `2 ^ 32` leaves.**  More leaves than that cannot
be added. -/
theorem proofs_complete_iff [DecidableEq D] (hinj : Function.Injective c.hash)
    (hsize : 4 + c.digestSize ≠ c.digestSize + c.digestSize) {leaves : List D} (hne : leaves ≠ []) :
    (build c leaves = none ↔ 2 ^ 32 < leaves.length) ∧ ∀ tree, build c leaves = some tree →
        ∃ root, tree.root = some root ∧ Sound c leaves tree root ∧
          (Complete c leaves tree root ↔ leaves.length < 2 ^ 32) := by
  rw [build_eq]
  refine ⟨by simp, ?_⟩
  intro tree ht
  by_cases hle : leaves.length ≤ 2 ^ 32
  · rw [if_pos hle] at ht
    obtain rfl := Option.some.inj ht
    obtain ⟨h, root, hlv, hls, hh⟩ := @levels_new _ _ c _ hne hle
    have hr : (Tree.new c (hashed c leaves)).root = some root := by
      rw [Tree.root, hlv, getLast?_map, getLast?_range, if_neg (by omega)]
      simp [hls]
    refine ⟨root, hr, sound hinj hsize hle hh hlv hls, ?_, ?_⟩
    · intro hcm
      refine lt_of_le_of_ne hle ?_
      intro hf
      exact not_complete hf hcm
    · intro hlt
      exact complete hlt hr
  · rw [if_neg hle] at ht
    cases ht

/-- Three leaves, the last of which has no sibling. -/
def Sample.leaves : List FreeHash := [.byte 1 .nil, .byte 2 .nil, .byte 3 .nil]

theorem three_leaves_proven :
    ∃ tree root, build Mmr.freeHasher Sample.leaves = some tree ∧ tree.root = some root ∧
      Sound Mmr.freeHasher Sample.leaves tree root ∧
      Complete Mmr.freeHasher Sample.leaves tree root := by
  obtain ⟨hnn, hsm⟩ := @proofs_complete_iff _ _ Mmr.freeHasher _ FreeHash.hash_injective
    (by decide) Sample.leaves (by decide)
  cases ht : build Mmr.freeHasher Sample.leaves with
  | none => exact absurd (hnn.1 ht) (by decide)
  | some tree =>
    obtain ⟨root, hr, hsn, hcm⟩ := hsm tree ht
    exact ⟨tree, root, rfl, hr, hsn, hcm.2 (by decide)⟩

/-- A tree of `2 ^ 32` leaves is built, and its first leaf has no proof. -/
theorem full_tree_unproven :
    ∃ tree, build Mmr.freeHasher (replicate (2 ^ 32) .nil) = some tree ∧
      tree.proof 0 = .error (.error (.invalidPosition 0)) ∧
      tree.rangeProof 0 0 = .error (.error (.invalidPosition 0)) := by
  have hlen : (replicate (2 ^ 32) FreeHash.nil).length = 2 ^ 32 := length_replicate
  have hne : replicate (2 ^ 32) FreeHash.nil ≠ [] := length_pos_iff.1 (by omega)
  have hcn := @leaves_new _ _ Mmr.freeHasher _ hne
  refine ⟨_, by rw [build_eq, if_pos hlen.le], ?_, ?_⟩
  · rw [Tree.proof, hcn, hlen, if_pos (.inr (Nat.zero_le _))]
    rfl
  · have hf : (Tree.new Mmr.freeHasher (hashed Mmr.freeHasher
        (replicate (2 ^ 32) FreeHash.nil))).empty = false := by rw [new_of_ne_nil hne]
    rw [Tree.rangeProof, hcn, hlen, hf, if_neg (by simp), if_neg (by decide)]
    exact if_pos (Nat.zero_le _)

end Commonware.Bmt
