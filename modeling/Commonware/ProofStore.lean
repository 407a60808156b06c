/-
**Proofs from an accepted proof.**

The verifier of a proof comes to know the digests of all nodes that it meets on the way.  `ProofStore`
in `storage/src/mmr/verification.rs` keeps them, and generates proofs of parts of the range from them:
what a part requires is met on the way to the whole range.

Main definitions:

* `ProofStore`, `ProofStore.new`, `ProofStore.rangeProof`, `ProofStore.multiProof` — the store;
* `ProofStore.Knows` — a store has the digests of the nodes that are met;
* `ProofStore.Reproves` — its proofs are those of a range with the same elements.

Main results:

* `required_subset` — what a part of a range requires is met;
* `parts_reproven` — **a store proves all parts of its range**, as the range itself does.
-/

import Commonware.MmrCompleteness

set_option autoImplicit false

namespace Commonware.Mmr

open MountainRange List

variable {Sym D : Type}

/-! ### The store -/

structure ProofStore (D : Type) where
  digests : OrdMap ℕ D
  size : ℕ

namespace ProofStore

def newFromDigests (size : ℕ) (digests : List (ℕ × D)) : ProofStore D :=
  ⟨digests.foldl (fun m item => m.insert item.1 item.2) .empty, size⟩

/-- The store of a proof that is valid. -/
def new [DecidableEq D] (hasher : Hasher Sym D) (proof : Proof D) (elements : List (List Sym))
    (startLoc : ℕ) (root : D) : Except Error (ProofStore D) := do
  let digests ← proof.verifyRangeInclusionAndExtractDigests hasher elements startLoc root
  pure (newFromDigests proof.size digests)

def getNode (store : ProofStore D) (pos : ℕ) : Option D := store.digests.get? pos

def rangeProof (store : ProofStore D) (start stop : ℕ) : Except Error (Proof D) :=
  historicalRangeProof store.getNode store.size start stop

def multiProof (store : ProofStore D) (locations : List ℕ) : Except Error (Proof D) :=
  Commonware.Mmr.multiProof store.getNode store.size locations

variable (hasher : Hasher Sym D) (es : List (List Sym))

/-- The proofs that a store generates for the leaves from `a` on, up to `b`, are those of every range
that holds the elements and has not pruned the leaves. -/
def Reproves (store : ProofStore D) (a b : ℕ) : Prop :=
  (∀ start stop, a ≤ start → start < stop → stop ≤ b → ∃ p, store.rangeProof start stop = .ok p ∧
    ∀ m : CleanMmr D, Reach hasher (.inr m) es → m.prunedToPos ≤ MountainRange.size start →
      m.rangeProof start stop = .ok p) ∧
  ∀ locations, locations ≠ [] → (∀ loc ∈ locations, a ≤ loc ∧ loc < b) →
    ∃ p, store.multiProof locations = .ok p ∧
      ∀ m : CleanMmr D, Reach hasher (.inr m) es →
        (∀ loc ∈ locations, m.prunedToPos ≤ MountainRange.size loc) →
        Commonware.Mmr.multiProof m.getNode m.size locations = .ok p

/-- The store has the digests of the nodes that are met on the way to the leaves from `s` to `e`. -/
structure Knows (store : ProofStore D) (s e : ℕ) : Prop where
  size_eq : store.size = MountainRange.size es.length
  getNode_eq : ∀ node ∈ metBelow s e (peaks es.length),
    store.getNode (nodePos node) = some (nodeDigestAt hasher es node)

end ProofStore

/-! ### What the parts of a range require -/

/-- **What a part of a range requires** is met on the way to the range. -/
theorem required_subset {n s e s' e' : ℕ} (hs : s ≤ s') (he : e' ≤ e) :
    required n s' e' ⊆ metBelow s e (peaks n) := by
  intro node hnd
  rcases mem_append.1 hnd with hnd | hnd
  · exact mem_flatMap.2 ⟨node, (mem_filter.1 hnd).1, mem_append_right _ mem_cons_self⟩
  · obtain ⟨peak, hpk, hnd⟩ := mem_flatMap.1 (mem_reverse.1 hnd)
    obtain ⟨hm, hnd⟩ := mem_ite_nil_right.1 hnd
    refine mem_flatMap.2 ⟨peak, hpk, mem_append_left _ ?_⟩
    rw [if_pos ⟨hs.trans_lt hm.1, hm.2.trans he⟩]
    exact siblings_subset_met hs he hnd

namespace ProofStore

variable {hasher : Hasher Sym D} {es : List (List Sym)} {store : ProofStore D} {a b s e : ℕ}

theorem knows_newFromDigests : (newFromDigests (MountainRange.size es.length)
    (labelled (digestAt hasher es) (metBelow s e (peaks es.length)))).Knows hasher es s e := by
  refine ⟨rfl, fun node hnd => OrdMap.get?_foldl_insert_of_mem (fun item hit heq => ?_) ?_⟩
  · obtain ⟨node', -, rfl⟩ := mem_map.1 hit
    obtain ⟨h₁, h₂⟩ := pos_inj heq
    exact congrArg₂ (digestAt hasher es) h₁ h₂
  · exact .inl (mem_map_of_mem hnd)

/-- A store that knows the nodes on the way to a range proves its parts. -/
theorem Knows.reproves (h : store.Knows hasher es a (b - 1)) (hb : b ≤ es.length)
    (hlen : es.length ≤ 2 ^ 62) : store.Reproves hasher es a b := by
  refine ⟨fun start stop hst hlt hsp => ?_, fun locations hne hlc => ?_⟩
  · obtain ⟨k, rfl⟩ := Nat.exists_eq_add_of_lt hlt
    refine ⟨⟨MountainRange.size es.length,
      (required es.length start (start + k)).map (nodeDigestAt hasher es)⟩, ?_, fun m hrc hbn => ?_⟩
    · rw [rangeProof, h.size_eq]
      exact historicalRangeProof_of hlen (by omega) (by omega) fun node hnd =>
        h.getNode_eq node (required_subset hst (by omega) hnd)
    · have hm : HoldsClean hasher es m := hrc.holds
      obtain ⟨pin, st⟩ := hm.stored
      rw [MemMmr.rangeProof, st.size_eq]
      exact historicalRangeProof_eq hm le_rfl (by omega) (by omega) hbn
  · obtain ⟨positions, hp, hmem⟩ := nodesRequiredForMultiProof_eq hlen hne
      fun loc hl => (hlc loc hl).2.trans_le hb
    -- every node that is required for one of the leaves
    have hnd : ∀ x ∈ positions.keys, ∃ loc ∈ locations, ∃ node ∈ required es.length loc loc,
        nodePos node = x ∧ store.getNode x = some (nodeDigestAt hasher es node) := by
      intro x hx
      obtain ⟨loc, hl, hx⟩ := mem_flatMap.1 ((hmem x).1 hx)
      obtain ⟨node, hnd, rfl⟩ := mem_map.1 hx
      obtain ⟨ha, hlt⟩ := hlc loc hl
      exact ⟨loc, hl, node, hnd, rfl, h.getNode_eq node (required_subset ha (by omega) hnd)⟩
    refine ⟨⟨MountainRange.size es.length,
      positions.keys.map fun x => (store.getNode x).getD hasher.empty⟩, ?_, fun m hrc hbn => ?_⟩
    · rw [multiProof, h.size_eq]
      refine multiProof_of hne hp fun x hx => ?_
      obtain ⟨-, -, node, -, -, hg⟩ := hnd x hx
      rw [hg, Option.getD_some]
    · have hm : HoldsClean hasher es m := hrc.holds
      obtain ⟨pin, st⟩ := hm.stored
      rw [st.size_eq]
      refine multiProof_of hne hp fun x hx => ?_
      obtain ⟨loc, hl, node, hr, rfl, hg⟩ := hnd x hx
      rw [hg, Option.getD_some]
      exact getNode_required hm le_rfl le_rfl ((hlc loc hl).2.trans_le hb) (hbn loc hl) hr

variable [DecidableEq D] {elements : List (List Sym)} {p : Proof D}

theorem new_eq_ok {root : D} :
    new hasher p elements a root = .ok store ↔ ∃ ds cs,
      p.reconstructPeakDigests hasher elements a = .ok (ds, cs) ∧ hasher.root p.size ds = root ∧
        store = newFromDigests p.size cs := by
  rw [new, Proof.verifyRangeInclusionAndExtractDigests]
  cases hrc : p.reconstructPeakDigests hasher elements a with
  | error e => exact ⟨(by rintro ⟨⟩), by rintro ⟨_, _, ⟨⟩, -⟩⟩
  | ok x =>
    obtain ⟨ds, cs⟩ := x
    dsimp only
    split_ifs with hr
    · refine ⟨(by rintro ⟨⟩), ?_⟩
      rintro ⟨_, _, hx, heq, -⟩
      cases hx
      exact absurd heq hr
    · constructor
      · intro h
        cases h
        exact ⟨ds, cs, rfl, not_not.1 hr, rfl⟩
      · rintro ⟨_, _, hx, -, rfl⟩
        cases hx
        rfl

/-- The store of a proof that was accepted, if the hash is injective. -/
theorem knows_of_new {c : CHasher Sym D} (hinj : Function.Injective c.hash)
    (hel : elements ≠ []) (hlen : es.length ≤ 2 ^ 62)
    (h : new c.standard p elements a (rootOf c.standard es) = .ok store) :
    a + elements.length ≤ es.length ∧ store.Knows c.standard es a (a + elements.length - 1) := by
  obtain ⟨ds, cs, hrc, hr, rfl⟩ := new_eq_ok.1 h
  obtain ⟨hsize, rfl⟩ := reconstruct_root_sound hinj hlen hel hrc hr
  obtain ⟨n, front, st, -, hsz, hle, hlp, -, -, rfl⟩ := (reconstruct_eq_ok_iff hel).1 hrc
  obtain rfl : es.length = n := size_inj.1 (hsize.symm.trans hsz)
  have hc := peakLoop_collected (CHasher.binding hinj es es.length)
    (fun _ hnd => peak_end_le hnd) hlp
  rw [hc, hsize]
  exact ⟨hle, knows_newFromDigests⟩

end ProofStore

/-- **A store proves all parts of its range.**  The proof of a range that is retained gives a store,
and so does, if the hash is injective, every proof that is accepted against the root; the proofs of
ranges and of leaves one by one that the store generates within the range are those that the mountain
range generates itself. -/
theorem parts_reproven [DecidableEq D] {hasher : Hasher Sym D} {m : CleanMmr D}
    {es : List (List Sym)} (hreach : Reach hasher (.inr m) es) (a : ℕ) :
    (∀ b, a < b → b ≤ es.length → m.prunedToPos ≤ size a → ∃ p store, m.rangeProof a b = .ok p ∧
      ProofStore.new hasher p ((es.drop a).take (b - a)) a m.root = .ok store ∧
      store.Reproves hasher es a b) ∧
    ∀ c : CHasher Sym D, hasher = c.standard → Function.Injective c.hash →
      ∀ p elements store, elements ≠ [] → ProofStore.new hasher p elements a m.root = .ok store →
        a + elements.length ≤ es.length ∧ store.Reproves hasher es a (a + elements.length) := by
  have hm : HoldsClean hasher es m := hreach.holds
  refine ⟨fun b hab hb hbn => ?_, ?_⟩
  · obtain ⟨k, rfl⟩ := Nat.exists_eq_add_of_le hab.le
    obtain ⟨pin, st⟩ := hm.stored
    have hpr : m.rangeProof a (a + k) = .ok ⟨size es.length,
        (required es.length a (a + k - 1)).map (nodeDigestAt hasher es)⟩ := by
      have h := historicalRangeProof_eq hm le_rfl (show a ≤ a + k - 1 by omega) (by omega) hbn
      rw [show a + k - 1 + 1 = a + k by omega] at h
      rw [MemMmr.rangeProof, st.size_eq, h]
    refine ⟨_, _, hpr, ?_, ProofStore.knows_newFromDigests.reproves hb hm.length_le⟩
    rw [Nat.add_sub_cancel_left, hm.root_eq]
    refine ProofStore.new_eq_ok.2
      ⟨_, _, reconstruct_complete le_rfl hm.length_le (by omega) hb, ?_, rfl⟩
    rw [← rootOf_take le_rfl, take_length]
  · rintro c rfl hinj p elements store hel hnw
    rw [hm.root_eq] at hnw
    obtain ⟨hle, hkn⟩ := ProofStore.knows_of_new hinj hel hm.length_le hnw
    exact ⟨hle, hkn.reproves hle hm.length_le⟩

/-- The proof of three leaves gives a proof of the second one. -/
theorem parts_reproven_three :
    ∃ (m : CleanMmr FreeHash) (p q : Proof FreeHash) (store : ProofStore FreeHash),
      Reach freeHasher.standard (.inr m) Sample.three ∧ m.rangeProof 0 3 = .ok p ∧
      ProofStore.new freeHasher.standard p Sample.three 0 m.root = .ok store ∧
      store.rangeProof 1 2 = .ok q ∧ m.rangeProof 1 2 = .ok q := by
  obtain ⟨m, hm, hpr, -⟩ := Sample.exists_three
  have hbn : ∀ a, m.prunedToPos ≤ size a := fun a => hpr ▸ Nat.zero_le _
  obtain ⟨p, store, hp, hnw, hrn, -⟩ := (parts_reproven hm 0).1 3 (by decide)
    (by simp [Sample.three]) (hbn 0)
  obtain ⟨q, hst, hq⟩ := hrn 1 2 (by decide) (by decide) (by decide)
  exact ⟨m, p, q, store, hm, hp, hnw, hst, hq m hm (hbn 1)⟩

end Commonware.Mmr
