/-
**Digests that are computed later.**

A dirty range computes the digests of its dirty nodes one by one, or height by height with several
threads as long as a height has enough of them.  Both compute each dirty node once, and no node before
a lower one, so that the digests are those of the elements.  The loop over the heights relies on the
heights of the dirty nodes following each other: a dirty node that is not above leaves has a dirty
child, since nodes are marked from the leaves upwards.

Main definitions:

* `Changes` — changes of a clean range, with the leaves that are new or changed;
* `Marked` — what changes keep of the dirty nodes;
* `Schedule` — an order in which dirty nodes can be computed.

Main results:

* `schedule_spec` — the batches of the loop are such an order;
* `merkleize_exact` — **both computations** give the digests of a range that is built anew.
-/

import Commonware.MmrInclusion

set_option autoImplicit false

namespace Commonware.Mmr

open MountainRange List

variable {Sym D : Type} {hasher : Hasher Sym D} {es : List (List Sym)} {m m' : DirtyMmr D} {n x : ℕ}

/-! ### The batches of the loop -/

def schedule (minToParallelize : ℕ) :
    List (ℕ × ℕ) → List (ℕ × ℕ) → ℕ → List (List ℕ × ℕ)
  | [], same, height =>
    if same.length < minToParallelize then singles (same.mergeSort MemMmr.byHeight)
    else [(same.map Prod.fst, height)]
  | node :: nodes, same, height =>
    if node.2 = height then schedule minToParallelize nodes (same ++ [node]) height
    else if same.length < minToParallelize then
      singles ((same ++ node :: nodes).mergeSort MemMmr.byHeight)
    else (same.map Prod.fst, height) :: schedule minToParallelize nodes [node] (height + 1)

theorem merkleizeParallelLoop_eq (min : ℕ) (nodes same : List (ℕ × ℕ)) (height : ℕ)
    (hst : m.state = ⟨[]⟩) : MemMmr.merkleizeParallelLoop hasher min nodes same height m =
      runBatches hasher m (schedule min nodes same height) := by
  have hsr : ∀ {m : DirtyMmr D}, m.state = ⟨[]⟩ → ∀ dirty,
      MemMmr.merkleizeSerial { m with state := ⟨dirty⟩ } hasher =
        runBatches hasher m (singles (dirty.mergeSort MemMmr.byHeight)) := by
    intro m hst dirty
    rw [merkleizeSerial_eq, ← hst]
  induction nodes generalizing same height m with
  | nil =>
    rw [MemMmr.merkleizeParallelLoop, schedule]
    split_ifs
    · exact hsr hst same
    · rw [runBatches, foldlM_cons]
      exact (bind_pure _).symm
  | cons node nodes ih =>
    rw [MemMmr.merkleizeParallelLoop, schedule]
    split_ifs
    · exact ih _ _ hst
    · exact hsr hst _
    · rw [runBatches, foldlM_cons]
      cases hsp : MemMmr.updateNodeDigests hasher m (same.map Prod.fst) height with
      | error e => rfl
      | ok m₁ => exact ih _ _ ((updateNodeDigests_same hsp).state.trans hst)

variable {height : ℕ}

theorem batchNodes_of {same : List (ℕ × ℕ)} (h : ∀ y ∈ same, y.2 = height) :
    batchNodes (same.map Prod.fst, height) = same := by
  rw [batchNodes, map_map]
  refine (map_congr_left fun y hy => ?_).trans (map_id same)
  exact Prod.ext rfl (h y hy).symm

theorem singles_spec (nodes : List (ℕ × ℕ)) (hle : ∀ y ∈ nodes, height ≤ y.2) :
    ((singles (nodes.mergeSort MemMmr.byHeight)).flatMap batchNodes).Perm nodes ∧
      (singles (nodes.mergeSort MemMmr.byHeight)).Pairwise (fun b b' => b.2 ≤ b'.2) ∧
      ∀ b ∈ singles (nodes.mergeSort MemMmr.byHeight), height ≤ b.2 := by
  refine ⟨?_, sorted_singles nodes, fun b hb => ?_⟩
  · rw [flatMap_singles]
    exact mergeSort_perm nodes _
  · obtain ⟨y, hy, rfl⟩ := mem_map.1 hb
    exact hle y (mem_mergeSort.1 hy)

/-- **The batches of the loop** are the nodes by height, if no height is left out. -/
theorem schedule_spec (min : ℕ) {nodes same : List (ℕ × ℕ)} {height : ℕ}
    (hsm : ∀ y ∈ same, y.2 = height) (hle : ∀ y ∈ nodes, height ≤ y.2)
    (hsr : nodes.Pairwise fun a b => a.2 ≤ b.2)
    (hln : ∀ y ∈ nodes, height < y.2 → ∃ z ∈ same ++ nodes, z.2 + 1 = y.2) :
    ((schedule min nodes same height).flatMap batchNodes).Perm (same ++ nodes) ∧
      (schedule min nodes same height).Pairwise (fun b b' => b.2 ≤ b'.2) ∧
      ∀ b ∈ schedule min nodes same height, height ≤ b.2 := by
  induction nodes generalizing same height with
  | nil =>
    rw [schedule, append_nil]
    split_ifs
    · exact singles_spec same fun y hy => (hsm y hy).ge
    · refine ⟨?_, pairwise_singleton _ _, fun b hb => ?_⟩
      · rw [flatMap_singleton, batchNodes_of hsm]
      · rw [mem_singleton.1 hb]
  | cons node nodes ih =>
    rw [schedule]
    obtain ⟨hh, ht⟩ := pairwise_cons.1 hsr
    split_ifs with hhg hf
    · rw [append_cons same node nodes] at hln ⊢
      refine ih (fun y hy => ?_) (fun y hy => hle y (mem_cons_of_mem _ hy)) ht
        fun y hy => hln y (mem_cons_of_mem _ hy)
      rcases mem_append.1 hy with hy | hy
      · exact hsm y hy
      · rw [mem_singleton.1 hy, hhg]
    · refine singles_spec _ fun y hy => ?_
      rcases mem_append.1 hy with hy | hy
      · exact (hsm y hy).ge
      · exact hle y hy
    · have hnd := hle node mem_cons_self
      -- the dirty child of the node has been collected
      have hnx : node.2 = height + 1 := by
        obtain ⟨z, hz, hz'⟩ := hln node mem_cons_self (by omega)
        rcases mem_append.1 hz with hz | hz
        · rw [← hz', hsm z hz]
        · rcases mem_cons.1 hz with rfl | hz
          · omega
          · have := hh z hz
            omega
      obtain ⟨hp, hpr, hl⟩ := @ih [node] (height + 1)
        (fun y hy => by rw [mem_singleton.1 hy, hnx]) (fun y hy => hnx ▸ hh y hy) ht
        (fun y hy hlt => by
          obtain ⟨z, hz, hz'⟩ := hln y (mem_cons_of_mem _ hy) (by omega)
          rcases mem_append.1 hz with hz | hz
          · rw [hsm z hz] at hz'
            omega
          · exact ⟨z, hz, hz'⟩)
      refine ⟨?_, pairwise_cons.2 ⟨fun b hb => (Nat.le_succ _).trans (hl b hb), hpr⟩, ?_⟩
      · rw [flatMap_cons, batchNodes_of hsm]
        exact hp.append_left same
      · intro b hb
        rcases mem_cons.1 hb with rfl | hb
        · exact le_rfl
        · exact (Nat.le_succ _).trans (hl b hb)

/-! ### Dirty nodes -/

/-- What changes keep of the dirty nodes: a node that is not above leaves has a dirty child, and the
nodes above a leaf that is new or changed are dirty. -/
structure Marked (n : ℕ) (changed : List ℕ) (dirty : List (ℕ × ℕ)) : Prop where
  nodup : dirty.Nodup
  linked : ∀ y ∈ dirty, 1 < y.2 → ∃ z ∈ dirty, z.2 + 1 = y.2 ∧ z.1 < y.1
  lt : ∀ a ∈ changed, a < n
  above : ∀ a ∈ changed, ∀ k, (a / 2 ^ (k + 1) + 1) * 2 ^ (k + 1) ≤ n →
    (pos (k + 1) (a / 2 ^ (k + 1)), k + 1) ∈ dirty

variable {changed : List ℕ} {dirty : List (ℕ × ℕ)}

theorem nodup_addParents (empty : D) (count height : ℕ) (h : m.state.dirtyNodes.Nodup) :
    (MemMmr.addParents empty count height m).state.dirtyNodes.Nodup := by
  induction count generalizing height m with
  | zero => exact h
  | succ count ih => exact ih _ (h.insert)

theorem nodup_markDirtyLoop (path : List (ℕ × ℕ)) (height : ℕ) (h : dirty.Nodup) :
    (MemMmr.markDirtyLoop path height dirty).Nodup := by
  induction path generalizing height dirty with
  | nil => exact h
  | cons item path ih =>
    rw [MemMmr.markDirtyLoop]
    split_ifs
    · exact h
    · exact ih _ h.insert

variable {element : List Sym}

theorem Marked.add (h : Marked n changed m.state.dirtyNodes)
    (hsize : m.size = size n) (had : m.add hasher element = .ok (x, m')) :
    Marked (n + 1) (n :: changed) m'.state.dirtyNodes := by
  have hdr := add_dirty hsize had
  obtain ⟨-, -, t, r, hr, heq⟩ := add_spec hsize had
  refine ⟨?_, ?_, ?_, ?_⟩
  · rw [heq]
    exact nodup_addParents _ _ _ h.nodup
  · intro y hy hlt
    rcases (hdr y).1 hy with hol | ⟨k, q, he, rfl⟩
    · obtain ⟨z, hz, hz'⟩ := h.linked y hol hlt
      exact ⟨z, (hdr z).2 (Or.inl hz), hz'⟩
    · -- the parent before is new, too
      obtain ⟨k, rfl⟩ : ∃ j, k = j + 1 := ⟨k - 1, by dsimp only at hlt; omega⟩
      obtain ⟨q', hq'⟩ := exists_end hr ((Nat.le_succ (k + 1)).trans (le_of_end hr he))
      refine ⟨(pos (k + 1) q', k + 1), (hdr _).2 (Or.inr ⟨k, q', hq', rfl⟩), rfl, ?_⟩
      exact pos_lt_of_end_eq (hq'.trans he.symm) (Nat.lt_succ_self _)
  · intro a ha
    rcases mem_cons.1 ha with rfl | ha
    · exact Nat.lt_succ_self _
    · exact (h.lt a ha).trans (Nat.lt_succ_self _)
  · intro a ha k he
    rw [hdr]
    rcases Nat.eq_or_lt_of_le he with heq | hlt
    · exact Or.inr ⟨k, _, heq, rfl⟩
    · rcases mem_cons.1 ha with rfl | ha
      · have := lt_block_end a (k + 1)
        omega
      · exact Or.inl (h.above a ha k (by omega))

theorem Marked.filter (h : Marked n changed dirty) {n' : ℕ} (hn : n' ≤ n) :
    Marked n' (changed.filter fun a => decide (a < n'))
      (dirty.filter fun node => decide (node.1 < size n')) := by
  refine ⟨h.nodup.filter _, ?_, fun a ha => of_decide_eq_true (mem_filter.1 ha).2, ?_⟩
  · intro y hy hlt
    obtain ⟨hy, hin⟩ := mem_filter.1 hy
    obtain ⟨z, hz, hz', hl⟩ := h.linked y hy hlt
    exact ⟨z, mem_filter.2 ⟨hz, decide_eq_true (hl.trans (of_decide_eq_true hin))⟩, hz', hl⟩
  · intro a ha k he
    exact mem_filter.2 ⟨h.above a (mem_filter.1 ha).1 k (he.trans hn),
      decide_eq_true (pos_lt_size_iff.2 he)⟩

theorem pos_lt_parent (a k : ℕ) : pos k (a / 2 ^ k) < pos (k + 1) (a / 2 ^ (k + 1)) := by
  have hlf := pos_left k (a / 2 ^ (k + 1))
  have hrg := pos_right k (a / 2 ^ (k + 1))
  have hp := Nat.two_pow_pos (k + 1)
  rcases Nat.mod_two_eq_zero_or_one (a / 2 ^ k) with hm | hm
  · rw [show a / 2 ^ k = 2 * (a / 2 ^ (k + 1)) by rw [← div_pow_succ]; omega]
    omega
  · rw [show a / 2 ^ k = 2 * (a / 2 ^ (k + 1)) + 1 by rw [← div_pow_succ]; omega]
    omega

theorem Marked.set {a : ℕ} (h : Marked n changed m.state.dirtyNodes)
    (hsize : m.size = size n) (hcl : Closed n m.state.dirtyNodes) (ha : a < n)
    (hs : m.setLeaf hasher (size a) element = .ok m') :
    Marked n (a :: changed) m'.state.dirtyNodes := by
  obtain ⟨-, height, hmem, rfl⟩ := setLeaf_spec hsize ha hs
  have hdr := mem_marked hcl hmem
  refine ⟨nodup_markDirtyLoop _ _ h.nodup, ?_, ?_, ?_⟩
  · intro y hy hlt
    rcases (hdr y).1 hy with hol | ⟨k, he, rfl⟩
    · obtain ⟨z, hz, hz'⟩ := h.linked y hol hlt
      exact ⟨z, (hdr z).2 (Or.inl hz), hz'⟩
    · obtain ⟨k, rfl⟩ : ∃ j, k = j + 1 := ⟨k - 1, by dsimp only at hlt; omega⟩
      refine ⟨_, (hdr _).2 (Or.inr ⟨k, ?_, rfl⟩), rfl, pos_lt_parent a (k + 1)⟩
      exact (block_end_mono a (Nat.le_succ _)).trans he
  · intro b hb
    rcases mem_cons.1 hb with rfl | hb
    · exact ha
    · exact h.lt b hb
  · intro b hb k he
    refine (hdr _).2 ?_
    rcases mem_cons.1 hb with rfl | hb
    · exact Or.inr ⟨k, he, rfl⟩
    · exact Or.inl (h.above b hb k he)

theorem Marked.mono (h : Marked n changed dirty) {changed' : List ℕ}
    (hs : ∀ a ∈ changed', a ∈ changed) : Marked n changed' dirty :=
  ⟨h.nodup, h.linked, fun a ha => h.lt a (hs a ha), fun a ha => h.above a (hs a ha)⟩

variable {updates : List (ℕ × List Sym)}

theorem Marked.setAll {positions : List ℕ} (h : Marked n changed m.state.dirtyNodes)
    (hm : Holds hasher es m) (hn : es.length = n)
    (hp : List.Forall₂ (fun update x => update.1 < n ∧ x = size update.1) updates positions)
    (hf : (updates.zip positions).foldlM
      (fun m item => m.setLeaf hasher item.2 item.1.2) m = .ok m') :
    Marked n (updates.map Prod.fst ++ changed) m'.state.dirtyNodes := by
  induction hp generalizing es m changed with
  | nil =>
    cases hf
    exact h
  | @cons update x updates positions hhd ht ih =>
    obtain ⟨hlt, rfl⟩ := hhd
    rw [zip_cons_cons, foldlM_cons] at hf
    obtain ⟨m₁, hs, hf⟩ := bind_eq_ok.1 hf
    obtain ⟨pin, st⟩ := hm.stored
    have h₁ := h.set (hn ▸ st.size_eq) (hn ▸ hm.closed) hlt hs
    have hh := (setLeaf_holds hm (by rwa [hn]) hs).1
    refine (ih h₁ hh (by rw [length_set, hn]) hf).mono fun a ha => ?_
    simp only [map_cons, mem_append, mem_cons] at ha ⊢
    tauto

/-! ### Changes -/

theorem updateLeafPool_eq (m : DirtyMmr D) (updates : List (ℕ × List Sym)) :
    m.updateLeafPool hasher updates = m.updateLeafBatched hasher updates := by
  have hpr : ∀ positions, m.updateLeafParallel hasher updates positions =
      (updates.zip positions).foldlM (fun m item => m.setLeaf hasher item.2 item.1.2) m := by
    intro positions
    rw [MemMmr.updateLeafParallel, foldlM_map]
    rfl
  rw [MemMmr.updateLeafPool, MemMmr.updateLeafBatched]
  simp only [hpr, ite_self]

/-- The changes of a clean range, made with or without a pool, with the leaves that are new or
changed. -/
inductive Changes (hasher : Hasher Sym D) (m₀ : CleanMmr D) (es₀ : List (List Sym)) :
    DirtyMmr D → List (List Sym) → List ℕ → Prop
  | start : Changes hasher m₀ es₀ m₀.intoDirty es₀ []
  | add {m m' : DirtyMmr D} {es : List (List Sym)} {changed : List ℕ} {element : List Sym} {x : ℕ} :
      Changes hasher m₀ es₀ m es changed → m.add hasher element = .ok (x, m') →
      Changes hasher m₀ es₀ m' (es ++ [element]) (es.length :: changed)
  | pop {m m' : DirtyMmr D} {es : List (List Sym)} {changed : List ℕ} {x : ℕ} :
      Changes hasher m₀ es₀ m es changed → m.pop = .ok (x, m') →
      Changes hasher m₀ es₀ m' es.dropLast (changed.filter fun a => decide (a < es.length - 1))
  | update {m m' : DirtyMmr D} {es : List (List Sym)} {changed : List ℕ}
      {updates : List (ℕ × List Sym)} (pool : Bool) :
      Changes hasher m₀ es₀ m es changed →
      (if pool then m.updateLeafPool hasher updates else m.updateLeafBatched hasher updates) =
        .ok m' →
      Changes hasher m₀ es₀ m' (setElements es updates) (updates.map Prod.fst ++ changed)

theorem pop_dirty (hm : Holds hasher es m) (hlen : es.length ≤ 2 ^ 62 + 1)
    (hp : m.pop = .ok (x, m')) : m'.state.dirtyNodes =
      m.state.dirtyNodes.filter fun node => decide (node.1 < size (es.length - 1)) := by
  have hsize := (pop_holds hm hlen hp).2.1
  rw [MemMmr.pop] at hp
  split_ifs at hp
  obtain ⟨y, -, hp⟩ := bind_eq_ok.1 hp
  simp only [pure, Except.pure, Except.ok.injEq, Prod.mk.injEq] at hp
  obtain ⟨hx, rfl⟩ := hp
  rw [← hsize, ← hx]

theorem updateLeafBatched_marked (h : Marked es.length changed m.state.dirtyNodes)
    (hm : Holds hasher es m) (hu : m.updateLeafBatched hasher updates = .ok m') :
    Marked es.length (updates.map Prod.fst ++ changed) m'.state.dirtyNodes := by
  rw [MemMmr.updateLeafBatched] at hu
  split_ifs at hu with hnl
  · cases hu
    rw [hnl]
    exact h
  · obtain ⟨leaves, hlv, hbd⟩ := bind_eq_ok.1 hu
    obtain ⟨positions, hps, hf⟩ := bind_eq_ok.1 hbd
    obtain rfl := length_eq_leaves hm hlv
    exact h.setAll hm rfl
      ((mapM_eq_ok_iff.1 hps).imp fun _ _ h => updatePosition_eq_ok h) hf

variable {m₀ : CleanMmr D} {es₀ : List (List Sym)}

theorem Changes.spec (hrc : Reach hasher (.inr m₀) es₀) (h : Changes hasher m₀ es₀ m es changed) :
    Reach hasher (.inl m) es ∧ Marked es.length changed m.state.dirtyNodes := by
  induction h with
  | start => exact ⟨hrc.intoDirty, nodup_nil, nofun, nofun, nofun⟩
  | add _ ha ih =>
    obtain ⟨hr, hmr⟩ := ih
    obtain ⟨pin, st⟩ := hr.holds.1.stored
    refine ⟨hr.add ha, ?_⟩
    rw [length_append, length_singleton]
    exact hmr.add st.size_eq ha
  | pop _ hp ih =>
    obtain ⟨hr, hmr⟩ := ih
    refine ⟨hr.pop hp, ?_⟩
    rw [pop_dirty hr.holds.1 hr.holds.2 hp, length_dropLast]
    exact hmr.filter (Nat.sub_le _ _)
  | update pool _ hu ih =>
    obtain ⟨hr, hmr⟩ := ih
    rw [updateLeafPool_eq, ite_self] at hu
    refine ⟨hr.update hu, ?_⟩
    rw [length_setElements]
    exact updateLeafBatched_marked hmr hr.holds.1 hu

/-! ### Exactness -/

/-- An order in which dirty nodes can be computed: each of them once, by height, and thus after its
children. -/
structure Schedule (dirty : List (ℕ × ℕ)) (batches : List (List ℕ × ℕ)) : Prop where
  perm : (batches.flatMap batchNodes).Perm dirty
  nodup : (batches.flatMap batchNodes).Nodup
  sorted : batches.Pairwise fun b b' => b.2 ≤ b'.2

theorem merkleizeParallel_schedule (hasher : Hasher Sym D) (min : ℕ)
    (hmr : Marked n changed m.state.dirtyNodes) (hps : ∀ y ∈ m.state.dirtyNodes, 1 ≤ y.2) :
    ∃ batches, Schedule m.state.dirtyNodes batches ∧
      m.merkleizeParallel hasher min = runBatches hasher { m with state := ⟨[]⟩ } batches := by
  obtain ⟨hp, hsr, -⟩ := @schedule_spec min (m.state.dirtyNodes.mergeSort MemMmr.byHeight) [] 1
    nofun (fun y hy => hps y (mem_mergeSort.1 hy)) (sorted_byHeight _) (fun y hy hlt => by
      obtain ⟨z, hz, hz', -⟩ := hmr.linked y (mem_mergeSort.1 hy) hlt
      exact ⟨z, mem_mergeSort.2 hz, hz'⟩)
  have hp' := hp.trans (mergeSort_perm m.state.dirtyNodes MemMmr.byHeight)
  exact ⟨_, ⟨hp', hp'.nodup_iff.2 hmr.nodup, hsr⟩, merkleizeParallelLoop_eq min _ [] 1 rfl⟩

theorem merkleizeSerial_schedule (hasher : Hasher Sym D)
    (hmr : Marked n changed m.state.dirtyNodes) : ∃ batches, Schedule m.state.dirtyNodes batches ∧
      m.merkleizeSerial hasher = runBatches hasher { m with state := ⟨[]⟩ } batches := by
  obtain ⟨hp, hsr, -⟩ := singles_spec m.state.dirtyNodes fun y _ => Nat.zero_le y.2
  exact ⟨_, ⟨hp, hp.nodup_iff.2 hmr.nodup, hsr⟩, merkleizeSerial_eq m⟩

variable {pin : ℕ}

/-- Every schedule gives the digests of the elements. -/
theorem Schedule.stored {batches : List (List ℕ × ℕ)} (h : Schedule m.state.dirtyNodes batches)
    (st : Stored hasher es m m.state.dirtyNodes pin) :
    ∃ m', runBatches hasher { m with state := ⟨[]⟩ } batches = .ok m' ∧ Stored hasher es m' [] pin ∧
      SameBut { m with state := ⟨[]⟩ } m' :=
  runBatches_stored { st.dirty_congr fun _ => h.perm.mem_iff with } h.sorted

theorem Stored.getNode_eq {m' : DirtyMmr D} {pin' : ℕ} (st : Stored hasher es m [] pin)
    (st' : Stored hasher es m' [] pin') (hx : m.prunedToPos ≤ x) (hx' : m'.prunedToPos ≤ x) :
    m.getNode x = m'.getNode x := by
  rcases Nat.lt_or_ge x (size es.length) with hlt | hge
  · obtain ⟨h, q, rfl, he⟩ := exists_pos hlt
    rw [st.getNode_of he (by simp) (Or.inl hx), st'.getNode_of he (by simp) (Or.inl hx')]
  · have h₁ := st.length_add
    have h₂ := st'.length_add
    rw [MemMmr.getNode, if_neg (Nat.not_lt.2 hx), MemMmr.getNode, if_neg (Nat.not_lt.2 hx'),
      List.getElem?_eq_none (by omega), List.getElem?_eq_none (by omega)]

theorem Stored.eq_of {m₁ m₂ : DirtyMmr D} (st₁ : Stored hasher es m₁ [] pin)
    (st₂ : Stored hasher es m₂ [] pin) (h₁ : SameBut m m₁) (h₂ : SameBut m m₂) : m₁ = m₂ := by
  have hbn : m₁.prunedToPos = m₂.prunedToPos := h₁.prunedToPos.trans h₂.prunedToPos.symm
  have hnd : m₁.nodes = m₂.nodes := by
    refine ext_getElem? fun i => ?_
    have hg := st₁.getNode_eq st₂ (Nat.le_add_left m₁.prunedToPos i)
      (hbn ▸ Nat.le_add_left m₁.prunedToPos i)
    rw [MemMmr.getNode, if_neg (by omega), MemMmr.getNode, if_neg (by omega), ← hbn,
      Nat.add_sub_cancel] at hg
    exact hg
  obtain ⟨nodes₁, pruned₁, pinned₁, state₁⟩ := m₁
  obtain ⟨nodes₂, pruned₂, pinned₂, state₂⟩ := m₂
  exact MemMmr.mk.injEq .. ▸ ⟨hnd, hbn, h₁.pinnedNodes.trans h₂.pinnedNodes.symm,
    h₁.state.trans h₂.state.symm⟩

/-- **Computing digests later is exact.**  The nodes above all leaves that are new or changed are
dirty; each dirty node is computed once, after its children, with and without threads and for every
threshold; and both ways end with the same range, whose digests are those of a range that is built
anew from the elements. -/
theorem merkleize_exact (hreach : Reach hasher (.inr m₀) es₀)
    (h : Changes hasher m₀ es₀ m es changed) (min : ℕ) :
    (∀ a ∈ changed, a < es.length ∧ ∀ k, (a / 2 ^ (k + 1) + 1) * 2 ^ (k + 1) ≤ es.length →
      (pos (k + 1) (a / 2 ^ (k + 1)), k + 1) ∈ m.state.dirtyNodes) ∧
    (∃ batches, Schedule m.state.dirtyNodes batches ∧
      m.merkleizeSerial hasher = runBatches hasher { m with state := ⟨[]⟩ } batches) ∧
    (∃ batches, Schedule m.state.dirtyNodes batches ∧
      m.merkleizeParallel hasher min = runBatches hasher { m with state := ⟨[]⟩ } batches) ∧
    ∃ m' fresh, m.merkleizeSerial hasher = .ok m' ∧ m.merkleizeParallel hasher min = .ok m' ∧
      (build hasher es >>= fun m => m.merkleizeSerial hasher) = .ok fresh ∧
      (∀ x, m.prunedToPos ≤ x → m'.getNode x = fresh.getNode x) ∧
      ∃ k, size k ≤ m.prunedToPos ∧ m.prunedToPos < size (k + 1) ∧
        ∀ node ∈ peaks k, m'.getNode (pos node.1 node.2) = fresh.getNode (pos node.1 node.2) := by
  obtain ⟨hr, hmr⟩ := h.spec hreach
  obtain ⟨⟨⟨pin, st⟩, -⟩, hlen⟩ := hr.holds
  have hp : ∀ y ∈ m.state.dirtyNodes, 1 ≤ y.2 := by
    intro y hy
    obtain ⟨k, q, hk, -⟩ := st.dirty_node y.1 y.2 hy
    omega
  obtain ⟨bs, hsl, hsr⟩ := merkleizeSerial_schedule hasher hmr
  obtain ⟨bp, hpl, hpr⟩ := merkleizeParallel_schedule hasher min hmr hp
  obtain ⟨m₁, hrn₁, st₁, hsm₁⟩ := hsl.stored st
  obtain ⟨m₂, hrn₂, st₂, hsm₂⟩ := hpl.stored st
  obtain rfl := st₁.eq_of st₂ hsm₁ hsm₂
  obtain ⟨b, hbl, hb, hz⟩ := exists_build hasher hlen
  obtain ⟨⟨⟨pin', stb⟩, -⟩, -⟩ := hb.holds
  obtain ⟨fresh, hf, stf, hsf⟩ := merkleizeSerial_stored stb
  have hbn : m₁.prunedToPos = m.prunedToPos := hsm₁.prunedToPos
  have hfr : fresh.prunedToPos = 0 := hsf.prunedToPos.trans hz
  refine ⟨fun a ha => ⟨hmr.lt a ha, hmr.above a ha⟩, ⟨bs, hsl, hsr⟩,
    ⟨bp, hpl, hpr⟩, m₁, fresh, hsr.trans hrn₁, hpr.trans hrn₂,
    bind_eq_ok.2 ⟨b, hbl, hf⟩, fun x hx => ?_, pin, st.pin_le, st.lt_pin, fun node hnd => ?_⟩
  · exact st₁.getNode_eq stf (hbn ▸ hx) (by omega)
  · have he := (peak_end_le hnd).trans st.pin_le_length
    rw [st₁.getNode_of he (by simp) (Or.inr hnd), stf.getNode_of he (by simp) (Or.inl (by omega))]

/-- A second leaf makes the parent of both dirty, and a threshold of zero is one. -/
theorem merkleize_exact_two : ∃ (m₀ : CleanMmr FreeHash) (m m' : DirtyMmr FreeHash),
    Reach freeHasher.standard (.inr m₀) [[]] ∧
    Changes freeHasher.standard m₀ [[]] m [[], []] [1] ∧ (pos 1 0, 1) ∈ m.state.dirtyNodes ∧
    m.merkleizeParallel freeHasher.standard 0 = .ok m' := by
  obtain ⟨m₀, hrc, -⟩ := exists_range freeHasher.standard
    (show ([[]] : List (List FreeHash.Symbol)).length ≤ 2 ^ 62 by decide)
  obtain ⟨x, m, ha⟩ := exists_add (intoDirty_holds hrc.holds) (by decide) []
  have hch : Changes freeHasher.standard m₀ [[]] m [[], []] [1] := Changes.start.add ha
  obtain ⟨hab, -, -, m', -, -, hpr, -⟩ := merkleize_exact hrc hch 0
  exact ⟨m₀, m, m', hrc, hch, (hab 1 mem_cons_self).2 0 (by decide), hpr⟩

end Commonware.Mmr
