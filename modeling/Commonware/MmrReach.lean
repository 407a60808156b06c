/-
**The mountain ranges that are reached by calls.**

Every operation on a mountain range in memory keeps that the range holds its elements: a new leaf
and its parents, a leaf that is removed, leaves that are changed, computing the digests of dirty
nodes, and pruning.  Dirty nodes are closed upwards, which is why marking can stop at a node that is
dirty already.

Main definitions:

* `Closed` — the parent of a dirty node is dirty;
* `Holds`, `HoldsClean` — a range holds a list of elements;
* `Reach` — the ranges that are reached by calls, with their elements.

Main results:

* `merkleize_holds` — **a dirty range can be made clean**, and has the root of its elements then;
* `Reach.holds` — every reachable range holds its elements.
-/

import Commonware.MmrStored

set_option autoImplicit false

namespace Commonware.Mmr

open MountainRange List

variable {Sym D S : Type}

/-- The parent of a dirty node is dirty. -/
def Closed (n : ℕ) (dirty : List (ℕ × ℕ)) : Prop :=
  ∀ h q, (pos h q, h) ∈ dirty → (q / 2 + 1) * 2 ^ (h + 1) ≤ n → (pos (h + 1) (q / 2), h + 1) ∈ dirty

/-- A dirty range holds some elements. -/
structure Holds (hasher : Hasher Sym D) (es : List (List Sym)) (m : DirtyMmr D) : Prop where
  stored : ∃ pin, Stored hasher es m m.state.dirtyNodes pin
  closed : Closed es.length m.state.dirtyNodes

/-- A clean range holds some elements. -/
structure HoldsClean (hasher : Hasher Sym D) (es : List (List Sym)) (m : CleanMmr D) : Prop where
  stored : ∃ pin, Stored hasher es m [] pin
  root_eq : m.root = rootOf hasher es
  length_le : es.length ≤ 2 ^ 62

variable {hasher : Hasher Sym D} {es : List (List Sym)} {α : Type}

theorem orPanic_eq_ok {o : Option α} {a : α} : orPanic o = .ok a ↔ o = some a := by
  cases o with
  | none | some b => simp [orPanic]

theorem orError_eq_ok {x : Except Error α} {a : α} : orError x = .ok a ↔ x = .ok a := by
  cases x with
  | error e | ok b => simp [orError]

variable {n : ℕ}

/-- The iterator stops ranges that are too large. -/
theorem length_le_of_peakIterator {l : List (ℕ × ℕ)} (h : peakIterator (size n) = some l) :
    n ≤ 2 ^ 62 := by
  by_contra hlt
  have hle : 2 ^ 63 ≤ size n := Nat.not_lt.1 fun h' => hlt (size_lt_two_pow_iff.1 h')
  have hne : size n ≠ 0 := by omega
  rw [peakIterator, if_neg hne, if_pos ((Nat.le_log2 hne).2 hle)] at h
  cases h

theorem holds_new : Holds hasher [] (MemMmr.new : DirtyMmr D) where
  stored := ⟨0, {
    size_eq := rfl
    pin_le := le_rfl
    lt_pin := size_lt_size_succ 0
    pinned := fun node hnd => by cases hnd
    retained := fun h q he => by
      have : 0 < (q + 1) * 2 ^ h := by positivity
      simp only [length_nil] at he
      omega
    dirty_node := fun x h hmem => by cases hmem }⟩
  closed := fun h q hmem => by cases hmem

/-! ### A new leaf -/

namespace MemMmr

theorem addParents_fields (empty : D) (count height : ℕ) (m : DirtyMmr D) :
    (addParents empty count height m).nodes = m.nodes ++ replicate count empty ∧
      (addParents empty count height m).prunedToPos = m.prunedToPos ∧
      (addParents empty count height m).pinnedNodes = m.pinnedNodes := by
  induction count generalizing height m with
  | zero => simp [addParents]
  | succ count ih =>
    obtain ⟨h₁, h₂, h₃⟩ := ih (height + 1)
      { m with
        nodes := m.nodes ++ [empty]
        state := ⟨m.state.dirtyNodes.insert (m.size, height)⟩ }
    rw [addParents]
    refine ⟨?_, h₂, h₃⟩
    rw [h₁, append_assoc, replicate_succ]
    rfl

theorem mem_addParents (empty : D) (count height : ℕ) (m : DirtyMmr D) (node : ℕ × ℕ) :
    node ∈ (addParents empty count height m).state.dirtyNodes ↔
      node ∈ m.state.dirtyNodes ∨ ∃ j < count, node = (m.size + j, height + j) := by
  induction count generalizing height m with
  | zero => simp [addParents]
  | succ count ih =>
    rw [addParents, ih, mem_insert_iff]
    have hsize : MemMmr.size { m with
        nodes := m.nodes ++ [empty]
        state := (⟨m.state.dirtyNodes.insert (m.size, height)⟩ : Dirty) } = m.size + 1 := by
      simp only [MemMmr.size, length_append, length_singleton]
      omega
    simp only [hsize, Nat.exists_lt_succ_left, Nat.add_zero, Nat.add_assoc, Nat.add_comm 1, or_assoc]
    exact or_left_comm

end MemMmr

variable {dirty dirty' : List (ℕ × ℕ)}

/-- The dirty nodes after a new leaf: those from before, and the nodes that the leaf completes. -/
theorem mem_dirty_add {t r : ℕ} (ht : n + 1 = (2 * r + 1) * 2 ^ t)
    (hmem : ∀ node, node ∈ dirty' ↔ node ∈ dirty ∨ ∃ j < t, node = (size n + 1 + j, 1 + j))
    (node : ℕ × ℕ) : node ∈ dirty' ↔ node ∈ dirty ∨
      ∃ k q, (q + 1) * 2 ^ (k + 1) = n + 1 ∧ node = (pos (k + 1) q, k + 1) := by
  rw [hmem]
  refine or_congr Iff.rfl ⟨?_, ?_⟩
  · rintro ⟨j, hj, rfl⟩
    obtain ⟨q, hq⟩ := exists_end ht (show j + 1 ≤ t from hj)
    refine ⟨j, q, hq, ?_⟩
    rw [pos_of_end hq]
    exact Prod.ext (by simp only []; omega) (by simp only []; omega)
  · rintro ⟨k, q, hq, rfl⟩
    have hk := le_of_end ht hq
    refine ⟨k, by omega, ?_⟩
    rw [pos_of_end hq]
    exact Prod.ext (by simp only []; omega) (by simp only []; omega)

theorem Closed.add (hcl : Closed n dirty) (hmem : ∀ node, node ∈ dirty' ↔ node ∈ dirty ∨
      ∃ k q, (q + 1) * 2 ^ (k + 1) = n + 1 ∧ node = (pos (k + 1) q, k + 1)) :
    Closed (n + 1) dirty' := by
  intro h q hnd he
  rw [hmem]
  rcases Nat.lt_or_ge n ((q / 2 + 1) * 2 ^ (h + 1)) with hlt | hle
  · exact Or.inr ⟨h, q / 2, by omega, rfl⟩
  · refine Or.inl (hcl h q ?_ hle)
    rcases (hmem _).1 hnd with hol | ⟨k, q', hq', heq⟩
    · exact hol
    · -- a node that the leaf completes is not below a node of before
      obtain ⟨rfl, rfl⟩ := pos_inj (congrArg Prod.fst heq)
      have hp : (q / 2 + 1) * 2 ^ (k + 1 + 1) = 2 * (q / 2 + 1) * 2 ^ (k + 1) := by ring
      have hmn : (q + 1) * 2 ^ (k + 1) ≤ 2 * (q / 2 + 1) * 2 ^ (k + 1) :=
        Nat.mul_le_mul_right _ (by omega)
      omega

variable {m m' : DirtyMmr D} {x : ℕ} {element : List Sym}

theorem add_spec (hsize : m.size = size n)
    (ha : m.add hasher element = .ok (x, m')) :
    n ≤ 2 ^ 62 ∧ x = size n ∧ ∃ t r, n + 1 = (2 * r + 1) * 2 ^ t ∧
      m' = MemMmr.addParents hasher.empty t 1
        { m with nodes := m.nodes ++ [hasher.leafDigest (size n) element] } := by
  rw [MemMmr.add, MemMmr.addLeafDigest, hsize] at ha
  obtain ⟨peaks, hpk, ha⟩ := bind_eq_ok.1 ha
  obtain ⟨needing, hnd, ha⟩ := bind_eq_ok.1 ha
  rw [orPanic_eq_ok] at hpk
  have hn := length_le_of_peakIterator hpk
  rw [peakIterator_size hn, Option.some.injEq] at hpk
  obtain ⟨l, r, hl, hr⟩ := nodesNeedingParents_size hn
  rw [orPanic_eq_ok, ← hpk, hl, Option.some.injEq] at hnd
  subst hnd
  cases ha
  exact ⟨hn, rfl, _, r, hr, rfl⟩

theorem add_dirty (hsize : m.size = size n)
    (ha : m.add hasher element = .ok (x, m')) (node : ℕ × ℕ) :
    node ∈ m'.state.dirtyNodes ↔ node ∈ m.state.dirtyNodes ∨
      ∃ k q, (q + 1) * 2 ^ (k + 1) = n + 1 ∧ node = (pos (k + 1) q, k + 1) := by
  obtain ⟨-, -, t, r, hr, rfl⟩ := add_spec hsize ha
  refine mem_dirty_add hr (fun node => ?_) node
  rw [MemMmr.mem_addParents]
  have hsize' : MemMmr.size { m with nodes := m.nodes ++ [hasher.leafDigest (size n) element] } =
      size n + 1 := by
    rw [← hsize]
    simp only [MemMmr.size, length_append, length_singleton]
    omega
  rw [hsize']

theorem add_holds (hm : Holds hasher es m)
    (ha : m.add hasher element = .ok (x, m')) :
    Holds hasher (es ++ [element]) m' ∧ x = size es.length ∧ m'.prunedToPos = m.prunedToPos := by
  obtain ⟨⟨pin, st⟩, hcs⟩ := hm
  have hmem := add_dirty st.size_eq ha
  obtain ⟨-, rfl, t, r, hr, heq⟩ := add_spec st.size_eq ha
  obtain ⟨hnd, hpr, hpn⟩ := MemMmr.addParents_fields hasher.empty t 1
    { m with nodes := m.nodes ++ [hasher.leafDigest (size es.length) element] }
  rw [← heq] at hnd hpr hpn
  have hln := st.length_add
  have hsc := size_add_one hr
  simp only [append_assoc] at hnd hpr hpn
  refine ⟨⟨⟨pin, ?_⟩, ?_⟩, rfl, hpr⟩
  · refine ⟨?_, by rw [hpr]; exact st.pin_le, by rw [hpr]; exact st.lt_pin, ?_, ?_, ?_⟩
    · rw [length_append, length_singleton, hsc, MemMmr.size, hnd, hpr]
      simp only [length_append, length_singleton, length_replicate]
      omega
    · intro node hno
      rw [hpn, st.pinned node hno]
      rw [digestAt_append ((peak_end_le hno).trans st.pin_le_length)]
    · intro h q he hge hcl
      rw [length_append, length_singleton] at he
      rw [hpr] at hge
      rw [hnd, hpr]
      have hcl' : (pos h q, h) ∉ m.state.dirtyNodes :=
        fun hol => hcl ((hmem _).2 (Or.inl hol))
      rcases Nat.lt_or_ge es.length ((q + 1) * 2 ^ h) with hlt | hle
      · -- the new leaf, or one of its parents, which are dirty
        have he' : (q + 1) * 2 ^ h = es.length + 1 := by omega
        cases h with
        | zero =>
          have hq : q = es.length := by omega
          subst hq
          rw [pos_zero_left] at hge ⊢
          have hin : size es.length - m.prunedToPos = m.nodes.length := by omega
          rw [hin, getElem?_append_right le_rfl, Nat.sub_self, digestAt,
            getD_eq_getElem?_getD, getElem?_append_right le_rfl, Nat.sub_self]
          rfl
        | succ k => exact absurd ((hmem _).2 (Or.inr ⟨k, q, he', rfl⟩)) hcl
      · have hlt := pos_lt_size_iff.2 hle
        have hin : pos h q - m.prunedToPos < m.nodes.length := by omega
        rw [getElem?_append_left hin, st.retained h q hle hge hcl', digestAt_append hle]
    · intro y h hno
      rw [length_append, length_singleton, hpr]
      rcases (hmem _).1 hno with hol | ⟨k, q, hq, heq⟩
      · obtain ⟨k, q, h₁, h₂, h₃, h₄⟩ := st.dirty_node y h hol
        exact ⟨k, q, h₁, h₂, by omega, h₄⟩
      · cases heq
        refine ⟨k, q, rfl, rfl, by omega, ?_⟩
        rw [hq, Nat.add_sub_cancel]
        exact st.boundary_le
  · rw [length_append, length_singleton]
    exact hcs.add hmem

/-! ### Removing a leaf -/

/-- The search goes down to the size without the last leaf, or to the boundary. -/
theorem popLoop_eq {p : ℕ} (hn : n ≤ 2 ^ 62) (hlo : size n ≤ x) (hhi : x < size (n + 1))
    (hp : p ≤ x + 1) : MemMmr.popLoop p x =
      if p ≤ size n then .ok (size n) else .error (.error (.elementPruned (p - 1))) := by
  induction x with
  | zero =>
    rw [MemMmr.popLoop, show size n = 0 by omega]
    split_ifs with hps hz
    · omega
    · rw [show p - 1 = 0 by omega]
    · rfl
    · omega
  | succ x ih =>
    rw [MemMmr.popLoop]
    by_cases hpr : x + 1 < p
    · rw [if_pos hpr, if_neg (by omega), show p - 1 = x + 1 by omega]
    rw [if_neg hpr]
    rcases Nat.eq_or_lt_of_le hlo with heq | hlt
    · rw [if_pos (heq ▸ Position.isMmrSize_size hn), if_pos (by omega), heq]
    · rw [if_neg (Position.not_isMmrSize hlt hhi)]
      exact ih (by omega) (by omega) (by omega)

theorem Closed.filter {n' : ℕ} (hcl : Closed n dirty) (hn : n' ≤ n) :
    Closed n' (dirty.filter fun node => decide (node.1 < size n')) := by
  intro h q hnd he
  rw [mem_filter] at hnd ⊢
  exact ⟨hcl h q hnd.1 (he.trans hn), decide_eq_true (pos_lt_size_iff.2 he)⟩

theorem popLoop_holds (hm : Holds hasher es m) (hlen : es.length ≤ 2 ^ 62 + 1) (hne : es ≠ []) :
    m.size ≠ 0 ∧ MemMmr.popLoop m.prunedToPos (m.size - 1) =
      if m.prunedToPos ≤ size (es.length - 1) then .ok (size (es.length - 1))
      else .error (.error (.elementPruned (m.prunedToPos - 1))) := by
  obtain ⟨pin, st⟩ := hm.stored
  obtain ⟨n, hn⟩ := Nat.exists_eq_add_one.2 (length_pos_of_ne_nil hne)
  have hg := size_lt_size_succ n
  have hbn := st.boundary_le
  rw [hn] at hbn hlen
  rw [st.size_eq, hn, Nat.add_sub_cancel]
  exact ⟨by omega, popLoop_eq (by omega) (by omega) (by omega) (by omega)⟩

theorem pop_holds (hm : Holds hasher es m) (hlen : es.length ≤ 2 ^ 62 + 1)
    (hpp : m.pop = .ok (x, m')) :
    Holds hasher es.dropLast m' ∧ x = size (es.length - 1) ∧ m'.prunedToPos = m.prunedToPos := by
  have hne : es ≠ [] := by
    rintro rfl
    obtain ⟨pin, st⟩ := hm.stored
    rw [MemMmr.pop, if_pos (st.size_eq.trans size_zero)] at hpp
    cases hpp
  obtain ⟨hz, hsr⟩ := popLoop_holds hm hlen hne
  obtain ⟨⟨pin, st⟩, hcs⟩ := hm
  rw [MemMmr.pop, if_neg hz, hsr] at hpp
  obtain ⟨y, hy, hpp⟩ := bind_eq_ok.1 hpp
  split_ifs at hy with hp
  obtain rfl := Except.ok.inj hy
  have hln := st.length_add
  obtain ⟨n, hn⟩ := Nat.exists_eq_add_one.2 (length_pos_of_ne_nil hne)
  have hg := size_lt_size_succ n
  rw [hn] at hln
  rw [hn, Nat.add_sub_cancel] at hp hpp
  have hdr : es.dropLast.length = n := by
    rw [length_dropLast]
    omega
  have ht : es.dropLast = es.take n := by
    rw [dropLast_eq_take, hn]
    rfl
  have hns : m.nodes.length - (m.size - size n) = size n - m.prunedToPos := by
    rw [st.size_eq, hn]
    omega
  have hsize : MemMmr.size { m with nodes := m.nodes.take (size n - m.prunedToPos) } = size n := by
    simp only [MemMmr.size, length_take]
    omega
  simp only [hns, hsize, pure, Except.pure, Except.ok.injEq, Prod.mk.injEq] at hpp
  obtain ⟨rfl, rfl⟩ := hpp
  refine ⟨⟨⟨pin, ?_⟩, ?_⟩, by rw [hn]; rfl, rfl⟩
  · refine ⟨by rw [hdr]; exact hsize, st.pin_le, st.lt_pin, ?_, ?_, ?_⟩
    · intro node hnd
      refine (st.pinned node hnd).trans ?_
      have hpn : pin ≤ n := size_le_size_iff.1 (st.pin_le.trans hp)
      rw [ht, digestAt_take ((peak_end_le hnd).trans hpn)]
    · intro h q he hge hcl
      rw [hdr] at he
      have hlt := pos_lt_size_iff.2 he
      have hcl' : (pos h q, h) ∉ m.state.dirtyNodes := fun hol =>
        hcl (mem_filter.2 ⟨hol, decide_eq_true hlt⟩)
      have hin : pos h q - m.prunedToPos < size n - m.prunedToPos := by
        have : m.prunedToPos ≤ pos h q := hge
        omega
      rw [ht, digestAt_take he, ← st.retained h q (by omega) hge hcl']
      exact getElem?_take_of_lt hin
    · intro y h hnd
      obtain ⟨hol, hlt⟩ := mem_filter.1 hnd
      obtain ⟨k, q, rfl, rfl, -, hp'⟩ := st.dirty_node y h hol
      exact ⟨k, q, rfl, rfl, by rw [hdr]; exact pos_lt_size_iff.1 (of_decide_eq_true hlt), hp'⟩
  · rw [hdr]
    exact hcs.filter (by omega)

/-! ### Changing a leaf -/

variable {a : ℕ}

theorem pathIterator_fst {h q : ℕ} (hq : a / 2 ^ h = q) :
    (pathIterator (size a) h (pos h q)).reverse.map Prod.fst =
      (range' 1 h).map fun i => pos i (a / 2 ^ i) := by
  induction h generalizing q with
  | zero => rfl
  | succ h ih =>
    have hdv : a / 2 ^ h / 2 = q := by rw [Nat.div_div_eq_div_mul, ← pow_succ, hq]
    have hcn : pos h (2 * q) < size a ↔ a / 2 ^ h = 2 * q + 1 := by
      rw [pos_lt_size_iff, ← Nat.le_div_iff_mul_le (Nat.two_pow_pos h)]
      omega
    rw [range'_concat, map_append, pathIterator, pos_sub_left, pos_sub_one]
    simp only [hcn]
    split_ifs with hsd
    · rw [reverse_cons, map_append, ih hsd]
      simp [hq, Nat.add_comm]
    · rw [reverse_cons, map_append, ih (by omega)]
      simp [hq, Nat.add_comm]

/-- Marking marks the whole path, since what is above a dirty node is dirty. -/
theorem mem_markDirtyLoop {j k : ℕ} {path : List (ℕ × ℕ)}
    (hpt : path.map Prod.fst = (range' j k).map fun i => pos i (a / 2 ^ i))
    (hup : ∀ i, j ≤ i → i + 1 < j + k → (pos i (a / 2 ^ i), i) ∈ dirty →
      (pos (i + 1) (a / 2 ^ (i + 1)), i + 1) ∈ dirty) (node : ℕ × ℕ) :
    node ∈ MemMmr.markDirtyLoop path j dirty ↔
      node ∈ dirty ∨ ∃ i ∈ range' j k, node = (pos i (a / 2 ^ i), i) := by
  induction k generalizing j path dirty with
  | zero =>
    obtain rfl : path = [] := by simpa using hpt
    simp [MemMmr.markDirtyLoop]
  | succ k ih =>
    cases path with
    | nil => simp [range'_succ] at hpt
    | cons item path =>
      obtain ⟨x, y⟩ := item
      rw [range'_succ, map_cons, map_cons, cons.injEq] at hpt
      obtain ⟨rfl, hpt⟩ := hpt
      rw [MemMmr.markDirtyLoop]
      split_ifs with hdr
      · have ha : ∀ i, j ≤ i → i < j + (k + 1) → (pos i (a / 2 ^ i), i) ∈ dirty := by
          intro i hj
          induction i, hj using Nat.le_induction with
          | base => exact fun _ => hdr
          | succ i hj ih' => exact fun hi => hup i hj hi (ih' (by omega))
        refine ⟨Or.inl, fun h => h.elim id ?_⟩
        rintro ⟨i, hi, rfl⟩
        exact ha i (mem_range'_1.1 hi).1 (mem_range'_1.1 hi).2
      · have hup' : ∀ i, j + 1 ≤ i → i + 1 < j + 1 + k →
            (pos i (a / 2 ^ i), i) ∈ dirty.insert (pos j (a / 2 ^ j), j) →
            (pos (i + 1) (a / 2 ^ (i + 1)), i + 1) ∈
              dirty.insert (pos j (a / 2 ^ j), j) := by
          intro i h₁ h₂ hmem
          rw [mem_insert_iff] at hmem ⊢
          rcases hmem with heq | hol
          · have := congrArg Prod.snd heq
            simp only [] at this
            omega
          · exact Or.inr (hup i (by omega) (by omega) hol)
        rw [ih hpt hup', mem_insert_iff, range'_succ, exists_mem_cons_iff, or_assoc]
        exact or_left_comm

theorem find_tile {b : ℕ} {nodes : List (ℕ × ℕ)} (ha : a < n) (ht : Tiles n b nodes) (hlo : b ≤ a) :
    ∃ h q, (nodes.map peakItem).find? (fun peak => decide (¬ peak.1 < size a)) =
      some (pos h q, h) ∧ (h, q) ∈ nodes ∧ a / 2 ^ h = q := by
  induction ht with
  | nil => omega
  | @cons k r nodes hl hr ih =>
    rw [map_cons, peakItem, find?_cons]
    simp only [Nat.not_lt, size_le_pos_iff]
    by_cases hin : a < (r + 1) * 2 ^ k
    · exact ⟨k, r, by rw [decide_eq_true hin], mem_cons_self, Nat.div_eq_of_lt_le hlo hin⟩
    · obtain ⟨h, q, hf, hmem, hq⟩ := ih (Nat.not_lt.1 hin)
      refine ⟨h, q, ?_, mem_cons_of_mem _ hmem, hq⟩
      rw [decide_eq_false hin]
      simpa only [Nat.not_lt] using hf

theorem find_peak (ha : a < n) :
    ∃ h q, ((peaks n).map peakItem).find? (fun peak => decide (¬ peak.1 < size a)) =
      some (pos h q, h) ∧ (h, q) ∈ peaks n ∧ a / 2 ^ h = q :=
  find_tile ha (tiles_peaks n) a.zero_le

theorem setNode_eq_ok {m m' : MemMmr D S} {digest : D} :
    m.setNode x digest = .ok m' ↔ m.prunedToPos ≤ x ∧ x - m.prunedToPos < m.nodes.length ∧
      m' = { m with nodes := m.nodes.set (x - m.prunedToPos) digest } := by
  rw [MemMmr.setNode, MemMmr.posToIndex]
  split_ifs with hlt
  · simp only [bind, Except.bind, reduceCtorEq, false_iff]
    omega
  · simp only [bind, Except.bind, Nat.not_lt.1 hlt, true_and]
    split_ifs with hin
    · simp [pure, Except.pure, hin, eq_comm]
    · simp [hin]

theorem le_of_div_eq {h q i : ℕ} (hmem : (h, q) ∈ peaks n) (hq : a / 2 ^ h = q)
    (he : (a / 2 ^ i + 1) * 2 ^ i ≤ n) : i ≤ h := by
  by_contra hlt
  -- the parent of the peak is not in the range, and what is above it is not either
  have hp : a / 2 ^ (h + 1) = q / 2 := by rw [pow_succ, ← Nat.div_div_eq_div_mul, hq]
  have hle : (q / 2 + 1) * 2 ^ (h + 1) ≤ n := by
    rw [← hp]
    exact (block_end_mono a (Nat.not_le.1 hlt)).trans he
  exact (lt_parent_of_peak hmem).not_ge hle

theorem path_end_le {h i : ℕ} (hmem : (h, a / 2 ^ h) ∈ peaks n) (hi : i ≤ h) :
    (a / 2 ^ i + 1) * 2 ^ i ≤ n :=
  (block_end_mono a hi).trans (peak_end_le hmem)

theorem div_pow_succ (a i : ℕ) : a / 2 ^ i / 2 = a / 2 ^ (i + 1) := by
  rw [Nat.div_div_eq_div_mul, ← pow_succ]

theorem mem_marked {h : ℕ} (hcl : Closed n dirty) (hmem : (h, a / 2 ^ h) ∈ peaks n) (node : ℕ × ℕ) :
    node ∈ MemMmr.markDirtyLoop (pathIterator (size a) h (pos h (a / 2 ^ h))).reverse 1 dirty ↔
      node ∈ dirty ∨ ∃ k, (a / 2 ^ (k + 1) + 1) * 2 ^ (k + 1) ≤ n ∧
        node = (pos (k + 1) (a / 2 ^ (k + 1)), k + 1) := by
  rw [mem_markDirtyLoop (pathIterator_fst rfl)]
  · refine or_congr Iff.rfl ⟨?_, ?_⟩
    · rintro ⟨i, hi, rfl⟩
      rw [mem_range'_1] at hi
      obtain ⟨k, rfl⟩ : ∃ k, i = k + 1 := ⟨i - 1, by omega⟩
      exact ⟨k, path_end_le hmem (by omega), rfl⟩
    · rintro ⟨k, he, rfl⟩
      have hk := le_of_div_eq hmem rfl he
      exact ⟨k + 1, mem_range'_1.2 (by omega), rfl⟩
  · intro i h₁ h₂ hol
    rw [← div_pow_succ]
    refine hcl i _ hol ?_
    rw [div_pow_succ]
    exact path_end_le hmem (by omega)

/-- What changing a leaf changes: its digest, and the dirty nodes. -/
theorem setLeaf_spec (hsize : m.size = size n) (ha : a < n)
    (hs : m.setLeaf hasher (size a) element = .ok m') :
    m.prunedToPos ≤ size a ∧ ∃ h, (h, a / 2 ^ h) ∈ peaks n ∧ m' = { m with
      nodes := m.nodes.set (size a - m.prunedToPos) (hasher.leafDigest (size a) element)
      state := ⟨MemMmr.markDirtyLoop (pathIterator (size a) h (pos h (a / 2 ^ h))).reverse 1
        m.state.dirtyNodes⟩ } := by
  rw [MemMmr.setLeaf] at hs
  obtain ⟨m₁, hnd, hs⟩ := bind_eq_ok.1 hs
  obtain ⟨hge, -, rfl⟩ := setNode_eq_ok.1 hnd
  rw [MemMmr.markDirty] at hs
  obtain ⟨items, hit, hs⟩ := bind_eq_ok.1 hs
  obtain ⟨⟨x, height⟩, hf, hs⟩ := bind_eq_ok.1 hs
  rw [orPanic_eq_ok, MemMmr.size, length_set] at hit
  rw [MemMmr.size] at hsize
  rw [hsize] at hit
  rw [peakIterator_size (length_le_of_peakIterator hit), Option.some.injEq] at hit
  obtain ⟨h, q, hfn, hmem, rfl⟩ := find_peak ha
  rw [orPanic_eq_ok, ← hit, hfn, Option.some.injEq, Prod.mk.injEq] at hf
  obtain ⟨rfl, rfl⟩ := hf
  simp only [pure, Except.pure, Except.ok.injEq] at hs
  exact ⟨hge, _, hmem, hs.symm⟩

theorem setLeaf_holds (hm : Holds hasher es m) (ha : a < es.length)
    (hs : m.setLeaf hasher (size a) element = .ok m') :
    Holds hasher (es.set a element) m' ∧ m'.prunedToPos = m.prunedToPos := by
  obtain ⟨⟨pin, st⟩, hcs⟩ := hm
  obtain ⟨hge, h, hmem, rfl⟩ := setLeaf_spec st.size_eq ha hs
  have hdr := mem_marked hcs hmem
  generalize MemMmr.markDirtyLoop (pathIterator (size a) h (pos h (a / 2 ^ h))).reverse 1
    m.state.dirtyNodes = dirty' at *
  have hsize : MemMmr.size { m with
      nodes := m.nodes.set (size a - m.prunedToPos) (hasher.leafDigest (size a) element) } =
        size es.length := by
    rw [MemMmr.size, length_set]
    exact st.length_add
  have hid : size a - m.prunedToPos < m.nodes.length := by
    have hlt := size_lt_size_iff.2 ha
    have hln := st.length_add
    omega
  refine ⟨⟨⟨pin, ?_⟩, ?_⟩, rfl⟩
  · refine ⟨by rw [length_set]; exact hsize, st.pin_le, st.lt_pin, ?_, ?_, ?_⟩
    · intro node hnd
      refine (st.pinned node hnd).trans ?_
      -- the leaf is after the pinned nodes
      have hp : pin ≤ a := size_le_size_iff.1 (st.pin_le.trans hge)
      have hot : a / 2 ^ node.1 ≠ node.2 := fun heq =>
        ((heq ▸ lt_block_end a node.1).trans_le (peak_end_le hnd)).not_ge hp
      rw [digestAt_set hot]
    · intro h' q' he' hge' hcl
      rw [length_set] at he'
      have hcl' : (pos h' q', h') ∉ m.state.dirtyNodes :=
        fun hol => hcl ((hdr _).2 (Or.inl hol))
      by_cases hin : a / 2 ^ h' = q'
      · subst hin
        cases h' with
        | zero =>
          simp only [pow_zero, Nat.div_one, pos_zero_left, digestAt]
          rw [getElem?_set_self hid, getD_eq_getElem?_getD, getElem?_set_self ha]
          rfl
        | succ k => exact absurd ((hdr _).2 (Or.inr ⟨k, he', rfl⟩)) hcl
      · have hne : size a ≠ pos h' q' := by
          intro heq
          rw [← pos_zero_left] at heq
          obtain ⟨rfl, rfl⟩ := pos_inj heq
          exact hin (by rw [pow_zero, Nat.div_one])
        have hge'' : m.prunedToPos ≤ pos h' q' := hge'
        have hne' : size a - m.prunedToPos ≠ pos h' q' - m.prunedToPos := by omega
        rw [digestAt_set hin, ← st.retained h' q' he' hge' hcl']
        exact getElem?_set_ne hne'
    · intro y h' hnd
      rw [length_set]
      rcases (hdr _).1 hnd with hol | ⟨k, he, heq⟩
      · exact st.dirty_node y h' hol
      · cases heq
        refine ⟨k, _, rfl, rfl, he, hge.trans (size_le_size_iff.2 ?_)⟩
        exact Nat.le_sub_one_of_lt (lt_block_end a (k + 1))
  · intro h' q' hnd he'
    rw [length_set] at he'
    rcases (hdr _).1 hnd with hol | ⟨k, -, heq⟩
    · exact (hdr _).2 (Or.inl (hcs h' q' hol he'))
    · obtain ⟨rfl, rfl⟩ := pos_inj (congrArg Prod.fst heq)
      rw [div_pow_succ] at he' ⊢
      exact (hdr _).2 (Or.inr ⟨k + 1, he', rfl⟩)

theorem updatePosition_eq_ok {leaves loc : ℕ} (h : m.updatePosition leaves loc = .ok x) :
    loc < leaves ∧ x = size loc := by
  rw [MemMmr.updatePosition] at h
  split_ifs at h with hle
  obtain ⟨y, hy, h⟩ := bind_eq_ok.1 h
  rw [orError_eq_ok, Position.tryFrom] at hy
  split_ifs at hy with hl
  split_ifs at h with hp
  cases hy
  cases h
  exact ⟨Nat.not_le.1 hle, rfl⟩

def setElements (es : List (List Sym)) (updates : List (ℕ × List Sym)) : List (List Sym) :=
  updates.foldl (fun es update => es.set update.1 update.2) es

theorem length_setElements (es : List (List Sym)) (updates : List (ℕ × List Sym)) :
    (setElements es updates).length = es.length := by
  induction updates generalizing es with
  | nil => rfl
  | cons update updates ih => exact (ih _).trans length_set

variable {updates : List (ℕ × List Sym)}

theorem updates_hold {positions : List ℕ} (hm : Holds hasher es m) (hn : es.length = n)
    (hp : List.Forall₂ (fun update x => update.1 < n ∧ x = size update.1) updates positions)
    (hf : (updates.zip positions).foldlM
      (fun m item => m.setLeaf hasher item.2 item.1.2) m = .ok m') :
    Holds hasher (setElements es updates) m' ∧ m'.prunedToPos = m.prunedToPos := by
  induction hp generalizing es m with
  | nil =>
    cases hf
    exact ⟨hm, rfl⟩
  | @cons update x updates positions hhd ht ih =>
    obtain ⟨hlt, rfl⟩ := hhd
    rw [zip_cons_cons, foldlM_cons] at hf
    obtain ⟨m₁, hs, hf⟩ := bind_eq_ok.1 hf
    obtain ⟨hh, hpr⟩ := setLeaf_holds hm (by rwa [hn]) hs
    obtain ⟨hh', hpr'⟩ := ih hh (by rw [length_set, hn]) hf
    exact ⟨hh', hpr'.trans hpr⟩

theorem length_eq_leaves {leaves : ℕ} (hm : Holds hasher es m) (hlv : m.leaves = .ok leaves) :
    es.length = leaves := by
  obtain ⟨pin, st⟩ := hm.stored
  rw [MemMmr.leaves, orPanic_eq_ok, st.size_eq] at hlv
  have hle : es.length ≤ maxLocation := by
    by_contra hlt
    rw [Location.tryFrom, if_pos (Nat.not_le.1 (mt size_le_maxPosition_iff.1 hlt))] at hlv
    cases hlv
  exact Option.some.inj ((Location.tryFrom_size hle).symm.trans hlv)

theorem updateLeafBatched_holds (hm : Holds hasher es m)
    (hu : m.updateLeafBatched hasher updates = .ok m') :
    Holds hasher (setElements es updates) m' ∧ m'.prunedToPos = m.prunedToPos := by
  obtain ⟨pin, st⟩ := hm.stored
  rw [MemMmr.updateLeafBatched] at hu
  split_ifs at hu with hnl
  · cases hu
    rw [hnl]
    exact ⟨hm, rfl⟩
  · obtain ⟨leaves, hlv, hbd⟩ := bind_eq_ok.1 hu
    obtain ⟨positions, hps, hf⟩ := bind_eq_ok.1 hbd
    exact updates_hold hm (length_eq_leaves hm hlv)
      ((mapM_eq_ok_iff.1 hps).imp fun _ _ h => updatePosition_eq_ok h) hf

/-! ### Computing digests -/

variable {pin height : ℕ}

/-- The children of one of the lowest dirty nodes can be read. -/
theorem Stored.children {y : ℕ} (st : Stored hasher es m dirty pin)
    (hmem : (y, height) ∈ dirty) (hh : ∀ node ∈ dirty, height ≤ node.2) :
    ∃ k q, height = k + 1 ∧ y = pos (k + 1) q ∧ m.prunedToPos ≤ y ∧
      y - m.prunedToPos < m.nodes.length ∧
      m.getNode (y - 2 ^ height) = some (digestAt hasher es k (2 * q)) ∧
      m.getNode (y - 1) = some (digestAt hasher es k (2 * q + 1)) := by
  obtain ⟨k, q, rfl, rfl, he, hlf⟩ := st.dirty_node y height hmem
  -- the children are not dirty, since they are lower
  have hcl : ∀ q', (pos k q', k) ∉ dirty := fun q' hdr => by
    have := hh _ hdr
    simp only [] at this
    omega
  obtain ⟨-, -, hl, hrg, hp⟩ := leaves_halves k q
  have hps : 0 < (q + 1) * 2 ^ (k + 1) := by positivity
  have hge : m.prunedToPos ≤ pos (k + 1) q := hlf.trans (size_le_pos_iff.2 (by omega))
  have hlt := pos_lt_size_iff.2 he
  have hln := st.length_add
  refine ⟨k, q, rfl, rfl, hge, by omega, ?_, ?_⟩
  · rw [pos_sub_left]
    exact st.getNode_of_even (by omega) (hcl _) (by omega) hlf
      (show _ < (2 * q + 1 + 1) * 2 ^ k by omega)
  · rw [pos_sub_one]
    exact st.getNode_of_le (by omega) (hcl _) hlf (by omega)

variable {rest : List (ℕ × ℕ)}

theorem Stored.setIndex {k q : ℕ}
    (st : Stored hasher es m ((pos (k + 1) q, k + 1) :: rest) pin)
    (hge : m.prunedToPos ≤ pos (k + 1) q) :
    Stored hasher es { m with
      nodes := m.nodes.set (pos (k + 1) q - m.prunedToPos) (digestAt hasher es (k + 1) q) }
      rest pin := by
  refine ⟨?_, st.pin_le, st.lt_pin, st.pinned, ?_, fun y h hmem =>
    st.dirty_node y h (mem_cons_of_mem _ hmem)⟩
  · rw [MemMmr.size, length_set]
    exact st.length_add
  · intro h' q' he' hge' hcl'
    have hge'' : m.prunedToPos ≤ pos h' q' := hge'
    by_cases heq : (pos h' q', h') = (pos (k + 1) q, k + 1)
    · obtain ⟨rfl, rfl⟩ := pos_inj (congrArg Prod.fst heq)
      have hlt := pos_lt_size_iff.2 he'
      have hln := st.length_add
      exact getElem?_set_self (by omega)
    · have hne : pos (k + 1) q ≠ pos h' q' := by
        intro hp'
        obtain ⟨rfl, rfl⟩ := pos_inj hp'
        exact heq rfl
      have hin : pos (k + 1) q - m.prunedToPos ≠ pos h' q' - m.prunedToPos := by omega
      rw [← st.retained h' q' he' hge' fun hmem => (mem_cons.1 hmem).elim heq hcl']
      exact getElem?_set_ne hin

/-- What a computation of digests does not change. -/
structure SameBut (m m' : DirtyMmr D) : Prop where
  prunedToPos : m'.prunedToPos = m.prunedToPos
  pinnedNodes : m'.pinnedNodes = m.pinnedNodes
  state : m'.state = m.state

theorem SameBut.trans {m'' : DirtyMmr D} (h : SameBut m m') (h' : SameBut m' m'') : SameBut m m'' :=
  ⟨h'.1.trans h.1, h'.2.trans h.2, h'.3.trans h.3⟩

variable {computed : List (ℕ × D)}

theorem setIndexes_same
    (h : computed.foldlM MemMmr.setIndex m = .ok m') : SameBut m m' := by
  refine foldlM_keeps (P := SameBut m) (fun _ hsm hs => ?_) ⟨rfl, rfl, rfl⟩ h
  rw [MemMmr.setIndex] at hs
  split_ifs at hs
  cases hs
  exact ⟨hsm.1, hsm.2, hsm.3⟩

variable {ys : List ℕ}

theorem updateNodeDigests_same
    (h : MemMmr.updateNodeDigests hasher m ys height = .ok m') : SameBut m m' := by
  obtain ⟨computed, -, h⟩ := bind_eq_ok.1 h
  exact setIndexes_same h

/-- What is computed for a node, with the index of the node behind a boundary. -/
def RightDigest (hasher : Hasher Sym D) (es : List (List Sym)) (b : ℕ) (node : ℕ × ℕ) (item : ℕ × D) :
    Prop :=
  ∃ k q, node = (pos (k + 1) q, k + 1) ∧ b ≤ pos (k + 1) q ∧
    item = (pos (k + 1) q - b, digestAt hasher es (k + 1) q)

theorem setIndexes_stored {batch : List (ℕ × ℕ)} {b : ℕ}
    (st : Stored hasher es m (batch ++ rest) pin) (hb : m.prunedToPos = b)
    (hcm : List.Forall₂ (RightDigest hasher es b) batch computed) :
    ∃ m', computed.foldlM MemMmr.setIndex m = .ok m' ∧ Stored hasher es m' rest pin := by
  induction hcm generalizing m with
  | nil => exact ⟨m, rfl, st⟩
  | cons hh _ ih =>
    obtain ⟨k, q, rfl, hge, rfl⟩ := hh
    subst hb
    obtain ⟨m', hr, st'⟩ := ih (Stored.setIndex st hge) rfl
    refine ⟨m', ?_, st'⟩
    rw [foldlM_cons, MemMmr.setIndex, if_pos]
    · exact hr
    · obtain ⟨k', q', -, hnd, he, -⟩ := st.dirty_node _ _ mem_cons_self
      have hlt := pos_lt_size_iff.2 he
      have hln := st.length_add
      rw [← hnd] at hlt
      dsimp only
      omega

/-- **Nodes of one height** can be computed together, if no dirty node is lower. -/
theorem updateNodeDigests_stored
    (st : Stored hasher es m ((ys.map fun y => (y, height)) ++ rest) pin)
    (hh : ∀ node ∈ rest, height ≤ node.2) :
    ∃ m', MemMmr.updateNodeDigests hasher m ys height = .ok m' ∧ Stored hasher es m' rest pin := by
  have hl : ∀ node ∈ (ys.map fun y => (y, height)) ++ rest, height ≤ node.2 := by
    intro node hnd
    rcases mem_append.1 hnd with hnd | hnd
    · obtain ⟨y, -, rfl⟩ := mem_map.1 hnd
      exact le_rfl
    · exact hh node hnd
  have hrd : ∀ y ∈ ys, ∃ item, (do
      let left ← m.getNodeUnchecked (y - 2 ^ height)
      let right ← m.getNodeUnchecked (y - 1)
      let index ← m.posToIndex y
      pure (index, hasher.nodeDigest y left right) : Except Failure (ℕ × D)) = .ok item ∧
      RightDigest hasher es m.prunedToPos (y, height) item := by
    intro y hy
    obtain ⟨k, q, rfl, rfl, hge, hin, hlf, hrg⟩ :=
      st.children (mem_append_left rest (mem_map.2 ⟨y, hy, rfl⟩)) hl
    refine ⟨_, ?_, k, q, rfl, hge, rfl⟩
    rw [MemMmr.getNodeUnchecked, MemMmr.getNodeUnchecked, hlf, hrg, MemMmr.posToIndex,
      if_neg (Nat.not_lt.2 hge)]
    rfl
  have : Nonempty D := ⟨hasher.empty⟩
  choose! item hit hrg using hrd
  have hcm := mapM_eq_ok hit
  have ha : List.Forall₂ (RightDigest hasher es m.prunedToPos) (ys.map fun y => (y, height))
      (ys.map item) := by
    rw [forall₂_map_left_iff, forall₂_map_right_iff]
    exact forall₂_same.2 hrg
  obtain ⟨m', hs, st'⟩ := setIndexes_stored st rfl ha
  exact ⟨m', bind_eq_ok.2 ⟨_, hcm, hs⟩, st'⟩

theorem recompute_eq (node : ℕ × ℕ) :
    MemMmr.recompute hasher m node = MemMmr.updateNodeDigests hasher m [node.1] node.2 := by
  rw [MemMmr.recompute, MemMmr.updateNodeDigests, mapM_cons, mapM_nil]
  cases m.getNodeUnchecked (node.1 - 2 ^ node.2) with
  | error e => rfl
  | ok left =>
    cases m.getNodeUnchecked (node.1 - 1) with
    | error e => rfl
    | ok right =>
      simp only [bind, Except.bind, MemMmr.setNode]
      cases m.posToIndex node.1 with
      | error e => rfl
      | ok index =>
        simp only [MemMmr.setIndex, foldlM_cons, foldlM_nil, pure, Except.pure, bind, Except.bind]
        split_ifs <;> rfl

/-! ### Batches -/

/-- Computes digests in batches of nodes of one height. -/
def runBatches (hasher : Hasher Sym D) (m : DirtyMmr D) (batches : List (List ℕ × ℕ)) :
    Except Failure (DirtyMmr D) :=
  batches.foldlM (fun m batch => MemMmr.updateNodeDigests hasher m batch.1 batch.2) m

def batchNodes (batch : List ℕ × ℕ) : List (ℕ × ℕ) := batch.1.map fun y => (y, batch.2)

theorem runBatches_stored {batches : List (List ℕ × ℕ)}
    (st : Stored hasher es m (batches.flatMap batchNodes) pin)
    (hsr : batches.Pairwise fun b b' => b.2 ≤ b'.2) :
    ∃ m', runBatches hasher m batches = .ok m' ∧ Stored hasher es m' [] pin ∧ SameBut m m' := by
  induction hsr generalizing m with
  | nil => exact ⟨m, rfl, st, rfl, rfl, rfl⟩
  | @cons batch batches hh _ ih =>
    obtain ⟨m₁, hst, st₁⟩ := updateNodeDigests_stored st fun node hnd => by
      obtain ⟨b, hb, hnd⟩ := mem_flatMap.1 hnd
      obtain ⟨y, -, rfl⟩ := mem_map.1 hnd
      exact hh b hb
    obtain ⟨m₂, hr, st₂, hsm⟩ := ih st₁
    refine ⟨m₂, ?_, st₂, (updateNodeDigests_same hst).trans hsm⟩
    rw [runBatches, foldlM_cons]
    exact bind_eq_ok.2 ⟨m₁, hst, hr⟩

def singles (nodes : List (ℕ × ℕ)) : List (List ℕ × ℕ) := nodes.map fun node => ([node.1], node.2)

theorem flatMap_singles (nodes : List (ℕ × ℕ)) : (singles nodes).flatMap batchNodes = nodes := by
  rw [singles, flatMap_map]
  exact flatMap_singleton' nodes

theorem merkleizeSerial_eq (m : DirtyMmr D) : m.merkleizeSerial hasher =
    runBatches hasher { m with state := ⟨[]⟩ }
      (singles (m.state.dirtyNodes.mergeSort MemMmr.byHeight)) := by
  rw [MemMmr.merkleizeSerial, runBatches, singles, foldlM_map]
  congr 1
  funext m node
  exact recompute_eq node

/-- What a range has does not depend on the order of its dirty nodes. -/
theorem Stored.dirty_congr {m : MemMmr D S} (st : Stored hasher es m dirty pin)
    (hmem : ∀ node, node ∈ dirty' ↔ node ∈ dirty) : Stored hasher es m dirty' pin :=
  { st with
    retained := fun h q he hge hcl =>
      st.retained h q he hge fun hol => hcl ((hmem _).2 hol)
    dirty_node := fun x h hnd => st.dirty_node x h ((hmem _).1 hnd) }

theorem sorted_byHeight (dirty : List (ℕ × ℕ)) :
    (dirty.mergeSort MemMmr.byHeight).Pairwise fun a b => a.2 ≤ b.2 := by
  refine (pairwise_mergeSort ?_ ?_ dirty).imp ?_
  · intro a b c hab hbc
    simp only [MemMmr.byHeight, decide_eq_true_eq] at *
    omega
  · intro a b
    simp only [MemMmr.byHeight, Bool.or_eq_true, decide_eq_true_eq]
    omega
  · intro a b hab
    simp only [MemMmr.byHeight, decide_eq_true_eq] at hab
    omega

theorem sorted_singles (dirty : List (ℕ × ℕ)) :
    (singles (dirty.mergeSort MemMmr.byHeight)).Pairwise fun b b' => b.2 ≤ b'.2 :=
  pairwise_map.2 (sorted_byHeight dirty)

theorem merkleizeSerial_stored (st : Stored hasher es m m.state.dirtyNodes pin) :
    ∃ m', m.merkleizeSerial hasher = .ok m' ∧ Stored hasher es m' [] pin ∧
      SameBut { m with state := ⟨[]⟩ } m' := by
  rw [merkleizeSerial_eq]
  refine runBatches_stored ?_ (sorted_singles _)
  rw [flatMap_singles]
  exact { st.dirty_congr fun node => mem_mergeSort with }

/-- **A dirty range can be made clean**, and has the root of its elements then. -/
theorem merkleize_holds (hm : Holds hasher es m) (hlen : es.length ≤ 2 ^ 62) :
    ∃ m', m.merkleize hasher = .ok m' ∧ HoldsClean hasher es m' ∧
      m'.prunedToPos = m.prunedToPos := by
  obtain ⟨⟨pin, st⟩, -⟩ := hm
  obtain ⟨m₁, hf, st₁, hpr, -, -⟩ := merkleizeSerial_stored st
  have hpk : ((peaks es.length).map peakItem).mapM (fun peak => m₁.getNodeUnchecked peak.1) =
      .ok (peakDigests hasher es) := by
    have hg : ∀ node ∈ peaks es.length, m₁.getNodeUnchecked (peakItem node).1 =
        .ok (digestAt hasher es node.1 node.2) := by
      intro node hnd
      rw [MemMmr.getNodeUnchecked, orPanic_eq_ok]
      exact st₁.getNode_of_peak le_rfl st₁.boundary_le hnd (by simp)
    rw [mapM_map]
    exact mapM_eq_ok hg
  refine ⟨⟨m₁.nodes, m₁.prunedToPos, m₁.pinnedNodes, ⟨rootOf hasher es⟩⟩, ?_, ?_, hpr⟩
  · rw [MemMmr.merkleize]
    refine bind_eq_ok.2 ⟨m₁, hf, bind_eq_ok.2 ⟨(peaks es.length).map peakItem, ?_,
      bind_eq_ok.2 ⟨peakDigests hasher es, hpk, ?_⟩⟩⟩
    · rw [orPanic_eq_ok, st₁.size_eq, peakIterator_size hlen]
    · rw [st₁.size_eq]
      rfl
  · exact ⟨⟨pin, { st₁ with }⟩, rfl, hlen⟩

theorem intoDirty_holds {m : CleanMmr D} (hm : HoldsClean hasher es m) :
    Holds hasher es m.intoDirty := by
  obtain ⟨pin, st⟩ := hm.stored
  exact ⟨⟨pin, { st with }⟩, fun h q hmem => by cases hmem⟩

/-! ### Pruning -/

section Pruning

variable {m m' : CleanMmr D}

/-- The nodes that are pinned at a boundary that is not before that of the range. -/
theorem nodesToPin_holds (hm : HoldsClean hasher es m) (hlo : m.prunedToPos ≤ x)
    (hx : x ≤ size es.length) (hmx : x ≤ maxPosition) (hp : size n ≤ x) (hhi : x < size (n + 1)) :
    m.nodesToPin x = .ok (peakEntries hasher es n) := by
  obtain ⟨⟨pin, st⟩, -, -⟩ := hm
  have hn : n ≤ es.length := size_le_size_iff.1 (hp.trans hx)
  rw [MemMmr.nodesToPin, nodesToPin_of hmx hp hhi]
  refine bind_eq_ok.2 ⟨_, rfl, ?_⟩
  rw [mapM_map]
  refine mapM_eq_ok fun node hnd => ?_
  have hg : m.getNode (pos node.1 node.2) = some (digestAt hasher es node.1 node.2) := by
    rcases Nat.lt_or_ge (size n) m.prunedToPos with hbf | haf
    · -- the boundary moves within the nodes of one leaf
      obtain rfl := largest_unique st.pin_le st.lt_pin hbf.le (hlo.trans_lt hhi)
      exact st.getNode_of ((peak_end_le hnd).trans hn) (by simp) (Or.inr hnd)
    · exact st.getNode_of_peak hn haf hnd (by simp)
  simp only [Function.comp, MemMmr.getNodeUnchecked, hg]
  rfl

theorem exists_pruneToPos (hm : HoldsClean hasher es m) (hlo : m.prunedToPos ≤ x)
    (hx : x ≤ size es.length) (hmx : x ≤ maxPosition) :
    ∃ m', m.pruneToPos x = .ok m' ∧ HoldsClean hasher es m' ∧ m'.prunedToPos = x ∧
      ∃ n, size n ≤ x ∧ x < size (n + 1) ∧ m'.pinnedNodes = peakEntries hasher es n := by
  obtain ⟨n, -, hp, hhi⟩ := nodesToPin_eq hmx
  have hpn := nodesToPin_holds hm hlo hx hmx hp hhi
  obtain ⟨⟨pin, st⟩, hr, hlen⟩ := hm
  have hln := st.length_add
  refine ⟨⟨m.nodes.drop (x - m.prunedToPos), x, _, m.state⟩, ?_, ⟨⟨n, ?_⟩, hr, hlen⟩, rfl, n, hp,
    hhi, rfl⟩
  · rw [MemMmr.pruneToPos, hpn, MemMmr.posToIndex, if_neg (Nat.not_lt.2 hlo)]
    exact if_pos (show x - m.prunedToPos ≤ m.nodes.length by omega)
  · refine ⟨?_, hp, hhi, fun node hnd => lookup_peaks hnd, ?_, fun y h hmem => by cases hmem⟩
    · simp only [MemMmr.size, length_drop]
      omega
    · intro h q he hge _
      have hge' : x ≤ pos h q := hge
      have ha : x - m.prunedToPos + (pos h q - x) = pos h q - m.prunedToPos := by omega
      rw [← st.retained h q he (by omega) (by simp)]
      simp only [getElem?_drop, ha]

theorem pruneToPos_bounds (hprune : m.pruneToPos x = .ok m') :
    m.prunedToPos ≤ x ∧ x ≤ m.size ∧ x ≤ maxPosition := by
  rw [MemMmr.pruneToPos] at hprune
  obtain ⟨pinned, hpn, hprune⟩ := bind_eq_ok.1 hprune
  obtain ⟨index, hin, hprune⟩ := bind_eq_ok.1 hprune
  rw [MemMmr.posToIndex] at hin
  split_ifs at hin with hlt
  cases hin
  split_ifs at hprune with hle
  obtain ⟨positions, hps, -⟩ := bind_eq_ok.1 hpn
  rw [orPanic_eq_ok] at hps
  refine ⟨Nat.not_lt.1 hlt, by rw [MemMmr.size]; omega, ?_⟩
  by_contra hgt
  rw [nodesToPin, toNearestSize, if_pos (Nat.not_le.1 hgt)] at hps
  cases hps

theorem pruneToPos_holds (hm : HoldsClean hasher es m) (hprune : m.pruneToPos x = .ok m') :
    HoldsClean hasher es m' ∧ m.prunedToPos ≤ x ∧ m'.prunedToPos = x := by
  obtain ⟨hlo, hx, hmx⟩ := pruneToPos_bounds hprune
  obtain ⟨pin, st⟩ := hm.stored
  obtain ⟨m'', hprune', hh, hpr, -⟩ := exists_pruneToPos hm hlo (st.size_eq ▸ hx) hmx
  obtain rfl := Except.ok.inj (hprune.symm.trans hprune')
  exact ⟨hh, hlo, hpr⟩

end Pruning

/-! ### Runs -/

/-- A range, dirty or clean. -/
abbrev AnyMmr (D : Type) := DirtyMmr D ⊕ CleanMmr D

/-- The ranges that are reached by calls that return, with the elements they hold. -/
inductive Reach (hasher : Hasher Sym D) : AnyMmr D → List (List Sym) → Prop
  | new : Reach hasher (.inl MemMmr.new) []
  | add {m m' : DirtyMmr D} {es : List (List Sym)} {element : List Sym} {x : ℕ} :
      Reach hasher (.inl m) es → m.add hasher element = .ok (x, m') →
      Reach hasher (.inl m') (es ++ [element])
  | pop {m m' : DirtyMmr D} {es : List (List Sym)} {x : ℕ} :
      Reach hasher (.inl m) es → m.pop = .ok (x, m') → Reach hasher (.inl m') es.dropLast
  | update {m m' : DirtyMmr D} {es : List (List Sym)} {updates : List (ℕ × List Sym)} :
      Reach hasher (.inl m) es → m.updateLeafBatched hasher updates = .ok m' →
      Reach hasher (.inl m') (setElements es updates)
  | merkleize {m : DirtyMmr D} {m' : CleanMmr D} {es : List (List Sym)} :
      Reach hasher (.inl m) es → m.merkleize hasher = .ok m' → Reach hasher (.inr m') es
  | intoDirty {m : CleanMmr D} {es : List (List Sym)} :
      Reach hasher (.inr m) es → Reach hasher (.inl m.intoDirty) es
  | prune {m m' : CleanMmr D} {es : List (List Sym)} {x : ℕ} :
      Reach hasher (.inr m) es → m.pruneToPos x = .ok m' → Reach hasher (.inr m') es

/-- A range holds some elements; a dirty one may have one leaf more than there are locations. -/
def AnyHolds (hasher : Hasher Sym D) (es : List (List Sym)) : AnyMmr D → Prop
  | .inl m => Holds hasher es m ∧ es.length ≤ 2 ^ 62 + 1
  | .inr m => HoldsClean hasher es m

namespace AnyHolds

variable {m m' : DirtyMmr D}

theorem add {x : ℕ} (hm : AnyHolds hasher es (.inl m))
    (ha : m.add hasher element = .ok (x, m')) :
    AnyHolds hasher (es ++ [element]) (.inl m') ∧ m'.prunedToPos = m.prunedToPos := by
  obtain ⟨hh, -, hpr⟩ := add_holds hm.1 ha
  refine ⟨⟨hh, ?_⟩, hpr⟩
  obtain ⟨pin, st⟩ := hm.1.stored
  have := (add_spec st.size_eq ha).1
  rw [length_append, length_singleton]
  omega

theorem pop {x : ℕ} (hm : AnyHolds hasher es (.inl m)) (hp : m.pop = .ok (x, m')) :
    AnyHolds hasher es.dropLast (.inl m') := by
  refine ⟨(pop_holds hm.1 hm.2 hp).1, ?_⟩
  have := hm.2
  rw [length_dropLast]
  omega

theorem update {updates : List (ℕ × List Sym)} (hm : AnyHolds hasher es (.inl m))
    (hu : m.updateLeafBatched hasher updates = .ok m') :
    AnyHolds hasher (setElements es updates) (.inl m') ∧ m'.prunedToPos = m.prunedToPos := by
  obtain ⟨hh, hpr⟩ := updateLeafBatched_holds hm.1 hu
  refine ⟨⟨hh, ?_⟩, hpr⟩
  rw [length_setElements]
  exact hm.2

theorem merkleize {m' : CleanMmr D} (hm : AnyHolds hasher es (.inl m))
    (hmr : m.merkleize hasher = .ok m') :
    AnyHolds hasher es (.inr m') ∧ m'.prunedToPos = m.prunedToPos := by
  obtain ⟨pin, st⟩ := hm.1.stored
  -- the iterator over the peaks stops a range that is too large
  have hlen : es.length ≤ 2 ^ 62 := by
    rw [MemMmr.merkleize] at hmr
    obtain ⟨m₁, hf, hr⟩ := bind_eq_ok.1 hmr
    obtain ⟨items, hit, -⟩ := bind_eq_ok.1 hr
    obtain ⟨m₂, hf₂, st₂, -⟩ := merkleizeSerial_stored st
    rw [hf, Except.ok.injEq] at hf₂
    rw [orPanic_eq_ok, hf₂, st₂.size_eq] at hit
    exact length_le_of_peakIterator hit
  obtain ⟨m₂, hok, hh, hpr⟩ := merkleize_holds hm.1 hlen
  rw [hmr, Except.ok.injEq] at hok
  rw [AnyHolds, hok]
  exact ⟨hh, hpr⟩

theorem intoDirty {m : CleanMmr D} (hm : AnyHolds hasher es (.inr m)) :
    AnyHolds hasher es (.inl m.intoDirty) :=
  ⟨intoDirty_holds hm, (HoldsClean.length_le hm).trans (Nat.le_succ _)⟩

end AnyHolds

/-- **Every reachable range holds its elements.** -/
theorem Reach.holds {m : AnyMmr D} (hrc : Reach hasher m es) : AnyHolds hasher es m := by
  induction hrc with
  | new => exact ⟨holds_new, by simp⟩
  | add _ ha ih => exact (ih.add ha).1
  | pop _ hp ih => exact ih.pop hp
  | update _ hu ih => exact (ih.update hu).1
  | merkleize _ hmr ih => exact (ih.merkleize hmr).1
  | intoDirty _ ih => exact ih.intoDirty
  | prune _ hprune ih => exact (pruneToPos_holds ih hprune).1

theorem exists_add (hm : Holds hasher es m) (hlen : es.length ≤ 2 ^ 62) (element : List Sym) :
    ∃ x m', m.add hasher element = .ok (x, m') := by
  obtain ⟨pin, st⟩ := hm.stored
  obtain ⟨l, r, hl, -⟩ := nodesNeedingParents_size hlen
  refine ⟨_, _, bind_eq_ok.2 ⟨(peaks es.length).map peakItem, ?_, bind_eq_ok.2 ⟨l, ?_, rfl⟩⟩⟩
  · rw [orPanic_eq_ok, st.size_eq, peakIterator_size hlen]
  · rw [orPanic_eq_ok, hl]

theorem exists_markDirty (hsize : m.size = size n) (hn : n ≤ 2 ^ 62) (ha : a < n) :
    ∃ m', m.markDirty (size a) = .ok m' ∧ m'.prunedToPos = m.prunedToPos := by
  obtain ⟨h, q, hf, -⟩ := find_peak ha
  refine ⟨_, bind_eq_ok.2 ⟨(peaks n).map peakItem, ?_, bind_eq_ok.2 ⟨(pos h q, h), ?_, rfl⟩⟩, rfl⟩
  · rw [orPanic_eq_ok, hsize, peakIterator_size hn]
  · rw [orPanic_eq_ok, hf]

theorem exists_setLeaf (hm : Holds hasher es m) (hlen : es.length ≤ 2 ^ 62) (ha : a < es.length)
    (hbn : m.prunedToPos ≤ size a) (element : List Sym) :
    ∃ m', m.setLeaf hasher (size a) element = .ok m' := by
  obtain ⟨pin, st⟩ := hm.stored
  have hln := st.length_add
  have hlt : size a < size es.length := size_lt_size_iff.2 ha
  obtain ⟨m₁, hs⟩ : ∃ m₁, m.setNode (size a) (hasher.leafDigest (size a) element) = .ok m₁ :=
    ⟨_, setNode_eq_ok.2 ⟨hbn, by omega, rfl⟩⟩
  obtain ⟨-, -, heq⟩ := setNode_eq_ok.1 hs
  have hsize : m₁.size = size es.length := by
    rw [heq, MemMmr.size, length_set]
    exact hln
  obtain ⟨m', hmr, -⟩ := exists_markDirty hsize hlen ha
  exact ⟨m', bind_eq_ok.2 ⟨m₁, hs, hmr⟩⟩

theorem exists_updates (hm : Holds hasher es m) (hlen : es.length ≤ 2 ^ 62)
    (hal : ∀ update ∈ updates, update.1 < es.length ∧ m.prunedToPos ≤ size update.1) :
    ∃ m', (updates.zip (updates.map fun update => size update.1)).foldlM
      (fun m item => m.setLeaf hasher item.2 item.1.2) m = .ok m' := by
  induction updates generalizing es m with
  | nil => exact ⟨m, rfl⟩
  | cons update updates ih =>
    obtain ⟨ha, hbn⟩ := hal update mem_cons_self
    obtain ⟨m₁, hs⟩ := exists_setLeaf hm hlen ha hbn update.2
    obtain ⟨hm₁, hpr⟩ := setLeaf_holds hm ha hs
    have hr : ∀ u ∈ updates,
        u.1 < (es.set update.1 update.2).length ∧ m₁.prunedToPos ≤ size u.1 := by
      intro u hu
      rw [length_set, hpr]
      exact hal u (mem_cons_of_mem _ hu)
    obtain ⟨m', hm'⟩ := ih hm₁ (by rwa [length_set]) hr
    exact ⟨m', bind_eq_ok.2 ⟨m₁, hs, hm'⟩⟩

theorem exists_updateLeafBatched (hm : Holds hasher es m) (hlen : es.length ≤ maxLocation)
    (hal : ∀ update ∈ updates, update.1 < es.length ∧ m.prunedToPos ≤ size update.1) :
    ∃ m', m.updateLeafBatched hasher updates = .ok m' := by
  obtain ⟨pin, st⟩ := hm.stored
  have hmx : maxLocation ≤ 2 ^ 62 := by decide
  rw [MemMmr.updateLeafBatched]
  split_ifs with hnl
  · exact ⟨m, rfl⟩
  · obtain ⟨m', hf⟩ := exists_updates hm (hlen.trans hmx) hal
    refine ⟨m', bind_eq_ok.2 ⟨es.length, ?_, bind_eq_ok.2 ⟨_, ?_, hf⟩⟩⟩
    · rw [MemMmr.leaves, orPanic_eq_ok, st.size_eq, Location.tryFrom_size hlen]
    · refine mapM_eq_ok fun update hu => ?_
      obtain ⟨ha, hbn⟩ := hal update hu
      rw [MemMmr.updatePosition, if_neg (Nat.not_le.2 ha), Position.tryFrom_eq (by omega)]
      exact if_neg (Nat.not_lt.2 hbn)

theorem exists_updateLeaf (hm : Holds hasher es m) (hlen : es.length ≤ maxLocation)
    (ha : a < es.length) (hbn : m.prunedToPos ≤ size a) (element : List Sym) :
    ∃ m', m.updateLeaf hasher a element = .ok m' ∧ m'.prunedToPos = m.prunedToPos := by
  have hal : ∀ update ∈ [(a, element)], update.1 < es.length ∧ m.prunedToPos ≤ size update.1 := by
    intro update hu
    rw [mem_singleton.1 hu]
    exact ⟨ha, hbn⟩
  obtain ⟨m', hm'⟩ := exists_updateLeafBatched hm hlen hal
  exact ⟨m', hm', (updateLeafBatched_holds hm hm').2⟩

def build (hasher : Hasher Sym D) (es : List (List Sym)) : Except Failure (DirtyMmr D) :=
  es.foldlM (fun m element => (m.add hasher element).map Prod.snd) MemMmr.new

theorem exists_build (hasher : Hasher Sym D) (hlen : es.length ≤ 2 ^ 62 + 1) :
    ∃ m, build hasher es = .ok m ∧ Reach hasher (.inl m) es ∧ m.prunedToPos = 0 := by
  induction es using reverseRecOn with
  | nil => exact ⟨MemMmr.new, rfl, Reach.new, rfl⟩
  | append_singleton es element ih =>
    rw [length_append, length_singleton] at hlen
    obtain ⟨m, hbl, hm, hpr⟩ := ih (by omega)
    obtain ⟨x, m', ha⟩ := exists_add hm.holds.1 (by omega) element
    refine ⟨m', ?_, hm.add ha, (add_holds hm.holds.1 ha).2.2.trans hpr⟩
    rw [build, foldlM_append]
    refine bind_eq_ok.2 ⟨m, hbl, ?_⟩
    rw [foldlM_cons, ha]
    rfl

theorem exists_range (hasher : Hasher Sym D) (hlen : es.length ≤ 2 ^ 62) :
    ∃ m : CleanMmr D, Reach hasher (.inr m) es ∧ m.prunedToPos = 0 := by
  obtain ⟨m, -, hm, hpr⟩ := exists_build hasher (hlen.trans (Nat.le_succ _))
  obtain ⟨m', hok, -, hpr'⟩ := merkleize_holds hm.holds.1 hlen
  exact ⟨m', hm.merkleize hok, hpr'.trans hpr⟩

end Commonware.Mmr
