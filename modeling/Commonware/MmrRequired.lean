/-
**The nodes that a proof needs.**

The generator of proofs computes the positions of the nodes that the verifier will ask for without
walking the mountains: the peaks of the mountains outside of the range, and the siblings on the
paths to the first and to the last leaf of the range, in the order of decreasing parents.  These are
the nodes that the verifier comes across, in the order in which it takes them from both ends of the
proof.

Main definitions:

* `required` — the nodes that the verifier asks for.

Main results:

* `nodesRequired_eq` — **the generator gives the nodes that the verifier asks for**;
* `required_nodup`, `mem_required` — they are different nodes of the range.
-/

import Commonware.MmrWalk

set_option autoImplicit false

namespace Commonware.Mmr

open MountainRange List

variable {s e n h q a k : ℕ}

/-- The nodes that a proof of the leaves from `s` to `e` gives, in its order. -/
def required (n s e : ℕ) : List (ℕ × ℕ) :=
  others s e (peaks n) ++ (along s e (siblings s e) (peaks n)).reverse

/-! ### Paths -/

def siblingItem (node : ℕ × ℕ) : ℕ × ℕ := (parentPos node, pos node.1 node.2)

theorem siblingItem_right : (siblingItem (h, 2 * q + 1)).1 = (siblingItem (h, 2 * q + 1)).2 + 1 := by
  simp only [siblingItem, parentPos_right]
  exact (pos_right h q).symm

theorem siblingItem_left : (siblingItem (h, 2 * q)).1 ≠ (siblingItem (h, 2 * q)).2 + 1 := by
  have hp := Nat.two_pow_pos h
  have hlf := pos_left h q
  simp only [siblingItem, parentPos_left]
  rw [pow_succ] at hlf
  omega

theorem pathIterator_succ : pathIterator (size a) (h + 1) (pos (h + 1) q) =
      if (2 * q + 1) * 2 ^ h ≤ a then
        siblingItem (h, 2 * q) :: pathIterator (size a) h (pos h (2 * q + 1))
      else siblingItem (h, 2 * q + 1) :: pathIterator (size a) h (pos h (2 * q)) := by
  rw [pathIterator, pos_sub_left, pos_sub_one]
  simp only [pos_lt_size_iff, siblingItem, parentPos_left, parentPos_right]

theorem div_right (ha : a / 2 ^ (h + 1) = q) (hc : (2 * q + 1) * 2 ^ h ≤ a) :
    a / 2 ^ h = 2 * q + 1 := by
  have hdv : a / 2 ^ h / 2 = q := by rw [Nat.div_div_eq_div_mul, ← pow_succ, ha]
  have hle := (Nat.le_div_iff_mul_le (Nat.two_pow_pos h)).2 hc
  omega

theorem div_left (ha : a / 2 ^ (h + 1) = q) (hc : ¬ (2 * q + 1) * 2 ^ h ≤ a) :
    a / 2 ^ h = 2 * q := by
  have hdv : a / 2 ^ h / 2 = q := by rw [Nat.div_div_eq_div_mul, ← pow_succ, ha]
  have hle : ¬ 2 * q + 1 ≤ a / 2 ^ h := by rwa [Nat.le_div_iff_mul_le (Nat.two_pow_pos h)]
  omega

theorem single_path (hs : s / 2 ^ h = q) :
    pathIterator (size s) h (pos h q) = (siblings s s h q).reverse.map siblingItem := by
  induction h generalizing q with
  | zero => rfl
  | succ h ih =>
    rw [pathIterator_succ, siblings]
    by_cases hc : (2 * q + 1) * 2 ^ h ≤ s
    · rw [if_pos hc, ih (div_right hs hc)]
      simp [hc, Nat.not_lt.2 hc]
    · rw [if_neg hc, ih (div_left hs hc)]
      simp [hc, Nat.lt_of_not_le hc]

/-- The left siblings on the path to the first leaf, if the range goes on behind the mountain. -/
theorem left_path (hs : s / 2 ^ h = q) (he : (q + 1) * 2 ^ h ≤ e + 1) :
    (pathIterator (size s) h (pos h q)).filter (fun item => decide (item.1 ≠ item.2 + 1)) =
      (siblings s e h q).reverse.map siblingItem := by
  induction h generalizing q with
  | zero => rfl
  | succ h ih =>
    have hh := leaves_halves h q
    have hr : (2 * q + 1) * 2 ^ h ≤ e := by omega
    rw [pathIterator_succ, siblings]
    by_cases hc : (2 * q + 1) * 2 ^ h ≤ s
    · rw [if_pos hc, filter_cons_of_pos (by simp [siblingItem_left]),
        ih (div_right hs hc) (by omega)]
      simp [hr, Nat.not_lt.2 hc]
    · rw [if_neg hc, filter_cons_of_neg (by simp [siblingItem_right]),
        ih (div_left hs hc) (by omega), @siblings_covered s e h (2 * q + 1) (by omega) (by omega)]
      simp [hr, Nat.lt_of_not_le hc]

/-- The right siblings on the path to the last leaf, if the range begins before the mountain. -/
theorem right_path (he : e / 2 ^ h = q) (hs : s ≤ q * 2 ^ h) :
    (pathIterator (size e) h (pos h q)).filter (fun item => decide (item.1 = item.2 + 1)) =
      (siblings s e h q).reverse.map siblingItem := by
  induction h generalizing q with
  | zero => rfl
  | succ h ih =>
    have hh := leaves_halves h q
    have hl : s < (2 * q + 1) * 2 ^ h := by omega
    rw [pathIterator_succ, siblings]
    by_cases hc : (2 * q + 1) * 2 ^ h ≤ e
    · rw [if_pos hc, filter_cons_of_neg (by simp [siblingItem_left]),
        ih (div_right he hc) (by omega), @siblings_covered s e h (2 * q) (by omega) (by omega)]
      simp [hc, hl]
    · rw [if_neg hc, filter_cons_of_pos (by simp [siblingItem_right]),
        ih (div_left he hc) (by omega)]
      simp [hc, hl]

theorem both_paths (hs : s / 2 ^ h = q) (he : e / 2 ^ h = q) (hse : s ≤ e) :
    ((pathIterator (size e) h (pos h q)).filter (fun item => decide (item.1 = item.2 + 1)) ++
      (pathIterator (size s) h (pos h q)).filter fun item => decide (item.1 ≠ item.2 + 1)).Perm
      ((siblings s e h q).reverse.map siblingItem) := by
  induction h generalizing q with
  | zero => exact List.Perm.refl _
  | succ h ih =>
    have hpw := Nat.two_pow_pos h
    rw [pathIterator_succ, pathIterator_succ, siblings]
    by_cases hcs : (2 * q + 1) * 2 ^ h ≤ s
    · -- both paths go to the right
      have hce : (2 * q + 1) * 2 ^ h ≤ e := by omega
      have hp := ih (div_right hs hcs) (div_right he hce)
      rw [if_pos hcs, if_pos hce, filter_cons_of_neg (by simp [siblingItem_left]),
        filter_cons_of_pos (by simp [siblingItem_left])]
      refine perm_middle.trans ?_
      simpa [hce, Nat.not_lt.2 hcs] using hp
    · by_cases hce : (2 * q + 1) * 2 ^ h ≤ e
      · -- the paths part
        have hsq := div_left hs hcs
        have heq := div_right he hce
        have hlo : s ≤ (2 * q + 1) * 2 ^ h := by omega
        have hhi : (2 * q + 1) * 2 ^ h ≤ e + 1 := by omega
        rw [if_neg hcs, if_pos hce, filter_cons_of_neg (by simp [siblingItem_left]),
          filter_cons_of_neg (by simp [siblingItem_right]), right_path heq hlo,
          left_path hsq hhi]
        simp [hce, Nat.lt_of_not_le hcs]
      · -- both paths go to the left
        have hp := ih (div_left hs hcs) (div_left he hce)
        rw [if_neg hcs, if_neg hce,
          filter_cons_of_pos (by simp [siblingItem_right]),
          filter_cons_of_neg (by simp [siblingItem_right])]
        simpa [hce, Nat.lt_of_not_le hcs] using hp

/-! ### Mountains -/

variable {nodes : List (ℕ × ℕ)}

theorem others_behind (hnd : ∀ node ∈ nodes, e < node.2 * 2 ^ node.1) :
    others s e nodes = nodes := by
  refine filter_eq_self.2 fun node hno => decide_eq_true fun hm => ?_
  have h₁ := hnd node hno
  have h₂ := hm.2
  omega

theorem along_behind (hnd : ∀ node ∈ nodes, e < node.2 * 2 ^ node.1)
    (walk : ℕ → ℕ → List (ℕ × ℕ)) : along s e walk nodes = [] := by
  rw [along, flatMap_eq_nil_iff]
  intro node hno
  rw [if_neg]
  intro hm
  have h₁ := hnd node hno
  have h₂ := hm.2
  omega

variable {node : ℕ × ℕ}

theorem others_cons : others s e (node :: nodes) =
      if Meets s e node.1 node.2 then others s e nodes else node :: others s e nodes := by
  rw [others, filter_cons]
  by_cases hm : Meets s e node.1 node.2 <;> simp [hm, others]

theorem along_cons (walk : ℕ → ℕ → List (ℕ × ℕ)) : along s e walk (node :: nodes) =
      (if Meets s e node.1 node.2 then walk node.1 node.2 else []) ++ along s e walk nodes := by
  rw [along, flatMap_cons]
  rfl

def nodePos (node : ℕ × ℕ) : ℕ := pos node.1 node.2

theorem map_fst_peakItem (nodes : List (ℕ × ℕ)) :
    (nodes.map peakItem).map Prod.fst = nodes.map nodePos := by
  rw [map_map]
  rfl

theorem findEndTree_eq (ht : Tiles n a nodes) (hs : s ≤ a) (he : a ≤ e) (hen : e < n) :
    ∃ h q, findEndTree (size e) (nodes.map peakItem) =
        (some (pos h q, h), (others s e nodes).map nodePos) ∧
      e / 2 ^ h = q ∧ s ≤ q * 2 ^ h ∧ (h, q) ∈ nodes ∧
      along s e (siblings s e) nodes = siblings s e h q := by
  induction ht with
  | nil => omega
  | @cons k r nodes hl hr ih =>
    have hlt : r * 2 ^ k < (r + 1) * 2 ^ k :=
      Nat.mul_lt_mul_of_pos_right r.lt_succ_self (Nat.two_pow_pos k)
    have hm : Meets s e k r := ⟨by omega, he⟩
    rw [map_cons, others_cons, if_pos hm, along_cons, if_pos hm, findEndTree]
    simp only [peakItem, size_le_pos_iff]
    by_cases hin : e < (r + 1) * 2 ^ k
    · have hbh : ∀ node ∈ nodes, e < node.2 * 2 ^ node.1 :=
        fun node hnd => hin.trans_le (hr.start_le node hnd)
      refine ⟨k, r, ?_, Nat.div_eq_of_lt_le he hin, hs, mem_cons_self, ?_⟩
      · rw [if_pos hin, others_behind hbh, map_fst_peakItem]
      · rw [along_behind hbh, append_nil]
    · obtain ⟨h, q, hf, hq, hsq, hmem, hal⟩ := ih (by omega) (by omega)
      refine ⟨h, q, ?_, hq, hsq, mem_cons_of_mem _ hmem, ?_⟩
      · rw [if_neg hin]
        exact hf
      · rw [siblings_covered hs (by omega), nil_append, hal]

theorem findTrees_eq (ht : Tiles n a nodes) (hs : a ≤ s) (hse : s ≤ e) (hen : e < n) :
    ∃ h q h' q', findTrees (size s) (size e) (nodes.map peakItem) =
        (some (pos h q, h), some (pos h' q', h'), (others s e nodes).map nodePos) ∧
      s / 2 ^ h = q ∧ e / 2 ^ h' = q' ∧
      (h = h' ∧ q = q' ∧ along s e (siblings s e) nodes = siblings s e h q ∨
        h' < h ∧ (q + 1) * 2 ^ h ≤ e ∧ s ≤ q' * 2 ^ h' ∧
        along s e (siblings s e) nodes = siblings s e h q ++ siblings s e h' q') := by
  induction ht with
  | nil => omega
  | @cons k r nodes hl hr ih =>
    rw [map_cons, others_cons, along_cons, findTrees]
    simp only [peakItem, size_le_pos_iff]
    by_cases hin : s < (r + 1) * 2 ^ k
    · have hm : Meets s e k r := ⟨hin, by omega⟩
      have hsr : s / 2 ^ k = r := Nat.div_eq_of_lt_le hs hin
      rw [if_pos hin]
      simp only [if_pos hm]
      by_cases hin' : e < (r + 1) * 2 ^ k
      · have hbh : ∀ node ∈ nodes, e < node.2 * 2 ^ node.1 :=
          fun node hnd => hin'.trans_le (hr.start_le node hnd)
        refine ⟨k, r, k, r, ?_, hsr, Nat.div_eq_of_lt_le (by omega) hin',
          Or.inl ⟨rfl, rfl, ?_⟩⟩
        · rw [if_pos hin', others_behind hbh, map_fst_peakItem]
        · rw [along_behind hbh, append_nil]
      · obtain ⟨h', q', hf, hq', hsq, hmem, hal⟩ :=
          findEndTree_eq hr hin.le (Nat.not_lt.1 hin') hen
        refine ⟨k, r, h', q', ?_, hsr, hq', Or.inr ⟨hl _ hmem, by omega, hsq, ?_⟩⟩
        · rw [if_neg hin', hf]
        · rw [hal]
    · have hm : ¬ Meets s e k r := fun hm => hin hm.1
      obtain ⟨h, q, h', q', hf, hq, hq', hcs⟩ := ih (by omega)
      rw [if_neg hin]
      simp only [if_neg hm, nil_append]
      refine ⟨h, q, h', q', ?_, hq, hq', hcs⟩
      rw [hf]
      rfl

/-! ### Required nodes -/

theorem mergeSort_siblings {items : List (ℕ × ℕ)} (hse : s ≤ e)
    (hp : items.Perm ((siblings s e h q).reverse.map siblingItem)) :
    items.mergeSort (fun a b => decide (b.1 ≤ a.1)) =
      (siblings s e h q).reverse.map siblingItem := by
  have hsr : ((siblings s e h q).reverse.map siblingItem).Pairwise fun a b => b.1 < a.1 := by
    rw [pairwise_map, pairwise_reverse]
    exact siblings_sorted hse
  have hnd : (((siblings s e h q).reverse.map siblingItem).map Prod.fst).Nodup :=
    pairwise_map.2 (hsr.imp fun hlt => (ne_of_lt hlt).symm)
  refine List.Perm.eq_of_pairwise ?_ ?_ (hsr.imp fun hlt => le_of_lt hlt)
    ((mergeSort_perm _ _).trans hp)
  · -- the parents determine the siblings
    intro a b ha hb hab hba
    exact inj_on_of_nodup_map hnd (hp.subset (mem_mergeSort.1 ha)) hb
      (le_antisymm hba hab)
  · refine (pairwise_mergeSort ?_ ?_ items).imp ?_
    · intro a b c hab hbc
      simp only [decide_eq_true_eq] at *
      omega
    · intro a b
      simp only [Bool.or_eq_true, decide_eq_true_eq]
      omega
    · intro a b hab
      exact of_decide_eq_true hab

theorem map_snd_siblingItem (nodes : List (ℕ × ℕ)) :
    (nodes.map siblingItem).map Prod.snd = nodes.map nodePos := by
  rw [map_map]
  rfl

/-- **The generator gives the nodes that the verifier asks for.** -/
theorem nodesRequired_eq (hn : n ≤ 2 ^ 62) (hse : s ≤ e) (hen : e < n) :
    nodesRequiredForRangeProof (size n) s (e + 1) = .ok ((required n s e).map nodePos) := by
  have hem : ¬ e + 1 ≤ s := by omega
  have hm : e ≤ maxLocation := by
    unfold maxLocation
    omega
  have hin : ¬ size n ≤ size e := by
    rw [size_le_size_iff]
    omega
  obtain ⟨h, q, h', q', hf, hs, he, hcs⟩ := findTrees_eq (tiles_peaks n) s.zero_le hse hen
  rw [nodesRequiredForRangeProof, Position.isMmrSize_size hn, if_neg hem,
    Position.tryFrom_eq (hse.trans hm), Nat.add_sub_cancel, Position.tryFrom_eq hm,
    peakIterator_size hn]
  simp only [bind, Except.bind, if_neg hin, Option.getD_some, Bool.true_eq_false, if_false]
  rw [hf]
  simp only [Except.ok.injEq, required, map_append]
  refine congrArg (_ ++ ·) ?_
  rw [pathSiblings]
  rcases hcs with ⟨rfl, rfl, hal⟩ | ⟨hlt, hed, hbg, hal⟩
  · rw [hal]
    by_cases heq : s = e
    · subst heq
      rw [if_pos rfl, single_path hs, map_snd_siblingItem]
    · have hne : size s ≠ size e := fun h => heq (size_inj.1 h)
      simp only [if_neg hne, if_true]
      rw [mergeSort_siblings hse (both_paths hs he hse), map_snd_siblingItem]
  · -- the range covers the mountains between the first and the last one
    have hne : size s ≠ size e := by
      intro heq
      obtain rfl := size_inj.1 heq
      have hlt' := lt_block_end s h
      rw [hs] at hlt'
      omega
    have hne' : pos h q ≠ pos h' q' := fun heq => by
      have := (pos_inj heq).1
      omega
    rw [hal]
    simp only [if_neg hne, if_neg hne']
    rw [left_path hs (hed.trans (Nat.le_succ e)), right_path he hbg, map_append, map_snd_siblingItem,
      map_snd_siblingItem, reverse_append, map_append]

/-! ### The required nodes are different -/

theorem parentPos_of_mem_along (ht : Tiles n a nodes)
    (hmem : node ∈ along s e (siblings s e) nodes) : size a ≤ parentPos node := by
  obtain ⟨⟨h, q⟩, hpk, hin⟩ := mem_flatMap.1 hmem
  split_ifs at hin with hm
  · exact (size_le_size_iff.2 (ht.start_le _ hpk)).trans (parentPos_bounds hin).1
  · cases hin

theorem along_sorted (hse : s ≤ e) (ht : Tiles n a nodes) :
    (along s e (siblings s e) nodes).Pairwise fun a b => parentPos a < parentPos b := by
  induction ht with
  | nil => exact List.Pairwise.nil
  | cons _ hr ih =>
    rw [along_cons]
    refine pairwise_append.2 ⟨?_, ih, ?_⟩
    · split_ifs with hm
      · exact siblings_sorted hse
      · exact List.Pairwise.nil
    · intro a ha b hb
      split_ifs at ha with hm
      · exact ((parentPos_bounds ha).2.trans_lt (pos_lt_size _ _)).trans_le
          (parentPos_of_mem_along hr hb)
      · cases ha

theorem mem_required (hmem : (h, q) ∈ required n s e) :
    (q + 1) * 2 ^ h ≤ n ∧ ((h, q) ∈ peaks n ∧ ¬ Meets s e h q ∨
      (q / 2 + 1) * 2 ^ (h + 1) ≤ n ∧ Meets s e (h + 1) (q / 2) ∧
        (q % 2 = 0 ∧ (q + 1) * 2 ^ h ≤ s ∨ q % 2 = 1 ∧ e < q * 2 ^ h)) := by
  rcases mem_append.1 hmem with hin | hin
  · obtain ⟨hpk, hm⟩ := mem_filter.1 hin
    exact ⟨peak_end_le hpk, Or.inl ⟨hpk, of_decide_eq_true hm⟩⟩
  · obtain ⟨⟨h', q'⟩, hpk, hin⟩ := mem_flatMap.1 (mem_reverse.1 hin)
    split_ifs at hin with hm
    · obtain ⟨hlt, hlo, hhi, hmt, hsd⟩ := mem_siblings hm hin
      refine ⟨hhi.trans (peak_end_le hpk), Or.inr ⟨?_, hmt, hsd⟩⟩
      -- the parent is in the same mountain
      obtain ⟨j, rfl⟩ : ∃ j, h' = h + 1 + j := ⟨h' - h - 1, by omega⟩
      have hp : (q / 2 + 1) * 2 ^ (h + 1) ≤ (q' + 1) * 2 ^ (h + 1 + j) := by
        have e₁ : (q' + 1) * 2 ^ (h + 1 + j) = (q' + 1) * 2 ^ j * 2 * 2 ^ h := by ring
        have e₂ : (q / 2 + 1) * 2 ^ (h + 1) = (q / 2 + 1) * 2 * 2 ^ h := by ring
        rw [e₁] at hhi ⊢
        rw [e₂]
        have hq := Nat.le_of_mul_le_mul_right hhi (Nat.two_pow_pos h)
        exact Nat.mul_le_mul_right _ (by omega)
      exact hp.trans (peak_end_le hpk)
    · cases hin

theorem required_nodup (hse : s ≤ e) : (required n s e).Nodup := by
  refine nodup_append.2 ⟨(filter_sublist).nodup (tiles_peaks n).nodup, ?_, ?_⟩
  · exact nodup_reverse.2 ((along_sorted hse (tiles_peaks n)).imp fun hlt heq => by
      rw [heq] at hlt
      exact lt_irrefl _ hlt)
  · -- the parent of a peak is not in the range
    rintro ⟨h, q⟩ hin _ hin' rfl
    obtain ⟨⟨h', q'⟩, hpk, hmem⟩ := mem_flatMap.1 (mem_reverse.1 hin')
    split_ifs at hmem with hm
    · have hlt := (parentPos_bounds hmem).2.trans_lt (pos_lt_size_iff.2 (peak_end_le hpk))
      exact (lt_parent_of_peak (mem_filter.1 hin).1).not_ge (pos_lt_size_iff.1 hlt)
    · cases hmem

end Commonware.Mmr
