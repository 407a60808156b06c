/-
**Walks over a range of leaves.**

To compute the digest of a tree from a range of its leaves one descends into the nodes that are over
leaves of the range; the other children on the way, the siblings, have to be known.  This module
says which leaves and which siblings such a walk comes across, and in which order.

Main definitions:

* `MountainRange.Meets` — a node is over a leaf of the range;
* `MountainRange.leaves`, `MountainRange.siblings`, `MountainRange.entered`, `MountainRange.met` —
  what a walk comes across.

Main results:

* `MountainRange.leavesBelow_peaks` — **the walks over all mountains pass the leaves of the range
  in order, each once**;
* `MountainRange.mem_siblings` — a sibling is a left child before the range, or a right one behind.
-/

import Commonware.MountainRange

set_option autoImplicit false

namespace MountainRange

open List

variable (s e : ℕ)

/-- The node is over one of the leaves from `s` to `e`. -/
def Meets (h q : ℕ) : Prop := s < (q + 1) * 2 ^ h ∧ q * 2 ^ h ≤ e

instance (h q : ℕ) : Decidable (Meets s e h q) := inferInstanceAs (Decidable (_ ∧ _))

/-! ### What a walk comes across -/

def leaves : ℕ → ℕ → List ℕ
  | 0, q => [q]
  | h + 1, q =>
    (if s < (2 * q + 1) * 2 ^ h then leaves h (2 * q) else []) ++
      if (2 * q + 1) * 2 ^ h ≤ e then leaves h (2 * q + 1) else []

/-- The children that the walk does not enter, in the order of their parents. -/
def siblings : ℕ → ℕ → List (ℕ × ℕ)
  | 0, _ => []
  | h + 1, q =>
    (if s < (2 * q + 1) * 2 ^ h then siblings h (2 * q) else []) ++
      (if (2 * q + 1) * 2 ^ h ≤ e then siblings h (2 * q + 1) else []) ++
      (if s < (2 * q + 1) * 2 ^ h then [] else [(h, 2 * q)]) ++
      if (2 * q + 1) * 2 ^ h ≤ e then [] else [(h, 2 * q + 1)]

/-- The nodes that are not leaves and that the walk enters, as the heights of their children and
their own indices. -/
def entered : ℕ → ℕ → List (ℕ × ℕ)
  | 0, _ => []
  | h + 1, q =>
    (if s < (2 * q + 1) * 2 ^ h then entered h (2 * q) else []) ++
      (if (2 * q + 1) * 2 ^ h ≤ e then entered h (2 * q + 1) else []) ++ [(h, q)]

/-- The children of these nodes, in the order in which the walk knows their digests. -/
def met : ℕ → ℕ → List (ℕ × ℕ)
  | 0, _ => []
  | h + 1, q =>
    (if s < (2 * q + 1) * 2 ^ h then met h (2 * q) else []) ++
      (if (2 * q + 1) * 2 ^ h ≤ e then met h (2 * q + 1) else []) ++ [(h, 2 * q), (h, 2 * q + 1)]

variable {s e} {h q n : ℕ}

/-! ### Entering the children -/

theorem Meets.left (hm : Meets s e (h + 1) q) (hl : s < (2 * q + 1) * 2 ^ h) :
    Meets s e h (2 * q) := by
  refine ⟨hl, ?_⟩
  rw [← (leaves_halves h q).1]
  exact hm.2

theorem Meets.right (hm : Meets s e (h + 1) q) (hr : (2 * q + 1) * 2 ^ h ≤ e) :
    Meets s e h (2 * q + 1) := by
  refine ⟨?_, hr⟩
  rw [← (leaves_halves h q).2.2.2.1]
  exact hm.1

/-- A walk enters one of the children at least. -/
theorem left_or_right (hse : s ≤ e) :
    s < (2 * q + 1) * 2 ^ h ∨ (2 * q + 1) * 2 ^ h ≤ e := by omega

/-! ### Leaves -/

theorem leaves_eq (hse : s ≤ e) (hm : Meets s e h q) : leaves s e h q =
      List.range' (max s (q * 2 ^ h)) (min (e + 1) ((q + 1) * 2 ^ h) - max s (q * 2 ^ h)) := by
  induction h generalizing q with
  | zero =>
    obtain ⟨h₁, h₂⟩ := hm
    rw [pow_zero, mul_one] at *
    have hmx : max s q = q := by omega
    have hlen : min (e + 1) (q + 1) - q = 1 := by omega
    rw [leaves, hmx, mul_one, hlen]
    rfl
  | succ h ih =>
    obtain ⟨h₁, h₂⟩ := id hm
    obtain ⟨e₁, hmd, he, e₂, hp⟩ := leaves_halves h q
    rw [leaves, e₁, e₂]
    rw [e₂] at h₁
    rw [e₁] at h₂
    split_ifs with hl hr hr
    · rw [ih (hm.left hl), ih (hm.right hr)]
      -- the first part ends where the second one begins
      generalize 2 * q * 2 ^ h = A at *
      generalize (2 * q + 1) * 2 ^ h = B at *
      generalize (2 * q + 1 + 1) * 2 ^ h = C at *
      have hB : max s B = max s A + (min (e + 1) B - max s A) := by omega
      rw [hB, List.range'_append_1]
      congr 1
      omega
    · rw [ih (hm.left hl), append_nil]
      congr 1
      omega
    · rw [ih (hm.right hr), nil_append]
      congr 1 <;> omega
    · omega

/-- What the walks from the nodes of a list come across. -/
def along {α : Type} (s e : ℕ) (walk : ℕ → ℕ → List α) (nodes : List (ℕ × ℕ)) : List α :=
  nodes.flatMap fun node => if Meets s e node.1 node.2 then walk node.1 node.2 else []

/-- The leaves of the range below the nodes of a list. -/
abbrev leavesBelow (s e : ℕ) (nodes : List (ℕ × ℕ)) : List ℕ := along s e (leaves s e) nodes

/-- The nodes that the walks from the nodes of a list know, with the nodes of the list. -/
def metBelow (s e : ℕ) (nodes : List (ℕ × ℕ)) : List (ℕ × ℕ) :=
  nodes.flatMap fun node => (if Meets s e node.1 node.2 then met s e node.1 node.2 else []) ++ [node]

/-- **The siblings of a part of the range** are known after a walk over the range. -/
theorem siblings_subset_met {s' e' : ℕ} (hs : s ≤ s') (he : e' ≤ e) :
    siblings s' e' h q ⊆ met s e h q := by
  induction h generalizing q with
  | zero => exact nil_subset _
  | succ h ih =>
    intro node hnd
    simp only [siblings, met, mem_append, mem_ite_nil_left, mem_ite_nil_right, mem_pair,
      mem_singleton] at hnd ⊢
    rcases hnd with ((⟨hl, hnd⟩ | ⟨hr, hnd⟩) | ⟨-, rfl⟩) | ⟨-, rfl⟩
    · exact .inl (.inl ⟨hs.trans_lt hl, ih hnd⟩)
    · exact .inl (.inr ⟨hr.trans he, ih hnd⟩)
    · exact .inr (.inl rfl)
    · exact .inr (.inr rfl)

theorem leavesBelow_eq {a : ℕ} {nodes : List (ℕ × ℕ)} (hse : s ≤ e) (he : e < n)
    (ht : Tiles n a nodes) : leavesBelow s e nodes = List.range' (max s a) (e + 1 - max s a) := by
  induction ht with
  | nil =>
    have hlen : e + 1 - max s n = 0 := by omega
    rw [hlen]
    rfl
  | @cons k p nodes hl hr ih =>
    have hlt : p * 2 ^ k < (p + 1) * 2 ^ k :=
      Nat.mul_lt_mul_of_pos_right p.lt_succ_self (Nat.two_pow_pos k)
    rw [leavesBelow, along, flatMap_cons, ← along, ← leavesBelow, ih]
    simp only
    by_cases hm : Meets s e k p
    · rw [if_pos hm, leaves_eq hse hm]
      obtain ⟨h₁, h₂⟩ := hm
      generalize p * 2 ^ k = A at *
      generalize (p + 1) * 2 ^ k = B at *
      by_cases hB : B ≤ e
      · have heq : max s B = max s A + (min (e + 1) B - max s A) := by omega
        rw [heq, List.range'_append_1]
        congr 1
        omega
      · have hlen : e + 1 - max s B = 0 := by omega
        rw [hlen, List.range'_zero, append_nil]
        congr 1
        omega
    · rw [if_neg hm, nil_append]
      rw [Meets, not_and_or] at hm
      rcases hm with hm | hm
      · have heq : max s ((p + 1) * 2 ^ k) = max s (p * 2 ^ k) := by omega
        rw [heq]
      · have h₁ : e + 1 - max s ((p + 1) * 2 ^ k) = 0 := by omega
        have h₂ : e + 1 - max s (p * 2 ^ k) = 0 := by omega
        rw [h₁, h₂]
        rfl

/-- **The walks over all mountains pass the leaves of the range in order, each once.** -/
theorem leavesBelow_peaks (hse : s ≤ e) (he : e < n) :
    leavesBelow s e (peaks n) = List.range' s (e + 1 - s) := by
  rw [leavesBelow_eq hse he (tiles_peaks n), Nat.max_zero]

/-! ### Siblings -/

/-- A sibling is a left child before the range, or a right one behind it; its parent meets the
range. -/
theorem mem_siblings {h' q' : ℕ} (hm : Meets s e h q) (hmem : (h', q') ∈ siblings s e h q) :
    h' < h ∧ q * 2 ^ h ≤ q' * 2 ^ h' ∧ (q' + 1) * 2 ^ h' ≤ (q + 1) * 2 ^ h ∧
      Meets s e (h' + 1) (q' / 2) ∧
      (q' % 2 = 0 ∧ (q' + 1) * 2 ^ h' ≤ s ∨ q' % 2 = 1 ∧ e < q' * 2 ^ h') := by
  induction h generalizing q with
  | zero => simp [siblings] at hmem
  | succ h ih =>
    have hh := leaves_halves h q
    rw [siblings] at hmem
    simp only [mem_append] at hmem
    rcases hmem with ((hin | hin) | hin) | hin <;> split_ifs at hin with hc
    · obtain ⟨hlt, hlo, hhi, hr⟩ := ih (hm.left hc) hin
      exact ⟨by omega, by omega, by omega, hr⟩
    · simp at hin
    · obtain ⟨hlt, hlo, hhi, hr⟩ := ih (hm.right hc) hin
      exact ⟨by omega, by omega, by omega, hr⟩
    · simp at hin
    · simp at hin
    · obtain ⟨rfl, rfl⟩ : h' = h ∧ q' = 2 * q := by simpa using hin
      have hdv : 2 * q / 2 = q := by omega
      rw [hdv]
      exact ⟨by omega, by omega, by omega, hm, Or.inl ⟨by omega, by omega⟩⟩
    · simp at hin
    · obtain ⟨rfl, rfl⟩ : h' = h ∧ q' = 2 * q + 1 := by simpa using hin
      have hdv : (2 * q + 1) / 2 = q := by omega
      rw [hdv]
      exact ⟨by omega, by omega, by omega, hm, Or.inr ⟨by omega, by omega⟩⟩

/-- A left child before the range is a sibling, if its parent has the first leaf of the range. -/
theorem mem_siblings_of_left {h' r : ℕ} (hse : s ≤ e) (hs : s / 2 ^ h = q) (hlt : h' < h)
    (hlo : (2 * r + 1) * 2 ^ h' ≤ s) (hhi : s < (2 * r + 1 + 1) * 2 ^ h') :
    (h', 2 * r) ∈ siblings s e h q := by
  induction h generalizing q with
  | zero => omega
  | succ h ih =>
    have hdv : s / 2 ^ h / 2 = q := by rw [Nat.div_div_eq_div_mul, ← pow_succ, hs]
    have hm : (2 * q + 1) * 2 ^ h ≤ s ↔ s / 2 ^ h = 2 * q + 1 := by
      rw [← Nat.le_div_iff_mul_le (Nat.two_pow_pos h)]
      omega
    rw [siblings]
    simp only [mem_append]
    rcases Nat.eq_or_lt_of_le (Nat.le_of_lt_succ hlt) with rfl | hlt'
    · have hr : s / 2 ^ h' = 2 * r + 1 := Nat.div_eq_of_lt_le hlo hhi
      obtain rfl : r = q := by omega
      refine Or.inl (Or.inr ?_)
      rw [if_neg (Nat.not_lt.2 hlo)]
      exact mem_singleton_self _
    · by_cases hsd : (2 * q + 1) * 2 ^ h ≤ s
      · rw [if_pos (hsd.trans hse)]
        exact Or.inl (Or.inl (Or.inr (ih (hm.1 hsd) hlt')))
      · rw [if_pos (Nat.lt_of_not_le hsd)]
        have hq : s / 2 ^ h = 2 * q := by
          rw [hm] at hsd
          omega
        exact Or.inl (Or.inl (Or.inl (ih hq hlt')))

/-- Below a node whose leaves are all in the range there is no sibling. -/
theorem siblings_covered (hs : s ≤ q * 2 ^ h) (he : (q + 1) * 2 ^ h ≤ e + 1) :
    siblings s e h q = [] := by
  induction h generalizing q with
  | zero => rfl
  | succ h ih =>
    have hh := leaves_halves h q
    have hl : s < (2 * q + 1) * 2 ^ h := by omega
    have hr : (2 * q + 1) * 2 ^ h ≤ e := by omega
    rw [siblings]
    simp only [if_pos hl, if_pos hr]
    rw [ih (by omega) (by omega), ih (by omega) (by omega)]
    rfl

def parentPos (node : ℕ × ℕ) : ℕ := pos (node.1 + 1) (node.2 / 2)

theorem parentPos_left : parentPos (h, 2 * q) = pos (h + 1) q := by
  have hdv : 2 * q / 2 = q := by omega
  rw [parentPos, hdv]

theorem parentPos_right : parentPos (h, 2 * q + 1) = pos (h + 1) q := by
  have hdv : (2 * q + 1) / 2 = q := by omega
  rw [parentPos, hdv]

theorem parentPos_bounds {node : ℕ × ℕ} (hmem : node ∈ siblings s e h q) :
    size (q * 2 ^ h) ≤ parentPos node ∧ parentPos node ≤ pos h q := by
  induction h generalizing q with
  | zero => simp [siblings] at hmem
  | succ h ih =>
    have hon : size (q * 2 ^ (h + 1)) ≤ pos (h + 1) q := by
      rw [size_le_pos_iff]
      exact Nat.mul_lt_mul_of_pos_right (Nat.lt_succ_self q) (Nat.two_pow_pos _)
    have hh := leaves_halves h q
    have hm : size (q * 2 ^ (h + 1)) ≤ size ((2 * q + 1) * 2 ^ h) :=
      size_le_size_iff.2 (by omega)
    have hrg := pos_right h q
    have hlf := pos_left h q
    rw [siblings] at hmem
    simp only [mem_append] at hmem
    rcases hmem with ((hin | hin) | hin) | hin <;> split_ifs at hin with hc
    · have := ih hin
      have hp := Nat.two_pow_pos (h + 1)
      rw [← hh.1] at this
      omega
    · simp at hin
    · have := ih hin
      omega
    · simp at hin
    · simp at hin
    · rw [mem_singleton.1 hin, parentPos_left]
      exact ⟨hon, le_rfl⟩
    · simp at hin
    · rw [mem_singleton.1 hin, parentPos_right]
      exact ⟨hon, le_rfl⟩

theorem siblings_sorted (hse : s ≤ e) :
    (siblings s e h q).Pairwise fun a b => parentPos a < parentPos b := by
  induction h generalizing q with
  | zero => exact List.Pairwise.nil
  | succ h ih =>
    have hrg := pos_right h q
    have hlf := pos_lt_size h (2 * q)
    have hi : ∀ {c : Prop} [Decidable c] {l : List (ℕ × ℕ)},
        l.Pairwise (fun a b => parentPos a < parentPos b) →
          (if c then l else []).Pairwise fun a b => parentPos a < parentPos b := by
      intro c _ l hl
      split_ifs
      · exact hl
      · exact List.Pairwise.nil
    rw [siblings, append_assoc]
    refine pairwise_append.2 ⟨pairwise_append.2 ⟨hi ih, hi ih, fun a ha b hb => ?_⟩, ?_,
      fun a ha b hb => ?_⟩
    · rw [mem_ite_nil_right] at ha hb
      have h₁ := (parentPos_bounds ha.2).2
      have h₂ := (parentPos_bounds hb.2).1
      omega
    · -- not both children are siblings
      rcases left_or_right (h := h) (q := q) hse with hc | hc
      · rw [if_pos hc, nil_append, ← ite_not]
        exact hi (pairwise_singleton _ _)
      · rw [if_pos hc, append_nil, ← ite_not]
        exact hi (pairwise_singleton _ _)
    · have hp : parentPos b = pos (h + 1) q := by
        rcases mem_append.1 hb with hb | hb <;> rw [mem_ite_nil_left, mem_singleton] at hb
        · rw [hb.2, parentPos_left]
        · rw [hb.2, parentPos_right]
      have hg := pos_left h q
      have hpw := Nat.two_pow_pos (h + 1)
      rw [hp]
      rcases mem_append.1 ha with ha | ha <;> rw [mem_ite_nil_right] at ha
      · have := (parentPos_bounds ha.2).2
        omega
      · have := (parentPos_bounds ha.2).2
        omega

/-! ### Entered nodes -/

end MountainRange
