/-
**Trees of pairs.**

The values of a level are combined in pairs to the values of the next level, and a value that is left
over is combined with itself.  After enough levels one value is left.

Main definitions:

* `PairTree.pairUp` — the next level;
* `PairTree.tower` — all levels up to the first one with a single value.

Main results:

* `PairTree.getElem?_pairUp` — what stands at a place of the next level;
* `PairTree.tower_spec` — **the levels of a tower**.
-/

import Mathlib

set_option autoImplicit false

namespace PairTree

open List

variable {D : Type*} (combine : D → D → D)

/-- The next level. -/
def pairUp : List D → List D
  | [] => []
  | [a] => [combine a a]
  | a :: b :: rest => combine a b :: pairUp rest

/-- The levels from `level` on, up to the first one with a single value. -/
def tower : ℕ → List D → List (List D)
  | 0, level => [level]
  | fuel + 1, level =>
    if level.length = 1 then [level] else level :: tower fuel (pairUp combine level)

variable {combine}

theorem length_pairUp (l : List D) : (pairUp combine l).length = (l.length + 1) / 2 := by
  induction l using pairUp.induct with
  | case1 | case2 => simp [pairUp]
  | case3 a b rest ih =>
    rw [pairUp, length_cons, ih, length_cons, length_cons]
    omega

/-- **What stands at a place of the next level.** -/
theorem getElem?_pairUp (l : List D) (i : ℕ) : (pairUp combine l)[i]? =
      l[2 * i]?.map fun a => combine a (l[2 * i + 1]?.getD a) := by
  induction l using pairUp.induct generalizing i with
  | case1 => simp [pairUp]
  | case2 a =>
    cases i with
    | zero => simp [pairUp]
    | succ i => simp [pairUp, Nat.mul_succ]
  | case3 a b rest ih =>
    cases i with
    | zero => simp [pairUp]
    | succ i =>
      have hlf : 2 * (i + 1) = 2 * i + 1 + 1 := by omega
      have hrg : 2 * (i + 1) + 1 = 2 * i + 1 + 1 + 1 := by omega
      rw [pairUp, List.getElem?_cons_succ, ih, hlf]
      simp only [List.getElem?_cons_succ]

variable {l : List D}

/-- The values of the next level. -/
theorem exists_of_mem_pairUp {d : D} (h : d ∈ pairUp combine l) :
    ∃ a ∈ l, ∃ b ∈ l, d = combine a b := by
  obtain ⟨i, hi⟩ := mem_iff_getElem?.1 h
  rw [getElem?_pairUp, Option.map_eq_some_iff] at hi
  obtain ⟨a, ha, rfl⟩ := hi
  have hmem := mem_of_getElem? ha
  cases hb : l[2 * i + 1]? with
  | none => exact ⟨a, hmem, a, hmem, rfl⟩
  | some b => exact ⟨a, hmem, b, mem_of_getElem? hb, rfl⟩

/-- A level that has become short. -/
theorem length_iterate_le_one {m : ℕ} (h : l.length ≤ 2 ^ m) :
    ((pairUp combine)^[m] l).length ≤ 1 := by
  induction m generalizing l with
  | zero => simpa using h
  | succ m ih =>
    rw [Function.iterate_succ_apply]
    refine ih ?_
    rw [length_pairUp]
    rw [Nat.pow_succ] at h
    omega

theorem headD_tower (fuel : ℕ) (l : List D) : (tower combine fuel l).headD [] = l := by
  cases fuel with
  | zero => rfl
  | succ fuel =>
    rw [tower]
    split_ifs
    · rfl
    · rfl

/-- **The levels of a tower**: they follow each other, and only the last one has a single value. -/
theorem tower_spec {fuel : ℕ} (hne : l ≠ []) (hf : l.length ≤ fuel + 1) :
    ∃ h, tower combine fuel l = (List.range (h + 1)).map (fun k => (pairUp combine)^[k] l) ∧
      ((pairUp combine)^[h] l).length = 1 ∧ ∀ k < h, ((pairUp combine)^[k] l).length ≠ 1 := by
  have hp := length_pos_iff.2 hne
  induction fuel generalizing l with
  | zero => exact ⟨0, rfl, by simpa using Nat.le_antisymm hf hp, by simp⟩
  | succ fuel ih =>
    rw [tower]
    by_cases hone : l.length = 1
    · exact ⟨0, by simp [hone], hone, by simp⟩
    · have hlen : (pairUp combine l).length = (l.length + 1) / 2 := length_pairUp l
      have hp' : 0 < (pairUp combine l).length := by omega
      obtain ⟨h, ht, hls, hbf⟩ :=
        ih (length_pos_iff.1 hp') (by omega) hp'
      refine ⟨h + 1, ?_, hls, ?_⟩
      · have hrn : List.range (h + 1 + 1) = 0 :: (List.range (h + 1)).map Nat.succ :=
          range_succ_eq_map
        rw [if_neg hone, ht, hrn, map_cons, map_map]
        rfl
      · intro k hk
        cases k with
        | zero => exact hone
        | succ k => exact hbf k (by omega)

end PairTree
