/-
**Finding faulty items by sums.**

Items carry an error, an element of a group, and a range of items can only be tested as a whole: it
passes when its errors sum to zero.  Bisection tests a list, and as long as a range fails it tests
the two halves.  A single item that fails is faulty.

The converse is not true, since errors can cancel.  An item is found exactly when no range of the
bisection that contains it passes.

Main definitions:

* `Bisection.search` — the search, with a stack of ranges that are still to be tested;
* `Bisection.failures` — the same search as a recursion over halves;
* `Bisection.Range` — the ranges that bisection can come to test;
* `Bisection.Exposed` — every range with this item fails.

Main results:

* `Bisection.search_eq` — the stack computes the recursion;
* `Bisection.mem_failures_iff` — **what is found are the exposed items**;
* `Bisection.Exposed.ne_zero` — an item that is found is faulty.
-/

import Mathlib

set_option autoImplicit false

namespace Bisection

open List

variable {α G : Type}

/-! ### The search -/

/-- The tests that a range of `n` items may need. -/
def cost (n : ℕ) : ℕ := if n = 0 then 1 else 2 * n - 1

theorem cost_pos (n : ℕ) : 0 < cost n := by
  unfold cost
  split <;> omega

/-- Halving a range saves one test. -/
theorem cost_halves {n : ℕ} (h : 2 ≤ n) : cost (n / 2) + cost (n - n / 2) < cost n := by
  unfold cost
  split_ifs <;> omega

/-- Test the ranges on a stack, and the halves of those that fail. -/
def search (ok : List α → Bool) : List (List α) → List α → List α
  | [], found => found
  | slice :: stack, found =>
    if slice.isEmpty then search ok stack found
    else if ok slice then search ok stack found
    else if slice.length ≤ 1 then search ok stack (found ++ slice)
    else
      let mid := slice.length / 2
      search ok (slice.take mid :: slice.drop mid :: stack) found
termination_by stack => (stack.map fun slice => cost slice.length).sum
decreasing_by
  · have := cost_pos slice.length
    simp only [map_cons, sum_cons]
    omega
  · have := cost_pos slice.length
    simp only [map_cons, sum_cons]
    omega
  · have := cost_pos slice.length
    simp only [map_cons, sum_cons]
    omega
  · have := cost_halves (n := slice.length) (by omega)
    simp only [map_cons, sum_cons, length_take, length_drop]
    rw [Nat.min_eq_left (Nat.div_le_self _ 2)]
    omega

/-- The items that are found in a range. -/
def failures (ok : List α → Bool) (l : List α) : List α :=
  if l.isEmpty then []
  else if ok l then []
  else if l.length ≤ 1 then l
  else failures ok (l.take (l.length / 2)) ++ failures ok (l.drop (l.length / 2))
termination_by l.length
decreasing_by
  · rw [length_take]
    omega
  · rw [length_drop]
    omega

/-- The stack computes the recursion. -/
theorem search_eq (ok : List α → Bool) (stack : List (List α)) (found : List α) :
    search ok stack found = found ++ stack.flatMap (failures ok) := by
  induction stack, found using search.induct ok with
  | case1 found => simp [search]
  | case2 slice stack found hem ih =>
    rw [search, if_pos hem, ih, flatMap_cons, failures, if_pos hem, nil_append]
  | case3 slice stack found hem hok ih =>
    rw [search, if_neg hem, if_pos hok, ih, flatMap_cons, failures, if_neg hem,
      if_pos hok, nil_append]
  | case4 slice stack found hem hok hlen ih =>
    rw [search, if_neg hem, if_neg hok, if_pos hlen, ih, flatMap_cons, failures,
      if_neg hem, if_neg hok, if_pos hlen, append_assoc]
  | case5 slice stack found hem hok hlen mid ih =>
    rw [search, if_neg hem, if_neg hok, if_neg hlen, ih, flatMap_cons,
      flatMap_cons, flatMap_cons, ← append_assoc (failures ok _)]
    conv_rhs => rw [failures, if_neg hem, if_neg hok, if_neg hlen]

/-! ### What is found -/

/-- The ranges that the bisection of a list can come to test. -/
inductive Range : List α → List α → Prop
  | self (l : List α) : Range l l
  | left {l r : List α} (hl : 2 ≤ l.length) (h : Range (l.take (l.length / 2)) r) : Range l r
  | right {l r : List α} (hl : 2 ≤ l.length) (h : Range (l.drop (l.length / 2)) r) : Range l r

variable {l : List α} {x : α}

theorem Range.subset {r : List α} (h : Range l r) (hx : x ∈ r) : x ∈ l := by
  induction h with
  | self l => exact hx
  | left _ _ ih => exact mem_of_mem_take (ih hx)
  | right _ _ ih => exact mem_of_mem_drop (ih hx)

theorem mem_halves (hx : x ∈ l) (k : ℕ) : x ∈ l.take k ∨ x ∈ l.drop k := by
  rw [← mem_append, take_append_drop]
  exact hx

theorem range_singleton (hx : x ∈ l) : Range l [x] := by
  -- The halves of a list of two or more items are shorter.
  induction hn : l.length using Nat.strongRecOn generalizing l with
  | _ n ih =>
    rcases Nat.lt_or_ge l.length 2 with hlt | hge
    · obtain ⟨y, rfl⟩ : ∃ y, l = [y] := by
        apply length_eq_one_iff.1
        have := length_pos_of_mem hx
        omega
      obtain rfl : x = y := by simpa using hx
      exact .self _
    · rcases mem_halves hx (l.length / 2) with h | h
      · refine .left hge (ih _ ?_ h rfl)
        rw [length_take]
        omega
      · refine .right hge (ih _ ?_ h rfl)
        rw [length_drop]
        omega

variable [AddCommMonoid G]

/-- Every range with this item fails. -/
def Exposed (e : α → G) (l : List α) (x : α) : Prop :=
  ∀ r, Range l r → x ∈ r → (r.map e).sum ≠ 0

variable {e : α → G}

theorem Exposed.ne_zero (h : Exposed e l x) (hx : x ∈ l) :
    e x ≠ 0 := by
  have := h [x] (range_singleton hx) mem_cons_self
  simpa using this

/-- **What is found are the exposed items.** -/
theorem mem_failures_iff {ok : List α → Bool}
    (hok : ∀ r, ok r = true ↔ (r.map e).sum = 0) (hnd : l.Nodup) :
    x ∈ failures ok l ↔ x ∈ l ∧ Exposed e l x := by
  induction hn : l.length using Nat.strongRecOn generalizing l with
  | _ n ih =>
    rw [failures]
    split_ifs with hem hps hlen
    · obtain rfl := isEmpty_iff.1 hem
      simp
    · -- The whole list passes, so none of its items is exposed.
      refine iff_of_false not_mem_nil fun h => ?_
      exact h.2 l (.self l) h.1 ((hok l).1 hps)
    · refine ⟨fun hx => ⟨hx, fun r hr hxr => ?_⟩, fun h => h.1⟩
      cases hr with
      | self => exact fun h0 => hps ((hok l).2 h0)
      | left | right => omega
    · have hs : (l.map e).sum ≠ 0 := fun h0 => hps ((hok l).2 h0)
      have hge : 2 ≤ l.length := by omega
      have hlf := ih (l.take (l.length / 2)).length (by rw [length_take]; omega)
        (hnd.sublist (take_sublist _ _)) rfl
      have hrg := ih (l.drop (l.length / 2)).length (by rw [length_drop]; omega)
        (hnd.sublist (drop_sublist _ _)) rfl
      -- No item is in both halves, so only the ranges of its own half matter.
      have hds := disjoint_take_drop hnd (Nat.le_refl (l.length / 2))
      rw [mem_append, hlf, hrg]
      constructor
      · rintro (⟨hx, he⟩ | ⟨hx, he⟩)
        · refine ⟨mem_of_mem_take hx, fun r hr hxr => ?_⟩
          cases hr with
          | self => exact hs
          | left _ hr => exact he r hr hxr
          | right _ hr => exact absurd (hr.subset hxr) fun h => hds hx h
        · refine ⟨mem_of_mem_drop hx, fun r hr hxr => ?_⟩
          cases hr with
          | self => exact hs
          | left _ hr => exact absurd hx fun h => hds (hr.subset hxr) h
          | right _ hr => exact he r hr hxr
      · rintro ⟨hx, he⟩
        rcases mem_halves hx (l.length / 2) with h | h
        · exact .inl ⟨h, fun r hr => he r (.left hge hr)⟩
        · exact .inr ⟨h, fun r hr => he r (.right hge hr)⟩

end Bisection
