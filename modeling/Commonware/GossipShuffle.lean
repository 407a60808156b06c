/-
**Which peers a truncated answer carries.**

The tracker of `p2p/src/authenticated/discovery` answers a bit vector with the infos its sender lacks.
More infos than `peer_gossip_max_count` are shuffled by `partial_shuffle` of `rand` and then truncated.
The shuffle puts its choice at the end of the slice, but the truncation keeps the front: an answer has
what the shuffle did *not* choose.  With `n` infos and a limit of `m` that is a random selection
only if `n ≤ 2 * m`.  Beyond it an info between the first and the last `m` positions is never sent.

Main definitions:

* `choices` — the equally likely choices of `partial_shuffle`;
* `partialShuffle`, `peersSent` — the shuffle and the infos of the answer.

Main results:

* `count_locked` — a set of infos is what the shuffle has locked for equally many choices;
* `not_mem_peersSent` — the infos that no choice sends;
* `gossip_uniform_iff` — **when an answer is a uniformly random selection**.
-/

import Mathlib

set_option autoImplicit false

namespace Commonware.Gossip

open Finset List Nat

variable {Info : Type}

/-- What `partial_shuffle` can draw on a slice of length `len`: for `amount` positions from the last
one down, a position that is not after it. -/
def choices : ℕ → ℕ → List (List ℕ)
  | _, 0 => [[]]
  | len, amount + 1 => (List.range len).flatMap fun j => (choices (len - 1) amount).map (j :: ·)

/-- The loop of `partial_shuffle` on the positions below `len`. -/
def partialShuffle : ℕ → List ℕ → List Info → List Info
  | i + 1, j :: js, slice => partialShuffle i js (slice.swap i j)
  | _, _, slice => slice

/-- The infos in the answer to a bit vector, for the draws `js`. -/
def peersSent (infos : List Info) (peerGossipMaxCount : ℕ) (js : List ℕ) : List Info :=
  if infos.length > peerGossipMaxCount then
    (partialShuffle infos.length js infos).take peerGossipMaxCount
  else infos

theorem length_choices (amount len : ℕ) :
    (choices len amount).length = len.descFactorial amount := by
  induction amount generalizing len with
  | zero => rfl
  | succ amount ih =>
    cases len with
    | zero => simp [choices]
    | succ len => rw [succ_descFactorial_succ]; simp [choices, ih]

variable {js : List ℕ}

theorem mem_choices_succ {i k : ℕ} (h : js ∈ choices i (k + 1)) :
    ∃ i' j js', i = i' + 1 ∧ js = j :: js' ∧ j ≤ i' ∧ js' ∈ choices i' k := by
  cases i with
  | zero => simp [choices] at h
  | succ i =>
    obtain ⟨j, hj, js', hjs, rfl⟩ : ∃ j < i + 1, ∃ js' ∈ choices i k, j :: js' = js := by
      simpa [choices] using h
    exact ⟨i, j, js', rfl, rfl, Nat.lt_succ_iff.mp hj, hjs⟩

theorem partialShuffle_perm (i : ℕ) (js : List ℕ) (slice : List Info) :
    (partialShuffle i js slice).Perm slice := by
  fun_induction partialShuffle i js slice with
  | case1 i j js slice ih => exact ih.trans (slice.swap_perm i j)
  | case2 => rfl

variable {slice : List Info}

/-- A swap puts the choice at position `i`. -/
theorem drop_swap {i j : ℕ} (hj : j ≤ i) (hi : i < slice.length) :
    (slice.swap i j).drop i = slice[j] :: slice.drop (i + 1) := by
  rw [swap_eq_of_lt hi (by omega)]
  rcases hj.eq_or_lt with rfl | hj
  · simp
  · rw [drop_set_of_lt hj, drop_eq_getElem_cons (by simpa using hi)]
    simp [drop_set_of_lt (Nat.lt_succ_self i)]

/-- The positions the loop has passed do not change any more. -/
theorem drop_partialShuffle {k i : ℕ} (slice : List Info) (hjs : js ∈ choices i k)
    (hi : i ≤ slice.length) : (partialShuffle i js slice).drop i = slice.drop i := by
  induction k generalizing i js slice with
  | zero =>
    obtain rfl : js = [] := by simpa [choices] using hjs
    cases i <;> rfl
  | succ k ih =>
    obtain ⟨i, j, js, rfl, rfl, hj, hjs⟩ := mem_choices_succ hjs
    have hlr := ih (slice.swap i j) hjs (by simp; omega)
    calc (partialShuffle i js (slice.swap i j)).drop (i + 1)
        = ((partialShuffle i js (slice.swap i j)).drop i).drop 1 := by rw [drop_drop]
      _ = slice.drop (i + 1) := by rw [hlr, drop_swap hj hi, drop_one, tail_cons]

/-! ### A selection that reaches every info -/

section Count

variable [DecidableEq Info]

theorem sum_map_ite (E : Finset Info) (c : ℕ) (slice : List Info) :
    (slice.map fun x => if x ∈ E then c else 0).sum = slice.countP (· ∈ E) * c := by
  induction slice with
  | nil => simp
  | cons x slice ih =>
    rw [List.map_cons, List.sum_cons, countP_cons, ih, Nat.add_mul, add_comm]
    split_ifs <;> simp_all

theorem countP_take {i t : ℕ} {E : Finset Info} (hnd : slice.Nodup)
    (hlc : (slice.drop i).toFinset ⊆ E) (hE : E ⊆ slice.toFinset)
    (hcr : #E = slice.length - i + t) : (slice.take i).countP (· ∈ E) = t := by
  have ha : slice.countP (· ∈ E) = #E := by
    rw [countP_eq_length_filter, ← toFinset_card_of_nodup (hnd.filter _), toFinset_filter]
    congr 1
    ext x
    simpa using fun hx => by simpa using hE hx
  have hdr : (slice.drop i).countP (· ∈ E) = slice.length - i := by
    rw [countP_eq_length.mpr fun x hx => by simpa using hlc (by simpa using hx), length_drop]
  rw [← take_append_drop i slice, countP_append] at ha
  omega

/-- The choices after which the last `t` of the positions below `i`, and the ones from `i` on, hold
the infos of a set: equally many for each set. -/
theorem count_locked (t k i : ℕ) (slice : List Info) (E : Finset Info) (hnd : slice.Nodup)
    (hi : i ≤ slice.length) (ht : t ≤ k) (hk : k ≤ i) (hlc : (slice.drop i).toFinset ⊆ E)
    (hE : E ⊆ slice.toFinset) (hcr : #E = slice.length - i + t) :
    (choices i k).countP (fun js => ((partialShuffle i js slice).drop (i - t)).toFinset = E) =
      t ! * (i - t).descFactorial (k - t) := by
  induction t generalizing k i slice with
  | zero =>
    have heq : (slice.drop i).toFinset = E := eq_of_subset_of_card_le hlc <| by
      rw [toFinset_card_of_nodup (hnd.sublist (drop_sublist _ _)), length_drop, hcr, add_zero]
    rw [countP_eq_length.mpr fun js hjs => by simp [drop_partialShuffle slice hjs hi, heq],
      length_choices]
    simp
  | succ t ih =>
    obtain ⟨k, rfl⟩ : ∃ k', k = k' + 1 := ⟨k - 1, by omega⟩
    obtain ⟨i, rfl⟩ : ∃ i', i = i' + 1 := ⟨i - 1, by omega⟩
    -- The first draw `j` locks `slice[j]`, which has to be one of the infos of the set.
    have hdw : ∀ j (hj : j < i + 1), ((choices i k).map (j :: ·)).countP
          (fun js => ((partialShuffle (i + 1) js slice).drop (i + 1 - (t + 1))).toFinset = E) =
        if slice[j] ∈ E then t ! * (i - t).descFactorial (k - t) else 0 := by
      intro j hj
      have hp := slice.swap_perm i j
      have hdr := drop_swap (Nat.lt_succ_iff.mp hj) hi
      rw [countP_map, Nat.add_sub_add_right]
      split_ifs with hmem
      · refine ih k i (slice.swap i j) (hp.nodup_iff.mpr hnd) (by simp; omega) (by omega)
          (by omega) ?_ (by rwa [toFinset_eq_of_perm _ _ hp]) (by simp; omega)
        rw [hdr, toFinset_cons]
        exact insert_subset hmem hlc
      · refine countP_eq_zero.mpr fun js hjs heq => hmem ?_
        have hf := drop_partialShuffle (slice.swap i j) hjs (by simp; omega)
        rw [← of_decide_eq_true heq, mem_toFinset]
        refine drop_subset_drop_left _ (Nat.sub_le i t) ?_
        simp [partialShuffle, hf, hdr]
    have hm : (List.range (i + 1)).map (fun j => ((choices i k).map (j :: ·)).countP
          (fun js => ((partialShuffle (i + 1) js slice).drop (i + 1 - (t + 1))).toFinset = E)) =
        (slice.take (i + 1)).map
          (fun x => if x ∈ E then t ! * (i - t).descFactorial (k - t) else 0) :=
      ext_getElem (by simp; omega) fun j hj hj' => by simpa using hdw j (by simpa using hj)
    rw [choices, countP_flatMap, Function.comp_def, Nat.add_sub_cancel, hm, sum_map_ite,
      countP_take hnd hlc hE hcr, factorial_succ, mul_assoc, Nat.add_sub_add_right,
      Nat.add_sub_add_right]

variable {S : Finset Info}

theorem toFinset_take_eq_iff {m : ℕ} (hnd : slice.Nodup)
    (hS : S ⊆ slice.toFinset) :
    (slice.take m).toFinset = S ↔ (slice.drop m).toFinset = slice.toFinset \ S := by
  have hds : Disjoint (slice.take m).toFinset (slice.drop m).toFinset :=
    disjoint_toFinset_iff_disjoint.mpr (disjoint_take_drop hnd le_rfl)
  have hu : (slice.take m).toFinset ∪ (slice.drop m).toFinset = slice.toFinset := by
    rw [← toFinset_append, take_append_drop]
  constructor
  · rintro rfl
    rw [← hu, union_sdiff_cancel_left hds]
  · intro h
    rw [← Finset.sdiff_sdiff_eq_self hS, ← h, ← hu, union_sdiff_cancel_right hds]

/-- With at most `2 * m` infos each selection of `m` is sent for equally many choices. -/
theorem count_sent {infos : List Info} {m : ℕ} (hnd : infos.Nodup)
    (hm : m < infos.length) (hle : infos.length ≤ 2 * m) (hS : S ⊆ infos.toFinset) (hcr : #S = m) :
    (choices infos.length m).countP (fun js => (peersSent infos m js).toFinset = S) = m ! := by
  have hr : #(infos.toFinset \ S) = infos.length - m := by
    rw [card_sdiff_of_subset hS, toFinset_card_of_nodup hnd, hcr]
  have hcn := count_locked (infos.length - m) m infos.length infos (infos.toFinset \ S) hnd
    le_rfl (by omega) hm.le (by simp) sdiff_subset (by omega)
  have hf : infos.length - m = m - (m - (infos.length - m)) := by omega
  rw [Nat.sub_sub_self hm.le] at hcn
  rw [← factorial_mul_descFactorial (Nat.sub_le m (infos.length - m)), ← hf, ← hcn]
  congr 1
  funext js
  have hp := partialShuffle_perm infos.length js infos
  have hs := toFinset_eq_of_perm _ _ hp
  simp only [peersSent, gt_iff_lt, hm, if_true, ← hs,
    toFinset_take_eq_iff (hp.nodup_iff.mpr hnd) (hs ▸ hS)]

end Count

/-! ### Infos that are never sent -/

/-- An info that is neither among the first `m` positions nor among those the loop still passes
does not come to the first `m`. -/
theorem not_mem_take {m k i : ℕ} (slice : List Info) {x : Info}
    (hjs : js ∈ choices i k) (hi : i ≤ slice.length) (hm : m + k ≤ i)
    (hx : ∀ p, slice[p]? = some x → m ≤ p ∧ p + k < i ∨ i ≤ p) :
    x ∉ (partialShuffle i js slice).take m := by
  induction k generalizing i js slice with
  | zero =>
    obtain rfl : js = [] := by simpa [choices] using hjs
    intro hmem
    obtain ⟨p, hp, rfl⟩ := mem_take_iff_getElem.mp hmem
    have := hx p (by cases i <;> simp [partialShuffle])
    omega
  | succ k ih =>
    obtain ⟨i, j, js, rfl, rfl, hj, hjs⟩ := mem_choices_succ hjs
    refine ih (slice.swap i j) hjs (by simp; omega) (by omega) fun p hp => ?_
    rw [swap_eq_of_lt hi (by omega), getElem?_set] at hp
    -- What comes to position `j` was at `i`, which the loop passes.
    split_ifs at hp with hpj
    · have := hx i (by rwa [getElem?_eq_getElem hi])
      omega
    · rw [getElem?_set] at hp
      split_ifs at hp with hpi
      · exact .inr hpi.le
      · have := hx p hp
        omega

theorem not_mem_peersSent {infos : List Info} {m p : ℕ} (hnd : infos.Nodup)
    (hjs : js ∈ choices infos.length m) (hm : m ≤ p) (hp : p + m < infos.length) :
    infos[p] ∉ peersSent infos m js := by
  rw [peersSent, if_pos (by omega)]
  refine not_mem_take _ hjs le_rfl (by omega) fun q hq => .inl ?_
  obtain ⟨hlt, heq⟩ := List.getElem?_eq_some_iff.mp hq
  have := hnd.getElem_inj_iff.mp heq
  omega

/-- **When an answer is a uniformly random selection of the infos**: every selection is sent for
equally many choices, and every info for some, exactly when there are at most twice as many infos as
an answer may have. -/
theorem gossip_uniform_iff [DecidableEq Info] (infos : List Info) (m : ℕ) (hnd : infos.Nodup)
    (hpos : 1 ≤ m) (hm : m < infos.length) : List.TFAE [∀ S ⊆ infos.toFinset, #S = m →
        (choices infos.length m).countP (fun js => (peersSent infos m js).toFinset = S) *
          infos.length.choose m = (choices infos.length m).length, ∀ S ⊆ infos.toFinset, #S = m →
        ∃ js ∈ choices infos.length m, (peersSent infos m js).toFinset = S,
      ∀ x ∈ infos, ∃ js ∈ choices infos.length m, x ∈ peersSent infos m js,
      infos.length ≤ 2 * m] := by
  tfae_have 4 → 1 := fun hle S hS hcr => by
    rw [count_sent hnd hm hle hS hcr, length_choices, descFactorial_eq_factorial_mul_choose]
  tfae_have 1 → 2 := fun hu S hS hcr => by
    have hcn := hu S hS hcr
    have hpos : 0 < (choices infos.length m).countP
        (fun js => (peersSent infos m js).toFinset = S) := by
      refine Nat.pos_of_ne_zero fun h0 => ?_
      rw [h0, Nat.zero_mul, length_choices] at hcn
      exact (descFactorial_pos.mpr hm.le).ne hcn
    simpa using countP_pos_iff.mp hpos
  tfae_have 2 → 3 := fun ha x hx => by
    obtain ⟨S, hxS, hS, hcr⟩ := exists_subsuperset_card_eq (s := {x}) (t := infos.toFinset)
      (by simpa using hx) (by simpa using hpos) (by rw [toFinset_card_of_nodup hnd]; exact hm.le)
    obtain ⟨js, hjs, rfl⟩ := ha S hS hcr
    exact ⟨js, hjs, by simpa using hxS⟩
  tfae_have 3 → 4 := fun ha => by
    by_contra hlt
    obtain ⟨js, hjs, hmem⟩ := ha infos[m] (getElem_mem _)
    exact not_mem_peersSent hnd hjs le_rfl (by omega) hmem
  tfae_finish

/-- With three infos of which two are sent, each can be sent. -/
theorem gossip_uniform_three :
    3 ≤ 2 * 2 ∧ ∀ x ∈ [10, 20, 30], ∃ js ∈ choices 3 2, x ∈ peersSent [10, 20, 30] 2 js :=
  ⟨by decide,
    ((gossip_uniform_iff [10, 20, 30] 2 (by decide) (by decide) (by decide)).out 3 2).mp (by decide)⟩

/-- With three infos of which one is sent, the second is not sent for any choices. -/
theorem second_never_sent :
    20 ∈ [10, 20, 30] ∧ ∀ js ∈ choices 3 1, 20 ∉ peersSent [10, 20, 30] 1 js := by
  decide

end Commonware.Gossip
