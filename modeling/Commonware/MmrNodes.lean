/-
**Positions and locations of a Merkle mountain range.**

A location counts the leaves of a mountain range, a position counts its nodes.  This module models
the arithmetic between them and the iterators over nodes (`storage/src/mmr/{position,location,
iterator}.rs`), and says which nodes they visit.

A power of two that the source halves in a loop is given by its exponent here, and the loop is a
recursion on that exponent.

Main definitions:

* `Position.tryFrom`, `Location.tryFrom` — conversions;
* `Position.isMmrSize` — whether a number is the size of a mountain range;
* `peakIterator`, `pathIterator` — the peaks, and the siblings on a path;
* `nodesToPin` — the nodes that are kept when a range is pruned.

Main results:

* `Position.isMmrSize_iff` — **exactly the sizes of ranges of at most `2 ^ 62` leaves pass**;
* `peakIterator_size` — the peaks of a range;
* `nodesToPin_eq` — the nodes to pin are the peaks of the largest range before the boundary.
-/

import Commonware.MountainRange

set_option autoImplicit false

namespace Commonware.Mmr

open MountainRange

def maxPosition : ℕ := 2 ^ 63 - 2

def maxLocation : ℕ := 2 ^ 62 - 1

inductive Error
  | missingNode (pos : ℕ)
  | invalidProof
  | rootMismatch
  | elementPruned (pos : ℕ)
  | missingDigest (pos : ℕ)
  | missingGraftedDigest (loc : ℕ)
  | invalidProofLength
  | invalidSize (size : ℕ)
  | empty
  | locationOverflow (loc : ℕ)
  | rangeOutOfBounds (loc : ℕ)
  | leafOutOfBounds (loc : ℕ)
  | bitOutOfBounds (bit size : ℕ)
  | invalidPinnedNodes
  deriving DecidableEq

/-! ### Conversions -/

namespace Location

def checkedAdd (loc n : ℕ) : Option ℕ := if loc + n ≤ maxLocation then some (loc + n) else none

/-- Walks down from a node of height `h` to the node at `pos`, counting the leaves to the left. -/
def tryFromLoop (pos : ℕ) : ℕ → ℕ → ℕ → Option ℕ
  | 0, _, leafLocFloor => some leafLocFloor
  | h + 1, curNode, leafLocFloor =>
    if curNode = pos then none
    else
      let leftPos := curNode - 2 ^ (h + 1)
      if leftPos < pos then tryFromLoop pos h (curNode - 1) (leafLocFloor + 2 ^ h)
      else tryFromLoop pos h leftPos leafLocFloor

/-- The location of the leaf at a position; there is none if the node there is not a leaf. -/
def tryFrom (pos : ℕ) : Option ℕ :=
  if maxPosition < pos then none
  else if pos = 0 then some 0
  else
    let height := (pos + 1).log2 + 1
    tryFromLoop pos (height - 1) (2 ^ height - 2) 0

end Location

namespace Position

/-- The position of the leaf at a location. -/
def tryFrom (loc : ℕ) : Except Error ℕ :=
  if loc ≤ maxLocation then .ok (2 * loc - ones loc) else .error (.locationOverflow loc)

/-- Looks for peaks from the node at `nodePos` on, which is of height `k - 1`. -/
def isMmrSizeFrom (size : ℕ) : ℕ → ℕ → Bool
  | 0, _ => true
  | k + 1, nodePos =>
    if nodePos < size then
      -- a leaf has to be the last node
      if k = 0 then decide (nodePos = size - 1)
      else
        let sibling := nodePos + 2 ^ (k + 1) - 1
        if sibling < size then false else isMmrSizeFrom size k (sibling - 2 ^ k)
    else isMmrSizeFrom size k (nodePos - 2 ^ k)

/-- Whether a number of nodes is the size of a mountain range. -/
def isMmrSize (size : ℕ) : Bool :=
  if size = 0 then true
  else if 63 ≤ size.log2 then false
  else isMmrSizeFrom size (size.log2 + 1) (2 ^ (size.log2 + 1) - 2)

end Position

/-! ### Iterators -/

/-- The peaks from the node at `nodePos` on, which is of height `k - 1`. -/
def peaksFrom (size : ℕ) : ℕ → ℕ → Option (List (ℕ × ℕ))
  | 0, _ => some []
  | k + 1, nodePos =>
    if nodePos < size then
      let sibling := nodePos + 2 ^ (k + 1) - 1
      -- an assertion: the sibling of a peak is not in the range
      if sibling < size then none
      else (peaksFrom size k (sibling - 2 ^ k)).map ((nodePos, k) :: ·)
    else peaksFrom size k (nodePos - 2 ^ k)

/-- The positions and heights of the peaks of a range of this size, from the highest one on; an
assertion fails if there is no such range. -/
def peakIterator (size : ℕ) : Option (List (ℕ × ℕ)) :=
  if size = 0 then some []
  else if 63 ≤ size.log2 then none
  else peaksFrom size (size.log2 + 1) (2 ^ (size.log2 + 1) - 2)

/-- Binary search for the largest number of leaves whose nodes are at most `size`. -/
def toNearestSizeLoop (size low high : ℕ) : ℕ :=
  if low < high then
    let mid := (low + high + 1) / 2
    if 2 * mid - ones mid ≤ size then toNearestSizeLoop size mid high
    else toNearestSizeLoop size low (mid - 1)
  else low
termination_by high - low

/-- The largest size of a range that is at most `size`. -/
def toNearestSize (size : ℕ) : Option ℕ :=
  if maxPosition < size then none
  else
    let leaves := toNearestSizeLoop size 0 size
    some (2 * leaves - ones leaves)

/-- The positions of the nodes that are kept when what is before `startPos` is pruned. -/
def nodesToPin (startPos : ℕ) : Option (List ℕ) := do
  let size ← toNearestSize startPos
  let peaks ← peakIterator size
  pure (peaks.map Prod.fst)

/-- The parents of the nodes on the path from a node of height `h` to a leaf, with the siblings of
the nodes. -/
def pathIterator (leafPos : ℕ) : ℕ → ℕ → List (ℕ × ℕ)
  | 0, _ => []
  | h + 1, nodePos =>
    let leftPos := nodePos - 2 ^ (h + 1)
    let rightPos := nodePos - 1
    if leftPos < leafPos then (nodePos, leftPos) :: pathIterator leafPos h rightPos
    else (nodePos, rightPos) :: pathIterator leafPos h leftPos

/-! ### Steps down the tree -/

theorem pos_sub_left (h q : ℕ) : pos (h + 1) q - 2 ^ (h + 1) = pos h (2 * q) := by
  have := pos_left h q
  omega

theorem pos_sub_one (h q : ℕ) : pos (h + 1) q - 1 = pos h (2 * q + 1) := by
  have := pos_right h q
  omega

theorem pos_sibling (h p : ℕ) : pos h (2 * p) + 2 ^ (h + 1) - 1 = pos h (2 * p + 1) := by
  have h₁ := pos_left h p
  have h₂ := pos_right h p
  omega

theorem pos_top (h : ℕ) : pos h 0 = 2 ^ (h + 1) - 2 := by
  have := pos_add h 0
  rw [ones_zero] at this
  omega

/-- The nodes of an end are complete once the leaf after them is there. -/
theorem size_child_end (h p : ℕ) : size ((2 * p + 1) * 2 ^ h) = pos h (2 * p) + 1 := by
  have h₁ := size_mul_pow_add h (2 * p + 1)
  have h₂ := pos_left h p
  have h₃ := pos_right h p
  omega

/-! ### Sizes of ranges -/

theorem Position.tryFrom_eq {loc : ℕ} (h : loc ≤ maxLocation) :
    Position.tryFrom loc = .ok (size loc) := if_pos h

variable {n : ℕ}

theorem log2_size_lt (hn : n ≤ 2 ^ 62) (hp : size n ≠ 0) : (size n).log2 < 63 :=
  (Nat.log2_lt hp).2 (size_lt_two_pow_iff.2 hn)

/-- No range ends between the children of a node and the node. -/
theorem size_ne_pos {h p n : ℕ} : size n ≠ pos (h + 1) p := by
  intro heq
  have hrg := pos_right h p
  have hlt : pos h (2 * p + 1) < size n := by omega
  rw [pos_lt_size_iff] at hlt
  have hp : pos (h + 1) p < size n := by
    rw [pos_lt_size_iff, pow_succ]
    calc (p + 1) * (2 ^ h * 2) = (2 * p + 1 + 1) * 2 ^ h := by ring
      _ ≤ n := hlt
  omega

variable {sz : ℕ}

/-- What the search finds from a left child on, if its parent is not in the range. -/
theorem Position.isMmrSizeFrom_iff {k p sz : ℕ} (hlo : size (2 * p * 2 ^ k) ≤ sz)
    (hhi : sz ≤ pos (k + 1) p) :
    isMmrSizeFrom sz (k + 1) (pos k (2 * p)) = true ↔ ∃ n, sz = size n := by
  induction k generalizing p with
  | zero =>
    rw [pos_zero_left, pow_zero, mul_one] at *
    have hst := size_child_end 0 p
    rw [pos_zero_left, pow_zero, mul_one] at hst
    have he := pos_right 0 p
    rw [pos_zero_left] at he
    rw [isMmrSizeFrom]
    simp only [↓reduceIte]
    split_ifs with hlt
    · rw [decide_eq_true_iff]
      constructor
      · intro heq
        exact ⟨2 * p + 1, by omega⟩
      · rintro ⟨n, rfl⟩
        have := @size_ne_pos 0 p n
        omega
    · exact ⟨fun _ => ⟨2 * p, by omega⟩, fun _ => rfl⟩
  | succ k ih =>
    rw [isMmrSizeFrom]
    simp only [Nat.succ_ne_zero, if_false]
    split_ifs with hlt hs
    · -- the range would end between the sibling and the parent
      rw [pos_sibling] at hs
      have hrg := pos_right (k + 1) p
      refine ⟨fun h => by simp at h, ?_⟩
      rintro ⟨n, rfl⟩
      exact absurd (by omega) (@size_ne_pos (k + 1) p n)
    · rw [pos_sibling] at hs ⊢
      rw [pos_sub_left]
      refine ih ?_ (by omega)
      have he := size_child_end (k + 1) p
      have hp : 2 * (2 * p + 1) * 2 ^ k = (2 * p + 1) * 2 ^ (k + 1) := by ring
      rw [hp]
      omega
    · rw [pos_sub_left]
      refine ih ?_ (by omega)
      have hp : 2 * (2 * p) * 2 ^ k = 2 * p * 2 ^ (k + 1) := by ring
      rw [hp]
      exact hlo

/-- **Exactly the sizes of ranges pass.** -/
theorem Position.isMmrSize_iff : isMmrSize sz = true ↔ ∃ n ≤ 2 ^ 62, sz = size n := by
  rw [isMmrSize]
  split_ifs with hz hlr
  · exact ⟨fun _ => ⟨0, Nat.zero_le _, by simpa using hz⟩, fun _ => rfl⟩
  · refine ⟨fun h => by simp at h, ?_⟩
    rintro ⟨n, hn, rfl⟩
    have := log2_size_lt hn hz
    omega
  · have hlt : sz < 2 ^ (sz.log2 + 1) := Nat.lt_log2_self
    have ht := pos_top (sz.log2 + 1)
    rw [← pos_top, ← mul_zero 2, isMmrSizeFrom_iff (by simp) (by omega)]
    constructor
    · rintro ⟨n, rfl⟩
      refine ⟨n, ?_, rfl⟩
      rw [← size_lt_two_pow_iff]
      exact (Nat.log2_lt hz).1 (by omega)
    · rintro ⟨n, -, rfl⟩
      exact ⟨n, rfl⟩

theorem Position.isMmrSize_size (hn : n ≤ 2 ^ 62) : isMmrSize (size n) = true :=
  isMmrSize_iff.2 ⟨n, hn, rfl⟩

theorem Position.not_isMmrSize {x : ℕ} (hlo : size n < x) (hhi : x < size (n + 1)) :
    ¬ isMmrSize x = true := by
  rw [isMmrSize_iff]
  rintro ⟨m, -, rfl⟩
  rw [size_lt_size_iff] at hlo hhi
  omega

/-! ### Locations -/

theorem Location.tryFromLoop_size {h q : ℕ} (hlo : q * 2 ^ h ≤ n) (hhi : n < (q + 1) * 2 ^ h) :
    tryFromLoop (size n) h (pos h q) (q * 2 ^ h) = some n := by
  induction h generalizing q with
  | zero =>
    have : q = n := by omega
    rw [tryFromLoop, this, pow_zero, mul_one]
  | succ h ih =>
    obtain ⟨hlf, hrg, -, he, -⟩ := leaves_halves h q
    rw [tryFromLoop, if_neg (Ne.symm size_ne_pos), pos_sub_left, pos_sub_one]
    simp only [pos_lt_size_iff]
    split_ifs with hge
    · rw [hlf, ← hrg]
      exact ih hge (by rwa [← he])
    · rw [hlf]
      exact ih (by rwa [← hlf]) (by omega)

theorem size_le_maxPosition_iff : size n ≤ maxPosition ↔ n ≤ maxLocation := by
  have ht := size_two_pow 62
  have hlt : size n < size (2 ^ 62) ↔ n < 2 ^ 62 := size_lt_size_iff
  unfold maxPosition maxLocation
  omega

theorem size_le_maxPosition (hn : n ≤ maxLocation) : size n ≤ maxPosition :=
  size_le_maxPosition_iff.2 hn

theorem Location.tryFrom_size (hn : n ≤ maxLocation) :
    Location.tryFrom (size n) = some n := by
  rw [Location.tryFrom, if_neg (Nat.not_lt.2 (size_le_maxPosition hn))]
  split_ifs with hz
  · have := le_size n
    congr 1
    omega
  · have hl : n < 2 ^ (size n + 1).log2 := by
      have ht := size_two_pow (size n + 1).log2
      have hlt : size n + 1 < 2 ^ ((size n + 1).log2 + 1) := Nat.lt_log2_self
      rw [← size_lt_size_iff]
      omega
    simp only [Nat.add_sub_cancel, ← pos_top]
    have := Location.tryFromLoop_size (h := (size n + 1).log2) (q := 0) (n := n) (by omega)
      (by omega)
    rwa [zero_mul] at this

/-! ### Peaks of ranges -/

def peakItem (node : ℕ × ℕ) : ℕ × ℕ := (pos node.1 node.2, node.1)

theorem peaksFrom_size {k p : ℕ} (hp : n / 2 ^ (k + 1) = p) :
    peaksFrom (size n) (k + 1) (pos k (2 * p)) = some ((peaksBelow n (k + 1)).map peakItem) := by
  induction k generalizing p with
  | zero =>
    have hin : (2 * p + 1) * 2 ^ 0 ≤ n ↔ n / 2 ^ 0 % 2 = 1 := by omega
    have hot : ¬ (2 * p + 1 + 1) * 2 ^ 0 ≤ n := by omega
    rw [peaksFrom, peaksBelow]
    simp only [pos_sibling, pos_lt_size_iff, hin, if_neg hot, peaksFrom, peaksBelow]
    split_ifs with hb
    · have hod : n / 2 ^ 0 = 2 * p + 1 := by omega
      rw [hod]
      rfl
    · rfl
  | succ k ih =>
    have hdv : n / 2 ^ (k + 1) / 2 = p := by rw [Nat.div_div_eq_div_mul, ← pow_succ, hp]
    have hin : (2 * p + 1) * 2 ^ (k + 1) ≤ n ↔ n / 2 ^ (k + 1) % 2 = 1 := by
      rw [← Nat.le_div_iff_mul_le (Nat.two_pow_pos _)]
      omega
    have hot : ¬ (2 * p + 1 + 1) * 2 ^ (k + 1) ≤ n := by
      rw [← Nat.le_div_iff_mul_le (Nat.two_pow_pos _)]
      omega
    rw [peaksFrom, peaksBelow]
    simp only [pos_sibling, pos_lt_size_iff, hin, if_neg hot, pos_sub_left]
    split_ifs with hb
    · have hod : n / 2 ^ (k + 1) = 2 * p + 1 := by omega
      rw [ih hod, hod]
      rfl
    · exact ih (by omega)

/-- **The peaks of a range.** -/
theorem peakIterator_size (hn : n ≤ 2 ^ 62) :
    peakIterator (size n) = some ((peaks n).map peakItem) := by
  rw [peakIterator]
  split_ifs with hz hlr
  · have : n = 0 := by
      have := le_size n
      omega
    subst this
    rfl
  · have := log2_size_lt hn hz
    omega
  · have hlt : n < 2 ^ ((size n).log2 + 1) := (le_size n).trans_lt Nat.lt_log2_self
    rw [← pos_top, ← mul_zero 2, peaksFrom_size (Nat.div_eq_of_lt hlt), peaks_eq hlt]

/-! ### Pinned nodes -/

theorem toNearestSizeLoop_spec {low hig : ℕ} (hle : low ≤ hig) (hl : size low ≤ sz)
    (hh : sz < size (hig + 1)) :
    size (toNearestSizeLoop sz low hig) ≤ sz ∧ sz < size (toNearestSizeLoop sz low hig + 1) := by
  fun_induction toNearestSizeLoop sz low hig with
  | case1 low hig hlt mid hm ih => exact ih (by omega) hm hh
  | case2 low hig hlt mid hm ih =>
    refine ih (by omega) hl ?_
    have hp : mid - 1 + 1 = mid := by omega
    rw [hp]
    exact Nat.lt_of_not_le hm
  | case3 low hig hge =>
    have : low = hig := by omega
    subst this
    exact ⟨hl, hh⟩

/-- The largest range before a boundary. -/
theorem toNearestSize_spec (hsz : sz ≤ maxPosition) :
    ∃ n, toNearestSize sz = some (size n) ∧ size n ≤ sz ∧ sz < size (n + 1) ∧ n ≤ 2 ^ 62 := by
  have hsp : size (toNearestSizeLoop sz 0 sz) ≤ sz ∧ sz < size (toNearestSizeLoop sz 0 sz + 1) :=
    toNearestSizeLoop_spec (Nat.zero_le sz) (by simp) ((Nat.lt_succ_self sz).trans_le (le_size _))
  refine ⟨toNearestSizeLoop sz 0 sz, ?_, hsp.1, hsp.2, ?_⟩
  · rw [toNearestSize, if_neg (Nat.not_lt.2 hsz)]
    rfl
  · rw [← size_lt_two_pow_iff]
    have : maxPosition < 2 ^ (62 + 1) := by decide
    omega

/-- **The nodes to pin are the peaks of the largest range before the boundary.** -/
theorem nodesToPin_eq (hsz : sz ≤ maxPosition) :
    ∃ n, nodesToPin sz = some ((peaks n).map fun node => pos node.1 node.2) ∧
      size n ≤ sz ∧ sz < size (n + 1) := by
  obtain ⟨n, hnr, hle, hlt, hn⟩ := toNearestSize_spec hsz
  refine ⟨n, ?_, hle, hlt⟩
  rw [nodesToPin, hnr]
  simp [peakIterator_size hn, peakItem, Function.comp_def]

theorem largest_unique {x p p' : ℕ} (hlo : size p ≤ x) (hhi : x < size (p + 1)) (hlo' : size p' ≤ x)
    (hhi' : x < size (p' + 1)) : p' = p := by
  have h₁ : p < p' + 1 := size_lt_size_iff.1 (by omega)
  have h₂ : p' < p + 1 := size_lt_size_iff.1 (by omega)
  omega

/-- The pinned nodes of a boundary are the peaks of the largest range before it. -/
theorem nodesToPin_of {x p : ℕ} (hx : x ≤ maxPosition) (hlo : size p ≤ x) (hhi : x < size (p + 1)) :
    nodesToPin x = some ((peaks p).map fun node => pos node.1 node.2) := by
  obtain ⟨n, hn, hlo', hhi'⟩ := nodesToPin_eq hx
  obtain rfl := largest_unique hlo hhi hlo' hhi'
  exact hn

end Commonware.Mmr
