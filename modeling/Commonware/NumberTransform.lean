/-
**The number theoretic transform, in place.**

A vector of `2 ^ lg` coefficients is turned into the values of the polynomial at the powers of a root of
unity.  The coefficients stand in the order of their reversed indices, so that the even ones come
before the odd ones, at every level.  Stage `s` combines neighbours of `2 ^ s` values; the inverse
transform undoes the stages from the last one on.

The functions compute with any addition, subtraction and multiplication, so that they can be run on the
words of a field and on the field.

Main definitions:

* `Transform.pairLoop`, `Transform.blockLoop`, `Transform.stages` — the loops;
* `Transform.forward`, `Transform.backward` — the transform and its inverse;
* `Transform.rev`, `Transform.evalRev` — reversed indices, and the value of a polynomial.

Main results:

* `Transform.forward_apply` — **the transform evaluates the polynomial**;
* `Transform.map_forward` — the transform of the images under a homomorphism.
-/

import Mathlib.Algebra.BigOperators.Intervals
import Mathlib.Algebra.BigOperators.Ring.Finset
import Mathlib.Tactic.LinearCombination
import Mathlib.Tactic.Ring

set_option autoImplicit false

/-- Half of a number. -/
class Half (A : Type) where
  half : A → A

namespace Transform

open Finset Function

variable {A : Type} [One A] [Mul A]

/-! ### Loops -/

def forwardPair [Add A] [Sub A] (w a b : A) : A × A := (a + w * b, a - w * b)

def backwardPair [Add A] [Sub A] [Half A] (w a b : A) : A × A :=
  (Half.half (a + b), Half.half ((a - b) * w))

variable (pair : A → A → A → A × A)

/-- The pairs of a block, from the `j`-th one on. -/
def pairLoop (w : A) (base skip : ℕ) : ℕ → ℕ → A → (ℕ → A) → ℕ → A
  | 0, _, _, v => v
  | n + 1, j, wj, v =>
    let indexA := base + j
    let indexB := indexA + skip
    let ab := pair wj (v indexA) (v indexB)
    pairLoop w base skip n (j + 1) (wj * w)
      (Function.update (Function.update v indexA ab.1) indexB ab.2)

/-- Some blocks, one after the other. -/
def blockLoop (w : A) (skip : ℕ) : ℕ → ℕ → (ℕ → A) → ℕ → A
  | 0, _, v => v
  | n + 1, i, v => blockLoop w skip n (i + 2 * skip) (pairLoop pair w i skip skip 0 1 v)

def stage (lg : ℕ) (v : ℕ → A) (s : ℕ × A) : ℕ → A :=
  blockLoop pair s.2 (2 ^ s.1) (2 ^ lg / (2 * 2 ^ s.1)) 0 v

/-- The stages and their roots: the last stage has the root itself, the one before its square. -/
def stages : ℕ → A → List (ℕ × A)
  | 0, _ => []
  | n + 1, w => stages n (w * w) ++ [(n, w)]

def forward [Add A] [Sub A] (lg : ℕ) (w : A) (v : ℕ → A) : ℕ → A :=
  (stages lg w).foldl (stage forwardPair lg) v

def backward [Add A] [Sub A] [Half A] (lg : ℕ) (w : A) (v : ℕ → A) : ℕ → A :=
  (stages lg w).reverse.foldl (stage backwardPair lg) v

/-! ### What a stage does -/

/-- The powers of `w`, as the loop computes them. -/
def powerFrom (wj w : A) : ℕ → A
  | 0 => wj
  | j + 1 => powerFrom (wj * w) w j

omit [One A] in
theorem pairLoop_apply (w : A) (base skip n j : ℕ) (wj : A) (v : ℕ → A) (h : j + n ≤ skip) (i : ℕ) :
    pairLoop pair w base skip n j wj v i =
      if base + j ≤ i ∧ i < base + j + n then
        (pair (powerFrom wj w (i - (base + j))) (v i) (v (i + skip))).1
      else if base + j + skip ≤ i ∧ i < base + j + skip + n then
        (pair (powerFrom wj w (i - (base + j + skip))) (v (i - skip)) (v i)).2
      else v i := by
  induction n generalizing j wj v with
  | zero =>
    rw [pairLoop, if_neg (by omega), if_neg (by omega)]
  | succ n ih =>
    rw [pairLoop, ih _ _ _ (by omega)]
    -- the pair at `j`, the pairs behind it, and the rest
    rcases eq_or_ne i (base + j) with rfl | ha
    · rw [if_neg (by omega), if_neg (by omega), if_pos (by omega), Nat.sub_self, powerFrom,
        update_of_ne (by omega), update_self]
    rcases eq_or_ne i (base + j + skip) with rfl | hb
    · rw [if_neg (by omega), if_neg (by omega), if_neg (by omega), if_pos (by omega), Nat.sub_self,
        powerFrom, update_self, Nat.add_sub_cancel]
    by_cases hin : base + j ≤ i ∧ i < base + j + (n + 1)
    · rw [if_pos (by omega), if_pos hin, update_of_ne (by omega),
        update_of_ne (by omega), update_of_ne (by omega),
        update_of_ne (by omega), show i - (base + j) = i - (base + (j + 1)) + 1 by omega,
        powerFrom]
    rw [if_neg (by omega), if_neg hin]
    by_cases hin' : base + j + skip ≤ i ∧ i < base + j + skip + (n + 1)
    · rw [if_pos (by omega), if_pos hin', update_of_ne (by omega),
        update_of_ne (by omega), update_of_ne (by omega),
        update_of_ne (by omega),
        show i - (base + j + skip) = i - (base + (j + 1) + skip) + 1 by omega, powerFrom]
    · rw [if_neg (by omega), if_neg hin', update_of_ne hb, update_of_ne ha]

/-- What a stage does at an index. -/
def butterfly (w : A) (skip : ℕ) (v : ℕ → A) (i : ℕ) : A :=
  if i % (2 * skip) < skip then
    (pair (powerFrom 1 w (i % (2 * skip))) (v i) (v (i + skip))).1
  else (pair (powerFrom 1 w (i % (2 * skip) - skip)) (v (i - skip)) (v i)).2

theorem blockLoop_apply (w : A) {skip : ℕ} (hsk : 0 < skip) (n k : ℕ) (v : ℕ → A) (i : ℕ) :
    blockLoop pair w skip n (k * (2 * skip)) v i =
      if k * (2 * skip) ≤ i ∧ i < (k + n) * (2 * skip) then butterfly pair w skip v i else v i := by
  induction n generalizing k v with
  | zero =>
    rw [Nat.add_zero, blockLoop, if_neg (by omega)]
  | succ n ih =>
    have hnx : k * (2 * skip) + 2 * skip = (k + 1) * (2 * skip) := by ring
    have he : (k + 1 + n) * (2 * skip) = (k + (n + 1)) * (2 * skip) := by ring
    have hle : (k + 1) * (2 * skip) ≤ (k + (n + 1)) * (2 * skip) :=
      Nat.mul_le_mul_right _ (by omega)
    rw [blockLoop, hnx, ih, he]
    have hpair := fun i => pairLoop_apply pair w (k * (2 * skip)) skip skip 0 1 v (by omega) i
    simp only [Nat.add_zero] at hpair
    by_cases hlr : (k + 1) * (2 * skip) ≤ i ∧ i < (k + (n + 1)) * (2 * skip)
    · -- the blocks behind do not see this one
      have hdv : k + 1 ≤ i / (2 * skip) := (Nat.le_div_iff_mul_le (by omega)).2 hlr.1
      have hm := Nat.div_add_mod i (2 * skip)
      have hmul : (k + 1) * (2 * skip) ≤ 2 * skip * (i / (2 * skip)) := by
        rw [Nat.mul_comm (2 * skip)]
        exact Nat.mul_le_mul_right _ hdv
      rw [if_pos hlr, if_pos (by omega), butterfly, butterfly]
      split_ifs <;> rw [hpair, hpair, if_neg (by omega), if_neg (by omega), if_neg (by omega),
        if_neg (by omega)]
    rw [if_neg hlr, hpair]
    by_cases hin : k * (2 * skip) ≤ i ∧ i < (k + (n + 1)) * (2 * skip)
    · have hm : i % (2 * skip) = i - k * (2 * skip) := by
        have hlt : i - k * (2 * skip) < 2 * skip := by omega
        conv_lhs => rw [← Nat.sub_add_cancel hin.1]
        rw [Nat.add_mul_mod_self_right, Nat.mod_eq_of_lt hlt]
      rw [if_pos hin, butterfly, hm]
      by_cases hl : i < k * (2 * skip) + skip
      · rw [if_pos (by omega), if_pos (by omega)]
      · rw [if_neg (by omega), if_pos (by omega), if_neg (by omega), Nat.sub_sub]
    · rw [if_neg (by omega), if_neg (by omega), if_neg hin]

/-- A stage changes all values of the vector, and nothing behind it. -/
theorem stage_apply {lg s : ℕ} (hs : s < lg) (w : A) (v : ℕ → A) (i : ℕ) :
    stage pair lg v (s, w) i = if i < 2 ^ lg then butterfly pair w (2 ^ s) v i else v i := by
  have hbl : 2 * 2 ^ s = 2 ^ (s + 1) := (pow_succ' 2 s).symm
  have hcn : 2 ^ lg / (2 * 2 ^ s) * (2 * 2 ^ s) = 2 ^ lg := by
    rw [hbl]
    exact Nat.div_mul_cancel (pow_dvd_pow 2 hs)
  have h := blockLoop_apply pair w (Nat.two_pow_pos s) (2 ^ lg / (2 * 2 ^ s)) 0 v i
  rw [Nat.zero_mul, Nat.zero_add, hcn] at h
  rw [stage, h]
  simp only [Nat.zero_le, true_and]

/-! ### Reversed indices -/

/-- The lowest `lg` bits of a number in the opposite order. -/
def rev : ℕ → ℕ → ℕ
  | 0, _ => 0
  | lg + 1, i => 2 ^ lg * (i % 2) + rev lg (i / 2)

theorem rev_lt (lg i : ℕ) : rev lg i < 2 ^ lg := by
  induction lg generalizing i with
  | zero => exact Nat.one_pos
  | succ lg ih =>
    have hr := ih (i / 2)
    have hb : 2 ^ lg * (i % 2) ≤ 2 ^ lg * 1 := Nat.mul_le_mul_left _ (by omega)
    rw [rev, pow_succ]
    omega

variable {i : ℕ}

/-- The highest bit becomes the lowest one. -/
theorem rev_high (lg : ℕ) (hi : i < 2 ^ lg) (b : ℕ) (hb : b < 2) :
    rev (lg + 1) (2 ^ lg * b + i) = 2 * rev lg i + b := by
  induction lg generalizing i with
  | zero =>
    obtain rfl : i = 0 := by simpa using hi
    simp only [rev, pow_zero]
    omega
  | succ lg ih =>
    have hdv : (2 ^ (lg + 1) * b + i) / 2 = 2 ^ lg * b + i / 2 := by
      rw [pow_succ', Nat.mul_assoc, Nat.mul_add_div two_pos]
    have hm : (2 ^ (lg + 1) * b + i) % 2 = i % 2 := by
      rw [pow_succ', Nat.mul_assoc, Nat.mul_add_mod]
    have hh : i / 2 < 2 ^ lg := by
      rw [pow_succ] at hi
      omega
    rw [rev, hdv, hm, ih hh, rev, pow_succ]
    ring

theorem rev_rev (lg : ℕ) (hi : i < 2 ^ lg) : rev lg (rev lg i) = i := by
  induction lg generalizing i with
  | zero =>
    obtain rfl : i = 0 := by simpa using hi
    rfl
  | succ lg ih =>
    have hh : i / 2 < 2 ^ lg := by
      rw [pow_succ] at hi
      omega
    rw [show rev (lg + 1) i = 2 ^ lg * (i % 2) + rev lg (i / 2) from rfl,
      rev_high lg (rev_lt lg _) _ (by omega), ih hh]
    omega

theorem rev_inj {lg j : ℕ} (hi : i < 2 ^ lg) (hj : j < 2 ^ lg) (h : rev lg i = rev lg j) : i = j := by
  rw [← rev_rev lg hi, h, rev_rev lg hj]

/-! ### Values of polynomials -/

section Values

variable {K : Type} [CommRing K]

/-- The value of the polynomial whose coefficients stand in the order of their reversed indices. -/
def evalRev : ℕ → (ℕ → K) → K → K
  | 0, v, _ => v 0
  | n + 1, v, x => evalRev n v (x * x) + x * evalRev n (fun i => v (2 ^ n + i)) (x * x)

theorem sum_range_two_mul (m : ℕ) (f : ℕ → K) : ∑ j ∈ Finset.range (2 * m), f j =
      ∑ j ∈ Finset.range m, f (2 * j) + ∑ j ∈ Finset.range m, f (2 * j + 1) := by
  induction m with
  | zero => simp
  | succ m ih =>
    rw [Nat.mul_succ, sum_range_succ, sum_range_succ, ih, sum_range_succ, sum_range_succ]
    ring

theorem evalRev_eq_sum (n : ℕ) (v : ℕ → K) (x : K) :
    evalRev n v x = ∑ j ∈ Finset.range (2 ^ n), v (rev n j) * x ^ j := by
  induction n generalizing v x with
  | zero => rw [evalRev, pow_zero, sum_range_one, pow_zero, mul_one, rev]
  | succ n ih =>
    have hev : ∀ j, rev (n + 1) (2 * j) = rev n j := by
      intro j
      rw [rev, Nat.mul_mod_right, Nat.mul_zero, Nat.zero_add, Nat.mul_div_cancel_left j two_pos]
    have hod : ∀ j, rev (n + 1) (2 * j + 1) = 2 ^ n + rev n j := by
      intro j
      rw [rev, show (2 * j + 1) % 2 = 1 by omega, Nat.mul_one,
        show (2 * j + 1) / 2 = j by omega]
    rw [evalRev, ih, ih, pow_succ', sum_range_two_mul, mul_sum]
    congr 1
    · refine sum_congr rfl fun j _ => ?_
      rw [hev, pow_mul, pow_two]
    · refine sum_congr rfl fun j _ => ?_
      rw [hod, pow_succ, pow_mul, pow_two]
      ring

theorem powerFrom_eq (wj w : K) (j : ℕ) : powerFrom wj w j = wj * w ^ j := by
  induction j generalizing wj with
  | zero => rw [powerFrom, pow_zero, mul_one]
  | succ j ih => rw [powerFrom, ih, pow_succ', mul_assoc]

/-- The root of the last stage: a power of it is `-1`, unless there is no stage. -/
def UnityRoot : ℕ → K → Prop
  | 0, _ => True
  | n + 1, w => w ^ 2 ^ n = -1

variable {w : K}

theorem UnityRoot.square {n : ℕ} (h : UnityRoot (n + 1) w) : UnityRoot n (w * w) := by
  cases n with
  | zero => trivial
  | succ n =>
    rw [UnityRoot] at h ⊢
    rw [← pow_two, ← pow_mul, ← pow_succ', h]

/-- What the first `n` stages compute, in every block of `2 ^ n` values. -/
theorem foldl_stages_apply {lg n : ℕ} (hn : n ≤ lg) (hw : UnityRoot n w) (v : ℕ → K)
    {b t : ℕ} (ht : t < 2 ^ n) (hb : (b + 1) * 2 ^ n ≤ 2 ^ lg) :
    (stages n w).foldl (stage forwardPair lg) v (b * 2 ^ n + t) =
      evalRev n (fun i => v (b * 2 ^ n + i)) (w ^ t) := by
  induction n generalizing w b t with
  | zero =>
    obtain rfl : t = 0 := by simpa using ht
    rfl
  | succ n ih =>
    have hr := hw.square
    have hbn : (2 * b + 1 + 1) * 2 ^ n ≤ 2 ^ lg := by
      refine le_of_eq_of_le ?_ hb
      ring
    have hbn' : (2 * b + 1) * 2 ^ n ≤ 2 ^ lg :=
      (Nat.mul_le_mul_right _ (Nat.le_succ _)).trans hbn
    have hin : b * 2 ^ (n + 1) + t < 2 ^ lg := by
      rw [Nat.succ_mul] at hb
      omega
    rw [stages, List.foldl_concat, stage_apply _ (by omega), if_pos hin, butterfly]
    have hm : (b * 2 ^ (n + 1) + t) % (2 * 2 ^ n) = t := by
      rw [← pow_succ', Nat.mul_comm, Nat.mul_add_mod, Nat.mod_eq_of_lt ht]
    have hp : 2 ^ (n + 1) = 2 * 2 ^ n := pow_succ' 2 n
    have hlf : b * 2 ^ (n + 1) = 2 * b * 2 ^ n := by
      rw [hp]
      ring
    have hrg : b * 2 ^ (n + 1) + 2 ^ n = (2 * b + 1) * 2 ^ n := by
      rw [hp]
      ring
    rw [hm, evalRev]
    -- the two halves of the block
    have hf := fun s (hs : s < 2 ^ n) => ih (by omega) hr hs (b := 2 * b) hbn'
    have hsc := fun s (hs : s < 2 ^ n) => ih (by omega) hr hs (b := 2 * b + 1) hbn
    rw [← hlf] at hf
    rw [← hrg] at hsc
    by_cases hl : t < 2 ^ n
    · rw [if_pos hl, forwardPair, powerFrom_eq, one_mul, hf t hl, Nat.add_right_comm, hsc t hl,
        ← mul_pow]
      simp only [Nat.add_assoc]
    · -- the power of the root is the opposite of the one at the index before
      obtain ⟨t, rfl⟩ := Nat.exists_eq_add_of_le (Nat.not_lt.1 hl)
      have hsm : t < 2 ^ n := by omega
      have hng : w ^ (2 ^ n + t) = -w ^ t := by
        rw [pow_add, show w ^ 2 ^ n = -1 from hw, neg_one_mul]
      rw [if_neg hl, forwardPair, powerFrom_eq, one_mul, Nat.add_sub_cancel_left, hng,
        neg_mul_neg, ← Nat.add_assoc, Nat.add_right_comm, Nat.add_sub_cancel, hf t hsm,
        Nat.add_right_comm, hsc t hsm, ← mul_pow, neg_mul, ← sub_eq_add_neg]
      simp only [Nat.add_assoc]

/-- **The transform evaluates the polynomial** at the powers of the root. -/
theorem forward_apply {lg : ℕ} (hw : UnityRoot lg w) (v : ℕ → K) {t : ℕ}
    (ht : t < 2 ^ lg) : forward lg w v t = evalRev lg v (w ^ t) := by
  have h := foldl_stages_apply (Nat.le_refl lg) hw v (b := 0) ht (by omega)
  simp only [Nat.zero_mul, Nat.zero_add] at h
  exact h

end Values

/-! ### Homomorphisms -/

/-- A map that respects everything that the functions compute with. -/
structure ArithHom {A B : Type} [Zero A] [One A] [Add A] [Sub A] [Mul A] [Half A] [Zero B] [One B]
    [Add B] [Sub B] [Mul B] [Half B] (φ : A → B) : Prop where
  zero : φ 0 = 0
  one : φ 1 = 1
  add : ∀ a b, φ (a + b) = φ a + φ b
  sub : ∀ a b, φ (a - b) = φ a - φ b
  mul : ∀ a b, φ (a * b) = φ a * φ b
  half : ∀ a, φ (Half.half a) = Half.half (φ a)

section Hom

variable {B : Type} [One B] [Mul B] {φ : A → B} (hone : φ 1 = 1)
  (hmul : ∀ a b, φ (a * b) = φ a * φ b) {pair : A → A → A → A × A} {pair' : B → B → B → B × B}
  (hpair : ∀ w a b, pair' (φ w) (φ a) (φ b) = (φ (pair w a b).1, φ (pair w a b).2))

omit [One A] [One B] in
include hmul hpair in
theorem map_pairLoop (w : A) (base skip n j : ℕ) (wj : A) (v : ℕ → A) :
    pairLoop pair' (φ w) base skip n j (φ wj) (φ ∘ v) = φ ∘ pairLoop pair w base skip n j wj v := by
  induction n generalizing j wj v with
  | zero => rfl
  | succ n ih =>
    rw [pairLoop, pairLoop, ← ih, hmul, comp_update, comp_update, comp_apply, comp_apply, hpair]

include hone hmul hpair in
theorem map_blockLoop (w : A) (skip n i : ℕ) (v : ℕ → A) :
    blockLoop pair' (φ w) skip n i (φ ∘ v) = φ ∘ blockLoop pair w skip n i v := by
  induction n generalizing i v with
  | zero => rfl
  | succ n ih => rw [blockLoop, blockLoop, ← ih, ← map_pairLoop hmul hpair, hone]

omit [One A] [One B] in
include hmul in
theorem map_stages (n : ℕ) (w : A) : stages n (φ w) = (stages n w).map (Prod.map id φ) := by
  induction n generalizing w with
  | zero => rfl
  | succ n ih =>
    rw [stages, stages, ← hmul, ih, List.map_append]
    rfl

include hone hmul hpair in
theorem foldl_map_stage (lg : ℕ) (l : List (ℕ × A)) (v : ℕ → A) :
    (l.map (Prod.map id φ)).foldl (stage pair' lg) (φ ∘ v) = φ ∘ l.foldl (stage pair lg) v := by
  induction l generalizing v with
  | nil => rfl
  | cons s l ih =>
    rw [List.map_cons, List.foldl_cons, List.foldl_cons, ← ih, stage, stage,
      ← map_blockLoop hone hmul hpair]
    rfl

variable [Add A] [Sub A] [Add B] [Sub B]

include hone hmul in
/-- It is enough for the map to respect the sums and differences with a product. -/
theorem map_forward_of_pair
    (hpair : ∀ w a b, forwardPair (φ w) (φ a) (φ b) = (φ (forwardPair w a b).1, φ (forwardPair w a b).2))
    (lg : ℕ) (w : A) (v : ℕ → A) : forward lg (φ w) (φ ∘ v) = φ ∘ forward lg w v := by
  rw [forward, forward, map_stages hmul]
  exact foldl_map_stage hone hmul hpair lg _ v

theorem map_forward [Zero A] [Zero B] [Half A] [Half B] (hφ : ArithHom φ) (lg : ℕ) (w : A) (v : ℕ → A) :
    forward lg (φ w) (φ ∘ v) = φ ∘ forward lg w v := by
  refine map_forward_of_pair hφ.one hφ.mul (fun w a b => ?_) lg w v
  rw [forwardPair, forwardPair, hφ.add, hφ.sub, hφ.mul]

end Hom

end Transform
