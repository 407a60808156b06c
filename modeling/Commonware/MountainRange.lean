/-
**The shape of a mountain range.**

A mountain range is a list of perfect binary trees of strictly decreasing height, one for each one
in the binary digits of the number of its leaves.  Its nodes are numbered in post-order, and keep
their numbers as leaves are added.

The node of height `h` with index `q` stands over the leaves from `q * 2 ^ h` up to, but not
including, `(q + 1) * 2 ^ h`; its children are the nodes `2 * q` and `2 * q + 1` of height `h - 1`.
The order of positions is then the order of the times at which nodes come into being.

Main definitions:

* `MountainRange.size` — the number of nodes over a number of leaves, and the position of the leaf
  after them;
* `MountainRange.pos` — the position of a node;
* `MountainRange.peaks` — the roots of the trees.

Main results:

* `MountainRange.pos_lt_size_iff` — **which nodes a range has**;
* `MountainRange.pos_inj` — positions identify nodes.
-/

import Mathlib.Data.Nat.Digits.Lemmas
import Mathlib.Data.Nat.Bitwise
import Mathlib.Data.Nat.Factorization.Basic

set_option autoImplicit false

namespace MountainRange

/-! ### Ones -/

/-- The number of ones among the binary digits. -/
def ones (n : ℕ) : ℕ := (Nat.digits 2 n).sum

@[simp] theorem ones_zero : ones 0 = 0 := by simp [ones]

@[simp] theorem ones_two_mul (n : ℕ) : ones (2 * n) = ones n := by
  rcases Nat.eq_zero_or_pos n with rfl | hn
  · rfl
  · rw [ones, Nat.digits_base_mul one_lt_two hn, List.sum_cons, zero_add, ones]

@[simp] theorem ones_two_mul_add_one (n : ℕ) : ones (2 * n + 1) = ones n + 1 := by
  rw [ones, add_comm, Nat.digits_add 2 one_lt_two 1 n one_lt_two (Or.inl one_ne_zero),
    List.sum_cons, ones, add_comm]

/-- Digits of the higher and of the lower part. -/
theorem ones_mul_pow_add {r : ℕ} (q h : ℕ) (hr : r < 2 ^ h) :
    ones (q * 2 ^ h + r) = ones q + ones r := by
  induction h generalizing r with
  | zero =>
    have : r = 0 := by omega
    subst this
    simp
  | succ h ih =>
    have hr' : r / 2 < 2 ^ h := by omega
    have hq : q * 2 ^ (h + 1) = 2 * (q * 2 ^ h) := by ring
    rcases Nat.mod_two_eq_zero_or_one r with hm | hm
    · obtain ⟨s, rfl⟩ : ∃ s, r = 2 * s := ⟨r / 2, by omega⟩
      rw [hq, ← mul_add, ones_two_mul, ones_two_mul]
      exact ih (by omega)
    · obtain ⟨s, rfl⟩ : ∃ s, r = 2 * s + 1 := ⟨r / 2, by omega⟩
      rw [hq, ← add_assoc, ← mul_add, ones_two_mul_add_one, ones_two_mul_add_one,
        ih (by omega), add_assoc]

@[simp] theorem ones_mul_pow (q h : ℕ) : ones (q * 2 ^ h) = ones q := by
  have := ones_mul_pow_add q h (Nat.two_pow_pos h)
  rwa [add_zero, ones_zero, add_zero] at this

theorem ones_two_pow_sub_one (h : ℕ) : ones (2 ^ h - 1) = h := by
  induction h with
  | zero => simp
  | succ h ih =>
    have hp := Nat.two_pow_pos h
    have heq : 2 ^ (h + 1) - 1 = 2 * (2 ^ h - 1) + 1 := by omega
    rw [heq, ones_two_mul_add_one, ih]

theorem ones_le (n : ℕ) : ones n ≤ n := by
  induction n using Nat.strong_induction_on with
  | _ n ih =>
    rcases Nat.even_or_odd' n with ⟨m, rfl | rfl⟩
    · rcases Nat.eq_zero_or_pos m with rfl | hm
      · simp
      · have := ih m (by omega)
        rw [ones_two_mul]
        omega
    · have := ih m (by omega)
      rw [ones_two_mul_add_one]
      omega

theorem ones_succ_le (n : ℕ) : ones (n + 1) ≤ ones n + 1 := by
  induction n using Nat.strong_induction_on with
  | _ n ih =>
    rcases Nat.even_or_odd' n with ⟨m, rfl | rfl⟩
    · rw [ones_two_mul_add_one, ones_two_mul]
    · have := ih m (by omega)
      have heq : 2 * m + 1 + 1 = 2 * (m + 1) := by ring
      rw [heq, ones_two_mul, ones_two_mul_add_one]
      omega

/-! ### Sizes -/

/-- The number of nodes over `n` leaves. -/
def size (n : ℕ) : ℕ := 2 * n - ones n

@[simp] theorem size_zero : size 0 = 0 := by simp [size]

theorem size_add_ones (n : ℕ) : size n + ones n = 2 * n := by
  have := ones_le n
  rw [size]
  omega

theorem le_size (n : ℕ) : n ≤ size n := by
  have := ones_le n
  have := size_add_ones n
  omega

theorem size_lt_size_succ (n : ℕ) : size n < size (n + 1) := by
  have h₁ := size_add_ones n
  have h₂ := size_add_ones (n + 1)
  have h₃ := ones_succ_le n
  omega

theorem size_strictMono : StrictMono size := strictMono_nat_of_lt_succ size_lt_size_succ

variable {n m : ℕ}

@[simp] theorem size_lt_size_iff : size m < size n ↔ m < n := size_strictMono.lt_iff_lt

@[simp] theorem size_le_size_iff : size m ≤ size n ↔ m ≤ n := size_strictMono.le_iff_le

@[simp] theorem size_inj : size m = size n ↔ m = n := size_strictMono.injective.eq_iff

theorem size_two_pow (h : ℕ) : size (2 ^ h) + 1 = 2 ^ (h + 1) := by
  have h₁ := size_add_ones (2 ^ h)
  have h₂ : ones (2 ^ h) = 1 := by
    have := ones_mul_pow 1 h
    rw [one_mul] at this
    rw [this]
    rfl
  have := Nat.two_pow_pos h
  omega

variable {h : ℕ}

theorem size_lt_two_pow_iff : size n < 2 ^ (h + 1) ↔ n ≤ 2 ^ h := by
  have hp := size_two_pow h
  constructor
  · intro hlt
    by_contra hle
    have := size_lt_size_iff.2 (Nat.lt_of_not_le hle)
    omega
  · intro hle
    have := size_le_size_iff.2 hle
    omega

/-! ### Positions -/

/-- The position of the node of height `h` with index `q`. -/
def pos (h q : ℕ) : ℕ := 2 ^ (h + 1) * (q + 1) - ones q - 2

theorem pos_add (h q : ℕ) : pos h q + ones q + 2 = 2 ^ (h + 1) * (q + 1) := by
  have hon := ones_le q
  have hp : 2 * (q + 1) ≤ 2 ^ (h + 1) * (q + 1) := by
    have := Nat.two_pow_pos h
    exact Nat.mul_le_mul_right _ (by omega)
  rw [pos]
  omega

@[simp] theorem pos_zero_left (q : ℕ) : pos 0 q = size q := by
  have h₁ := pos_add 0 q
  have h₂ := size_add_ones q
  omega

theorem pos_left (h q : ℕ) : pos h (2 * q) + 2 ^ (h + 1) = pos (h + 1) q := by
  have h₁ := pos_add h (2 * q)
  have h₂ := pos_add (h + 1) q
  rw [ones_two_mul] at h₁
  have h₃ : 2 ^ (h + 1 + 1) * (q + 1) = 2 ^ (h + 1) * (2 * q + 1) + 2 ^ (h + 1) := by ring
  omega

theorem pos_right (h q : ℕ) : pos h (2 * q + 1) + 1 = pos (h + 1) q := by
  have h₁ := pos_add h (2 * q + 1)
  have h₂ := pos_add (h + 1) q
  rw [ones_two_mul_add_one] at h₁
  have h₃ : 2 ^ (h + 1 + 1) * (q + 1) = 2 ^ (h + 1) * (2 * q + 1 + 1) := by ring
  omega

/-- The leaves below a node are those below its children. -/
theorem leaves_halves (h q : ℕ) : q * 2 ^ (h + 1) = 2 * q * 2 ^ h ∧
    (2 * q + 1) * 2 ^ h = 2 * q * 2 ^ h + 2 ^ h ∧
    (2 * q + 1 + 1) * 2 ^ h = (2 * q + 1) * 2 ^ h + 2 ^ h ∧
    (q + 1) * 2 ^ (h + 1) = (2 * q + 1 + 1) * 2 ^ h ∧ 0 < 2 ^ h :=
  ⟨by ring, by ring, by ring, by ring, Nat.two_pow_pos h⟩

/-- The first leaf below a node. -/
theorem size_mul_pow_add (h q : ℕ) : size (q * 2 ^ h) + 2 ^ (h + 1) = pos h q + 2 := by
  have h₁ := size_add_ones (q * 2 ^ h)
  have h₂ := pos_add h q
  rw [ones_mul_pow] at h₁
  have h₃ : 2 ^ (h + 1) * (q + 1) = 2 * (q * 2 ^ h) + 2 ^ (h + 1) := by ring
  omega

/-- The last leaf below a node. -/
theorem size_last_add (h q : ℕ) : size ((q + 1) * 2 ^ h - 1) + h = pos h q := by
  have hp := Nat.two_pow_pos h
  have heq : (q + 1) * 2 ^ h - 1 = q * 2 ^ h + (2 ^ h - 1) := by
    rw [add_mul, one_mul]
    omega
  have h₁ := size_add_ones ((q + 1) * 2 ^ h - 1)
  have h₂ := pos_add h q
  rw [heq, ones_mul_pow_add q h (by omega), ones_two_pow_sub_one] at h₁
  have h₃ : 2 ^ (h + 1) * (q + 1) = 2 * (q * 2 ^ h) + 2 * 2 ^ h := by ring
  rw [heq]
  omega

theorem pos_lt_size (h q : ℕ) : pos h q < size ((q + 1) * 2 ^ h) := by
  have h₁ := size_add_ones ((q + 1) * 2 ^ h)
  have h₂ := pos_add h q
  have h₃ := ones_succ_le q
  rw [ones_mul_pow] at h₁
  have h₄ : 2 ^ (h + 1) * (q + 1) = 2 * ((q + 1) * 2 ^ h) := by ring
  omega

variable {q : ℕ}

/-- **The nodes of a range**: those of which all leaves are there. -/
theorem pos_lt_size_iff : pos h q < size n ↔ (q + 1) * 2 ^ h ≤ n := by
  constructor
  · intro hlt
    by_contra hle
    have hls := size_last_add h q
    have : size n ≤ size ((q + 1) * 2 ^ h - 1) := size_le_size_iff.2 (by omega)
    omega
  · intro hle
    exact (pos_lt_size h q).trans_le (size_le_size_iff.2 hle)

theorem size_le_pos_iff : size n ≤ pos h q ↔ n < (q + 1) * 2 ^ h := by
  rw [← not_lt, pos_lt_size_iff, not_le]

/-! ### The nodes above a leaf -/

theorem lt_block_end (a h : ℕ) : a < (a / 2 ^ h + 1) * 2 ^ h := by
  rw [add_mul, one_mul]
  exact Nat.lt_div_mul_add (Nat.two_pow_pos h)

/-- A node above a leaf ends before the nodes above it do. -/
theorem block_end_mono (a : ℕ) {i : ℕ} (hi : i ≤ h) :
    (a / 2 ^ i + 1) * 2 ^ i ≤ (a / 2 ^ h + 1) * 2 ^ h := by
  obtain ⟨j, rfl⟩ := Nat.exists_eq_add_of_le hi
  have hlt := lt_block_end a (i + j)
  generalize a / 2 ^ (i + j) + 1 = b at hlt ⊢
  rw [pow_add, mul_comm (2 ^ i) (2 ^ j), ← mul_assoc] at hlt ⊢
  exact Nat.mul_le_mul_right _
    (Nat.succ_le_of_lt ((Nat.div_lt_iff_lt_mul (Nat.two_pow_pos i)).2 hlt))

/-! ### The nodes of a leaf

A leaf comes with the parents that it completes: as many as its location has ones at the end. -/

variable {t : ℕ}

theorem add_one_of_ones (hon : ∀ i < t, n / 2 ^ i % 2 = 1) (hz : n / 2 ^ t % 2 = 0) :
    ∃ q, n + 1 = (2 * q + 1) * 2 ^ t := by
  induction t generalizing n with
  | zero =>
    rw [pow_zero, Nat.div_one] at hz
    exact ⟨n / 2, by omega⟩
  | succ t ih =>
    have hod := hon 0 (Nat.succ_pos t)
    rw [pow_zero, Nat.div_one] at hod
    have hsh : ∀ i, n / 2 / 2 ^ i = n / 2 ^ (i + 1) := by
      intro i
      rw [Nat.div_div_eq_div_mul, pow_succ']
    obtain ⟨q, hq⟩ := @ih (n / 2) (fun i hi => by rw [hsh]; exact hon (i + 1) (by omega))
      (by rw [hsh]; exact hz)
    refine ⟨q, ?_⟩
    calc n + 1 = 2 * (n / 2 + 1) := by omega
      _ = (2 * q + 1) * 2 ^ (t + 1) := by rw [hq]; ring

theorem size_add_one (hn : n + 1 = (2 * q + 1) * 2 ^ t) :
    size (n + 1) = size n + 1 + t := by
  have hls := size_last_add t (2 * q)
  have he := size_mul_pow_add t (2 * q + 1)
  have hrg := pos_right t q
  have hlf := pos_left t q
  rw [← hn] at hls he
  rw [Nat.add_sub_cancel] at hls
  omega

theorem pos_of_end (he : (q + 1) * 2 ^ h = n + 1) : pos h q = size n + h := by
  have := size_last_add h q
  rw [he, Nat.add_sub_cancel] at this
  exact this.symm

theorem le_of_end {q' : ℕ} (hn : n + 1 = (2 * q + 1) * 2 ^ t) (he : (q' + 1) * 2 ^ h = n + 1) :
    h ≤ t := by
  by_contra hlt
  obtain ⟨j, rfl⟩ : ∃ j, h = t + (j + 1) := ⟨h - t - 1, by omega⟩
  have hp : (q' + 1) * 2 ^ (j + 1) * 2 ^ t = (2 * q + 1) * 2 ^ t := by
    rw [← hn, ← he]
    ring
  have heq := Nat.eq_of_mul_eq_mul_right (Nat.two_pow_pos t) hp
  rw [pow_succ, ← mul_assoc] at heq
  omega

/-- There is one node of each height up to the last one. -/
theorem exists_end {j : ℕ} (hn : n + 1 = (2 * q + 1) * 2 ^ t) (hj : j ≤ t) :
    ∃ q', (q' + 1) * 2 ^ j = n + 1 := by
  obtain ⟨i, rfl⟩ := Nat.exists_eq_add_of_le hj
  have hp : 0 < (2 * q + 1) * 2 ^ i := by positivity
  refine ⟨(2 * q + 1) * 2 ^ i - 1, ?_⟩
  rw [Nat.sub_add_cancel hp, hn]
  ring

/-- Every position is that of a node. -/
theorem exists_pos {x : ℕ} (hx : x < size n) : ∃ h q, x = pos h q ∧ (q + 1) * 2 ^ h ≤ n := by
  induction n with
  | zero => exact absurd hx (by simp)
  | succ n ih =>
    rcases Nat.lt_or_ge x (size n) with hlt | hge
    · obtain ⟨h, q, rfl, he⟩ := ih hlt
      exact ⟨h, q, rfl, he.trans (Nat.le_succ n)⟩
    · obtain ⟨t, r, hod, hn⟩ := Nat.exists_eq_two_pow_mul_odd (Nat.succ_ne_zero n)
      obtain ⟨r, rfl⟩ := hod
      have hsc : n + 1 = (2 * r + 1) * 2 ^ t := hn.trans (Nat.mul_comm _ _)
      have hsize := size_add_one hsc
      obtain ⟨q, hq⟩ := exists_end hsc (show x - size n ≤ t by omega)
      refine ⟨x - size n, q, ?_, hq.le⟩
      rw [pos_of_end hq]
      omega

/-- A node comes before its ancestors. -/
theorem pos_lt_of_end_eq {h' q' : ℕ} (he : (q + 1) * 2 ^ h = (q' + 1) * 2 ^ h') (hlt : h < h') :
    pos h q < pos h' q' := by
  obtain ⟨j, rfl⟩ : ∃ j, h' = h + (j + 1) := ⟨h' - h - 1, by omega⟩
  have hp := Nat.two_pow_pos h
  have hq : q + 1 = (q' + 1) * 2 ^ (j + 1) := by
    refine Nat.eq_of_mul_eq_mul_right hp ?_
    rw [he, pow_add]
    ring
  have hj := Nat.two_pow_pos (j + 1)
  have hq' : q = q' * 2 ^ (j + 1) + (2 ^ (j + 1) - 1) := by
    rw [add_mul, one_mul] at hq
    omega
  have hon : ones q = ones q' + (j + 1) := by
    rw [hq', ones_mul_pow_add q' (j + 1) (by omega), ones_two_pow_sub_one]
  have h₁ := pos_add h q
  have h₂ := pos_add (h + (j + 1)) q'
  have h₃ : 2 ^ (h + (j + 1) + 1) * (q' + 1) = 2 ^ (h + 1) * (q + 1) := by
    rw [hq, pow_add 2 (h + (j + 1)), pow_add 2 h, pow_add 2 h]
    ring
  omega

/-- **Positions identify nodes.** -/
theorem pos_inj {h' q' : ℕ} (heq : pos h q = pos h' q') : h = h' ∧ q = q' := by
  have he : (q + 1) * 2 ^ h = (q' + 1) * 2 ^ h' := by
    refine le_antisymm ?_ ?_
    · rw [← pos_lt_size_iff, heq]
      exact pos_lt_size h' q'
    · rw [← pos_lt_size_iff, ← heq]
      exact pos_lt_size h q
  rcases lt_trichotomy h h' with hlt | rfl | hgt
  · have := pos_lt_of_end_eq he hlt
    omega
  · have := Nat.eq_of_mul_eq_mul_right (Nat.two_pow_pos h) he
    exact ⟨rfl, by omega⟩
  · have := pos_lt_of_end_eq he.symm hgt
    omega

/-- The largest range before a boundary. -/
theorem exists_size (x : ℕ) : ∃ n, size n ≤ x ∧ x < size (n + 1) := by
  induction x with
  | zero => exact ⟨0, size_zero.le, by simpa using size_lt_size_succ 0⟩
  | succ x ih =>
    obtain ⟨n, hlo, hhi⟩ := ih
    rcases Nat.lt_or_ge (x + 1) (size (n + 1)) with hlt | hge
    · exact ⟨n, hlo.trans x.le_succ, hlt⟩
    · exact ⟨n + 1, hge, (Nat.succ_le_of_lt hhi).trans_lt (size_lt_size_succ _)⟩

/-! ### Peaks -/

/-- The peaks of height less than `k` of a range with `n` leaves, from the highest on. -/
def peaksBelow (n : ℕ) : ℕ → List (ℕ × ℕ)
  | 0 => []
  | k + 1 => if n / 2 ^ k % 2 = 1 then (k, n / 2 ^ k - 1) :: peaksBelow n k else peaksBelow n k

/-- The peaks of a range with `n` leaves, as heights and indices. -/
def peaks (n : ℕ) : List (ℕ × ℕ) := peaksBelow n (n.log2 + 1)

variable {k : ℕ}

theorem peaksBelow_of_lt {k' : ℕ} (hn : n < 2 ^ k) (hk : k ≤ k') :
    peaksBelow n k' = peaksBelow n k := by
  induction k', hk using Nat.le_induction with
  | base => rfl
  | succ k' hk' ih =>
    have hlt : n < 2 ^ k' := hn.trans_le (Nat.pow_le_pow_right two_pos hk')
    rw [peaksBelow, Nat.div_eq_of_lt hlt, if_neg (by decide), ih]

theorem peaks_eq (hn : n < 2 ^ k) : peaks n = peaksBelow n k := by
  rcases Nat.le_total k (n.log2 + 1) with hle | hle
  · exact peaksBelow_of_lt hn hle
  · exact (peaksBelow_of_lt Nat.lt_log2_self hle).symm

theorem mem_peaksBelow :
    (h, q) ∈ peaksBelow n k ↔ h < k ∧ n / 2 ^ h = q + 1 ∧ q % 2 = 0 := by
  induction k with
  | zero => simp [peaksBelow]
  | succ k ih =>
    rw [peaksBelow]
    split_ifs with hb
    · rw [List.mem_cons, ih, Prod.mk.injEq]
      constructor
      · rintro (⟨rfl, rfl⟩ | ⟨hlt, hq⟩)
        · generalize n / 2 ^ h = m at hb ⊢
          omega
        · exact ⟨by omega, hq⟩
      · rintro ⟨hlt, hq⟩
        rcases Nat.lt_succ_iff_lt_or_eq.1 hlt with hlt | rfl
        · exact Or.inr ⟨hlt, hq⟩
        · exact Or.inl ⟨rfl, by omega⟩
    · rw [ih]
      constructor
      · rintro ⟨hlt, hq⟩
        exact ⟨by omega, hq⟩
      · rintro ⟨hlt, hq⟩
        rcases Nat.lt_succ_iff_lt_or_eq.1 hlt with hlt | rfl
        · exact ⟨hlt, hq⟩
        · omega

/-- **The peaks of a range.** -/
theorem mem_peaks : (h, q) ∈ peaks n ↔ n / 2 ^ h = q + 1 ∧ q % 2 = 0 := by
  rw [peaks, mem_peaksBelow]
  constructor
  · rintro ⟨-, hq⟩
    exact hq
  · rintro ⟨hq, hev⟩
    refine ⟨?_, hq, hev⟩
    by_contra hle
    have hlt : n < 2 ^ h :=
      Nat.lt_log2_self.trans_le (Nat.pow_le_pow_right two_pos (Nat.le_of_not_lt hle))
    rw [Nat.div_eq_of_lt hlt] at hq
    omega

/-- Mountains side by side, from a leaf up to the end, each lower than those before it. -/
inductive Tiles (n : ℕ) : ℕ → List (ℕ × ℕ) → Prop
  | nil : Tiles n n []
  | cons {h q : ℕ} {nodes : List (ℕ × ℕ)} (hlow : ∀ node ∈ nodes, node.1 < h)
      (hrest : Tiles n ((q + 1) * 2 ^ h) nodes) : Tiles n (q * 2 ^ h) ((h, q) :: nodes)

theorem tiles_peaksBelow (n k : ℕ) : Tiles n (n / 2 ^ k * 2 ^ k) (peaksBelow n k) := by
  induction k with
  | zero => simpa [peaksBelow] using Tiles.nil
  | succ k ih =>
    have hdv : n / 2 ^ (k + 1) * 2 ^ (k + 1) = 2 * (n / 2 ^ k / 2) * 2 ^ k := by
      rw [pow_succ, ← Nat.div_div_eq_div_mul]
      ring
    rw [peaksBelow, hdv]
    split_ifs with hb
    · have hev : 2 * (n / 2 ^ k / 2) = n / 2 ^ k - 1 := by omega
      rw [hev]
      refine .cons (fun node hnd => (mem_peaksBelow.1 hnd).1) ?_
      rwa [Nat.sub_add_cancel (by omega)]
    · have hev : 2 * (n / 2 ^ k / 2) = n / 2 ^ k := by omega
      rwa [hev]

/-- **The peaks tile the range.** -/
theorem tiles_peaks (n : ℕ) : Tiles n 0 (peaks n) := by
  have ht := tiles_peaksBelow n (n.log2 + 1)
  rwa [Nat.div_eq_of_lt Nat.lt_log2_self, Nat.zero_mul] at ht

variable {nodes : List (ℕ × ℕ)}

theorem Tiles.start_le {a : ℕ} (ht : Tiles n a nodes) :
    ∀ node ∈ nodes, a ≤ node.2 * 2 ^ node.1 := by
  induction ht with
  | nil => simp
  | cons _ _ ih =>
    rw [List.forall_mem_cons]
    exact ⟨le_rfl, fun node hnd =>
      (Nat.mul_le_mul_right _ (Nat.le_succ _)).trans (ih node hnd)⟩

theorem Tiles.nodup {a : ℕ} (ht : Tiles n a nodes) : nodes.Nodup := by
  induction ht with
  | nil => exact List.nodup_nil
  | cons hl _ ih => exact List.nodup_cons.2 ⟨fun hmem => lt_irrefl _ (hl _ hmem), ih⟩

theorem peak_end_le (hmem : (h, q) ∈ peaks n) : (q + 1) * 2 ^ h ≤ n := by
  rw [← (mem_peaks.1 hmem).1]
  exact Nat.div_mul_le_self n _

theorem lt_of_peak (hmem : (h, q) ∈ peaks n) : n < (q + 1 + 1) * 2 ^ h := by
  rw [← (mem_peaks.1 hmem).1]
  exact lt_block_end n h

/-- The parent of a peak is not in the range. -/
theorem lt_parent_of_peak (hmem : (h, q) ∈ peaks n) : n < (q / 2 + 1) * 2 ^ (h + 1) := by
  have hev := (mem_peaks.1 hmem).2
  have hq : q + 1 + 1 = 2 * (q / 2 + 1) := by omega
  calc n < (q + 1 + 1) * 2 ^ h := lt_of_peak hmem
    _ = (q / 2 + 1) * 2 ^ (h + 1) := by
      rw [hq]
      ring

end MountainRange
