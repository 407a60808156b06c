/-
**Logarithms of rational numbers, rounded up.**

`log2_ceil` of `utils/src/rational.rs` computes some binary digits of the logarithm of a rational
number, by squaring it once for each digit, and rounds the result up.

Main definitions:

* `log2Ceil`, `ceilToU128` — the functions;
* `Normal` — a number between one and two, with its exponent.

Main results:

* `nextDigit_log` — a squaring doubles the logarithm of the state;
* `log2Ceil_eq`, `log2Ceil_isLeast` — the result is the logarithm, rounded up to the precision.
-/

import Mathlib.Analysis.SpecialFunctions.Log.Base
import Mathlib.Data.Nat.Size
import Mathlib.Data.Rat.Floor

set_option autoImplicit false

namespace Commonware.Rational

/-! ### Functions -/

/-- An exponent of two, and the numerator and denominator of the rest. -/
structure Normal where
  exponent : ℤ
  numer : ℕ
  denom : ℕ

/-- Both numbers get the same number of bits; then the quotient may still be below one. -/
def normalize (numer denom : ℕ) : Normal :=
  let numerBits := numer.size
  let denomBits := denom.size
  let integerPart : ℤ := (numerBits : ℤ) - denomBits
  let normalizedNumer := if numerBits < denomBits then numer <<< (denomBits - numerBits) else numer
  let normalizedDenom := if denomBits < numerBits then denom <<< (numerBits - denomBits) else denom
  if normalizedNumer < normalizedDenom then ⟨integerPart - 1, normalizedNumer <<< 1, normalizedDenom⟩
  else ⟨integerPart, normalizedNumer, normalizedDenom⟩

/-- The next digit of the fractional part, which the exponent of the number has. -/
def nextDigit (s : Normal) : Normal :=
  let numerSquared := s.numer * s.numer
  let denomSquared := s.denom * s.denom
  let twoDenomSquared := denomSquared <<< 1
  if twoDenomSquared ≤ numerSquared then ⟨2 * s.exponent + 1, numerSquared, twoDenomSquared⟩
  else ⟨2 * s.exponent, numerSquared, denomSquared⟩

def log2Ceil (x : ℚ) (binaryDigits : ℕ) : Option ℚ :=
  if x ≤ 0 then none
  else
    let start := normalize x.num.toNat x.den
    if start.denom ≤ start.numer ∧ start.numer < start.denom <<< 1 then
      if start.numer = start.denom then
        some ((start.exponent * 2 ^ binaryDigits : ℤ) / (2 ^ binaryDigits : ℤ))
      else
        -- the fractional bits only, and then the integer part in the same units
        let digits := nextDigit^[binaryDigits] ⟨0, start.numer, start.denom⟩
        let numerator := start.exponent * 2 ^ binaryDigits + digits.exponent
        let numerator := if digits.denom < digits.numer then numerator + 1 else numerator
        some ((numerator : ℤ) / (2 ^ binaryDigits : ℤ))
    else none

def ceilToU128 (x : ℚ) : ℕ :=
  if x < 0 then 0
  else
    let quot := x.num.toNat / x.den
    let rem := x.num.toNat % x.den
    let result := min quot (2 ^ 128 - 1)
    if rem = 0 then result else min (result + 1) (2 ^ 128 - 1)

/-! ### Normal forms -/

open Real

/-- The quotient is at least one and less than two. -/
structure Normal.Valid (s : Normal) : Prop where
  pos : 0 < s.denom
  le : s.denom ≤ s.numer
  lt : s.numer < 2 * s.denom

noncomputable def Normal.log (s : Normal) : ℝ :=
  s.exponent + (logb (2 : ℕ) s.numer - logb (2 : ℕ) s.denom)

theorem Normal.log_eq (s : Normal) : s.log = s.exponent + (logb 2 s.numer - logb 2 s.denom) := by
  rw [Normal.log, Nat.cast_ofNat]

theorem shiftLeft_one (m : ℕ) : m <<< 1 = 2 * m := Nat.shiftLeft_succ m 0

theorem logb_shiftLeft {n : ℕ} (hn : 0 < n) (k : ℕ) : logb 2 (n <<< k : ℕ) = logb 2 n + k := by
  have hn' : (n : ℝ) ≠ 0 := Nat.cast_ne_zero.2 hn.ne'
  rw [Nat.shiftLeft_eq, Nat.cast_mul, logb_mul hn' (by positivity), Nat.cast_pow, Nat.cast_ofNat,
    logb_pow, logb_self_eq_one one_lt_two, mul_one]

/-- Numbers with as many bits differ by less than a factor of two. -/
theorem lt_two_mul_of_size_eq {a b : ℕ} (hb : 0 < b) (h : a.size = b.size) : a < 2 * b := by
  have hp := Nat.size_pos.2 hb
  have hle : 2 ^ (b.size - 1) ≤ b := Nat.lt_size.1 (by omega)
  calc a < 2 ^ b.size := h ▸ Nat.lt_size_self a
    _ = 2 * 2 ^ (b.size - 1) := by rw [← pow_succ', Nat.sub_add_cancel hp]
    _ ≤ 2 * b := Nat.mul_le_mul_left 2 hle

variable {n d : ℕ} {s : Normal}

theorem normalize_log (hn : 0 < n) (hd : 0 < d) :
    (normalize n d).Valid ∧ (normalize n d).log = logb 2 n - logb 2 d := by
  -- at most one of the two numbers is shifted
  have hsn : (if n.size < d.size then n <<< (d.size - n.size) else n) = n <<< (d.size - n.size) := by
    split_ifs with h
    · rfl
    · rw [Nat.sub_eq_zero_of_le (Nat.not_lt.1 h), Nat.shiftLeft_zero]
  have hsd : (if d.size < n.size then d <<< (n.size - d.size) else d) = d <<< (n.size - d.size) := by
    split_ifs with h
    · rfl
    · rw [Nat.sub_eq_zero_of_le (Nat.not_lt.1 h), Nat.shiftLeft_zero]
  have hbn := Nat.size_shiftLeft hn.ne' (d.size - n.size)
  have hbd := Nat.size_shiftLeft hd.ne' (n.size - d.size)
  have hpn : 0 < n <<< (d.size - n.size) := Nat.size_pos.1 (by have := Nat.size_pos.2 hn; omega)
  have hpd : 0 < d <<< (n.size - d.size) := Nat.size_pos.1 (by have := Nat.size_pos.2 hd; omega)
  have hlt := lt_two_mul_of_size_eq hpd (hbn.trans (by omega))
  have hgt := lt_two_mul_of_size_eq hpn (hbd.trans (by omega))
  have hk : ((n.size : ℤ) - d.size + (d.size - n.size : ℕ) - (n.size - d.size : ℕ) : ℤ) = 0 := by omega
  have hk' := congrArg (Int.cast : ℤ → ℝ) hk
  push_cast at hk'
  simp only [normalize, hsn, hsd]
  split_ifs with hsm
  · refine ⟨⟨hpd, ?_, ?_⟩, ?_⟩
    · exact hgt.le.trans_eq (shiftLeft_one _).symm
    · exact (shiftLeft_one _).trans_lt (Nat.mul_lt_mul_of_pos_left hsm two_pos)
    · simp only [Normal.log_eq, logb_shiftLeft hpn, logb_shiftLeft hn, logb_shiftLeft hd]
      push_cast
      linarith
  · refine ⟨⟨hpd, Nat.not_lt.1 hsm, hlt⟩, ?_⟩
    simp only [Normal.log_eq, logb_shiftLeft hn, logb_shiftLeft hd]
    push_cast
    linarith

/-- **A digit doubles the logarithm.** -/
theorem nextDigit_log (h : s.Valid) : (nextDigit s).Valid ∧ (nextDigit s).log = 2 * s.log := by
  have hn : (s.numer : ℝ) ≠ 0 := Nat.cast_ne_zero.2 (h.pos.trans_le h.le).ne'
  have hd : (s.denom : ℝ) ≠ 0 := Nat.cast_ne_zero.2 h.pos.ne'
  have hp := Nat.mul_pos h.pos h.pos
  have hle := Nat.mul_le_mul h.le h.le
  have hlt := Nat.mul_lt_mul'' h.lt h.lt
  simp only [nextDigit, shiftLeft_one]
  split_ifs with hge
  · refine ⟨⟨by positivity, hge, by linarith⟩, ?_⟩
    simp only [Normal.log_eq, Nat.cast_mul, Nat.cast_ofNat]
    rw [logb_mul hn hn, logb_mul two_ne_zero (mul_ne_zero hd hd), logb_mul hd hd,
      logb_self_eq_one one_lt_two]
    push_cast
    ring
  · refine ⟨⟨hp, hle, Nat.not_le.1 hge⟩, ?_⟩
    simp only [Normal.log_eq, Nat.cast_mul]
    rw [logb_mul hn hn, logb_mul hd hd]
    push_cast
    ring

theorem iterate_nextDigit_log (h : s.Valid) (k : ℕ) :
    (nextDigit^[k] s).Valid ∧ (nextDigit^[k] s).log = 2 ^ k * s.log := by
  induction k with
  | zero => exact ⟨h, (one_mul _).symm⟩
  | succ k ih =>
    obtain ⟨hv, hl⟩ := nextDigit_log ih.1
    rw [Function.iterate_succ_apply', pow_succ', mul_assoc, ← ih.2]
    exact ⟨hv, hl⟩

/-! ### Rounding -/

theorem Normal.Valid.ceil (h : s.Valid) :
    ⌈s.log⌉ = if s.denom < s.numer then s.exponent + 1 else s.exponent := by
  have hd : (0 : ℝ) < s.denom := Nat.cast_pos.2 h.pos
  have hn : (0 : ℝ) < s.numer := Nat.cast_pos.2 (h.pos.trans_le h.le)
  rw [Normal.log_eq, Int.ceil_intCast_add, ← logb_div hn.ne' hd.ne']
  split_ifs with hlt
  · have hone : (1 : ℝ) < s.numer / s.denom := (one_lt_div hd).2 (Nat.cast_lt.2 hlt)
    have htwo : (s.numer : ℝ) / s.denom ≤ 2 := (div_le_iff₀ hd).2 (by exact_mod_cast h.lt.le)
    have hle : logb 2 (s.numer / s.denom) ≤ 1 :=
      (logb_le_logb_of_le one_lt_two (by positivity) htwo).trans_eq (logb_self_eq_one one_lt_two)
    have hp := logb_pos one_lt_two hone
    rw [(Int.ceil_eq_iff (z := 1)).2 ⟨by simpa using hp, by simpa using hle⟩]
  · rw [Nat.le_antisymm (Nat.not_lt.1 hlt) h.le, div_self hd.ne', logb_one, Int.ceil_zero, add_zero]

/-- **The logarithm is rounded up.** -/
theorem log2Ceil_eq {x : ℚ} (hx : 0 < x) (digits : ℕ) :
    log2Ceil x digits = some ((⌈2 ^ digits * logb 2 x⌉ : ℚ) / (2 ^ digits : ℤ)) := by
  have hnp : 0 < x.num := Rat.num_pos.2 hx
  obtain ⟨hv, hl⟩ := normalize_log (show 0 < x.num.toNat by omega) x.den_pos
  have hxl : logb 2 x.num.toNat - logb 2 x.den = logb 2 x := by
    have hc : ((x.num.toNat : ℤ) : ℝ) = x.num := by rw [Int.toNat_of_nonneg hnp.le]
    have hn' : (x.num : ℝ) ≠ 0 := Int.cast_ne_zero.2 hnp.ne'
    have hd' : (x.den : ℝ) ≠ 0 := Nat.cast_ne_zero.2 x.den_pos.ne'
    rw [← Int.cast_natCast, hc, ← logb_div hn' hd', ← Rat.cast_def]
  rw [hxl] at hl
  rw [log2Ceil, if_neg (not_le.2 hx)]
  generalize normalize x.num.toNat x.den = s at hv hl
  have hin : s.denom ≤ s.numer ∧ s.numer < s.denom <<< 1 :=
    ⟨hv.le, hv.lt.trans_eq (shiftLeft_one _).symm⟩
  -- the integer part stays apart, and the digits are those of the rest
  obtain ⟨hv', hl'⟩ := iterate_nextDigit_log (s := ⟨0, s.numer, s.denom⟩) ⟨hv.pos, hv.le, hv.lt⟩ digits
  have hsp : 2 ^ digits * logb 2 x =
      ((s.exponent * 2 ^ digits : ℤ) : ℝ) + (nextDigit^[digits] ⟨0, s.numer, s.denom⟩).log := by
    rw [hl', ← hl, Normal.log_eq, Normal.log_eq]
    push_cast
    ring
  dsimp only
  rw [if_pos hin, hsp, Int.ceil_intCast_add]
  split_ifs with heq hlt
  · rw [hl', Normal.log_eq, heq, sub_self, Int.cast_zero, add_zero, mul_zero, Int.ceil_zero, add_zero]
  · rw [hv'.ceil, if_pos hlt, add_assoc]
  · rw [hv'.ceil, if_neg hlt]

/-- The logarithm of a number that is at least a half is not below `-1`, and is a multiple of the
precision. -/
theorem le_log2Ceil {x y : ℚ} {digits : ℕ} (hx : 1 / 2 ≤ x) (h : log2Ceil x digits = some y) :
    ∃ j : ℤ, -2 * 2 ^ digits ≤ j ∧ y = j / (2 ^ digits : ℤ) := by
  have hp : 0 < x := by linarith
  rw [log2Ceil_eq hp] at h
  refine ⟨_, ?_, (Option.some.inj h).symm⟩
  have hl : -1 ≤ logb 2 x := by
    rw [le_logb_iff_rpow_le one_lt_two (Rat.cast_pos.2 hp), rpow_neg_one, inv_eq_one_div]
    simpa using (Rat.cast_le (K := ℝ)).2 hx
  have hm := mul_le_mul_of_nonneg_left hl (pow_nonneg (zero_le_two (α := ℝ)) digits)
  rw [Int.le_ceil_iff]
  push_cast
  linarith [pow_pos (zero_lt_two (α := ℝ)) digits]

/-- **The least multiple of the precision that is not below the logarithm.** -/
theorem log2Ceil_isLeast {x : ℚ} (hx : 0 < x) (digits : ℕ) :
    ∃ y, log2Ceil x digits = some y ∧
      IsLeast {q : ℚ | (∃ k : ℤ, q = k / 2 ^ digits) ∧ logb 2 x ≤ (q : ℝ)} y ∧
      ∀ k : ℤ, x = 2 ^ k → y = k := by
  have hp : (0 : ℝ) < 2 ^ digits := by positivity
  have hle : ∀ {k : ℤ}, logb 2 x ≤ ((k / 2 ^ digits : ℚ) : ℝ) ↔ ⌈2 ^ digits * logb 2 x⌉ ≤ k := by
    intro k
    rw [Int.ceil_le]
    push_cast
    rw [le_div_iff₀ hp, mul_comm]
  refine ⟨_, log2Ceil_eq hx digits, ⟨⟨⟨_, by push_cast; rfl⟩, ?_⟩, ?_⟩, ?_⟩
  · exact_mod_cast hle.2 le_rfl
  · rintro q ⟨⟨k, rfl⟩, hk⟩
    push_cast
    gcongr
    exact hle.1 hk
  · rintro k rfl
    have hl : 2 ^ digits * logb 2 ((2 ^ k : ℚ) : ℝ) = ((2 ^ digits * k : ℤ) : ℝ) := by
      push_cast
      rw [← rpow_intCast, logb_rpow two_pos (by norm_num)]
    rw [hl, Int.ceil_intCast, Int.cast_mul, mul_div_cancel_left₀ _ (by positivity)]

theorem log2Ceil_isLeast_three_quarters : (0 : ℚ) < 3 / 4 ∧
    ∃ y, log2Ceil (3 / 4) 3 = some y ∧
      IsLeast {q : ℚ | (∃ k : ℤ, q = k / 2 ^ 3) ∧ logb 2 (3 / 4 : ℚ) ≤ (q : ℝ)} y ∧
      ∀ k : ℤ, (3 / 4 : ℚ) = 2 ^ k → y = k :=
  ⟨by norm_num, log2Ceil_isLeast (by norm_num) 3⟩

end Commonware.Rational
