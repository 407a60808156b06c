/-
**The Goldilocks field.**

The elements of `math/src/fields/goldilocks.rs` are words of 64 bits, and the field has
`P = 2 ^ 64 - 2 ^ 32 + 1` elements.  A word that is below `P` is canonical.  The functions of the source
compare words and not elements; they return canonical words for canonical words, and a product is
always canonical.

Main definitions:

* `F`, `F.add`, `F.sub`, `F.reduce128`, `F.mul`, `F.exp`, `F.rootOfUnity`, `F.div2` — the words and
  their functions;
* `F.toZ` — the element of a word.

Main results:

* `F.toNat_add`, `F.toNat_sub` — the words that are returned, if they do not wrap around;
* `F.mul_canonical`, `F.toZ_mul` — **a product is canonical and right**, for all words.
-/

import Mathlib.Data.ZMod.Basic
import Mathlib.Tactic.Ring

set_option autoImplicit false

namespace Commonware.Goldilocks

/-- The modulus. -/
def P : ℕ := 2 ^ 64 - 2 ^ 32 + 1

def wordP : UInt64 := 0xffffffff00000001

theorem toNat_wordP : wordP.toNat = P := by decide

@[ext] structure F where
  word : UInt64
  deriving DecidableEq

namespace F

/-! ### Functions -/

def zero : F := ⟨0⟩

def one : F := ⟨1⟩

/-- A word of order `2 ^ 32`. -/
def rootOfUnityMax : F := ⟨0xee41f5320c4ea145⟩

/-- A word that is not a power of the one above, and its inverse. -/
def notRootOfUnity : F := ⟨0x79bc2f50acd74161⟩

def notRootOfUnityInv : F := ⟨0x1036c4023580ce8d⟩

def add (a b : F) : F :=
  let addition := a.word + b.word
  let overflow := decide (2 ^ 64 ≤ a.word.toNat + b.word.toNat)
  let subtraction := addition - wordP
  let underflow := decide (addition < wordP)
  if overflow || !underflow then ⟨subtraction⟩ else ⟨addition⟩

def sub (a b : F) : F :=
  let subtraction := a.word - b.word
  let underflow := decide (a.word < b.word)
  if underflow then ⟨subtraction + wordP⟩ else ⟨subtraction⟩

def reduce128 (x : ℕ) : F :=
  let a := UInt64.ofNat x
  let b := UInt64.ofNat ((x >>> 64) &&& 0xffffffff)
  let c := UInt64.ofNat (x >>> 96)
  (sub ⟨a⟩ ⟨c⟩).add ⟨(b <<< 32) - b⟩

def mul (a b : F) : F := reduce128 (a.word.toNat * b.word.toNat)

def neg (a : F) : F := zero.sub a

/-- The bits of the exponent from the lowest one on. -/
def expLoop : ℕ → F → F → ℕ → F
  | 0, acc, _, _ => acc
  | n + 1, acc, w, bits =>
    expLoop n (if bits % 2 = 1 then acc.mul w else acc) (w.mul w) (bits / 2)

def exp (a : F) (bits : UInt64) : F := expLoop 64 one a bits.toNat

def inv (a : F) : F := a.exp (wordP - 2)

def squareLoop : ℕ → F → F
  | 0, out => out
  | n + 1, out => squareLoop n (out.mul out)

def rootOfUnity (lgK : ℕ) : Option F :=
  if 32 < lgK then none else some (squareLoop (32 - lgK) rootOfUnityMax)

def div2 (a : F) : F :=
  if a.word &&& 1 = 0 then ⟨a.word >>> 1⟩
  else
    let addition := a.word + wordP
    let carry : UInt64 := if 2 ^ 64 ≤ a.word.toNat + wordP.toNat then 1 else 0
    ⟨(carry <<< 63) ||| (addition >>> 1)⟩

/-! ### Canonical words -/

/-- The number of a word. -/
abbrev toNat (a : F) : ℕ := a.word.toNat

def Canonical (a : F) : Prop := a.toNat < P

instance (a : F) : Decidable a.Canonical := inferInstanceAs (Decidable (_ < _))

theorem toNat_lt (a : F) : a.toNat < 2 ^ 64 := a.word.toNat_lt

variable {a b : F}

theorem ext_toNat (h : a.toNat = b.toNat) : a = b :=
  F.ext (UInt64.toNat_inj.1 h)

theorem toNat_ofNat {n : ℕ} (h : n < 2 ^ 64) : (⟨UInt64.ofNat n⟩ : F).toNat = n :=
  UInt64.toNat_ofNat_of_lt' h

/-- The sum, if it is not too large to be reduced by one subtraction. -/
theorem toNat_add (h : a.toNat + b.toNat < 2 ^ 64 + P) :
    (a.add b).toNat = if a.toNat + b.toNat < P then a.toNat + b.toNat else a.toNat + b.toNat - P := by
  have ha := a.toNat_lt
  have hb := b.toNat_lt
  have hP : P = 2 ^ 64 - 2 ^ 32 + 1 := rfl
  have hw := toNat_wordP
  simp only [toNat] at *
  rw [add]
  simp only [Bool.or_eq_true, decide_eq_true_eq, Bool.not_eq_true', decide_eq_false_iff_not,
    UInt64.lt_iff_toNat_lt, UInt64.toNat_add, hw]
  by_cases hlt : a.word.toNat + b.word.toNat < P
  · rw [if_neg (by omega), if_pos hlt, UInt64.toNat_add]
    omega
  · rw [if_pos (by omega), if_neg hlt, UInt64.toNat_sub, UInt64.toNat_add, hw]
    omega

/-- The difference, if it does not wrap around. -/
theorem toNat_sub (h : b.toNat ≤ a.toNat + P) :
    (a.sub b).toNat = if b.toNat ≤ a.toNat then a.toNat - b.toNat else a.toNat + P - b.toNat := by
  have ha := a.toNat_lt
  have hb := b.toNat_lt
  have hP : P = 2 ^ 64 - 2 ^ 32 + 1 := rfl
  have hw := toNat_wordP
  simp only [toNat] at *
  rw [sub]
  simp only [decide_eq_true_eq, UInt64.lt_iff_toNat_lt]
  by_cases hle : b.word.toNat ≤ a.word.toNat
  · rw [if_neg (by omega), if_pos hle, UInt64.toNat_sub]
    omega
  · rw [if_pos (by omega), if_neg hle, UInt64.toNat_add, UInt64.toNat_sub, hw]
    omega

theorem add_canonical (h : a.toNat + b.toNat < 2 * P) : (a.add b).Canonical := by
  have hP : P = 2 ^ 64 - 2 ^ 32 + 1 := rfl
  rw [Canonical, toNat_add (by omega)]
  split_ifs with hlt
  · exact hlt
  · omega

theorem sub_canonical (ha : a.Canonical) (hb : b.Canonical) : (a.sub b).Canonical := by
  rw [Canonical] at *
  rw [toNat_sub (by omega)]
  split_ifs with hle
  · omega
  · omega

/-- A number times `2 ^ 32 - 1`, as the source computes it. -/
theorem shiftLeft_sub {b : ℕ} (hb : b < 2 ^ 32) :
    (UInt64.ofNat b <<< 32) - UInt64.ofNat b = UInt64.ofNat (b * (2 ^ 32 - 1)) := by
  apply UInt64.toNat_inj.1
  have hsm : (UInt64.ofNat b).toNat = b := toNat_ofNat (by omega)
  have hlr : (UInt64.ofNat (b * (2 ^ 32 - 1))).toNat = b * (2 ^ 32 - 1) := toNat_ofNat (by omega)
  rw [UInt64.toNat_sub, UInt64.toNat_shiftLeft, hsm, hlr,
    show (32 : UInt64).toNat % 64 = 32 from rfl, Nat.shiftLeft_eq]
  omega

theorem reduce128_parts {x : ℕ} (hx : x < 2 ^ 128) :
    ∃ a b c, x = c * 2 ^ 96 + b * 2 ^ 64 + a ∧ a < 2 ^ 64 ∧ b < 2 ^ 32 ∧ c < 2 ^ 32 ∧
      reduce128 x = (sub ⟨UInt64.ofNat a⟩ ⟨UInt64.ofNat c⟩).add ⟨UInt64.ofNat (b * (2 ^ 32 - 1))⟩ := by
  refine ⟨x % 2 ^ 64, x / 2 ^ 64 % 2 ^ 32, x / 2 ^ 96, by omega, by omega, by omega, by omega, ?_⟩
  have hb : (x >>> 64) &&& 0xffffffff = x / 2 ^ 64 % 2 ^ 32 := by
    rw [Nat.shiftRight_eq_div_pow]
    exact Nat.and_two_pow_sub_one_eq_mod _ 32
  have ha : UInt64.ofNat (x % 2 ^ 64) = UInt64.ofNat x := by
    apply UInt64.toNat_inj.1
    rw [UInt64.toNat_ofNat', UInt64.toNat_ofNat', Nat.mod_mod]
  rw [reduce128, hb, ha, shiftLeft_sub (by omega), Nat.shiftRight_eq_div_pow]

/-- What a number of 128 bits is reduced to: `2 ^ 64` is `2 ^ 32 - 1`, and `2 ^ 96` is `-1`. -/
theorem reduce128_spec {x : ℕ} (hx : x < 2 ^ 128) :
    (reduce128 x).Canonical ∧ ∃ k : ℤ, ((reduce128 x).toNat : ℤ) = x + k * P := by
  obtain ⟨a, b, c, rfl, ha, hb, hc, heq⟩ := reduce128_parts hx
  have hP : P = 2 ^ 64 - 2 ^ 32 + 1 := rfl
  obtain ⟨m, hm⟩ : ∃ m, m = b * (2 ^ 32 - 1) := ⟨_, rfl⟩
  have ha' : (⟨UInt64.ofNat a⟩ : F).toNat = a := toNat_ofNat ha
  have hc' : (⟨UInt64.ofNat c⟩ : F).toNat = c := toNat_ofNat (by omega)
  have hm' : (⟨UInt64.ofNat m⟩ : F).toNat = m := toNat_ofNat (by omega)
  rw [heq, ← hm]
  have hs := toNat_sub (a := ⟨UInt64.ofNat a⟩) (b := ⟨UInt64.ofNat c⟩) (by omega)
  rw [ha', hc'] at hs
  generalize sub ⟨UInt64.ofNat a⟩ ⟨UInt64.ofNat c⟩ = d at hs ⊢
  have hlt := d.toNat_lt
  have had := toNat_add (a := d) (b := ⟨UInt64.ofNat m⟩) (by omega)
  rw [hm'] at had
  refine ⟨add_canonical (by omega), ?_⟩
  rw [had]
  have hdf : ∃ k : ℤ, (d.toNat : ℤ) = a - c + k * P := by
    rw [hs]
    split_ifs with hle
    · exact ⟨0, by omega⟩
    · exact ⟨1, by omega⟩
  have hsm : ∃ k : ℤ, ((if d.toNat + m < P then d.toNat + m else d.toNat + m - P : ℕ) : ℤ) =
      d.toNat + m + k * P := by
    split_ifs with hle
    · exact ⟨0, by omega⟩
    · exact ⟨-1, by omega⟩
  obtain ⟨k, hk⟩ := hdf
  obtain ⟨l, hl⟩ := hsm
  refine ⟨k + l - c * (2 ^ 32 + 1) - b, ?_⟩
  rw [hl, hk, hm, hP]
  push_cast
  ring

/-! ### The elements of words -/

/-- The element of a word. -/
def toZ (a : F) : ZMod P := (a.toNat : ZMod P)

theorem toZ_add (h : a.toNat + b.toNat < 2 ^ 64 + P) : (a.add b).toZ = a.toZ + b.toZ := by
  rw [toZ, toNat_add h, toZ, toZ]
  split_ifs with hlt
  · rw [Nat.cast_add]
  · rw [Nat.cast_sub (Nat.not_lt.1 hlt), Nat.cast_add, ZMod.natCast_self, sub_zero]

theorem toZ_sub (h : b.toNat ≤ a.toNat + P) : (a.sub b).toZ = a.toZ - b.toZ := by
  rw [toZ, toNat_sub h, toZ, toZ]
  split_ifs with hle
  · rw [Nat.cast_sub hle]
  · rw [Nat.cast_sub h, Nat.cast_add, ZMod.natCast_self, add_zero]

theorem mul_lt (a b : F) : a.toNat * b.toNat < 2 ^ 128 := by
  rw [show 2 ^ 128 = 2 ^ 64 * 2 ^ 64 from rfl]
  exact Nat.mul_lt_mul'' a.toNat_lt b.toNat_lt

/-- **A product is canonical**, also of words that are not. -/
theorem mul_canonical (a b : F) : (a.mul b).Canonical := (reduce128_spec (mul_lt a b)).1

theorem toZ_mul (a b : F) : (a.mul b).toZ = a.toZ * b.toZ := by
  obtain ⟨k, hk⟩ := (reduce128_spec (mul_lt a b)).2
  have hcs := congrArg (Int.cast : ℤ → ZMod P) hk
  push_cast at hcs
  rw [ZMod.natCast_self, mul_zero, add_zero] at hcs
  exact hcs

theorem toZ_zero : zero.toZ = 0 := Nat.cast_zero

theorem toZ_one : one.toZ = 1 := Nat.cast_one

theorem toZ_inj (ha : a.Canonical) (hb : b.Canonical) (h : a.toZ = b.toZ) : a = b := by
  refine ext_toNat ?_
  have hm := (ZMod.natCast_eq_natCast_iff' _ _ _).1 h
  rwa [Nat.mod_eq_of_lt ha, Nat.mod_eq_of_lt hb] at hm

theorem toZ_squareLoop (n : ℕ) (a : F) : (squareLoop n a).toZ = a.toZ ^ 2 ^ n := by
  induction n generalizing a with
  | zero => rw [squareLoop, pow_zero, pow_one]
  | succ n ih => rw [squareLoop, ih, toZ_mul, ← pow_two, ← pow_mul, ← pow_succ']

/-! ### Halves -/

theorem toNat_div2 (a : F) :
    a.div2.toNat = if a.toNat % 2 = 0 then a.toNat / 2 else (a.toNat + P) / 2 := by
  have hP : P = 2 ^ 64 - 2 ^ 32 + 1 := rfl
  have ha := a.toNat_lt
  have hb : (a.word &&& 1).toNat = a.toNat % 2 := by
    rw [UInt64.toNat_and]
    exact Nat.and_one_is_mod _
  have hev : a.word &&& 1 = 0 ↔ a.toNat % 2 = 0 := by
    rw [← UInt64.toNat_inj, hb]
    rfl
  rw [div2]
  by_cases h : a.toNat % 2 = 0
  · rw [if_pos (hev.2 h), if_pos h]
    show (a.word >>> 1).toNat = _
    rw [UInt64.toNat_shiftRight]
    exact Nat.shiftRight_eq_div_pow _ 1
  · rw [if_neg fun h0 => h (hev.1 h0), if_neg h]
    have hs : ((a.word + wordP) >>> 1).toNat = (a.toNat + P) % 2 ^ 64 / 2 := by
      rw [UInt64.toNat_shiftRight, UInt64.toNat_add, toNat_wordP]
      exact Nat.shiftRight_eq_div_pow _ 1
    have hw : a.word.toNat = a.toNat := rfl
    show (_ ||| _ : UInt64).toNat = _
    rw [UInt64.toNat_or, hs, toNat_wordP, hw]
    by_cases hcr : 2 ^ 64 ≤ a.toNat + P
    · rw [if_pos hcr, show ((1 : UInt64) <<< 63).toNat = 1 <<< 63 by decide,
        ← Nat.shiftLeft_add_eq_or_of_lt (by omega), Nat.one_shiftLeft]
      omega
    · rw [if_neg hcr, show ((0 : UInt64) <<< 63).toNat = 0 by decide, Nat.zero_or]
      omega

theorem div2_canonical (h : a.Canonical) : a.div2.Canonical := by
  rw [Canonical] at *
  rw [toNat_div2]
  split_ifs
  · omega
  · omega

/-! ### Roots of unity -/

theorem rootOfUnityMax_pow : rootOfUnityMax.toZ ^ 2 ^ 31 = -1 := by
  have hw : squareLoop 31 rootOfUnityMax = one.neg := by decide +kernel
  have h := toZ_squareLoop 31 rootOfUnityMax
  rw [hw, neg, toZ_sub (by decide), toZ_zero, toZ_one, zero_sub] at h
  exact h.symm

end F

end Commonware.Goldilocks
