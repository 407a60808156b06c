/-
**Matrices, polynomials and values.**

`math/src/ntt.rs` has matrices of field elements whose columns are polynomials or their values.  The
words are those of `goldilocks.rs`, so there are roots of unity of order `2 ^ 32` at most, and a
transform of more rows panics.

The canonical words are a field.  The functions are the same on words, on canonical words and on
elements, so that what they compute on canonical words is determined by the elements.

Main definitions:

* `Matrix`, `PolynomialVector`, `EvaluationVector` — the matrices, and their operations;
* `vanishing`, `EvaluationVector.recover` — recovery of missing rows;
* `Elem` — the canonical words.

Main results:

* `reverseBits_eq` — the order of the coefficients;
* `Matrix.toZ_encoded` — **the rows of an encoded matrix**;
* `Matrix.mul_spec` — products of matrices.
-/

import Commonware.ErasureRecovery
import Commonware.Goldilocks
import Mathlib.Data.Nat.Bitwise

set_option autoImplicit false

namespace Commonware

open Transform Erasure List Function

namespace Goldilocks

/-! ### Instances -/

instance : Zero F := ⟨F.zero⟩

instance : One F := ⟨F.one⟩

instance : Add F := ⟨F.add⟩

instance : Sub F := ⟨F.sub⟩

instance : Mul F := ⟨F.mul⟩

instance : Half F := ⟨F.div2⟩

instance : Neg F := ⟨F.neg⟩

namespace F

theorem toZ_mul' (a b : F) : (a * b).toZ = a.toZ * b.toZ := toZ_mul a b

/-- A sum with a product is right for all words. -/
theorem toZ_add_mul (a b c : F) : (a + b * c).toZ = a.toZ + b.toZ * c.toZ := by
  have hcn : (b * c).toNat < P := mul_canonical b c
  have ha := a.toNat_lt
  rw [← toZ_mul']
  exact toZ_add (by omega)

theorem toZ_sub_mul (a b c : F) : (a - b * c).toZ = a.toZ - b.toZ * c.toZ := by
  have hcn : (b * c).toNat < P := mul_canonical b c
  rw [← toZ_mul']
  exact toZ_sub (by omega)

theorem toZ_forward (lg : ℕ) (w : F) (v : ℕ → F) :
    forward lg w.toZ (toZ ∘ v) = toZ ∘ forward lg w v := by
  refine map_forward_of_pair toZ_one toZ_mul' (fun w a b => ?_) lg w v
  rw [forwardPair, forwardPair, toZ_add_mul, toZ_sub_mul]

theorem squareLoop_canonical {a : F} (ha : a.Canonical) (n : ℕ) : (squareLoop n a).Canonical := by
  induction n generalizing a with
  | zero => exact ha
  | succ n ih => exact ih (mul_canonical a a)

end F

/-! ### Canonical words -/

/-- A canonical word. -/
structure Elem where
  word : F
  canonical : word.Canonical

namespace Elem

instance : Zero Elem := ⟨⟨0, by decide⟩⟩

instance : One Elem := ⟨⟨1, by decide⟩⟩

instance : Add Elem := ⟨fun a b => ⟨a.word + b.word, F.add_canonical (by
  have ha : a.word.toNat < P := a.canonical
  have hb : b.word.toNat < P := b.canonical
  omega)⟩⟩

instance : Sub Elem := ⟨fun a b => ⟨a.word - b.word, F.sub_canonical a.canonical b.canonical⟩⟩

instance : Mul Elem := ⟨fun a b => ⟨a.word * b.word, F.mul_canonical a.word b.word⟩⟩

instance : Half Elem := ⟨fun a => ⟨Half.half a.word, F.div2_canonical a.canonical⟩⟩

theorem hom_word : ArithHom Elem.word :=
  ⟨rfl, rfl, fun _ _ => rfl, fun _ _ => rfl, fun _ _ => rfl, fun _ => rfl⟩

/-- Canonical words, for a vector of them. -/
def lift (v : ℕ → F) (hv : ∀ i, (v i).Canonical) : ℕ → Elem := fun i => ⟨v i, hv i⟩

end Elem

/-! ### Roots -/

/-- The root of unity of a transform; one that panics is not modelled by its root. -/
def root (lg : ℕ) : F := (F.rootOfUnity lg).getD 1

/-- The inverse of the root, as a power of it. -/
def rootInv (lg : ℕ) : F := (root lg).exp (UInt64.ofNat (2 ^ lg - 1))

def roots : Roots F where
  root := root
  rootInv := rootInv
  skew := F.notRootOfUnity
  skewInv := F.notRootOfUnityInv
  inv := F.inv

variable {lg : ℕ}

theorem rootOfUnity_eq (hlg : lg ≤ 32) : F.rootOfUnity lg = some (root lg) := by
  rw [root, F.rootOfUnity, if_neg (by omega)]
  rfl

theorem root_eq (hlg : lg ≤ 32) : root lg = F.squareLoop (32 - lg) F.rootOfUnityMax := by
  rw [root, F.rootOfUnity, if_neg (by omega), Option.getD_some]

theorem root_canonical (lg : ℕ) : (root lg).Canonical := by
  by_cases hlg : lg ≤ 32
  · rw [root_eq hlg]
    exact F.squareLoop_canonical (by decide) _
  · rw [root, F.rootOfUnity, if_pos (by omega)]
    decide

theorem unityRoot (hlg : lg ≤ 32) : UnityRoot lg (root lg).toZ := by
  cases lg with
  | zero => trivial
  | succ n =>
    show (root (n + 1)).toZ ^ 2 ^ n = -1
    rw [root_eq hlg, F.toZ_squareLoop, ← pow_mul, ← pow_add, show 32 - (n + 1) + n = 31 by omega,
      F.rootOfUnityMax_pow]

end Goldilocks

open Goldilocks

/-! ### Reversed bits -/

def reverseBits (bitWidth i : ℕ) : ℕ :=
  (BitVec.ofNat 64 i <<< ((64 - bitWidth) % 64)).reverse.toNat

theorem testBit_rev (lg i j : ℕ) : (rev lg i).testBit j = (decide (j < lg) && i.testBit (lg - 1 - j)) := by
  induction lg generalizing i with
  | zero => rw [rev, Nat.zero_testBit, decide_eq_false (Nat.not_lt_zero j), Bool.false_and]
  | succ lg ih =>
    rw [rev, Nat.testBit_two_pow_mul_add _ (rev_lt lg _), ih]
    rcases Nat.lt_trichotomy j lg with hlt | heq | hgt
    · rw [if_pos hlt, decide_eq_true hlt, decide_eq_true (Nat.lt_succ_of_lt hlt), Bool.true_and,
        Bool.true_and, Nat.testBit_div_two, show lg - 1 - j + 1 = lg + 1 - 1 - j by omega]
    · subst heq
      rw [if_neg (Nat.lt_irrefl j), Nat.sub_self, decide_eq_true (Nat.lt_succ_self j), Bool.true_and,
        show j + 1 - 1 - j = 0 by omega, Nat.testBit_zero, Nat.testBit_zero, Nat.mod_mod]
    · rw [if_neg (by omega), decide_eq_false (by omega), Bool.false_and]
      exact Nat.testBit_lt_two_pow (lt_of_lt_of_le (Nat.mod_lt i two_pos)
        (Nat.pow_le_pow_right two_pos (show 1 ≤ j - lg by omega)))

variable {lg i : ℕ}

/-- The word is shifted to its highest bits first. -/
theorem reverseBits_eq (hlg : lg ≤ 64) (hi : i < 2 ^ lg) : reverseBits lg i = rev lg i := by
  refine Nat.eq_of_testBit_eq fun j => ?_
  rw [testBit_rev, reverseBits, BitVec.testBit_toNat, BitVec.getLsbD_reverse]
  by_cases h0 : lg = 0
  · subst h0
    obtain rfl : i = 0 := by simpa using hi
    simp
  · rw [Nat.mod_eq_of_lt (by omega), BitVec.getMsbD_shiftLeft, BitVec.getMsbD]
    by_cases hj : j < lg
    · rw [decide_eq_true hj, decide_eq_true (show j + (64 - lg) < 64 by omega), Bool.true_and,
        Bool.true_and, BitVec.getLsbD_ofNat, decide_eq_true (show 64 - 1 - (j + (64 - lg)) < 64 by omega),
        Bool.true_and, show 64 - 1 - (j + (64 - lg)) = lg - 1 - j by omega]
    · rw [decide_eq_false hj, decide_eq_false (show ¬j + (64 - lg) < 64 by omega), Bool.false_and,
        Bool.false_and]

/-! ### Transforms -/

inductive Direction where
  | forward
  | backward
  deriving DecidableEq

/-- What a transform does to every column.  It panics if the number of rows is not a power of two, or
if there is no root of unity for it. -/
def ntt (direction : Direction) (rows : ℕ) : Option ((ℕ → F) → ℕ → F) :=
  let lgRows := Nat.log 2 rows
  if 2 ^ lgRows ≠ rows then none
  else
    match F.rootOfUnity lgRows with
    | none => none
    | some w =>
      match direction with
      | .forward => some (forward lgRows w)
      | .backward => some (backward lgRows (w.exp (UInt64.ofNat (2 ^ lgRows - 1))))

theorem log_two_pow (lg : ℕ) : Nat.log 2 (2 ^ lg) = lg := Nat.log_pow one_lt_two lg

theorem ntt_forward (hlg : lg ≤ 32) : ntt .forward (2 ^ lg) = some (forward lg (root lg)) := by
  simp only [ntt, log_two_pow, ne_eq, not_true_eq_false, if_false, rootOfUnity_eq hlg]

theorem ntt_eq_none (direction : Direction) (hlg : 32 < lg) : ntt direction (2 ^ lg) = none := by
  simp only [ntt, log_two_pow, ne_eq, not_true_eq_false, if_false, F.rootOfUnity, if_pos hlg]

/-! ### Matrices -/

/-- A matrix; its entries are those of the rows and columns that it has. -/
structure Matrix where
  rows : ℕ
  cols : ℕ
  get : ℕ → ℕ → F

namespace Matrix

def row (m : Matrix) (i : ℕ) : List F := (range m.cols).map (m.get i)

/-- The entries, row by row. -/
def flat (m : Matrix) : List F := (range m.rows).flatMap m.row

/-- A matrix with the given entries, row by row, and zeros if there are not enough of them. -/
def init (rows cols : ℕ) (data : List F) : Matrix where
  rows := rows
  cols := cols
  get i j := data.getD (cols * i + j) 0

def mul (m other : Matrix) : Option Matrix :=
  if m.cols = other.rows then
    some {
      rows := m.rows
      cols := other.cols
      get := fun i k => (range m.cols).foldl (fun out j => out + m.get i j * other.get j k) 0 }
  else none

def transform (direction : Direction) (m : Matrix) : Option Matrix :=
  (ntt direction m.rows).map fun f => { m with get := fun i j => f (fun i => m.get i j) i }

end Matrix

def nextPowerOfTwo (n : ℕ) : ℕ := 2 ^ Nat.clog 2 n

/-- Polynomials, one in each column; the `i`-th coefficient is in the row with the reversed bits. -/
structure PolynomialVector where
  data : Matrix

/-- Values of polynomials, and the rows that are known. -/
structure EvaluationVector where
  data : Matrix
  activeRows : ℕ → Bool

namespace PolynomialVector

/-- Puts the rows of coefficients in their places. -/
def place (lgRows cols : ℕ) (coefficients : List F) (data : ℕ → ℕ → F) (i : ℕ) : ℕ → ℕ → F :=
  update data (reverseBits lgRows i) fun j => coefficients.getD (cols * i + j) 0

def new (rows cols : ℕ) (coefficients : List F) : Option PolynomialVector :=
  if rows = 0 then none
  else
    let rows := nextPowerOfTwo rows
    let lgRows := Nat.log 2 rows
    some ⟨rows, cols, (range rows).foldl (place lgRows cols coefficients) fun _ _ => 0⟩

variable (p : PolynomialVector)

def evaluate : Option EvaluationVector := do
  let data ← p.data.transform .forward
  pure ⟨data, fun _ => true⟩

def divideRoots (factor : F) : PolynomialVector :=
  ⟨{ p.data with get := fun i j => scale factor 0 (Nat.log 2 p.data.rows) (fun i => p.data.get i j) i }⟩

/-- Divides every polynomial, at points that are not roots of unity. -/
def divide (q : ℕ → F) : Option PolynomialVector := do
  let lgRows := Nat.log 2 p.data.rows
  let data ← (p.divideRoots F.notRootOfUnity).data.transform .forward
  let f ← ntt .forward p.data.rows
  let q := f (scale F.notRootOfUnity 0 lgRows q)
  let data := { data with get := fun i j => data.get i j * (q i).inv }
  let data ← data.transform .backward
  pure ((⟨data⟩ : PolynomialVector).divideRoots F.notRootOfUnityInv)

def coefficientsUpTo (n : ℕ) : List (List F) :=
  (range (min n p.data.rows)).map fun i => p.data.row (reverseBits (Nat.log 2 p.data.rows) i)

end PolynomialVector

open PolynomialVector

def Matrix.asPolynomials (m : Matrix) (minCoefficients : ℕ) : Option PolynomialVector :=
  if minCoefficients < m.rows then none else new minCoefficients m.cols m.flat

/-! ### Recovery -/

/-- One level of the vanishing polynomial; two polynomials of a level are multiplied by transforms of
their common size, which panic if there is no root of unity for it. -/
def vanishingLevel (lg : ℕ) (s : Sections F) (stage : ℕ × F) : Option (Sections F) :=
  if ((range (2 ^ (lg - (stage.1 + 1)))).any fun i => s.active (2 * i) && s.active (2 * i + 1)) &&
      (ntt .forward (2 ^ (stage.1 + 2))).isNone then none
  else some (level roots s stage)

/-- A polynomial that vanishes at the other rows, of `2 ^ lg` ones. -/
def vanishing (lg : ℕ) (except : ℕ → Bool) : Option (ℕ → F) :=
  let zeroes := ((Finset.range (2 ^ lg)).filter (except · = false)).card
  if 2 ^ lg ≤ zeroes then none
  else do
    let w ← F.rootOfUnity lg
    let wInv := w.exp (UInt64.ofNat (2 ^ lg - 1))
    let sections ← (stages lg wInv).foldlM (vanishingLevel lg) (leaves lg except)
    pure (if sections.active 0 then truncate (2 ^ lg) sections.polynomials
      else fun i => if i = 0 then 1 else 0)

namespace EvaluationVector

def empty (lgRows cols : ℕ) : EvaluationVector := ⟨⟨2 ^ lgRows, cols, fun _ _ => 0⟩, fun _ => false⟩

variable (v : EvaluationVector)

def fillRow (row : ℕ) (data : List F) : Option EvaluationVector :=
  if data.length ≤ v.data.cols ∧ row < v.data.rows then
    let newRow := fun j => data.getD j (v.data.get row j)
    some ⟨{ v.data with get := update v.data.get row newRow },
      update v.activeRows row true⟩
  else none

def filledRows : ℕ :=
  ((Finset.range v.data.rows).filter (v.activeRows · = true)).card

def interpolate : Option PolynomialVector := do
  let data ← v.data.transform .backward
  pure ⟨data⟩

def multiply (polynomial : ℕ → F) : Option EvaluationVector := do
  let f ← ntt .forward v.data.rows
  let values := f polynomial
  pure { v with data := { v.data with get := fun i j => v.data.get i j * values i } }

/-- The polynomials, if enough rows are known. -/
def recover : Option PolynomialVector := do
  let polynomial ← vanishing (Nat.log 2 v.data.rows) v.activeRows
  let v ← v.multiply polynomial
  let out ← v.interpolate
  out.divide polynomial

end EvaluationVector

/-! ### Encoded matrices -/

def Matrix.Canonical (m : Matrix) : Prop := ∀ i < m.rows, ∀ j < m.cols, (m.get i j).Canonical

variable {j cols : ℕ}

theorem getD_flatMap_range {f : ℕ → List F} (hf : ∀ i, (f i).length = cols) {rows : ℕ}
    (hj : j < cols) (i : ℕ) :
    ((range rows).flatMap f).getD (cols * i + j) 0 = if i < rows then (f i).getD j 0 else 0 := by
  induction rows with
  | zero =>
    rw [if_neg (Nat.not_lt_zero i)]
    rfl
  | succ rows ih =>
    have hlen : ((range rows).flatMap f).length = rows * cols := by
      rw [length_flatMap]
      simp [hf]
    rw [range_succ, flatMap_append, flatMap_singleton]
    rcases Nat.lt_trichotomy i rows with hlt | heq | hgt
    · have hbn : cols * i + j < rows * cols := by
        calc cols * i + j < cols * i + cols := by omega
          _ = cols * (i + 1) := (Nat.mul_succ cols i).symm
          _ ≤ cols * rows := Nat.mul_le_mul_left _ hlt
          _ = rows * cols := Nat.mul_comm _ _
      rw [getD_append _ _ _ _ (by rw [hlen]; exact hbn), ih, if_pos hlt, if_pos (by omega)]
    · subst heq
      rw [getD_append_right _ _ _ _ (by rw [hlen, Nat.mul_comm]; omega), hlen, if_pos (by omega)]
      congr 1
      rw [Nat.mul_comm]
      omega
    · have hbn : rows * cols + cols ≤ cols * i + j := by
        calc rows * cols + cols = cols * (rows + 1) := by ring
          _ ≤ cols * i := Nat.mul_le_mul_left _ hgt
          _ ≤ cols * i + j := Nat.le_add_right _ _
      rw [if_neg (by omega), getD_eq_default]
      rw [length_append, hlen, hf]
      exact hbn

theorem Matrix.getD_row (m : Matrix) (i : ℕ) (hj : j < m.cols) :
    (m.row i).getD j 0 = m.get i j := by
  rw [row, getD_eq_getElem?_getD, getElem?_map, getElem?_range hj]
  rfl

theorem Matrix.length_row (m : Matrix) (i : ℕ) : (m.row i).length = m.cols := by
  rw [row, length_map, length_range]

theorem Matrix.getD_flat (m : Matrix) (i : ℕ) (hj : j < m.cols) :
    m.flat.getD (m.cols * i + j) 0 = if i < m.rows then m.get i j else 0 := by
  rw [flat, getD_flatMap_range m.length_row hj, m.getD_row i hj]

/-- Rows that are put in different places. -/
theorem foldl_place (hlg : lg ≤ 64) (coefficients : List F) {n : ℕ} (hn : n ≤ 2 ^ lg)
    (hi : i < 2 ^ lg) (j : ℕ) :
    (range n).foldl (place lg cols coefficients) (fun _ _ => 0) (rev lg i) j =
      if i < n then coefficients.getD (cols * i + j) 0 else 0 := by
  induction n with
  | zero =>
    rw [if_neg (Nat.not_lt_zero i)]
    rfl
  | succ n ih =>
    rw [range_succ, foldl_append, foldl_cons, foldl_nil, place,
      reverseBits_eq hlg (by omega)]
    by_cases heq : i = n
    · subst heq
      rw [update_self, if_pos (Nat.lt_succ_self i)]
    · rw [update_of_ne fun h => heq (rev_inj hi (by omega) h), ih (by omega)]
      by_cases hlt : i < n
      · rw [if_pos hlt, if_pos (by omega)]
      · rw [if_neg hlt, if_neg (by omega)]

theorem nextPowerOfTwo_two_pow (lg : ℕ) : nextPowerOfTwo (2 ^ lg) = 2 ^ lg := by
  rw [nextPowerOfTwo, Nat.clog_pow 2 lg one_lt_two]

def Matrix.polynomials (m : Matrix) (lg : ℕ) : PolynomialVector :=
  ⟨2 ^ lg, m.cols, (range (2 ^ lg)).foldl (place lg m.cols m.flat) fun _ _ => 0⟩

theorem Matrix.asPolynomials_eq (m : Matrix) (hrw : m.rows ≤ 2 ^ lg) :
    m.asPolynomials (2 ^ lg) = some (m.polynomials lg) := by
  rw [asPolynomials, if_neg (Nat.not_lt.2 hrw), new, if_neg (Nat.two_pow_pos lg).ne']
  dsimp only
  rw [nextPowerOfTwo_two_pow, log_two_pow]
  rfl

theorem Matrix.polynomials_get (m : Matrix) (hlg : lg ≤ 64) (hi : i < 2 ^ lg)
    (hj : j < m.cols) :
    (m.polynomials lg).data.get (rev lg i) j = if i < m.rows then m.get i j else 0 := by
  rw [polynomials]
  dsimp only
  rw [foldl_place hlg m.flat (Nat.le_refl _) hi, if_pos hi, m.getD_flat i hj]

theorem F.zero_canonical : (0 : F).Canonical := by
  show F.zero.Canonical
  decide

theorem getD_canonical {l : List F} (hl : ∀ x ∈ l, x.Canonical) (i : ℕ) : (l.getD i 0).Canonical := by
  rw [getD_eq_getElem?_getD]
  cases h : l[i]? with
  | none => exact F.zero_canonical
  | some x => exact hl x (mem_of_getElem? h)

variable {m : Matrix}

theorem Matrix.Canonical.flat (h : m.Canonical) {x : F} (hx : x ∈ m.flat) : x.Canonical := by
  obtain ⟨i, hi, hr⟩ := mem_flatMap.1 hx
  obtain ⟨j, hj, rfl⟩ := mem_map.1 hr
  exact h i (mem_range.1 hi) j (mem_range.1 hj)

theorem Matrix.Canonical.polynomials (h : m.Canonical) (lg i j : ℕ) :
    ((m.polynomials lg).data.get i j).Canonical := by
  rw [Matrix.polynomials]
  dsimp only
  generalize 2 ^ lg = n
  induction n with
  | zero => exact F.zero_canonical
  | succ n ih =>
    rw [range_succ, foldl_append, foldl_cons, foldl_nil, place]
    by_cases heq : i = reverseBits lg n
    · subst heq
      rw [update_self]
      exact getD_canonical (fun x hx => h.flat hx) _
    · rw [update_of_ne heq]
      exact ih

def Matrix.encoded (m : Matrix) (lg : ℕ) : Matrix where
  rows := 2 ^ lg
  cols := m.cols
  get i j := forward lg (root lg) (fun i => (m.polynomials lg).data.get i j) i

theorem Matrix.evaluate_polynomials (m : Matrix) (hlg : lg ≤ 32) :
    (m.polynomials lg).evaluate = some ⟨m.encoded lg, fun _ => true⟩ := by
  rw [evaluate, transform, polynomials, ntt_forward hlg]
  rfl

theorem forward_canonical {v : ℕ → F} (hv : ∀ i, (v i).Canonical) (lg i : ℕ) :
    (forward lg (root lg) v i).Canonical := by
  have h := map_forward Elem.hom_word lg ⟨root lg, root_canonical lg⟩ (Elem.lift v hv)
  have hi : forward lg (root lg) v i = _ := congrFun h i
  rw [hi]
  exact Elem.canonical _

theorem Matrix.Canonical.encoded (h : m.Canonical) (lg i j : ℕ) :
    ((m.encoded lg).get i j).Canonical :=
  forward_canonical (fun r => h.polynomials lg r j) lg i

/-- **Every row of an encoded matrix** has the values of the columns at a power of the root, for all
words. -/
theorem Matrix.toZ_encoded (m : Matrix) (hlg : lg ≤ 32) (hrw : m.rows ≤ 2 ^ lg)
    (hi : i < 2 ^ lg) (hj : j < m.cols) : ((m.encoded lg).get i j).toZ =
      ∑ r ∈ Finset.range m.rows, (m.get r j).toZ * ((root lg).toZ ^ i) ^ r := by
  have hrt := unityRoot hlg
  have hw : ((m.encoded lg).get i j).toZ =
      forward lg (root lg).toZ (F.toZ ∘ fun i => (m.polynomials lg).data.get i j) i :=
    (congrFun (F.toZ_forward lg (root lg) _) i).symm
  rw [hw, forward_apply hrt _ hi, evalRev_eq_sum]
  -- the coefficients behind the rows of the matrix are zero
  rw [← Finset.sum_subset (Finset.range_subset_range.2 hrw)]
  · refine Finset.sum_congr rfl fun r hr => ?_
    have hlt := Finset.mem_range.1 hr
    rw [comp_apply, m.polynomials_get (by omega) (by omega) hj, if_pos hlt]
  · intro r hr hnt
    rw [Finset.mem_range] at hr hnt
    rw [comp_apply, m.polynomials_get (by omega) hr hj, if_neg hnt]
    exact mul_eq_zero_of_left F.toZ_zero _

/-! ### Products -/

theorem toZ_foldl_mul (f g : ℕ → F) (n : ℕ) :
    ((range n).foldl (fun out j => out + f j * g j) (0 : F)).toZ =
        ∑ j ∈ Finset.range n, (f j).toZ * (g j).toZ ∧
      ((range n).foldl (fun out j => out + f j * g j) (0 : F)).Canonical := by
  induction n with
  | zero =>
    exact ⟨F.toZ_zero, F.zero_canonical⟩
  | succ n ih =>
    rw [range_succ, foldl_append, Finset.sum_range_succ, foldl_cons, foldl_nil, F.toZ_add_mul, ih.1]
    refine ⟨rfl, F.add_canonical ?_⟩
    have hot : F.toNat _ < P := ih.2
    have hmul : (f n * g n).toNat < P := F.mul_canonical (f n) (g n)
    omega

/-- **Products of matrices** are right and canonical, for all words. -/
theorem Matrix.mul_spec {a b : Matrix} (h : a.mul b = some m) :
    m.rows = a.rows ∧ m.cols = b.cols ∧ ∀ i k, (m.get i k).Canonical ∧ (m.get i k).toZ =
      ∑ j ∈ Finset.range a.cols, (a.get i j).toZ * (b.get j k).toZ := by
  rw [mul] at h
  split_ifs at h with hdm
  obtain rfl := Option.some.inj h
  refine ⟨rfl, rfl, fun i k => ?_⟩
  exact (toZ_foldl_mul (a.get i) (fun j => b.get j k) a.cols).symm

end Commonware
