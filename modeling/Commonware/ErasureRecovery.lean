/-
**Recovery of a polynomial from some of its values.**

The values of a polynomial at the powers of a root of unity are known for some of the powers only.  The
known values are multiplied by those of a polynomial that vanishes at the missing powers; so the missing
products are known to be zero, and the product of the two polynomials can be interpolated.  It is divided
by the vanishing polynomial at points that are not powers of the root.

The vanishing polynomial is built from the polynomials of the two halves of the indices, the even and the
odd ones, level by level.

Main definitions:

* `Erasure.Roots` — the roots that are used, by the size of the transform;
* `Erasure.combine`, `Erasure.vanishing` — the vanishing polynomial;
* `Erasure.divide`, `Erasure.recover` — the recovery.
-/

import Commonware.NumberTransform

set_option autoImplicit false

namespace Erasure

open Transform Function

/-! ### Functions -/

/-- The roots of unity by the size of the transform, with their inverses, and a number that is not a
root of unity. -/
structure Roots (A : Type) where
  root : ℕ → A
  rootInv : ℕ → A
  skew : A
  skewInv : A
  inv : A → A

variable {A : Type} [Zero A] [One A] [Add A] [Sub A] [Mul A] [Half A]

/-- Multiplies the coefficients from the `j`-th one on by powers of a factor. -/
def scaleLoop (factor : A) (offset lg : ℕ) : ℕ → ℕ → A → (ℕ → A) → ℕ → A
  | 0, _, _, v => v
  | n + 1, j, fj, v =>
    let index := offset + rev lg j
    scaleLoop factor offset lg n (j + 1) (fj * factor) (update v index (v index * fj))

def scale (factor : A) (offset lg : ℕ) (v : ℕ → A) : ℕ → A :=
  scaleLoop factor offset lg (2 ^ lg) 0 1 v

def swap (v : ℕ → A) (i j : ℕ) : ℕ → A :=
  update (update v i (v j)) j (v i)

/-- The right half takes all the space. -/
def expandRight (size : ℕ) (v : ℕ → A) : ℕ → A :=
  (List.range size).foldl (fun v j => swap v (size + j) (2 * j)) v

/-- The left half takes all the space. -/
def expandLeft (size : ℕ) (v : ℕ → A) : ℕ → A :=
  (List.range size).reverse.foldl (fun v j => swap v j (2 * j)) v

/-- The right half, with all the space, and the left half alone. -/
def takeRight (size : ℕ) (v : ℕ → A) : (ℕ → A) × (ℕ → A) :=
  (List.range size).foldl (fun sv j =>
    (update sv.1 (2 * j) (sv.2 (size + j)), update sv.2 (size + j) 0))
    (fun _ => 0, v)

/-- The polynomial of a section from those of its two halves, of `2 ^ lg` coefficients each. -/
def combine (R : Roots A) (lg : ℕ) (wInv : A) (hasLeft hasRight : Bool) (slice : ℕ → A) : ℕ → A :=
  match hasLeft, hasRight with
  | false, false => slice
  | false, true => expandRight (2 ^ lg) (scale wInv (2 ^ lg) lg slice)
  | true, false => expandLeft (2 ^ lg) slice
  | true, true =>
    let parts := takeRight (2 ^ lg) (scale wInv (2 ^ lg) lg slice)
    let scratch := forward (lg + 1) (R.root (lg + 1)) parts.1
    let left := forward (lg + 1) (R.root (lg + 1)) (expandLeft (2 ^ lg) parts.2)
    backward (lg + 1) (R.rootInv (lg + 1)) fun i => left i * scratch i

/-- The polynomials of the sections, and whether they have one. -/
structure Sections (A : Type) where
  polynomials : ℕ → A
  active : ℕ → Bool

/-- One level up: the sections have `2 ^ (t + 1)` coefficients before. -/
def level (R : Roots A) (s : Sections A) (stage : ℕ × A) : Sections A where
  polynomials i :=
    let size := 2 ^ (stage.1 + 2)
    let section_ := i / size
    combine R (stage.1 + 1) stage.2 (s.active (2 * section_)) (s.active (2 * section_ + 1))
      (fun j => s.polynomials (size * section_ + j)) (i % size)
  active i := s.active (2 * i) || s.active (2 * i + 1)

/-- One section for each index, with `X - 1` for those that are missing. -/
def leaves (lg : ℕ) (present : ℕ → Bool) : Sections A where
  polynomials i :=
    if present (rev lg (i / 2)) then 0 else if i % 2 = 0 then 0 - 1 else 1
  active i := !present (rev lg i)

/-- The first half of the coefficients. -/
def truncate (size : ℕ) (v : ℕ → A) : ℕ → A :=
  (List.range size).foldl (fun v i => swap v i (2 * i)) v

/-- A polynomial that vanishes at the missing indices. -/
def vanishing (R : Roots A) (lg : ℕ) (present : ℕ → Bool) : ℕ → A :=
  let sections := (stages lg (R.rootInv lg)).foldl (level R) (leaves lg present)
  if sections.active 0 then truncate (2 ^ lg) sections.polynomials
  else fun i => if i = 0 then 1 else 0

/-- The quotient of two polynomials, if there is no remainder. -/
def divide (R : Roots A) (lg : ℕ) (q v : ℕ → A) : ℕ → A :=
  let v := forward lg (R.root lg) (scale R.skew 0 lg v)
  let q := forward lg (R.root lg) (scale R.skew 0 lg q)
  scale R.skewInv 0 lg (backward lg (R.rootInv lg) fun i => v i * R.inv (q i))

/-- The polynomial with the given values. -/
def recover (R : Roots A) (lg : ℕ) (present : ℕ → Bool) (e : ℕ → A) : ℕ → A :=
  let q := vanishing R lg present
  let values := forward lg (R.root lg) q
  divide R lg q (backward lg (R.rootInv lg) fun i => e i * values i)

end Erasure
