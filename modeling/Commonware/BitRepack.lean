/-
**Numbers of one width from numbers of another.**

A stream of numbers of `a` bits is cut into numbers of `b` bits.  The bits that have been read and not
been written yet are kept in an accumulator; the last number is filled up with zeros.

Main definitions:

* `Repack.pull` — fills the accumulator;
* `Repack.repack` — the numbers that are written.
-/

import Mathlib.Data.Nat.Digits.Lemmas

set_option autoImplicit false

namespace Repack

/-- The accumulator, how many bits it has, and what has not been read. -/
structure State where
  acc : ℕ
  bits : ℕ
  rest : List ℕ

/-- Reads numbers of `a` bits until there are `b` bits, or nothing is left. -/
def pull (a b : ℕ) (acc bits : ℕ) : List ℕ → State
  | [] => ⟨acc, bits, []⟩
  | x :: rest => if bits < b then pull a b (acc ||| x <<< bits) (bits + a) rest else ⟨acc, bits, x :: rest⟩

def State.total (a : ℕ) (s : State) : ℕ := s.bits + a * s.rest.length

theorem total_pull (a b acc bits : ℕ) (rest : List ℕ) :
    (pull a b acc bits rest).total a = bits + a * rest.length := by
  induction rest generalizing acc bits with
  | nil => rfl
  | cons x rest ih =>
    rw [pull]
    split_ifs
    · rw [ih, List.length_cons]
      ring
    · rfl

/-- Writes numbers of `b` bits as long as there are bits. -/
def repack (a : ℕ) {b : ℕ} (hb : 0 < b) (acc bits : ℕ) (rest : List ℕ) : List ℕ :=
  if (pull a b acc bits rest).bits = 0 then []
  else
    (pull a b acc bits rest).acc % 2 ^ b ::
      repack a hb ((pull a b acc bits rest).acc >>> b) ((pull a b acc bits rest).bits - b)
        (pull a b acc bits rest).rest
termination_by bits + a * rest.length
decreasing_by
  have htotal := total_pull a b acc bits rest
  rw [State.total] at htotal
  omega

end Repack
