/-
**Numbers of 64 bits.**

Sums, differences and products of numbers of 64 bits have no value when they overflow.

Main definitions:

* `Checked.add`, `Checked.sub`, `Checked.mul` — arithmetic.
-/

import Mathlib.Algebra.Order.Group.Nat
import Mathlib.Tactic.Common

set_option autoImplicit false

namespace Checked

def add (a b : ℕ) : Option ℕ := if a + b < 2 ^ 64 then some (a + b) else none

def sub (a b : ℕ) : Option ℕ := if b ≤ a then some (a - b) else none

def mul (a b : ℕ) : Option ℕ := if a * b < 2 ^ 64 then some (a * b) else none

theorem add_eq {a b : ℕ} (h : a + b < 2 ^ 64) : add a b = some (a + b) := if_pos h

end Checked
