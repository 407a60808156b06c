/-
**The free hash.**

A digest is the string that was hashed, and strings are made of bytes and digests.  No two strings
have one digest, and no digest is a byte.

Main definitions:

* `FreeHash` — digests;
* `FreeHash.hash` — the hash.

Main results:

* `FreeHash.hash_injective` — **no two strings have one digest**.
-/

import Mathlib.Logic.Function.Basic
import Mathlib.Data.Nat.Notation

set_option autoImplicit false

/-- A string of bytes and digests. -/
inductive FreeHash
  | nil
  | byte (b : UInt8) (rest : FreeHash)
  | digest (d : FreeHash) (rest : FreeHash)
  deriving DecidableEq

namespace FreeHash

/-- A byte or a digest. -/
abbrev Symbol := UInt8 ⊕ FreeHash

def hash : List Symbol → FreeHash
  | [] => nil
  | .inl b :: rest => byte b (hash rest)
  | .inr d :: rest => digest d (hash rest)

/-- **No two strings have one digest.** -/
theorem hash_injective : Function.Injective hash := by
  intro s
  induction s with
  | nil =>
    intro t h
    cases t with
    | nil => rfl
    | cons x t =>
      cases x with
      | inl | inr => cases h
  | cons x s ih =>
    intro t h
    cases t with
    | nil =>
      cases x with
      | inl | inr => cases h
    | cons y t =>
      cases x with
      | inl b =>
        cases y with
        | inl b' =>
          injection h with hb hr
          rw [hb, ih hr]
        | inr d => cases h
      | inr d =>
        cases y with
        | inl b => cases h
        | inr d' =>
          injection h with hd hr
          rw [hd, ih hr]

end FreeHash
