/-
**Journals with sections.**

A journal is written by appending records, each to the section that its key belongs to, and by
removing all sections below a given one.  The writes are kept as a list, so that the journals a
crash can leave behind are the prefixes of the writes of an operation.  What a journal holds is
computed from its writes.

Main definitions:

* `Journal.Write`, `Journal.contents` — the writes and the records that remain.
-/

import Mathlib.Tactic.Common

set_option autoImplicit false

namespace Journal

/-- One write: a record, or the removal of all sections below one. -/
inductive Write (R : Type)
  | record (r : R)
  | prune (bound : ℕ)
  deriving DecidableEq

variable {R : Type} (place : R → ℕ)

/-- One write, on the records that are there. -/
def Write.apply (held : List R) : Write R → List R
  | .record r => held ++ [r]
  | .prune s => held.filter fun r => decide (s ≤ place r)

/-- The records that remain after all writes. -/
def contents (writes : List (Write R)) : List R := writes.foldl (Write.apply place) []

@[simp] theorem contents_snoc (writes : List (Write R)) (w : Write R) :
    contents place (writes ++ [w]) = w.apply place (contents place writes) := by
  simp [contents]

theorem mem_contents_prune {writes : List (Write R)} {n : ℕ} {s : R} :
    s ∈ contents place (writes ++ [.prune n]) ↔ s ∈ contents place writes ∧ n ≤ place s := by
  simp [Write.apply]

end Journal
