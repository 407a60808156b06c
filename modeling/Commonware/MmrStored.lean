/-
**What a mountain range in memory holds.**

A range that holds a list of elements has for every node that is retained the digest that the
elements give it, unless the node is dirty, and has pinned the peaks of the largest range before
the pruning boundary.  The nodes that are needed again are never among those that pruning drops: a
left child whose parent is still to change, or a peak, is retained or pinned.

Main definitions:

* `digestAt`, `rootOf` — the digests of the nodes of a range, and its root, by its elements;
* `Stored` — what a range has, by its elements.

Main results:

* `Stored.getNode_of_even` — **a left child, or a peak, can be read**.
-/

import Commonware.MmrMem
import Commonware.MmrWalk

set_option autoImplicit false

namespace Commonware.Mmr

open MountainRange List

variable {Sym D S : Type}

/-! ### Digests of elements -/

/-- The digest of the node of height `h` over the `q`-th block of elements. -/
def digestAt (hasher : Hasher Sym D) (es : List (List Sym)) : ℕ → ℕ → D
  | 0, a => hasher.leafDigest (size a) (es.getD a [])
  | h + 1, q =>
    hasher.nodeDigest (pos (h + 1) q) (digestAt hasher es h (2 * q))
      (digestAt hasher es h (2 * q + 1))

/-- The digests of the peaks of the range of some elements. -/
def peakDigests (hasher : Hasher Sym D) (es : List (List Sym)) : List D :=
  (peaks es.length).map fun node => digestAt hasher es node.1 node.2

/-- The peaks of a range, by their positions. -/
abbrev peakEntries (hasher : Hasher Sym D) (es : List (List Sym)) (n : ℕ) : List (ℕ × D) :=
  (peaks n).map fun node => (pos node.1 node.2, digestAt hasher es node.1 node.2)

def rootOf (hasher : Hasher Sym D) (es : List (List Sym)) : D :=
  hasher.root (size es.length) (peakDigests hasher es)

section Digests

variable {hasher : Hasher Sym D} {es es' : List (List Sym)}

/-- A digest depends on the elements below the node only. -/
theorem digestAt_congr {h q : ℕ}
    (hes : ∀ a, q * 2 ^ h ≤ a → a < (q + 1) * 2 ^ h → es.getD a [] = es'.getD a []) :
    digestAt hasher es h q = digestAt hasher es' h q := by
  induction h generalizing q with
  | zero =>
    rw [digestAt, digestAt, hes q (by omega) (by omega)]
  | succ h ih =>
    have hh := leaves_halves h q
    rw [digestAt, digestAt, ih fun a h₁ h₂ => hes a (by omega) (by omega),
      ih fun a h₁ h₂ => hes a (by omega) (by omega)]

theorem digestAt_append {h q : ℕ} (he : (q + 1) * 2 ^ h ≤ es.length) :
    digestAt hasher (es ++ es') h q = digestAt hasher es h q :=
  digestAt_congr fun a _ hlt => by
    rw [getD_eq_getElem?_getD, getD_eq_getElem?_getD,
      List.getElem?_append_left (by omega)]

theorem digestAt_take {h q n : ℕ} (he : (q + 1) * 2 ^ h ≤ n) :
    digestAt hasher (es.take n) h q = digestAt hasher es h q :=
  digestAt_congr fun a _ hlt => by
    rw [getD_eq_getElem?_getD, getD_eq_getElem?_getD,
      List.getElem?_take_of_lt (by omega)]

theorem digestAt_set {h q a : ℕ} {e : List Sym} (hot : a / 2 ^ h ≠ q) :
    digestAt hasher (es.set a e) h q = digestAt hasher es h q :=
  digestAt_congr fun b hlo hlt => by
    have hne : a ≠ b := by
      rintro rfl
      exact hot (Nat.div_eq_of_lt_le hlo hlt)
    rw [getD_eq_getElem?_getD, getD_eq_getElem?_getD, List.getElem?_set_ne hne]

end Digests

/-! ### Maps over lists of nodes -/

theorem lookup_map_of_mem {α : Type} (key : α → ℕ) (val : α → D) {l : List α} {x : α}
    (hmem : x ∈ l) (hky : ∀ y ∈ l, key y = key x → y = x) :
    (l.map fun y => (key y, val y)).lookup (key x) = some (val x) := by
  induction l with
  | nil => cases hmem
  | cons y l ih =>
    rw [map_cons, lookup_cons]
    by_cases heq : key x = key y
    · rw [heq, beq_self_eq_true, hky y mem_cons_self heq.symm]
    · rw [beq_false_of_ne heq]
      have hne : x ≠ y := fun h => heq (congrArg key h)
      exact ih (mem_of_ne_of_mem hne hmem)
        fun z hz => hky z (mem_cons_of_mem y hz)

theorem lookup_peaks {digestOf : ℕ → ℕ → D} {l : List (ℕ × ℕ)} {node : ℕ × ℕ} (hmem : node ∈ l) :
    (l.map fun node => (pos node.1 node.2, digestOf node.1 node.2)).lookup (pos node.1 node.2) =
      some (digestOf node.1 node.2) :=
  lookup_map_of_mem (fun node : ℕ × ℕ => pos node.1 node.2)
    (fun node => digestOf node.1 node.2) hmem fun node _ hp => by
      obtain ⟨h₁, h₂⟩ := pos_inj hp
      exact Prod.ext h₁ h₂

/-! ### What a range has -/

/-- The nodes of a range by its elements, up to some dirty nodes.  The peaks of the first `pin`
leaves are pinned. -/
structure Stored (hasher : Hasher Sym D) (es : List (List Sym)) (m : MemMmr D S)
    (dirty : List (ℕ × ℕ)) (pin : ℕ) : Prop where
  size_eq : m.size = size es.length
  pin_le : size pin ≤ m.prunedToPos
  lt_pin : m.prunedToPos < size (pin + 1)
  pinned : ∀ node ∈ peaks pin,
    m.pinnedNodes.lookup (pos node.1 node.2) = some (digestAt hasher es node.1 node.2)
  retained : ∀ h q, (q + 1) * 2 ^ h ≤ es.length → m.prunedToPos ≤ pos h q →
    (pos h q, h) ∉ dirty → m.nodes[pos h q - m.prunedToPos]? = some (digestAt hasher es h q)
  -- a dirty node is above a leaf that is retained
  dirty_node : ∀ x h, (x, h) ∈ dirty → ∃ k q, h = k + 1 ∧ x = pos (k + 1) q ∧
    (q + 1) * 2 ^ (k + 1) ≤ es.length ∧ m.prunedToPos ≤ size ((q + 1) * 2 ^ (k + 1) - 1)

namespace Stored

variable {hasher : Hasher Sym D} {es : List (List Sym)} {m : MemMmr D S} {dirty : List (ℕ × ℕ)}
  {pin : ℕ}

variable (st : Stored hasher es m dirty pin)
include st

theorem length_add : m.nodes.length + m.prunedToPos = size es.length := st.size_eq

theorem boundary_le : m.prunedToPos ≤ size es.length := by
  have := st.length_add
  omega

theorem pin_le_length : pin ≤ es.length := by
  rw [← size_le_size_iff]
  exact st.pin_le.trans st.boundary_le

/-- A left child whose parent has a leaf that is retained is retained or pinned, and so is a peak
of a range that has not been pruned. -/
theorem retained_or_pinned {h q b : ℕ} (hev : q % 2 = 0)
    (hb : m.prunedToPos ≤ size b) (hbq : b < (q + 2) * 2 ^ h) :
    m.prunedToPos ≤ pos h q ∨ (h, q) ∈ peaks pin := by
  rcases Nat.lt_or_ge (pos h q) m.prunedToPos with hlt | hge
  · right
    have he : (q + 1) * 2 ^ h ≤ pin + 1 := by
      rw [← pos_lt_size_iff]
      exact hlt.trans st.lt_pin
    -- the node is not one of those that the leaf after the pinned ones completes
    have hne : (q + 1) * 2 ^ h ≠ pin + 1 := by
      intro heq
      obtain ⟨r, rfl⟩ : ∃ r, q = 2 * r := ⟨q / 2, by omega⟩
      have hsize := size_child_end h r
      have hp := st.lt_pin
      rw [heq] at hsize
      omega
    have hp : pin ≤ b := by
      rw [← size_le_size_iff]
      exact st.pin_le.trans hb
    exact mem_peaks.2 ⟨Nat.div_eq_of_lt_le (by omega) (hp.trans_lt hbq), hev⟩
  · exact Or.inl hge

theorem getNode_of {h q : ℕ} (he : (q + 1) * 2 ^ h ≤ es.length) (hcl : (pos h q, h) ∉ dirty)
    (hkp : m.prunedToPos ≤ pos h q ∨ (h, q) ∈ peaks pin) :
    m.getNode (pos h q) = some (digestAt hasher es h q) := by
  rw [MemMmr.getNode]
  split_ifs with hlt
  · have hmem : (h, q) ∈ peaks pin := hkp.resolve_left (Nat.not_le.2 hlt)
    exact st.pinned _ hmem
  · exact st.retained h q he (Nat.not_lt.1 hlt) hcl

/-- **A left child, or a peak, can be read.** -/
theorem getNode_of_even {h q b : ℕ}
    (he : (q + 1) * 2 ^ h ≤ es.length) (hcl : (pos h q, h) ∉ dirty) (hev : q % 2 = 0)
    (hb : m.prunedToPos ≤ size b) (hbq : b < (q + 2) * 2 ^ h) :
    m.getNode (pos h q) = some (digestAt hasher es h q) :=
  st.getNode_of he hcl (st.retained_or_pinned hev hb hbq)

theorem getNode_of_le {h q b : ℕ} (he : (q + 1) * 2 ^ h ≤ es.length) (hcl : (pos h q, h) ∉ dirty)
    (hb : m.prunedToPos ≤ size b) (hbq : b < (q + 1) * 2 ^ h) :
    m.getNode (pos h q) = some (digestAt hasher es h q) :=
  st.getNode_of he hcl (Or.inl (hb.trans (size_le_pos_iff.2 hbq)))

theorem getNode_of_peak {h q n : ℕ} (hn : n ≤ es.length)
    (hbn : m.prunedToPos ≤ size n) (hmem : (h, q) ∈ peaks n) (hcl : (pos h q, h) ∉ dirty) :
    m.getNode (pos h q) = some (digestAt hasher es h q) :=
  st.getNode_of_even ((peak_end_le hmem).trans hn) hcl (mem_peaks.1 hmem).2 hbn
    (lt_of_peak hmem)

end Stored

end Commonware.Mmr
