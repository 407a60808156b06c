/-
**Binary Merkle trees.**

A tree is built level by level from leaf digests that are hashed with their positions; a node without
right sibling is paired with itself (`storage/src/bmt/mod.rs`).  A proof for a leaf holds the siblings
on the way to the root, a proof for a range of leaves the siblings at the two ends of the range.

The number of leaves is compared with positions of 32 bits after it was cast to 32 bits.  A tree of
`2 ^ 32` leaves can be built, and nothing can be proven about it.

Main definitions:

* `Builder.add`, `Tree.new`, `build` — building a tree;
* `Tree.proof`, `Tree.rangeProof` — proofs;
* `Proof.verify`, `RangeProof.verify` — their verification.
-/

import Commonware.MmrInclusion
import Commonware.PairTree

set_option autoImplicit false

namespace Commonware.Bmt

open Mmr (CHasher)

variable {Sym D : Type}

inductive Error (D : Type)
  | invalidPosition (position : ℕ)
  | invalidProof (computed root : D)
  | noLeaves
  | unalignedProof
  deriving DecidableEq

/-- How a call ends that returns no value. -/
inductive Failure (D : Type)
  | error (e : Error D)
  | panic
  deriving DecidableEq

/-! ### Building a tree -/

section

variable (c : CHasher Sym D)

/-- The bytes of a position, the most significant one first. -/
def u32 (n : ℕ) : List Sym := ([3, 2, 1, 0].map fun i => UInt8.ofNat (n / 256 ^ i)).map c.byte

def leafDigest (position : ℕ) (leaf : D) : D := c.hash (u32 c position ++ c.bytes leaf)

def nodeDigest (left right : D) : D := c.hash (c.bytes left ++ c.bytes right)

/-- Adds a leaf to those that are there.  The position has to fit into 32 bits. -/
def Builder.add (leaves : List D) (leaf : D) : Option (ℕ × List D) :=
  let position := leaves.length
  if position < 2 ^ 32 then some (position, leaves ++ [leafDigest c position leaf]) else none

structure Tree (D : Type) where
  empty : Bool
  levels : List (List D)

def Tree.new (leaves : List D) : Tree D :=
  if leaves = [] then ⟨true, [[c.hash []]]⟩
  else ⟨false, PairTree.tower (nodeDigest c) leaves.length leaves⟩

/-- A tree with some leaves, or none if there are too many of them. -/
def build (leaves : List D) : Option (Tree D) := do
  let hashed ← leaves.foldlM (fun hashed leaf => (Builder.add c hashed leaf).map Prod.snd) []
  pure (Tree.new c hashed)

end

/-! ### Proofs -/

namespace Tree

def leaves (tree : Tree D) : List D := tree.levels.headD []

def root (tree : Tree D) : Option D := tree.levels.getLast?.bind List.head?

/-- The sibling of an index: the digest itself, if it has no sibling on the right. -/
def sibling (level : List D) (index : ℕ) : Option D :=
  let siblingIndex := if index % 2 = 0 then index + 1 else index - 1
  if siblingIndex < level.length then level[siblingIndex]? else level[index]?

/-- The siblings on the way from an index up to the root. -/
def siblingsLoop : List (List D) → ℕ → Option (List D)
  | [], _ => some []
  | level :: levels, index =>
    if level.length = 1 then some []
    else do
      let first ← sibling level index
      let rest ← siblingsLoop levels (index / 2)
      pure (first :: rest)

end Tree

structure Proof (D : Type) where
  siblings : List D

/-- The digests at the two ends of a range. -/
structure Bounds (D : Type) where
  left : Option D
  right : Option D

structure RangeProof (D : Type) where
  siblings : List (Bounds D)

def orPanic {α : Type} : Option α → Except (Failure D) α
  | some a => .ok a
  | none => .error .panic

namespace Tree

def proof (tree : Tree D) (position : UInt32) : Except (Failure D) (Proof D) :=
  if tree.empty = true ∨ tree.leaves.length % 2 ^ 32 ≤ position.toNat then
    .error (.error (.invalidPosition position.toNat))
  else do
    let siblings ← orPanic (siblingsLoop tree.levels position.toNat)
    pure ⟨siblings⟩

/-- The sibling that a range needs on its left. -/
def leftBound (level : List D) (levelStart : ℕ) : Option (Option D) :=
  if levelStart % 2 = 1 then level[levelStart - 1]?.map some else some none

/-- The sibling that a range needs on its right. -/
def rightBound (level : List D) (levelEnd : ℕ) : Option (Option D) :=
  if levelEnd % 2 = 0 then
    if levelEnd + 1 < level.length then level[levelEnd + 1]?.map some else level[levelEnd]?.map some
  else some none

/-- The siblings at the ends of the range at one level. -/
def bounds (level : List D) (levelStart levelEnd : ℕ) : Option (Bounds D) := do
  let left ← leftBound level levelStart
  let right ← rightBound level levelEnd
  pure ⟨left, right⟩

/-- The siblings at the ends of a range that shrinks by half with every level. -/
def boundsLoop : List (List D) → ℕ → ℕ → Option (List (Bounds D))
  | [], _, _ => some []
  | level :: levels, levelStart, levelEnd =>
    if level.length = 1 then some []
    else do
      let first ← bounds level levelStart levelEnd
      let rest ← boundsLoop levels (levelStart / 2) (levelEnd / 2)
      pure (first :: rest)

def rangeProof (tree : Tree D) (start stop : UInt32) : Except (Failure D) (RangeProof D) :=
  if tree.empty = true ∧ start = 0 ∧ stop = 0 then .ok ⟨[]⟩
  else if stop < start then .error (.error (.invalidPosition start.toNat))
  else
    let leafCount := tree.leaves.length % 2 ^ 32
    if leafCount ≤ start.toNat then .error (.error (.invalidPosition start.toNat))
    else if leafCount ≤ stop.toNat then .error (.error (.invalidPosition stop.toNat))
    else do
      let siblings ← orPanic (boundsLoop tree.levels start.toNat stop.toNat)
      pure ⟨siblings⟩

end Tree

/-! ### Verification -/

section

variable (c : CHasher Sym D)

/-- The digest that is computed from a digest and its siblings. -/
def climb : List D → D → ℕ → D
  | [], computed, _ => computed
  | sibling :: siblings, computed, position =>
    climb siblings
      (if position % 2 = 0 then nodeDigest c computed sibling else nodeDigest c sibling computed)
      (position / 2)

/-- A node that is known while a proof for a range is verified. -/
structure Node (D : Type) where
  position : ℕ
  digest : D

/-- Pairs the nodes of a level.  A last node without partner takes the sibling on the right. -/
def pairLoop (right : Option D) : List (Node D) → Except (Error D) (List (Node D))
  | [] => .ok []
  | [node] =>
    match right with
    | some digest => .ok [⟨node.position / 2, nodeDigest c node.digest digest⟩]
    | none => .error .unalignedProof
  | node :: next :: rest =>
    if next.position = node.position + 1 then do
      let parents ← pairLoop right rest
      pure (⟨node.position / 2, nodeDigest c node.digest next.digest⟩ :: parents)
    else .error .unalignedProof

/-- One level: the parents of the nodes. -/
def climbLevel (nodes : List (Node D)) (bounds : Bounds D) :
    Except (Failure D) (List (Node D)) :=
  match nodes, nodes.getLast? with
  | first :: rest, some last =>
    let needsLeft := decide (first.position % 2 = 1)
    let needsRight := decide (last.position % 2 = 0)
    if needsLeft ≠ bounds.left.isSome then .error (.error .unalignedProof)
    else if needsRight ≠ bounds.right.isSome then .error (.error .unalignedProof)
    else
      let (parents, rest) :=
        match bounds.left with
        | some left => ([⟨first.position / 2, nodeDigest c left first.digest⟩], rest)
        | none => ([], nodes)
      match pairLoop c bounds.right rest with
      | .error e => .error (.error e)
      | .ok next => .ok (parents ++ next)
  | _, _ => .error .panic

/-- The leaves with their positions.  The sum of a position and an index may overflow. -/
def leafNodes (position : ℕ) (leaves : List D) : Except (Failure D) (List (Node D)) :=
  leaves.zipIdx.mapM fun entry =>
    let leafPosition := position + entry.2 % 2 ^ 32
    if leafPosition < 2 ^ 32 then .ok ⟨leafPosition, leafDigest c leafPosition entry.1⟩
    else .error .panic

variable [DecidableEq D]

def Proof.verify (p : Proof D) (leaf : D) (position : UInt32) (root : D) : Except (Error D) Unit :=
  let computed := climb c p.siblings (leafDigest c position.toNat leaf) position.toNat
  if computed = root then .ok () else .error (.invalidProof computed root)

def RangeProof.verify (p : RangeProof D) (position : UInt32) (leaves : List D) (root : D) :
    Except (Failure D) Unit :=
  if position = 0 ∧ leaves.length = 0 ∧ p.siblings.length = 0 then
    let emptyRoot := c.hash []
    if emptyRoot = root then .ok () else .error (.error (.invalidProof emptyRoot root))
  else if leaves.length = 0 then .error (.error .noLeaves)
  else if 2 ^ 32 ≤ position.toNat + leaves.length % 2 ^ 32 then
    .error (.error (.invalidPosition position.toNat))
  else do
    let nodes ← leafNodes c position.toNat leaves
    let nodes ← p.siblings.foldlM (climbLevel c) nodes
    match nodes with
    | [node] =>
      if node.digest = root then .ok () else .error (.error (.invalidProof node.digest root))
    | _ => .error (.error .unalignedProof)

end

end Commonware.Bmt
