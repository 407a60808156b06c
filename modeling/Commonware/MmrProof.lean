/-
**Proofs of inclusion in a Merkle mountain range.**

A proof has the size of a mountain range and a list of digests.  The verifier computes the digests
of the peaks from the elements and the list: peaks of mountains without elements are taken from the
front of the list, siblings of nodes on the way to an element from its back.  This module models
the hashers (`storage/src/mmr/hasher.rs`) and the proofs (`storage/src/mmr/proof.rs`).

The hash function is a parameter.  It takes strings of symbols: bytes are symbols, and digests are
strings of a fixed length.  With bytes as the only symbols this is the hash function of the source.

Main definitions:

* `CHasher`, `Hasher`, `CHasher.standard` — hash functions, and the digests of leaves and nodes;
* `peakDigestFromRange`, `Proof.reconstructPeakDigests` — the verifier;
* `Proof.verifyRangeInclusion`, `Proof.verifyMultiInclusion`,
  `Proof.verifyRangeInclusionAndExtractDigests`;
* `nodesRequiredForRangeProof`, `nodesRequiredForMultiProof` — what a prover has to look up.
-/

import Commonware.MmrNodes
import Commonware.OrdMap

set_option autoImplicit false

namespace Commonware.Mmr

variable {Sym D : Type}

/-! ### Hashers -/

/-- A hash function on strings of symbols, with a digest that stands for none.  Bytes are symbols,
and digests can be hashed again as strings of one length. -/
structure CHasher (Sym D : Type) where
  hash : List Sym → D
  empty : D
  byte : UInt8 → Sym
  bytes : D → List Sym
  digestSize : ℕ
  byte_injective : Function.Injective byte
  bytes_injective : Function.Injective bytes
  length_bytes : ∀ d, (bytes d).length = digestSize

/-- The bytes of a number of 64 bits, the most significant one first. -/
def toBeBytes (n : ℕ) : List UInt8 :=
  [7, 6, 5, 4, 3, 2, 1, 0].map fun i => UInt8.ofNat (n / 256 ^ i)

/-- What a mountain range needs of a hasher: the digests of leaves and of nodes, by position, and
the root, by size. -/
structure Hasher (Sym D : Type) where
  leafDigest : ℕ → List Sym → D
  nodeDigest : ℕ → D → D → D
  root : ℕ → List D → D
  empty : D

def CHasher.u64 (c : CHasher Sym D) (n : ℕ) : List Sym := (toBeBytes n).map c.byte

/-- The standard hasher: a position, and then an element or the digests of the children. -/
def CHasher.standard (c : CHasher Sym D) : Hasher Sym D where
  leafDigest pos element := c.hash (c.u64 pos ++ element)
  nodeDigest pos left right := c.hash (c.u64 pos ++ c.bytes left ++ c.bytes right)
  root size peakDigests := c.hash (c.u64 size ++ peakDigests.flatMap c.bytes)
  empty := c.empty

/-! ### Digests of peaks -/

inductive ReconstructionError
  | missingDigests
  | extraDigests
  | invalidStartLoc
  | invalidEndLoc
  | missingElements
  | invalidSize
  deriving DecidableEq

/-- The elements and siblings that are still to come, and the digests that were met. -/
structure Feed (Sym D : Type) where
  elements : List (List Sym)
  siblings : List D
  collected : List (ℕ × D)

def Feed.nextSibling (s : Feed Sym D) : Except ReconstructionError (D × Feed Sym D) :=
  match s.siblings with
  | [] => .error .missingDigests
  | d :: rest => .ok (d, { s with siblings := rest })

def Feed.collect (s : Feed Sym D) (items : List (ℕ × D)) : Feed Sym D :=
  { s with collected := s.collected ++ items }

/-- A child's digest, which is the next sibling if the walk has not entered the child. -/
def Feed.orSibling (s : Feed Sym D) : Option D → Except ReconstructionError (D × Feed Sym D)
  | some d => .ok (d, s)
  | none => s.nextSibling

/-- Enters a child on a condition. -/
def Feed.enterIf (s : Feed Sym D) (c : Prop) [Decidable c]
    (walk : Feed Sym D → Except ReconstructionError (D × Feed Sym D)) :
    Except ReconstructionError (Option D × Feed Sym D) :=
  if c then do
    let (d, s) ← walk s
    pure (some d, s)
  else pure (none, s)

/-- The digest of the node of height `h` at `pos`, from the elements of a range of leaves. -/
def peakDigestFromRange (hasher : Hasher Sym D) (leftmostPos rightmostPos : ℕ) :
    ℕ → ℕ → Feed Sym D → Except ReconstructionError (D × Feed Sym D)
  | 0, pos, s =>
    match s.elements with
    | [] => .error .missingDigests
    | element :: rest => .ok (hasher.leafDigest pos element, { s with elements := rest })
  | h + 1, pos, s => do
      let leftPos := pos - 2 ^ (h + 1)
      let rightPos := leftPos + 2 ^ (h + 1) - 1
      let (left, s) ← s.enterIf (leftmostPos ≤ leftPos)
        (peakDigestFromRange hasher leftmostPos rightmostPos h leftPos)
      let (right, s) ← s.enterIf (leftPos < rightmostPos)
        (peakDigestFromRange hasher leftmostPos rightmostPos h rightPos)
      let (left, s) ← s.orSibling left
      let (right, s) ← s.orSibling right
      pure (hasher.nodeDigest pos left right, s.collect [(leftPos, left), (rightPos, right)])

/-- The size of a mountain range and digests of some of its nodes. -/
structure Proof (D : Type) where
  size : ℕ
  digests : List D

namespace Proof

/-- The digests of the peaks of a list: those of mountains with elements of the range are computed,
the others are taken from the front of the digests of the proof.  The result has the digests that
are left at the front. -/
def peakLoop (hasher : Hasher Sym D) (startPos endPos : ℕ) :
    List (ℕ × ℕ) → List D → Feed Sym D →
      Except ReconstructionError (List D × List D × Feed Sym D)
  | [], front, s => .ok ([], front, s)
  | (peakPos, height) :: peaks, front, s =>
    let leftmostPos := peakPos + 2 - 2 ^ (height + 1)
    if startPos ≤ peakPos ∧ leftmostPos ≤ endPos then do
      let (hash, s) ← peakDigestFromRange hasher startPos endPos height peakPos s
      let (digests, front, s) ←
        peakLoop hasher startPos endPos peaks front (s.collect [(peakPos, hash)])
      pure (hash :: digests, front, s)
    else
      match front with
      | [] => .error .missingDigests
      | hash :: front => do
          let (digests, front, s) ←
            peakLoop hasher startPos endPos peaks front (s.collect [(peakPos, hash)])
          pure (hash :: digests, front, s)

/-- The position of the last element. -/
def endElementPos (startLoc startPos count : ℕ) : Except ReconstructionError ℕ :=
  if count = 1 then .ok startPos
  else
    match Location.checkedAdd startLoc (count - 1) with
    | none => .error .invalidEndLoc
    | some endLoc =>
      match Position.tryFrom endLoc with
      | .error _ => .error .invalidEndLoc
      | .ok endPos => .ok endPos

section

variable [DecidableEq D]

/-- A digest that is left at the back has to be the last one that was taken from the front. -/
def extraDigests (digests : List D) (used : ℕ) (s : Feed Sym D) : Bool :=
  match s.siblings with
  | [] => false
  | next :: _ => decide (used = 0) || decide (some next ≠ digests[used - 1]?)

variable (p : Proof D) (hasher : Hasher Sym D) (elements : List (List Sym))

/-- The digests of the peaks, and the digests that were met on the way. -/
def reconstructPeakDigests (startLoc : ℕ) : Except ReconstructionError (List D × List (ℕ × D)) :=
  if elements = [] then
    if startLoc = 0 then .ok ([], []) else .error .missingElements
  else
    match Position.tryFrom startLoc with
    | .error _ => .error .invalidStartLoc
    | .ok startPos => do
        let endPos ← endElementPos startLoc startPos elements.length
        if p.size ≤ endPos then .error .invalidEndLoc
        else if Position.isMmrSize p.size = false then .error .invalidSize
        else
          match peakIterator p.size with
          | none => .error .invalidSize
          | some peaks =>
            let (peakDigests, front, s) ←
              peakLoop hasher startPos endPos peaks p.digests ⟨elements, p.digests.reverse, []⟩
            if s.elements ≠ [] then .error .extraDigests
            else if extraDigests p.digests (p.digests.length - front.length) s then
              .error .extraDigests
            else .ok (peakDigests, s.collected)

def reconstructRoot (startLoc : ℕ) : Except ReconstructionError D :=
  if Position.isMmrSize p.size = false then .error .invalidSize
  else do
    let (peakDigests, _) ← p.reconstructPeakDigests hasher elements startLoc
    pure (hasher.root p.size peakDigests)

/-- Whether the elements stand one after the other from `startLoc` on. -/
def verifyRangeInclusion (startLoc : ℕ) (root : D) : Bool :=
  if Position.isMmrSize p.size = false then false
  else
    match p.reconstructRoot hasher elements startLoc with
    | .ok reconstructed => decide (root = reconstructed)
    | .error _ => false

def verifyElementInclusion (element : List Sym) (loc : ℕ) (root : D) : Bool :=
  p.verifyRangeInclusion hasher [element] loc root

/-- As `verifyRangeInclusion`, with all digests that were met. -/
def verifyRangeInclusionAndExtractDigests (startLoc : ℕ) (root : D) : Except Error (List (ℕ × D)) :=
  match p.reconstructPeakDigests hasher elements startLoc with
  | .error _ => .error .invalidProof
  | .ok (peakDigests, collected) =>
    if hasher.root p.size peakDigests ≠ root then .error .rootMismatch else .ok collected

end

end Proof

/-! ### Required nodes -/

/-- The peaks of the mountains behind the range, once its first mountain has been found: the last
mountain of the range, and the peaks after it. -/
def findEndTree (endPos : ℕ) : List (ℕ × ℕ) → Option (ℕ × ℕ) × List ℕ
  | [] => (none, [])
  | peak :: peaks =>
    if endPos ≤ peak.1 then (some peak, peaks.map Prod.fst) else findEndTree endPos peaks

/-- The first and the last mountain of the range, and the peaks of the others. -/
def findTrees (startPos endPos : ℕ) :
    List (ℕ × ℕ) → Option (ℕ × ℕ) × Option (ℕ × ℕ) × List ℕ
  | [] => (none, none, [])
  | peak :: peaks =>
    if startPos ≤ peak.1 then
      let (endTree, positions) :=
        if endPos ≤ peak.1 then (some peak, peaks.map Prod.fst) else findEndTree endPos peaks
      (some peak, endTree, positions)
    else
      let (startTree, endTree, positions) := findTrees startPos endPos peaks
      (startTree, endTree, peak.1 :: positions)

/-- The siblings of the nodes on the paths to the first and the last element, with their parents. -/
def pathSiblings (startPos endPos : ℕ) (startTree endTree : ℕ × ℕ) : List (ℕ × ℕ) :=
  let leftPath := pathIterator startPos startTree.2 startTree.1
  if startPos = endPos then leftPath
  else
    let rightPath := pathIterator endPos endTree.2 endTree.1
    let siblings := rightPath.filter (fun item => decide (item.1 = item.2 + 1)) ++
      leftPath.filter fun item => decide (item.1 ≠ item.2 + 1)
    if startTree.1 = endTree.1 then
      siblings.mergeSort fun a b => decide (b.1 ≤ a.1)
    else siblings

/-- The positions of the nodes that a proof of the range has to give. -/
def nodesRequiredForRangeProof (size start stop : ℕ) : Except Error (List ℕ) :=
  if Position.isMmrSize size = false then .error (.invalidSize size)
  else if stop ≤ start then .error .empty
  else do
    let startPos ← Position.tryFrom start
    let endPos ← Position.tryFrom (stop - 1)
    if size ≤ endPos then .error (.rangeOutOfBounds stop)
    else
      match findTrees startPos endPos ((peakIterator size).getD []) with
      | (some startTree, some endTree, positions) =>
        .ok (positions ++ (pathSiblings startPos endPos startTree endTree).map Prod.snd)
      -- an assertion: some mountain has the first element, and some mountain the last one
      | _ => .error (.invalidSize size)

/-- The nodes that are required to prove elements one by one. -/
def nodesRequiredForMultiProof (size : ℕ) (locations : List ℕ) :
    Except Error (OrdMap ℕ Unit) :=
  if Position.isMmrSize size = false then .error (.invalidSize size)
  else if locations = [] then .error .empty
  else
    locations.foldlM (fun acc loc =>
      if maxLocation < loc then .error (.locationOverflow loc)
      else do
        let positions ← nodesRequiredForRangeProof size loc (loc + 1)
        pure (positions.foldl (fun acc pos => acc.insert pos ()) acc)) OrdMap.empty

namespace Proof

variable [DecidableEq D]

/-- The nodes required for each element, and all of them together. -/
def collectRequired (size : ℕ) :
    List (List Sym × ℕ) → Option (OrdMap ℕ Unit × OrdMap ℕ (List ℕ))
  | elements =>
    elements.foldlM (fun acc element =>
      if maxLocation < element.2 then none
      else
        match nodesRequiredForRangeProof size element.2 (element.2 + 1) with
        | .error _ => none
        | .ok required =>
          some (required.foldl (fun acc pos => acc.insert pos ()) acc.1,
            acc.2.insert element.2 required)) (OrdMap.empty, OrdMap.empty)

/-- Whether each element stands at its location. -/
def verifyMultiInclusion (p : Proof D) (hasher : Hasher Sym D) (elements : List (List Sym × ℕ))
    (root : D) : Bool :=
  if elements = [] then decide (p.size = 0) && decide (root = hasher.root 0 [])
  else if Position.isMmrSize p.size = false then false
  else
    match collectRequired p.size elements with
    | none => false
    | some (nodePositions, nodesRequired) =>
      if nodePositions.size ≠ p.digests.length then false
      else
        let nodeDigests : OrdMap ℕ D :=
          (nodePositions.keys.zip p.digests).foldl (fun m item => m.insert item.1 item.2) .empty
        elements.all fun element =>
          -- there is an entry for every location, and a digest for every required node
          let required := (nodesRequired.get? element.2).getD []
          let digests := required.filterMap nodeDigests.get?
          (Proof.mk p.size digests).verifyElementInclusion hasher element.1 element.2 root

end Proof

end Commonware.Mmr
