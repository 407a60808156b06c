/-
**The safe tip.**

The structure of `consensus/src/aggregation/safe_tip.rs`: the tips that the validators of an epoch
have reported, and two heaps that split them into the highest ones, as many as there may be faulty
validators, and the others.  The highest of the others is the safe tip: some validator that is not
faulty has reached it.

The heaps count how often each tip occurs.  Where the code iterates over a hash map, the model takes
the order in which the validators are listed.

Main definitions:

* `SafeTip.init`, `SafeTip.reconcile`, `SafeTip.update`, `SafeTip.get` — the operations, with the
  assertions at which the code stops.
-/

import Commonware.CertificateScheme
import Commonware.OrdMap

set_option autoImplicit false

namespace Commonware.Aggregation

/-- The reported tips, and the heaps with the number of validators for each tip. -/
structure SafeTip (PK : Type) where
  tips : List (PK × ℕ)
  hi : OrdMap ℕ ℕ
  lo : OrdMap ℕ ℕ

namespace SafeTip

/-- The assertions of the safe tip. -/
inductive Fault
  | noValidators
  | sizeMismatch
  /-- A tip is removed from a heap that does not have it. -/
  | missingEntry
  | emptyHeap
  /-- The tip that is moved between the heaps is on the wrong side. -/
  | wrongSide
  deriving DecidableEq

variable {PK : Type} [DecidableEq PK]

def inc (heap : OrdMap ℕ ℕ) (tip : ℕ) : OrdMap ℕ ℕ := heap.insert tip ((heap.get? tip).getD 0 + 1)

def dec (heap : OrdMap ℕ ℕ) (tip : ℕ) : Except Fault (OrdMap ℕ ℕ) :=
  match heap.get? tip with
  | none => .error .missingEntry
  | some count =>
    if count - 1 = 0 then .ok (heap.erase tip) else .ok (heap.insert tip (count - 1))

omit [DecidableEq PK] in
def init (validators : List PK) : Except Fault (SafeTip PK) :=
  if validators.isEmpty then .error .noValidators
  else
    let n := validators.length
    let f := maxFaults n
    .ok ⟨validators.map fun v => (v, 0), if 0 < f then OrdMap.empty.insert 0 f else .empty,
      OrdMap.empty.insert 0 (n - f)⟩

/-- The tip of a validator falls to zero. -/
def drop (s : SafeTip PK) (old : ℕ) : Except Fault (SafeTip PK) :=
  if old = 0 then .ok s
  else if s.lo.contains old then do
    let lo ← dec s.lo old
    pure { s with lo := inc lo 0 }
  else
    let stayInHi := match s.lo.last? with
      | none => true
      | some (maxLo, _) => decide (maxLo ≤ 0)
    if stayInHi then do
      let hi ← dec s.hi old
      pure { s with hi := inc hi 0 }
    else do
      let hi ← dec s.hi old
      let lo := inc s.lo 0
      match lo.last? with
      | none => .error .emptyHeap
      | some (maxLo, _) =>
        if maxLo ≤ 0 then .error .wrongSide
        else do
          let lo ← dec lo maxLo
          pure { s with hi := inc hi maxLo, lo }

/-- Changes the validators: those that leave are dropped, those that enter have tip zero. -/
def reconcile (s : SafeTip PK) (validators : List PK) : Except Fault (SafeTip PK) :=
  if validators.length ≠ s.tips.length then .error .sizeMismatch
  else do
    let exiting := s.tips.filter fun v => decide (v.1 ∉ validators)
    let kept := s.tips.filter fun v => decide (v.1 ∈ validators)
    let s ← exiting.foldlM (fun s v => s.drop v.2) { s with tips := kept }
    let entering := validators.filter fun v => decide (v ∉ s.tips.map Prod.fst)
    pure { s with tips := s.tips ++ entering.map fun v => (v, 0) }

/-- Raises the tip of a validator; returns the old one if it was lower. -/
def update (s : SafeTip PK) (validator : PK) (new : ℕ) : Except Fault (SafeTip PK × Option ℕ) :=
  match s.tips.find? fun v => decide (v.1 = validator) with
  | none => .ok (s, none)
  | some (_, old) =>
    if new ≤ old then .ok (s, none)
    else
      let s : SafeTip PK :=
        { s with tips := s.tips.map fun v : PK × ℕ => if v.1 = validator then (v.1, new) else v }
      if s.hi.contains old then do
        let hi ← dec s.hi old
        pure ({ s with hi := inc hi new }, some old)
      else
        let stayInLo := match s.hi.first? with
          | none => true
          | some (minHi, _) => decide (new ≤ minHi)
        if stayInLo then do
          let lo ← dec s.lo old
          pure ({ s with lo := inc lo new }, some old)
        else do
          let lo ← dec s.lo old
          let hi := inc s.hi new
          match hi.first? with
          | none => .error .emptyHeap
          | some (minHi, _) =>
            if new ≤ minHi then .error .wrongSide
            else do
              let hi ← dec hi minHi
              pure ({ s with hi, lo := inc lo minHi }, some old)

omit [DecidableEq PK] in
def get (s : SafeTip PK) : Except Fault ℕ :=
  match s.lo.last? with
  | none => .error .noValidators
  | some (tip, _) => .ok tip

end SafeTip

end Commonware.Aggregation
