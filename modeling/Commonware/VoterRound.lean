/-
**One view of the voter.**

`consensus/src/simplex/actors/voter/round.rs`: everything a voter remembers about one view — the
leader, the proposal slot, the certificates it holds and which votes and certificates it has
already broadcast.  An operation that mutates the round returns its result together with the new
round; an operation that can fail an assertion returns an `Except`.  The deadlines of a round
decide only when a timeout fires, and a timeout may fire at any moment here, so they are left out;
of the handle of a running certification only its presence is read.

Main definitions:

* `Commonware.Simplex.Voter.Round` — the state of a view;
* `Round.constructNotarize`, `Round.constructNullify`, `Round.constructFinalize` — the votes;
* `Round.replay` — restoring the flags from a journal record;
* `Fault` — the assertions and expectations of the voter that can fail.
-/

import Commonware.VoterSlot

set_option autoImplicit false

namespace Commonware.Simplex.Voter

variable {D Sig Cert PK : Type}

/-- The ways in which the voter stops at a failed assertion or expectation, under the message the
source gives. -/
inductive Fault
  /-- "certification should not conflict" -/
  | certificationConflict
  /-- "replaying notarize from another signer" -/
  | replayNotarizeFromAnother
  /-- "replaying nullify from another signer" -/
  | replayNullifyFromAnother
  /-- "replaying finalize from another signer" -/
  | replayFinalizeFromAnother
  /-- "view must exist" -/
  | viewMustExist
  /-- "genesis must be present" -/
  | genesisMustBePresent
  /-- "proposal must exist" -/
  | proposalMustExist
  /-- "cursor must not wrap" -/
  | cursorMustNotWrap
  /-- "notarization must exist for certified view" -/
  | notarizationMustExist
  /-- "leader not set" -/
  | leaderNotSet
  deriving DecidableEq

inductive CertifyResult (T : Type)
  | ready (value : T)
  | pending
  | skip

/-- The leader of a view: its index and its key. -/
structure Leader (PK : Type) where
  idx : ℕ
  key : PK
  deriving DecidableEq

/-- What the voter remembers about one view. -/
structure Round (D Cert PK : Type) where
  round : Rnd
  leader : Option (Leader PK)
  proposal : Slot D
  notarization : Option (Notarization D Cert)
  broadcastNotarize : Bool
  broadcastNotarization : Bool
  nullification : Option (Nullification Cert)
  broadcastNullify : Bool
  broadcastNullification : Bool
  finalization : Option (Finalization D Cert)
  broadcastFinalize : Bool
  broadcastFinalization : Bool
  certified : Option Bool
  certifyHandle : Bool
  deriving DecidableEq

namespace Round

def new (round : Rnd) : Round D Cert PK where
  round := round
  leader := none
  proposal := Slot.new
  notarization := none
  broadcastNotarize := false
  broadcastNotarization := false
  nullification := none
  broadcastNullify := false
  broadcastNullification := false
  finalization := none
  broadcastFinalize := false
  broadcastFinalization := false
  certified := none
  certifyHandle := false

variable (me : Option ℕ)

/-- Whether a signer is this node, whose index is `me`. -/
def isSigner (signer : ℕ) : Bool := decide (me = some signer)

/-! ### Proposing, verifying, certifying -/

def proposeReady (r : Round D Cert PK) : Option (Leader PK) :=
  match r.leader with
  | none => none
  | some leader =>
    if !isSigner me leader.idx || r.broadcastNullify || !r.proposal.shouldBuild then none
    else some leader

def shouldPropose (r : Round D Cert PK) : Bool := (r.proposeReady me).isSome

def tryPropose (r : Round D Cert PK) : Option (Leader PK) × Round D Cert PK :=
  match r.proposeReady me with
  | none => (none, r)
  | some leader => (some leader, { r with proposal := r.proposal.setBuilding })

def verifyReady (r : Round D Cert PK) : Option (Leader PK) :=
  match r.leader with
  | none => none
  | some leader => if isSigner me leader.idx || r.broadcastNullify then none else some leader

/-- The leader and the proposal to verify, when there is something to verify. -/
def shouldVerify (r : Round D Cert PK) : Option (Leader PK × Proposal D) :=
  match r.verifyReady me, r.proposal.proposal with
  | some leader, some p => some (leader, p)
  | _, _ => none

def tryVerify (r : Round D Cert PK) : Bool × Round D Cert PK :=
  if (r.verifyReady me).isNone then (false, r)
  else (r.proposal.requestVerify.1, { r with proposal := r.proposal.requestVerify.2 })

def shouldCertify (r : Round D Cert PK) : CertifyResult (Proposal D) :=
  if r.notarization.isNone || r.certified.isSome || r.certifyHandle then .skip
  else
    match r.proposal.proposal with
    | none => .pending
    | some p => .ready p

def setCertifyHandle (r : Round D Cert PK) : Round D Cert PK := { r with certifyHandle := true }

def unsetCertifyHandle (r : Round D Cert PK) : Round D Cert PK := { r with certifyHandle := false }

/-- The elector's index is in bounds by its type. -/
def setLeader (participants : List PK) (r : Round D Cert PK) (leader : Fin participants.length) :
    Round D Cert PK :=
  { r with leader := some ⟨leader, participants.get leader⟩ }

def isCertified (r : Round D Cert PK) : Bool := decide (r.certified = some true)

def proposed (r : Round D Cert PK) (p : Proposal D) : Bool × Round D Cert PK :=
  if r.broadcastNullify then (false, r)
  else (true, { r with proposal := r.proposal.built p })

def verified (r : Round D Cert PK) : Bool × Round D Cert PK :=
  if r.broadcastNullify then (false, r)
  else (r.proposal.markVerified.1, { r with proposal := r.proposal.markVerified.2 })

/-- Recording the leader's proposal; the result says whether it is a new one. -/
def setProposal [DecidableEq D] (r : Round D Cert PK) (p : Proposal D) : Bool × Round D Cert PK :=
  if r.broadcastNullify then (false, r)
  else
    (decide ((r.proposal.update p false).1 = .new),
      { r with proposal := (r.proposal.update p false).2 })

/-- Recording a certification result, which must not contradict an earlier one. -/
def setCertified (r : Round D Cert PK) (isSuccess : Bool) : Except Fault (Round D Cert PK) :=
  if r.certified = none ∨ r.certified = some isSuccess then
    .ok { r with certified := some isSuccess, certifyHandle := false }
  else .error .certificationConflict

/-- The round with a certification result. -/
def decided (r : Round D Cert PK) (isSuccess : Bool) : Round D Cert PK :=
  { r with certified := some isSuccess, certifyHandle := false }

variable {r : Round D Cert PK}

theorem setCertified_ok {r' : Round D Cert PK} {isSuccess : Bool}
    (h : r.setCertified isSuccess = .ok r') : r' = r.decided isSuccess := by
  unfold setCertified at h
  split_ifs at h
  cases h
  rfl

/-! ### Certificates -/

/-- Recording the proposal of a certificate; the result is the leader that equivocated. -/
def addRecoveredProposal [DecidableEq D] (r : Round D Cert PK) (p : Proposal D) :
    Option PK × Round D Cert PK :=
  (match (r.proposal.update p true).1 with
    | .equivocated _ _ => r.leader.map Leader.key
    | _ => none,
    { r with proposal := (r.proposal.update p true).2 })

/-- The first notarization is kept, with its proposal; a later one is ignored. -/
def addNotarization [DecidableEq D] (r : Round D Cert PK) (c : Notarization D Cert) :
    (Bool × Option PK) × Round D Cert PK :=
  if r.notarization.isSome then ((false, none), r)
  else
    ((true, (r.addRecoveredProposal c.proposal).1),
      { (r.addRecoveredProposal c.proposal).2 with notarization := some c })

def addNullification (r : Round D Cert PK) (c : Nullification Cert) : Bool × Round D Cert PK :=
  if r.nullification.isSome then (false, r) else (true, { r with nullification := some c })

def addFinalization [DecidableEq D] (r : Round D Cert PK) (c : Finalization D Cert) :
    (Bool × Option PK) × Round D Cert PK :=
  if r.finalization.isSome then ((false, none), r)
  else
    ((true, (r.addRecoveredProposal c.proposal).1),
      { (r.addRecoveredProposal c.proposal).2 with finalization := some c })

theorem proposal_addNullification (r : Round D Cert PK) (c : Nullification Cert) :
    (r.addNullification c).2.proposal = r.proposal := by
  unfold addNullification
  split_ifs <;> rfl

theorem addNotarization_of_not [DecidableEq D] {c : Notarization D Cert}
    (h : (r.addNotarization c).1.1 ≠ true) : (r.addNotarization c).2 = r := by
  unfold addNotarization at h ⊢
  split_ifs at h ⊢
  · rfl
  · exact absurd rfl h

theorem addFinalization_of_not [DecidableEq D] {c : Finalization D Cert}
    (h : (r.addFinalization c).1.1 ≠ true) : (r.addFinalization c).2 = r := by
  unfold addFinalization at h ⊢
  split_ifs at h ⊢
  · rfl
  · exact absurd rfl h

/-- The notarization, the first time it is asked for. -/
def broadcastNotarizationOnce (r : Round D Cert PK) :
    Option (Notarization D Cert) × Round D Cert PK :=
  if r.broadcastNotarization then (none, r)
  else
    match r.notarization with
    | none => (none, r)
    | some c => (some c, { r with broadcastNotarization := true })

def broadcastNullificationOnce (r : Round D Cert PK) :
    Option (Nullification Cert) × Round D Cert PK :=
  if r.broadcastNullification then (none, r)
  else
    match r.nullification with
    | none => (none, r)
    | some c => (some c, { r with broadcastNullification := true })

def broadcastFinalizationOnce (r : Round D Cert PK) :
    Option (Finalization D Cert) × Round D Cert PK :=
  if r.broadcastFinalization then (none, r)
  else
    match r.finalization with
    | none => (none, r)
    | some c => (some c, { r with broadcastFinalization := true })

theorem finalization_of_broadcast (h : r.broadcastFinalizationOnce.1.isSome = true) :
    r.finalization.isSome = true := by
  unfold broadcastFinalizationOnce at h
  split_ifs at h
  · cases h
  · cases hr : r.finalization with
    | none => simp [hr] at h
    | some c => rfl

/-! ### Votes -/

/-- Voting to skip the view, unless a finalize vote was cast.  The result says whether this is a
retry. -/
def constructNullify (r : Round D Cert PK) : Option Bool × Round D Cert PK :=
  if r.broadcastFinalize then (none, r)
  else (some r.broadcastNullify, { r with broadcastNullify := true })

theorem nullify_of_retry (h : r.constructNullify.1 = some true) : r.broadcastNullify = true := by
  unfold constructNullify at h
  split_ifs at h
  simpa using h

/-- The proposal to vote for: a verified one, once, and not after a nullify vote. -/
def constructNotarize (r : Round D Cert PK) : Option (Proposal D) × Round D Cert PK :=
  if r.broadcastNotarize || r.broadcastNullify then (none, r)
  else if r.proposal.status ≠ .verified then (none, r)
  else (r.proposal.proposal, { r with broadcastNotarize := true })

/-- The proposal to finalize: one this node notarized, whose notarization it broadcast and whose
certification succeeded. -/
def constructFinalize (r : Round D Cert PK) : Option (Proposal D) × Round D Cert PK :=
  if r.broadcastFinalize || r.broadcastNullify then (none, r)
  else if !r.broadcastNotarize || !r.broadcastNotarization then (none, r)
  else if r.proposal.status ≠ .verified then (none, r)
  else if !r.isCertified then (none, r)
  else (r.proposal.proposal, { r with broadcastFinalize := true })

/-! ### Replay -/

/-- Restoring from a journal record what it says about the past of this round. -/
def replay (r : Round D Cert PK) : Artifact D Sig Cert → Except Fault (Round D Cert PK)
  | .notarize vote =>
    if isSigner me vote.attestation.signer then
      .ok { r with proposal := r.proposal.built vote.proposal, broadcastNotarize := true }
    else .error .replayNotarizeFromAnother
  | .nullify vote =>
    if isSigner me vote.attestation.signer then .ok { r with broadcastNullify := true }
    else .error .replayNullifyFromAnother
  | .finalize vote =>
    if isSigner me vote.attestation.signer then .ok { r with broadcastFinalize := true }
    else .error .replayFinalizeFromAnother
  | .notarization _ => .ok { r with broadcastNotarization := true }
  | .nullification _ => .ok { r with broadcastNullification := true }
  | .finalization _ => .ok { r with broadcastFinalization := true }
  | .certification _ success => r.setCertified success

end Round

end Commonware.Simplex.Voter
