/-
**The messages of the simplex protocol.**

The data types of `consensus/src/simplex/types.rs` and the view arithmetic of
`consensus/src/simplex/mod.rs`.  A view is a natural number; where the code can run into the end of
its 64-bit range, the model of that code says so itself.  The digest, signature, certificate and
public key types are parameters, as in the source.

Main definitions:

* `Commonware.Simplex.Proposal`, `Commonware.Simplex.Subject` — what participants vote on;
* `Commonware.Simplex.Vote`, `Commonware.Simplex.Certificate` — single votes and quorums of them;
* `Commonware.Simplex.Artifact` — what a voter keeps in its journal;
* `Commonware.Simplex.minActive`, `Commonware.Simplex.interesting` — the window of views a node
  still works on.
-/

import Commonware.CertificateScheme

set_option autoImplicit false

namespace Commonware.Simplex

/-! ### Rounds and proposals -/

/-- The view of the genesis block. -/
abbrev genesisView : ℕ := 0

/-- A view of an epoch. -/
structure Rnd where
  epoch : ℕ
  view : ℕ
  deriving DecidableEq

/-- A proposed block: the round it is proposed in, the view of its parent and its payload. -/
structure Proposal (D : Type) where
  round : Rnd
  parent : ℕ
  payload : D
  deriving DecidableEq

def Proposal.view {D : Type} (p : Proposal D) : ℕ := p.round.view

/-- What a vote is about. -/
inductive Subject (D : Type)
  | notarize (proposal : Proposal D)
  | nullify (round : Rnd)
  | finalize (proposal : Proposal D)
  deriving DecidableEq

def Subject.view {D : Type} : Subject D → ℕ
  | .notarize p => p.view
  | .nullify r => r.view
  | .finalize p => p.view

/-! ### Votes -/

section Votes

variable (D Sig Cert : Type)

/-- A vote to notarize a proposal. -/
structure Notarize where
  proposal : Proposal D
  attestation : Attestation Sig
  deriving DecidableEq

/-- A vote to skip a round. -/
structure Nullify where
  round : Rnd
  attestation : Attestation Sig
  deriving DecidableEq

/-- A vote to finalize a proposal. -/
structure Finalize where
  proposal : Proposal D
  attestation : Attestation Sig
  deriving DecidableEq

/-- A vote of one participant. -/
inductive Vote
  | notarize (vote : Notarize D Sig)
  | nullify (vote : Nullify Sig)
  | finalize (vote : Finalize D Sig)
  deriving DecidableEq

/-- A quorum of notarize votes for one proposal. -/
structure Notarization where
  proposal : Proposal D
  certificate : Cert
  deriving DecidableEq

/-- A quorum of nullify votes for one round. -/
structure Nullification where
  round : Rnd
  certificate : Cert
  deriving DecidableEq

/-- A quorum of finalize votes for one proposal. -/
structure Finalization where
  proposal : Proposal D
  certificate : Cert
  deriving DecidableEq

/-- A certificate of any kind. -/
inductive Certificate
  | notarization (certificate : Notarization D Cert)
  | nullification (certificate : Nullification Cert)
  | finalization (certificate : Finalization D Cert)
  deriving DecidableEq

/-- A record of a voter's journal: its own votes, the certificates it has seen and the results of
certification. -/
inductive Artifact
  | notarize (vote : Notarize D Sig)
  | notarization (certificate : Notarization D Cert)
  | certification (round : Rnd) (success : Bool)
  | nullify (vote : Nullify Sig)
  | nullification (certificate : Nullification Cert)
  | finalize (vote : Finalize D Sig)
  | finalization (certificate : Finalization D Cert)
  deriving DecidableEq

end Votes

section

variable {D Sig Cert PK : Type}

def Vote.subject : Vote D Sig → Subject D
  | .notarize v => .notarize v.proposal
  | .nullify v => .nullify v.round
  | .finalize v => .finalize v.proposal

def Vote.view (v : Vote D Sig) : ℕ := v.subject.view

def Vote.round : Vote D Sig → Rnd
  | .notarize v => v.proposal.round
  | .nullify v => v.round
  | .finalize v => v.proposal.round

def Vote.attestation : Vote D Sig → Attestation Sig
  | .notarize v => v.attestation
  | .nullify v => v.attestation
  | .finalize v => v.attestation

def Vote.signer (v : Vote D Sig) : ℕ := v.attestation.signer

def Certificate.subject : Certificate D Cert → Subject D
  | .notarization c => .notarize c.proposal
  | .nullification c => .nullify c.round
  | .finalization c => .finalize c.proposal

def Certificate.view (c : Certificate D Cert) : ℕ := c.subject.view

def Certificate.round : Certificate D Cert → Rnd
  | .notarization c => c.proposal.round
  | .nullification c => c.round
  | .finalization c => c.proposal.round

/-- The view an artifact belongs to, which is the journal section it is kept in. -/
def Artifact.view : Artifact D Sig Cert → ℕ
  | .notarize v => v.proposal.view
  | .notarization c => c.proposal.view
  | .certification r _ => r.view
  | .nullify v => v.round.view
  | .nullification c => c.round.view
  | .finalize v => v.proposal.view
  | .finalization c => c.proposal.view

def Vote.artifact : Vote D Sig → Artifact D Sig Cert
  | .notarize v => .notarize v
  | .nullify v => .nullify v
  | .finalize v => .finalize v

@[simp] theorem Vote.view_artifact (v : Vote D Sig) :
    (v.artifact : Artifact D Sig Cert).view = v.view := by
  cases v <;> rfl

variable (s : Scheme (Subject D) Sig Cert PK) (ns : Namespace)

/-- The vote of a scheme to notarize a proposal. -/
def Notarize.sign (p : Proposal D) : Option (Notarize D Sig) :=
  (s.sign ns (.notarize p)).map fun a => ⟨p, a⟩

/-- The vote of a scheme to skip a round. -/
def Nullify.sign (r : Rnd) : Option (Nullify Sig) :=
  (s.sign ns (.nullify r)).map fun a => ⟨r, a⟩

/-- The vote of a scheme to finalize a proposal. -/
def Finalize.sign (p : Proposal D) : Option (Finalize D Sig) :=
  (s.sign ns (.finalize p)).map fun a => ⟨p, a⟩

def Vote.verify (v : Vote D Sig) : Bool :=
  s.verifyAttestation ns v.subject v.attestation

def Certificate.verify : Certificate D Cert → Bool
  | .notarization c => s.verifyCertificate ns (.notarize c.proposal) c.certificate
  | .nullification c => s.verifyCertificate ns (.nullify c.round) c.certificate
  | .finalization c => s.verifyCertificate ns (.finalize c.proposal) c.certificate

end

/-! ### The window of active views -/

variable (activityTimeout : ℕ)

/-- The least view that is tracked in memory and on disk. -/
def minActive (lastFinalized : ℕ) : ℕ :=
  lastFinalized - activityTimeout

/-- Whether a view is worth working on: not too old and, unless the future is allowed, at most one
view ahead. -/
def interesting (lastFinalized current pending : ℕ) (allowFuture : Bool) : Bool :=
  if pending < minActive activityTimeout lastFinalized then false
  else if !allowFuture && decide (pending > current + 1) then false
  else true

theorem minActive_le (lastFinalized : ℕ) :
    minActive activityTimeout lastFinalized ≤ lastFinalized := Nat.sub_le _ _

theorem minActive_mono {u v : ℕ} (h : u ≤ v) :
    minActive activityTimeout u ≤ minActive activityTimeout v := Nat.sub_le_sub_right h _

theorem minActive_le_of_interesting {activityTimeout lastFinalized current pending : ℕ}
    {allowFuture : Bool}
    (h : interesting activityTimeout lastFinalized current pending allowFuture = true) :
    minActive activityTimeout lastFinalized ≤ pending := by
  unfold interesting at h
  split_ifs at h with h₁ h₂
  exact Nat.le_of_not_lt h₁

end Commonware.Simplex
