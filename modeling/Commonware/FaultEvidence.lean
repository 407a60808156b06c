/-
**Evidence of faults.**

A participant that votes for two proposals of one round, or to skip and to finalize a round, can be
convicted by the two votes.  `consensus/src/simplex/types.rs` has three kinds of such evidence; they
are built from two votes of one signer and one round, and verify when both signatures do.

Nothing in them says that the two votes contradict each other.  Two notarize or finalize votes for
the same proposal pass as evidence too, so a participant is convicted by its one honest vote, given
twice.  The theorem of this module says that this is the only gap.

Main definitions:

* `Conflict` — two votes of one signer and one round; `ConflictingNotarize`, `ConflictingFinalize`,
  `NullifyFinalize` — the three kinds of evidence, with their codecs;
* `Contradictory` — the messages that no honest participant signs both of;
* `Conflict.Convicts` — the evidence verifies only if its signer has signed such messages.

Main results:

* `evidence_convicts_iff` — **evidence convicts if and only if its proposals differ**;
* `framed_by_one_vote` — evidence that verifies against a participant that voted once.
-/

import Commonware.SimplexTypes
import Commonware.Varint

set_option autoImplicit false

namespace Commonware.Simplex

open Wire (Bytes Codec)

variable {D Sig Cert PK : Type}

/-! ### Codecs of votes -/

def Rnd.codec : Codec Rnd :=
  ((Varint.codec 8).pair (Varint.codec 8)).map (fun x => ⟨x.1, x.2⟩) (fun r => (r.epoch, r.view))
    fun _ => rfl

variable (payload : Codec D) (signature : Codec Sig)

def Proposal.codec : Codec (Proposal D) :=
  (Rnd.codec.pair ((Varint.codec 8).pair payload)).map (fun x => ⟨x.1, x.2.1, x.2.2⟩)
    (fun p => (p.round, p.parent, p.payload)) fun _ => rfl

def attestationCodec : Codec (Attestation Sig) :=
  ((Varint.codec 4).pair signature).map (fun x => ⟨x.1, x.2⟩) (fun a => (a.signer, a.signature))
    fun _ => rfl

def Notarize.codec : Codec (Notarize D Sig) :=
  ((Proposal.codec payload).pair (attestationCodec signature)).map (fun x => ⟨x.1, x.2⟩)
    (fun v => (v.proposal, v.attestation)) fun _ => rfl

def Nullify.codec : Codec (Nullify Sig) :=
  (Rnd.codec.pair (attestationCodec signature)).map (fun x => ⟨x.1, x.2⟩)
    (fun v => (v.round, v.attestation)) fun _ => rfl

def Finalize.codec : Codec (Finalize D Sig) :=
  ((Proposal.codec payload).pair (attestationCodec signature)).map (fun x => ⟨x.1, x.2⟩)
    (fun v => (v.proposal, v.attestation)) fun _ => rfl

/-! ### Evidence -/

/-- Two votes of one signer in one round.  The functions say how the two kinds are votes. -/
structure Conflict (A B : Type) (f : A → Vote D Sig) (g : B → Vote D Sig) where
  first : A
  second : B
  round_eq : (f first).round = (g second).round
  signer_eq : (f first).signer = (g second).signer

/-- The assertion that fails when evidence is built. -/
inductive Mismatch
  | round
  | signer
  deriving DecidableEq

namespace Conflict

variable {A B : Type} {f : A → Vote D Sig} {g : B → Vote D Sig}

/-- Evidence from two votes, which have to be of one round and one signer. -/
def new (first : A) (second : B) : Except Mismatch (Conflict A B f g) :=
  if hr : (f first).round = (g second).round then
    if hs : (f first).signer = (g second).signer then .ok ⟨first, second, hr, hs⟩
    else .error .signer
  else .error .round

theorem new_ok {first : A} {second : B} (hr : (f first).round = (g second).round)
    (hs : (f first).signer = (g second).signer) :
    ∃ e : Conflict A B f g, new first second = .ok e := by
  unfold new
  rw [dif_pos hr, dif_pos hs]
  exact ⟨_, rfl⟩

def verify (e : Conflict A B f g) (s : Scheme (Subject D) Sig Cert PK) (ns : Namespace) : Bool :=
  (f e.first).verify s ns && (g e.second).verify s ns

def signer (e : Conflict A B f g) : ℕ := (f e.first).signer

/-- The evidence that two votes make, if they are of one signer and one round. -/
def ofVotes (votes : A × B) : Option (Conflict A B f g) :=
  if hs : (f votes.1).signer = (g votes.2).signer then
    if hr : (f votes.1).round = (g votes.2).round then some ⟨votes.1, votes.2, hr, hs⟩ else none
  else none

/-- The two votes, one after the other; `context` and `message` describe a mismatch. -/
def codec (first : Codec A) (second : Codec B) (context message : String) :
    Codec (Conflict A B f g) :=
  (first.pair second).refine ofVotes (fun e => (e.first, e.second))
    (fun e => by simp [ofVotes, e.round_eq, e.signer_eq]) (.invalid context message)

end Conflict

abbrev ConflictingNotarize (D Sig : Type) :=
  Conflict (Notarize D Sig) (Notarize D Sig) Vote.notarize Vote.notarize

abbrev ConflictingFinalize (D Sig : Type) :=
  Conflict (Finalize D Sig) (Finalize D Sig) Vote.finalize Vote.finalize

abbrev NullifyFinalize (D Sig : Type) :=
  Conflict (Nullify Sig) (Finalize D Sig) Vote.nullify Vote.finalize

def ConflictingNotarize.codec : Codec (ConflictingNotarize D Sig) :=
  Conflict.codec (Notarize.codec payload signature) (Notarize.codec payload signature)
    "consensus::simplex::ConflictingNotarize" "invalid conflicting notarize"

def ConflictingFinalize.codec : Codec (ConflictingFinalize D Sig) :=
  Conflict.codec (Finalize.codec payload signature) (Finalize.codec payload signature)
    "consensus::simplex::ConflictingFinalize" "invalid conflicting finalize"

def NullifyFinalize.codec : Codec (NullifyFinalize D Sig) :=
  Conflict.codec (Nullify.codec signature) (Finalize.codec payload signature)
    "consensus::simplex::NullifyFinalize" "mismatched signatures"

/-! ### What evidence proves -/

/-- Messages of one round that a participant must not sign both of. -/
def Contradictory : Subject D → Subject D → Prop
  | .notarize p, .notarize q => p.round = q.round ∧ p ≠ q
  | .finalize p, .finalize q => p.round = q.round ∧ p ≠ q
  | .nullify r, .finalize p => r = p.round
  | _, _ => False

/-- Whatever verifies for a participant has been signed by that participant. -/
def Unforgeable (s : Scheme (Subject D) Sig Cert PK) (ns : Namespace)
    (signed : ℕ → Subject D → Prop) : Prop :=
  ∀ subject a, s.verifyAttestation ns subject a = true → signed a.signer subject

/-- The signer has signed two messages that contradict each other. -/
def Guilty (signed : ℕ → Subject D → Prop) (signer : ℕ) : Prop :=
  ∃ a b, signed signer a ∧ signed signer b ∧ Contradictory a b

/-- Under every scheme, the evidence verifies only if its signer is guilty. -/
def Conflict.Convicts {A B : Type} {f : A → Vote D Sig} {g : B → Vote D Sig}
    (e : Conflict A B f g) : Prop :=
  ∀ (Cert PK : Type) (s : Scheme (Subject D) Sig Cert PK) (ns : Namespace)
    (signed : ℕ → Subject D → Prop), Unforgeable s ns signed → e.verify s ns = true →
    Guilty signed e.signer

section

variable {A B : Type} {f : A → Vote D Sig} {g : B → Vote D Sig} {e : Conflict A B f g}

/-- Evidence that verifies shows that its signer has signed both of its votes. -/
theorem Conflict.signed_of_verify {s : Scheme (Subject D) Sig Cert PK} {ns : Namespace}
    {signed : ℕ → Subject D → Prop} (hu : Unforgeable s ns signed) (hv : e.verify s ns = true) :
    signed e.signer (f e.first).subject ∧ signed e.signer (g e.second).subject := by
  obtain ⟨h₁, h₂⟩ := Bool.and_eq_true_iff.1 hv
  refine ⟨hu _ _ h₁, ?_⟩
  rw [Conflict.signer, e.signer_eq]
  exact hu _ _ h₂

theorem Conflict.convicts_of_contradictory
    (h : Contradictory (f e.first).subject (g e.second).subject) : e.Convicts := by
  intro Cert PK s ns signed hu hv
  obtain ⟨h₁, h₂⟩ := signed_of_verify hu hv
  exact ⟨_, _, h₁, h₂, h⟩

/-- A scheme that accepts every signature on one subject, and none on another. -/
def onlyScheme [DecidableEq D] (subject : Subject D) : Scheme (Subject D) Sig Unit Unit where
  signer := none
  participants := [()]
  verifyAttestation := fun _ s _ => decide (s = subject)
  verifyAttestations := fun _ _ l => ⟨l, []⟩
  assemble := fun _ => none
  verifyCertificate := fun _ _ _ => false
  verifyCertificates := fun _ _ => false

theorem unforgeable_onlyScheme [DecidableEq D] (subject : Subject D) :
    Unforgeable (onlyScheme subject : Scheme (Subject D) Sig Unit Unit) []
      fun _ s => s = subject := by
  intro s a hs
  simpa [onlyScheme] using hs

/-- Two votes on the same subject convict nobody. -/
theorem Conflict.not_convicts {subject : Subject D} (h₁ : (f e.first).subject = subject)
    (h₂ : (g e.second).subject = subject) (hc : ¬ Contradictory subject subject) :
    ¬ e.Convicts := by
  classical
  intro h
  -- Everybody signs the one subject and nothing else, so nobody is guilty.
  have hv : e.verify (onlyScheme subject : Scheme (Subject D) Sig Unit Unit) [] = true := by
    simp [Conflict.verify, Vote.verify, onlyScheme, h₁, h₂]
  obtain ⟨a, b, rfl, rfl, hab⟩ := h Unit Unit _ _ _ (unforgeable_onlyScheme subject) hv
  exact hc hab

end

/-- **Evidence convicts if and only if its proposals differ.**  A byte string that decodes to
evidence of two notarize or two finalize votes shows the signer to be guilty exactly when the votes
are for different proposals; evidence of a nullify and a finalize vote always does. -/
theorem evidence_convicts_iff (payload : Codec D) (signature : Codec Sig) (bytes : Bytes) :
    (∀ e, (ConflictingNotarize.codec payload signature).decode bytes = .ok e →
      (e.Convicts ↔ e.first.proposal ≠ e.second.proposal)) ∧
    (∀ e, (ConflictingFinalize.codec payload signature).decode bytes = .ok e →
      (e.Convicts ↔ e.first.proposal ≠ e.second.proposal)) ∧
    ∀ e, (NullifyFinalize.codec payload signature).decode bytes = .ok e → e.Convicts := by
  refine ⟨fun e _ => ⟨fun h heq => ?_, fun hne => ?_⟩, fun e _ => ⟨fun h heq => ?_, fun hne => ?_⟩,
    fun e _ => ?_⟩
  · refine Conflict.not_convicts rfl ?_ ?_ h
    · exact congrArg Subject.notarize heq.symm
    · exact fun hc => hc.2 rfl
  · exact Conflict.convicts_of_contradictory ⟨e.round_eq, hne⟩
  · refine Conflict.not_convicts rfl ?_ ?_ h
    · exact congrArg Subject.finalize heq.symm
    · exact fun hc => hc.2 rfl
  · exact Conflict.convicts_of_contradictory ⟨e.round_eq, hne⟩
  · exact Conflict.convicts_of_contradictory e.round_eq

/-- The honest vote of the example, written twice. -/
def voteTwice : Bytes := [0, 1, 0, 7, 0, 0] ++ [0, 1, 0, 7, 0, 0]

/-- **One vote frames its signer.**  A notarize vote given twice decodes to evidence that verifies,
although nobody has signed anything but that vote's message. -/
theorem framed_by_one_vote :
    let subject : Subject UInt8 := .notarize ⟨⟨0, 1⟩, 0, 7⟩
    let scheme : Scheme (Subject UInt8) UInt8 Unit Unit := onlyScheme subject
    let signed : ℕ → Subject UInt8 → Prop := fun _ s => s = subject
    Unforgeable scheme [] signed ∧ ¬ Guilty signed 0 ∧
    ∃ e, (ConflictingNotarize.codec Codec.byte Codec.byte).decode voteTwice = .ok e ∧
      e.verify scheme [] = true ∧ e.signer = 0 := by
  refine ⟨unforgeable_onlyScheme _, ?_, ?_⟩
  · rintro ⟨a, b, rfl, rfl, hab⟩
    exact hab.2 rfl
  · let v : Notarize UInt8 UInt8 := ⟨⟨⟨0, 1⟩, 0, 7⟩, ⟨0, 0⟩⟩
    exact ⟨⟨v, v, rfl, rfl⟩, rfl, rfl, rfl⟩

end Commonware.Simplex
