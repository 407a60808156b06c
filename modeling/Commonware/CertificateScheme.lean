/-
**Attestations, certificates and the schemes that make them.**

A participant attests to a subject by signing it; a quorum of attestations to one subject is
assembled into a certificate.  `Scheme` is the interface of `cryptography/src/certificate.rs`: what
a node may do depends on whether it holds a signing share, and everything else it asks of a scheme
is a function of the namespace and the subject.  The quorum sizes are those of `utils/src/lib.rs`.

Main definitions:

* `Commonware.maxFaults`, `Commonware.quorum` — how many faults `n` participants tolerate, and how
  many of them make a quorum;
* `Commonware.Scheme` — a signing scheme; `Commonware.Scheme.sign` signs when there is a share;
* `Commonware.Scheme.verifyCertificatesDefault` — the batch verifier of certificates a scheme has
  unless it overrides it.

Main results:

* `Commonware.quorum_inter_honest` — two quorums share a participant outside any tolerated set of
  faults.
-/

import Mathlib.Data.Fintype.Card

set_option autoImplicit false

namespace Commonware

/-! ### Quorums -/

/-- The number of faults `n` participants tolerate: the largest `f` with `n ≥ 3 * f + 1`. -/
def maxFaults (n : ℕ) : ℕ := (n - 1) / 3

/-- The size of a quorum of `n` participants. -/
def quorum (n : ℕ) : ℕ := n - maxFaults n

variable {n : ℕ}

theorem three_mul_maxFaults_lt (hn : 0 < n) : 3 * maxFaults n < n := by
  unfold maxFaults
  omega

theorem maxFaults_lt_quorum (hn : 0 < n) : maxFaults n < quorum n := by
  have := three_mul_maxFaults_lt hn
  unfold quorum
  omega

theorem quorum_pos (hn : 0 < n) : 0 < quorum n :=
  Nat.lt_of_le_of_lt (Nat.zero_le _) (maxFaults_lt_quorum hn)

/-- Two sets of participants whose sizes exceed `n + f` together share a member outside any set of
`f` participants. -/
theorem exists_mem_inter_not_mem {f : ℕ} {A B Byz : Finset (Fin n)} (hby : Byz.card ≤ f)
    (h : n + f < A.card + B.card) : ∃ i, i ∈ A ∧ i ∈ B ∧ i ∉ Byz := by
  have hu : (A ∪ B).card ≤ n := by simpa using Finset.card_le_univ (A ∪ B)
  have hin := Finset.card_union_add_card_inter A B
  obtain ⟨i, hi, hb⟩ := Finset.exists_mem_notMem_of_card_lt_card
    (show Byz.card < (A ∩ B).card by omega)
  exact ⟨i, (Finset.mem_inter.1 hi).1, (Finset.mem_inter.1 hi).2, hb⟩

/-- **Quorum intersection.** Two quorums share a participant that is not faulty. -/
theorem quorum_inter_honest {A B Byz : Finset (Fin n)} (hn : 0 < n)
    (hb : Byz.card ≤ maxFaults n) (hA : quorum n ≤ A.card) (hB : quorum n ≤ B.card) :
    ∃ i, i ∈ A ∧ i ∈ B ∧ i ∉ Byz := by
  refine exists_mem_inter_not_mem hb ?_
  have := three_mul_maxFaults_lt hn
  unfold quorum at hA hB
  omega

/-! ### Schemes -/

/-- The byte string that separates the signatures of one application from those of another. -/
abbrev Namespace := List UInt8

/-- A signed vote of one participant. -/
structure Attestation (Sig : Type) where
  /-- The index of the signer in the participant set. -/
  signer : ℕ
  /-- The signature. -/
  signature : Sig
  deriving DecidableEq

/-- The outcome of verifying a batch of attestations. -/
structure Verification (Sig : Type) where
  /-- The attestations that passed. -/
  verified : List (Attestation Sig)
  /-- The signers whose attestations did not. -/
  invalid : List ℕ
  deriving DecidableEq

/-- A certificate scheme over subjects `S`.  The signing share carries the holder's index, so that
a scheme that can sign is one that knows which participant it is. -/
structure Scheme (S Sig Cert PK : Type) where
  /-- The index and the signing function of a scheme that holds a share; a verifier has none. -/
  signer : Option (ℕ × (Namespace → S → Sig))
  /-- The participants, in the order of their indices. -/
  participants : List PK
  /-- Whether an attestation is a valid signature of its signer. -/
  verifyAttestation : Namespace → S → Attestation Sig → Bool
  /-- The attestations of a batch, split into those that pass and the signers of the others. -/
  verifyAttestations : Namespace → S → List (Attestation Sig) → Verification Sig
  /-- The certificate of a list of attestations, if there are enough of them. -/
  assemble : List (Attestation Sig) → Option Cert
  /-- Whether a certificate is valid for a subject. -/
  verifyCertificate : Namespace → S → Cert → Bool
  /-- Whether all certificates of a batch are accepted. -/
  verifyCertificates : Namespace → List (S × Cert) → Bool

namespace Scheme

variable {S Sig Cert PK : Type} (s : Scheme S Sig Cert PK)

/-- The index of the node that holds this scheme. -/
def me : Option ℕ := s.signer.map Prod.fst

/-- The attestation of the node that holds this scheme. -/
def sign (ns : Namespace) (subject : S) : Option (Attestation Sig) :=
  s.signer.map fun key => ⟨key.1, key.2 ns subject⟩

theorem sign_eq_none_iff (ns : Namespace) (subject : S) :
    s.sign ns subject = none ↔ s.me = none := by
  simp [sign, me]

theorem signer_of_sign {s : Scheme S Sig Cert PK} {ns : Namespace} {subject : S}
    {a : Attestation Sig} (h : s.sign ns subject = some a) : s.me = some a.signer := by
  obtain ⟨key, hk, rfl⟩ := Option.map_eq_some_iff.1 h
  simp [me, hk]

/-- The quorum of the scheme's participants. -/
def quorum : ℕ := Commonware.quorum s.participants.length

/-- Batch verification by verifying every certificate on its own. -/
def verifyCertificatesDefault (verify : S → Cert → Bool) (certificates : List (S × Cert)) : Bool :=
  certificates.all fun c => verify c.1 c.2

/-- What the protocol expects of a scheme: batch verification passes valid attestations only, and
valid attestations of different signers assemble to a valid certificate. -/
structure Sound (s : Scheme S Sig Cert PK) (ns : Namespace) : Prop where
  verified_valid : ∀ subject l, ∀ a ∈ (s.verifyAttestations ns subject l).verified,
    s.verifyAttestation ns subject a = true
  assemble_valid : ∀ subject l c, (l.map Attestation.signer).Nodup →
    (∀ a ∈ l, s.verifyAttestation ns subject a = true) → s.quorum ≤ l.length →
    s.assemble l = some c → s.verifyCertificate ns subject c = true

end Scheme

end Commonware
