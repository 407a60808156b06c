/-
**The queue of votes to verify.**

The batcher verifies the votes of a view in batches.  Its `Verifier`, in
`consensus/src/simplex/actors/batcher/verifier.rs`, keeps the votes that wait and counts those that
have passed.  As soon as it knows the leader's proposal it drops what is for another one, so that a
batch is about a single proposal.

Main definitions:

* `Verifier` — the queues of a view, with `add`, `setLeader` and the three verifications;
* `Verifier.Pending` — a vote waits in the queue of its kind;
* `Verifier.reveals` — the proposal of the leader that a vote makes known;
* `Verifier.Consistent` — what waits is for the leader's proposal, once that is known.

Main results:

* `Verifier.Consistent.add`, `Verifier.Consistent.setLeader` — the operations keep this;
* `Verifier.mem_verifyNotarizes`, `Verifier.mem_verifyFinalizes`, `Verifier.mem_verifyNullifies` —
  a vote that passes is valid, and for the leader's proposal.
-/

import Commonware.FaultEvidence
import Commonware.VoteTracker

set_option autoImplicit false

namespace Commonware.Simplex

open List Option

def Vote.proposal? {D Sig : Type} : Vote D Sig → Option (Proposal D)
  | .notarize v => some v.proposal
  | .nullify _ => none
  | .finalize v => some v.proposal

end Commonware.Simplex

namespace Commonware.Simplex.Batcher

open List Option

variable {D Sig Cert PK : Type}

/-- The assertions and overflows of the batcher. -/
inductive Fault
  | noParticipants
  | viewOverflow
  | updatedViewZero
  | leaderAlreadySet
  | leaderNotSet
  | duplicateNotarize
  | duplicateNullify
  | duplicateFinalize
  | mismatch (m : Mismatch)
  deriving DecidableEq

/-- The votes of a view that wait for verification, and how many have passed. -/
structure Verifier (D Sig : Type) where
  quorum : ℕ
  leader : Option ℕ
  leaderProposal : Option (Proposal D)
  notarizes : List (Notarize D Sig)
  notarizesVerified : ℕ
  nullifies : List (Nullify Sig)
  nullifiesVerified : ℕ
  finalizes : List (Finalize D Sig)
  finalizesVerified : ℕ

namespace Verifier

/-! ### Operations -/

def new (quorum : ℕ) : Verifier D Sig := ⟨quorum, none, none, [], 0, [], 0, [], 0⟩

/-- The leader's proposal and the leader, who is known by then. -/
def getLeaderProposal (v : Verifier D Sig) : Except Fault (Option (ℕ × Proposal D)) :=
  match v.leaderProposal with
  | none => .ok none
  | some p =>
    match v.leader with
    | none => .error .leaderNotSet
    | some leader => .ok (some (leader, p))

/-- Count a vote that has been verified, or queue one that has not. -/
def accept (v : Verifier D Sig) (msg : Vote D Sig) (verified : Bool) : Verifier D Sig :=
  match msg, verified with
  | .notarize _, true => { v with notarizesVerified := v.notarizesVerified + 1 }
  | .notarize n, false => { v with notarizes := v.notarizes ++ [n] }
  | .nullify _, true => { v with nullifiesVerified := v.nullifiesVerified + 1 }
  | .nullify n, false => { v with nullifies := v.nullifies ++ [n] }
  | .finalize _, true => { v with finalizesVerified := v.finalizesVerified + 1 }
  | .finalize f, false => { v with finalizes := v.finalizes ++ [f] }

section

variable [DecidableEq D]

/-- Fix the leader's proposal and drop what waits for another one. -/
def setLeaderProposal (v : Verifier D Sig) (proposal : Proposal D) : Verifier D Sig :=
  { v with
    notarizes := v.notarizes.filter fun n => decide (n.proposal = proposal)
    finalizes := v.finalizes.filter fun f => decide (f.proposal = proposal)
    leaderProposal := some proposal }

/-- Add a vote, unless it is for another proposal than the leader's. -/
def add (v : Verifier D Sig) (msg : Vote D Sig) (verified : Bool) : Verifier D Sig × Bool :=
  match msg with
  | .notarize n =>
    match v.leaderProposal with
    | some p => if p ≠ n.proposal then (v, false) else (v.accept msg verified, true)
    | none =>
      -- The leader's own vote tells its proposal.
      if v.leader = some n.attestation.signer then
        ((v.setLeaderProposal n.proposal).accept msg verified, true)
      else (v.accept msg verified, true)
  | .nullify _ => (v.accept msg verified, true)
  | .finalize f =>
    match v.leaderProposal with
    | some p => if p ≠ f.proposal then (v, false) else (v.accept msg verified, true)
    | none => (v.accept msg verified, true)

/-- The vote of the leader among those that wait. -/
def leaderVote (v : Verifier D Sig) (leader : ℕ) : Option (Notarize D Sig) :=
  v.notarizes.find? fun n => decide (n.attestation.signer = leader)

/-- Make the leader known, and its proposal if its vote waits already. -/
def setLeader (v : Verifier D Sig) (leader : ℕ) : Except Fault (Verifier D Sig) :=
  match v.leader with
  | some _ => .error .leaderAlreadySet
  | none =>
    match v.leaderVote leader with
    | none => .ok { v with leader := some leader }
    | some n => .ok ({ v with leader := some leader }.setLeaderProposal n.proposal)

end

/-- Enough votes wait to complete a quorum that is not there yet. -/
def ready (quorum verified pending : ℕ) : Bool :=
  decide (pending ≠ 0 ∧ verified < quorum ∧ quorum ≤ verified + pending)

def readyNotarizes (v : Verifier D Sig) : Bool :=
  v.leader.isSome && v.leaderProposal.isSome &&
    ready v.quorum v.notarizesVerified v.notarizes.length

def readyNullifies (v : Verifier D Sig) : Bool :=
  ready v.quorum v.nullifiesVerified v.nullifies.length

def readyFinalizes (v : Verifier D Sig) : Bool :=
  v.leader.isSome && v.leaderProposal.isSome &&
    ready v.quorum v.finalizesVerified v.finalizes.length

section

variable (s : Scheme (Subject D) Sig Cert PK) (ns : Namespace)

/-- Verify the notarize votes that wait, all as votes for the proposal of the first one. -/
def verifyNotarizes (v : Verifier D Sig) : Verifier D Sig × List (Vote D Sig) × List ℕ :=
  match v.notarizes with
  | [] => (v, [], [])
  | n :: _ =>
    let r := s.verifyAttestations ns (.notarize n.proposal) (v.notarizes.map (·.attestation))
    ({ v with
        notarizes := []
        notarizesVerified := v.notarizesVerified + r.verified.length },
      (r.verified.zip (v.notarizes.map (·.proposal))).map fun x => .notarize ⟨x.2, x.1⟩,
      r.invalid)

/-- Verify the nullify votes that wait, all as votes for the round of the first one. -/
def verifyNullifies (v : Verifier D Sig) : Verifier D Sig × List (Vote D Sig) × List ℕ :=
  match v.nullifies with
  | [] => (v, [], [])
  | n :: _ =>
    let r := s.verifyAttestations ns (.nullify n.round) (v.nullifies.map (·.attestation))
    ({ v with
        nullifies := []
        nullifiesVerified := v.nullifiesVerified + r.verified.length },
      r.verified.map fun a => .nullify ⟨n.round, a⟩, r.invalid)

/-- Verify the finalize votes that wait, all as votes for the proposal of the first one. -/
def verifyFinalizes (v : Verifier D Sig) : Verifier D Sig × List (Vote D Sig) × List ℕ :=
  match v.finalizes with
  | [] => (v, [], [])
  | f :: _ =>
    let r := s.verifyAttestations ns (.finalize f.proposal) (v.finalizes.map (·.attestation))
    ({ v with
        finalizes := []
        finalizesVerified := v.finalizesVerified + r.verified.length },
      (r.verified.zip (v.finalizes.map (·.proposal))).map fun x => .finalize ⟨x.2, x.1⟩,
      r.invalid)

end

/-! ### What waits in the queues -/

/-- A vote waits in the queue of its kind. -/
def Pending (v : Verifier D Sig) : Vote D Sig → Prop
  | .notarize n => n ∈ v.notarizes
  | .nullify n => n ∈ v.nullifies
  | .finalize f => f ∈ v.finalizes

theorem not_pending_new (quorum : ℕ) (w : Vote D Sig) :
    ¬ (new quorum : Verifier D Sig).Pending w := by
  cases w <;> simp [Pending, new]

variable {verified : Bool} {msg : Vote D Sig} {v : Verifier D Sig}

theorem pending_accept {w : Vote D Sig}
    (h : (v.accept msg verified).Pending w) : v.Pending w ∨ w = msg := by
  cases msg <;> cases verified <;> cases w <;> simp_all [accept, Pending]

@[simp] theorem leaderProposal_accept (v : Verifier D Sig) (msg : Vote D Sig) (verified : Bool) :
    (v.accept msg verified).leaderProposal = v.leaderProposal := by
  cases msg <;> cases verified <;> rfl

@[simp] theorem leader_accept (v : Verifier D Sig) (msg : Vote D Sig) (verified : Bool) :
    (v.accept msg verified).leader = v.leader := by
  cases msg <;> cases verified <;> rfl

/-- What waits is for the leader's proposal, once that is known; and then so is the leader. -/
structure Consistent (v : Verifier D Sig) : Prop where
  leader : ∀ p, v.leaderProposal = some p → v.leader.isSome = true
  pending : ∀ p, v.leaderProposal = some p → ∀ w, v.Pending w → ∀ q, w.proposal? = some q → q = p

theorem consistent_new (quorum : ℕ) : (new quorum : Verifier D Sig).Consistent :=
  ⟨fun _ h => by simp [new] at h, fun _ h => by simp [new] at h⟩

theorem Consistent.getLeaderProposal (h : v.Consistent) :
    ∃ x, v.getLeaderProposal = .ok x := by
  unfold Verifier.getLeaderProposal
  cases hp : v.leaderProposal with
  | none => exact ⟨_, rfl⟩
  | some p =>
    obtain ⟨leader, hl⟩ := isSome_iff_exists.1 (h.leader p hp)
    exact ⟨_, by rw [hl]⟩

section

variable [DecidableEq D]

/-- The proposal of the leader that a vote makes known. -/
def reveals (v : Verifier D Sig) : Vote D Sig → Option (Proposal D)
  | .notarize n =>
    if v.leaderProposal = none ∧ v.leader = some n.attestation.signer then some n.proposal
    else none
  | _ => none

variable {v : Verifier D Sig} {w : Vote D Sig}

theorem pending_setLeaderProposal {p : Proposal D} (h : (v.setLeaderProposal p).Pending w) :
    v.Pending w ∧ ∀ q, w.proposal? = some q → q = p := by
  cases w with
  | notarize n | finalize f =>
    obtain ⟨h₁, h₂⟩ := mem_filter.1 h
    exact ⟨h₁, fun q hq => some_inj.1 hq ▸ of_decide_eq_true h₂⟩
  | nullify n => exact ⟨h, fun q hq => by cases hq⟩

/-- What adding a vote does: it is dropped, or it is accepted after it has revealed what it can. -/
theorem add_cases (v : Verifier D Sig) (msg : Vote D Sig) (verified : Bool) :
    (v.add msg verified = (v, false) ∧ ∃ p, v.leaderProposal = some p) ∨
    (v.add msg verified = (v.accept msg verified, true) ∧ v.reveals msg = none ∧
      ∀ p q, v.leaderProposal = some p → msg.proposal? = some q → q = p) ∨
    ∃ p, v.add msg verified = ((v.setLeaderProposal p).accept msg verified, true) ∧
      v.reveals msg = some p ∧ v.leaderProposal = none ∧ msg.proposal? = some p ∧
      v.leader.isSome = true := by
  cases msg with
  | notarize n =>
    cases hp : v.leaderProposal with
    | some p =>
      by_cases hne : p = n.proposal
      · refine .inr (.inl ⟨by simp [add, hp, hne], by simp [reveals, hp], ?_⟩)
        rintro _ q ⟨⟩ ⟨⟩
        exact hne.symm
      · exact .inl ⟨by simp [add, hp, hne], p, rfl⟩
    | none =>
      by_cases hl : v.leader = some n.attestation.signer
      · exact .inr (.inr ⟨n.proposal, by simp [add, hp, hl], by simp [reveals, hp, hl], rfl, rfl,
          by simp [hl]⟩)
      · refine .inr (.inl ⟨by simp [add, hp, hl], by simp [reveals, hl], ?_⟩)
        rintro _ q ⟨⟩
  | nullify n => exact .inr (.inl ⟨rfl, rfl, fun p q _ hq => by cases hq⟩)
  | finalize f =>
    cases hp : v.leaderProposal with
    | some p =>
      by_cases hne : p = f.proposal
      · refine .inr (.inl ⟨by simp [add, hp, hne], rfl, ?_⟩)
        rintro _ q ⟨⟩ ⟨⟩
        exact hne.symm
      · exact .inl ⟨by simp [add, hp, hne], p, rfl⟩
    | none =>
      refine .inr (.inl ⟨by simp [add, hp], rfl, ?_⟩)
      rintro _ q ⟨⟩

theorem pending_add (h : (v.add msg verified).1.Pending w) :
    v.Pending w ∨ w = msg := by
  obtain ⟨he, -⟩ | ⟨he, -⟩ | ⟨p, he, -⟩ := v.add_cases msg verified <;> rw [he] at h
  · exact .inl h
  · exact pending_accept h
  · exact (pending_accept h).imp_left fun h => (pending_setLeaderProposal h).1

@[simp] theorem leader_add (v : Verifier D Sig) (msg : Vote D Sig) (verified : Bool) :
    (v.add msg verified).1.leader = v.leader := by
  obtain ⟨he, -⟩ | ⟨he, -⟩ | ⟨p, he, -⟩ := v.add_cases msg verified <;> rw [he]
  · exact leader_accept v msg verified
  · exact leader_accept (v.setLeaderProposal p) msg verified

/-- The leader's proposal is known after a vote if it was before, or if the vote reveals it. -/
theorem leaderProposal_add (v : Verifier D Sig) (msg : Vote D Sig) (verified : Bool) :
    (v.add msg verified).1.leaderProposal = v.leaderProposal.or (v.reveals msg) := by
  obtain ⟨he, p, hp⟩ | ⟨he, hr, -⟩ | ⟨p, he, hr, hn, -⟩ := v.add_cases msg verified <;> rw [he]
  · simp [hp]
  · simp [hr]
  · rw [hr, hn, leaderProposal_accept]
    rfl

/-- A vote that is accepted is for the leader's proposal, once that is known. -/
theorem proposal_of_add (h : (v.add msg verified).2 = true)
    {p q : Proposal D} (hp : (v.add msg verified).1.leaderProposal = some p)
    (hq : msg.proposal? = some q) : q = p := by
  obtain ⟨he, -⟩ | ⟨he, -, hf⟩ | ⟨p', he, -, -, hf, -⟩ := v.add_cases msg verified <;>
    rw [he] at h hp
  · cases h
  · rw [leaderProposal_accept] at hp
    exact hf p q hp hq
  · rw [leaderProposal_accept] at hp
    obtain rfl : p' = p := some_inj.1 hp
    exact some_inj.1 (hq.symm.trans hf)

theorem Consistent.add (h : v.Consistent) (msg : Vote D Sig) (verified : Bool) :
    (v.add msg verified).1.Consistent := by
  obtain ⟨he, -⟩ | ⟨he, -, hf⟩ | ⟨p, he, -, -, hf, hl⟩ := v.add_cases msg verified <;> rw [he]
  · exact h
  · refine ⟨fun p hp => ?_, fun p hp w hw q hq => ?_⟩
    · rw [leaderProposal_accept] at hp
      simpa using h.leader p hp
    · rw [leaderProposal_accept] at hp
      rcases pending_accept hw with hw | rfl
      · exact h.pending p hp w hw q hq
      · exact hf p q hp hq
  · refine ⟨fun p' _ => ?_, fun p' hp w hw q hq => ?_⟩
    · simpa [setLeaderProposal] using hl
    · rw [leaderProposal_accept] at hp
      obtain rfl : p = p' := some_inj.1 hp
      rcases pending_accept hw with hw | rfl
      · exact (pending_setLeaderProposal hw).2 q hq
      · exact some_inj.1 (hq.symm.trans hf)

variable {v' : Verifier D Sig} {leader : ℕ}

theorem setLeader_cases (h : v.setLeader leader = .ok v') :
    (v.leaderVote leader = none ∧ v' = { v with leader := some leader }) ∨
    ∃ n, v.leaderVote leader = some n ∧
      v' = { v with leader := some leader }.setLeaderProposal n.proposal := by
  unfold setLeader at h
  cases hl : v.leader with
  | some l => simp [hl] at h
  | none =>
    cases hv : v.leaderVote leader with
    | none => exact .inl ⟨rfl, by simpa [hl, hv, eq_comm] using h⟩
    | some n => exact .inr ⟨n, rfl, by simpa [hl, hv, eq_comm] using h⟩

theorem setLeader_ok (h : v.leader = none) (leader : ℕ) : ∃ v', v.setLeader leader = .ok v' := by
  unfold setLeader
  rw [h]
  cases v.leaderVote leader <;> exact ⟨_, rfl⟩

theorem pending_setLeader (h : v.setLeader leader = .ok v') (hw : v'.Pending w) :
    v.Pending w := by
  obtain ⟨-, rfl⟩ | ⟨n, -, rfl⟩ := setLeader_cases h
  · cases w <;> exact hw
  · have := (pending_setLeaderProposal hw).1
    cases w <;> exact this

theorem Consistent.setLeader (hc : v.Consistent) (h : v.setLeader leader = .ok v') :
    v'.Consistent := by
  obtain ⟨-, rfl⟩ | ⟨n, -, rfl⟩ := setLeader_cases h
  · refine ⟨fun _ _ => rfl, fun p hp w hw => hc.pending p hp w ?_⟩
    cases w <;> exact hw
  · refine ⟨fun _ _ => rfl, fun p hp w hw q hq => ?_⟩
    obtain rfl : n.proposal = p := some_inj.1 hp
    exact (pending_setLeaderProposal hw).2 q hq

end

/-! ### Batches -/

section

variable {s : Scheme (Subject D) Sig Cert PK} {ns : Namespace} {v : Verifier D Sig} {w : Vote D Sig}

/-- Fewer votes wait, with the same leader and proposal. -/
structure Fewer (v v' : Verifier D Sig) : Prop where
  leader : v'.leader = v.leader
  leaderProposal : v'.leaderProposal = v.leaderProposal
  pending : ∀ w, v'.Pending w → v.Pending w

theorem Fewer.refl (v : Verifier D Sig) : Fewer v v := ⟨rfl, rfl, fun _ => id⟩

theorem fewer_verify : Fewer v (v.verifyNotarizes s ns).1 ∧ Fewer v (v.verifyNullifies s ns).1 ∧
    Fewer v (v.verifyFinalizes s ns).1 := by
  unfold verifyNotarizes verifyNullifies verifyFinalizes
  refine ⟨?_, ?_, ?_⟩ <;> split
  all_goals
    first
    | exact .refl v
    | exact ⟨rfl, rfl, fun w => by cases w <;> simp [Pending]⟩

theorem Consistent.of_fewer {v' : Verifier D Sig} (h : v.Consistent) (hf : Fewer v v') :
    v'.Consistent :=
  ⟨fun p hp => hf.leader ▸ h.leader p (hf.leaderProposal ▸ hp),
    fun p hp w hw => h.pending p (hf.leaderProposal ▸ hp) w (hf.pending w hw)⟩

variable {p : Proposal D}

/-- A notarize vote that passes is valid, and for the leader's proposal. -/
theorem mem_verifyNotarizes (hs : s.Sound ns) (hc : v.Consistent)
    (hp : v.leaderProposal = some p) (h : w ∈ (v.verifyNotarizes s ns).2.1) :
    w.verify s ns = true ∧ w.subject = .notarize p ∧ ∃ u, v.Pending u ∧ u.round = w.round := by
  have hal : ∀ n ∈ v.notarizes, n.proposal = p := fun n hn =>
    hc.pending p hp (.notarize n) hn _ rfl
  unfold verifyNotarizes at h
  split at h
  · simp at h
  next n l hl =>
    obtain ⟨⟨a, q⟩, hx, rfl⟩ := mem_map.1 h
    obtain ⟨ha, hq⟩ := of_mem_zip hx
    obtain ⟨n', hn', rfl⟩ := mem_map.1 hq
    have hn : n.proposal = p := hal n (by rw [hl]; exact mem_cons_self)
    have hv := hs.verified_valid _ _ a ha
    rw [hn] at hv
    rw [Vote.verify]
    refine ⟨?_, ?_, .notarize n', hn', rfl⟩ <;> simp only [Vote.subject, Vote.attestation, hal n' hn']
    exact hv

/-- A finalize vote that passes is valid, and for the leader's proposal. -/
theorem mem_verifyFinalizes (hs : s.Sound ns) (hc : v.Consistent)
    (hp : v.leaderProposal = some p) (h : w ∈ (v.verifyFinalizes s ns).2.1) :
    w.verify s ns = true ∧ w.subject = .finalize p ∧ ∃ u, v.Pending u ∧ u.round = w.round := by
  have hal : ∀ f ∈ v.finalizes, f.proposal = p := fun f hf =>
    hc.pending p hp (.finalize f) hf _ rfl
  unfold verifyFinalizes at h
  split at h
  · simp at h
  next f l hl =>
    obtain ⟨⟨a, q⟩, hx, rfl⟩ := mem_map.1 h
    obtain ⟨ha, hq⟩ := of_mem_zip hx
    obtain ⟨f', hf', rfl⟩ := mem_map.1 hq
    have hf : f.proposal = p := hal f (by rw [hl]; exact mem_cons_self)
    have hv := hs.verified_valid _ _ a ha
    rw [hf] at hv
    rw [Vote.verify]
    refine ⟨?_, ?_, .finalize f', hf', rfl⟩ <;> simp only [Vote.subject, Vote.attestation, hal f' hf']
    exact hv

/-- A nullify vote that passes is valid, and for the round of those that waited. -/
theorem mem_verifyNullifies (hs : s.Sound ns) {rnd : Rnd} (hr : ∀ w, v.Pending w → w.round = rnd)
    (h : w ∈ (v.verifyNullifies s ns).2.1) : w.verify s ns = true ∧ w.subject = .nullify rnd := by
  unfold verifyNullifies at h
  split at h
  · simp at h
  next n l hl =>
    obtain ⟨a, ha, rfl⟩ := mem_map.1 h
    have hn : n.round = rnd := hr (.nullify n) (by simp [Pending, hl])
    have hv := hs.verified_valid _ _ a ha
    rw [Vote.verify]
    simp only [Vote.subject, Vote.attestation, hn] at hv ⊢
    exact ⟨hv, trivial⟩

end

end Verifier

end Commonware.Simplex.Batcher
