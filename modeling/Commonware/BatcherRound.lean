/-
**One view of the batcher.**

`Round` in `consensus/src/simplex/actors/batcher/round.rs` collects the votes of a view.  Votes from
the network wait for verification, votes of the node itself count as verified at once, and when a
quorum of votes is verified they are assembled into a certificate for the proposal of the first of
them.

The verifier drops votes that are not for the leader's proposal.  But when the leader's proposal
becomes known, it only looks at the votes that still wait: a vote of the node itself, for another
proposal, stays among the verified ones, and the certificate that is assembled from them does not
verify.  The theorem of this module says that nothing else goes wrong: if, whenever the leader's
proposal becomes known, the votes verified by then are for it, then every certificate comes from a
quorum of valid votes for its proposal.

Main definitions:

* `Round` and its operations; `Round.Op`, `Round.apply` — the operations as a step function;
* `Round.Run` — the states that a round can be in, if the steps meet a condition;
* `Round.agrees` — the condition: what has been verified is for the proposal that a step reveals;
* `Supported` — a certificate has the valid votes of a quorum behind it.

Main results:

* `Round.Uniform.step` — one step keeps the verified votes on one proposal;
* `Round.certificates_supported` — **certificates are for one proposal, and verify**;
* `Round.mixed_certificate` — without the condition, one that does not.
-/

import Commonware.BatcherVerifier
import Commonware.Outcome

set_option autoImplicit false

namespace Commonware.Simplex.Batcher

open List Option

variable {D Sig Cert PK : Type}

/-- What the batcher tells its reporter. -/
inductive Activity (D Sig : Type)
  | vote (vote : Vote D Sig)
  | conflictingNotarize (evidence : ConflictingNotarize D Sig)
  | conflictingFinalize (evidence : ConflictingFinalize D Sig)
  | nullifyFinalize (evidence : NullifyFinalize D Sig)

/-- What the batcher tells the outside: its reporter, its network and its voter. -/
inductive Output (D Sig Cert PK : Type)
  | report (activity : Activity D Sig)
  | block (peer : PK)
  | proposal (proposal : Proposal D)
  | recovered (certificate : Certificate D Cert)
  | active (isActive : Bool)

/-- The votes and certificates of a view. -/
structure Round (D Sig Cert : Type) where
  verifier : Verifier D Sig
  pendingVotes : VoteTracker D Sig
  verifiedVotes : VoteTracker D Sig
  proposalSent : Bool
  notarization : Option (Notarization D Cert)
  nullification : Option (Nullification Cert)
  finalization : Option (Finalization D Cert)

/-- The assertion that a second vote of one kind fails. -/
def duplicate : Vote D Sig → Fault
  | .notarize _ => .duplicateNotarize
  | .nullify _ => .duplicateNullify
  | .finalize _ => .duplicateFinalize

/-- The certificate that votes for one subject are assembled into. -/
def fromNotarizes (s : Scheme (Subject D) Sig Cert PK) (votes : List (Notarize D Sig)) :
    Option (Notarization D Cert) :=
  votes.head?.bind fun n => (s.assemble (votes.map (·.attestation))).map fun c => ⟨n.proposal, c⟩

@[inherit_doc fromNotarizes]
def fromNullifies (s : Scheme (Subject D) Sig Cert PK) (votes : List (Nullify Sig)) :
    Option (Nullification Cert) :=
  votes.head?.bind fun n => (s.assemble (votes.map (·.attestation))).map fun c => ⟨n.round, c⟩

@[inherit_doc fromNotarizes]
def fromFinalizes (s : Scheme (Subject D) Sig Cert PK) (votes : List (Finalize D Sig)) :
    Option (Finalization D Cert) :=
  votes.head?.bind fun f => (s.assemble (votes.map (·.attestation))).map fun c => ⟨f.proposal, c⟩

namespace Round

/-! ### Operations -/

/-- An empty round.  The quorum of no participants is not defined. -/
def new (s : Scheme (Subject D) Sig Cert PK) : Except Fault (Round D Sig Cert) :=
  if s.participants.isEmpty then .error .noParticipants
  else .ok ⟨.new s.quorum, .new s.participants.length, .new s.participants.length, false,
    none, none, none⟩

def addVerified (r : Round D Sig Cert) (vote : Vote D Sig) : Round D Sig Cert :=
  { r with verifiedVotes := (r.verifiedVotes.insert vote).1 }

section

variable [DecidableEq D]

/-- Remember a vote from the network and queue it. -/
def reserve (r : Round D Sig Cert) (msg : Vote D Sig) : Round D Sig Cert :=
  { r with
    pendingVotes := (r.pendingVotes.insert msg).1
    verifier := (r.verifier.add msg false).1 }

/-- Add a vote of the node itself, which needs no verification. -/
def addConstructed (r : Round D Sig Cert) (msg : Vote D Sig) :
    Except Fault (Round D Sig Cert × List (Output D Sig Cert PK)) :=
  if (r.pendingVotes.insert msg).2 then
    let r' : Round D Sig Cert :=
      { r with
        pendingVotes := (r.pendingVotes.insert msg).1
        verifier := (r.verifier.add msg true).1 }
    .ok (if (r.verifier.add msg true).2 then r'.addVerified msg else r', [.report (.vote msg)])
  else .error (duplicate msg)

def setLeader (r : Round D Sig Cert) (leader : ℕ) : Except Fault (Round D Sig Cert) :=
  (r.verifier.setLeader leader).map fun v => { r with verifier := v }

variable [DecidableEq Sig] [DecidableEq PK]

/-- Add a vote that `sender` has sent.  The result says whether it counts. -/
def addNetwork (s : Scheme (Subject D) Sig Cert PK) (r : Round D Sig Cert) (sender : PK)
    (msg : Vote D Sig) : Except Fault (Round D Sig Cert × List (Output D Sig Cert PK) × Bool) :=
  match s.participants.idxOf? sender with
  | none => .ok (r, [.block sender], false)
  | some index =>
    if index ≠ msg.signer then .ok (r, [.block sender], false)
    else
      match msg with
      | .notarize n =>
        match r.pendingVotes.notarizes.get index with
        | some previous =>
          if previous ≠ n then
            match Conflict.new previous n with
            | .error m => .error (.mismatch m)
            | .ok e => .ok (r, [.report (.conflictingNotarize e), .block sender], false)
          else .ok (r, [], false)
        | none => .ok (r.reserve msg, [.report (.vote msg)], true)
      | .nullify n =>
        match r.pendingVotes.finalizes.get index with
        | some previous =>
          match Conflict.new n previous with
          | .error m => .error (.mismatch m)
          | .ok e => .ok (r, [.report (.nullifyFinalize e), .block sender], false)
        | none =>
          match r.pendingVotes.nullifies.get index with
          | some previous =>
            -- There is no evidence of two nullify votes.
            if previous ≠ n then .ok (r, [.block sender], false) else .ok (r, [], false)
          | none => .ok (r.reserve msg, [.report (.vote msg)], true)
      | .finalize f =>
        match r.pendingVotes.nullifies.get index with
        | some previous =>
          match Conflict.new previous f with
          | .error m => .error (.mismatch m)
          | .ok e => .ok (r, [.report (.nullifyFinalize e), .block sender], false)
        | none =>
          match r.pendingVotes.finalizes.get index with
          | some previous =>
            if previous ≠ f then
              match Conflict.new previous f with
              | .error m => .error (.mismatch m)
              | .ok e => .ok (r, [.report (.conflictingFinalize e), .block sender], false)
            else .ok (r, [], false)
          | none => .ok (r.reserve msg, [.report (.vote msg)], true)

end

/-- The leader's proposal, once and unless the node is the leader. -/
def forwardProposal (r : Round D Sig Cert) (me : ℕ) :
    Except Fault (Round D Sig Cert × Option (Proposal D)) :=
  if r.proposalSent then .ok (r, none)
  else
    match r.verifier.getLeaderProposal with
    | .error e => .error e
    | .ok none => .ok (r, none)
    | .ok (some (leader, p)) =>
      .ok ({ r with proposalSent := true }, if leader = me then none else some p)

def isActive (r : Round D Sig Cert) (leader : ℕ) : Bool := r.pendingVotes.hasVoted leader

def readyNotarizes (r : Round D Sig Cert) : Bool :=
  r.notarization.isNone && r.verifier.readyNotarizes

def readyNullifies (r : Round D Sig Cert) : Bool :=
  r.nullification.isNone && r.verifier.readyNullifies

def readyFinalizes (r : Round D Sig Cert) : Bool :=
  r.finalization.isNone && r.verifier.readyFinalizes

section

variable (s : Scheme (Subject D) Sig Cert PK) (ns : Namespace)

/-- The batch that is verified: notarize votes before nullify votes before finalize votes. -/
def batch (r : Round D Sig Cert) : Option (Verifier D Sig × List (Vote D Sig) × List ℕ) :=
  if r.readyNotarizes then some (r.verifier.verifyNotarizes s ns)
  else if r.readyNullifies then some (r.verifier.verifyNullifies s ns)
  else if r.readyFinalizes then some (r.verifier.verifyFinalizes s ns)
  else none

/-- Verify a batch if one is ready, block the signers that fail and keep the votes that pass. -/
def verify (r : Round D Sig Cert) : Round D Sig Cert × List (Output D Sig Cert PK) :=
  match r.batch s ns with
  | none => (r, [])
  | some (v, valid, invalid) =>
    (valid.foldl addVerified { r with verifier := v },
      (invalid.filterMap (s.participants[·]?)).map .block)

def tryConstructNotarization (r : Round D Sig Cert) :
    Round D Sig Cert × Option (Notarization D Cert) :=
  if r.notarization.isSome then (r, none)
  else if r.verifiedVotes.notarizes.len < s.quorum then (r, none)
  else
    match fromNotarizes s r.verifiedVotes.notarizes.iter with
    | none => (r, none)
    | some c => ({ r with notarization := some c }, some c)

def tryConstructNullification (r : Round D Sig Cert) :
    Round D Sig Cert × Option (Nullification Cert) :=
  if r.nullification.isSome then (r, none)
  else if r.verifiedVotes.nullifies.len < s.quorum then (r, none)
  else
    match fromNullifies s r.verifiedVotes.nullifies.iter with
    | none => (r, none)
    | some c => ({ r with nullification := some c }, some c)

def tryConstructFinalization (r : Round D Sig Cert) :
    Round D Sig Cert × Option (Finalization D Cert) :=
  if r.finalization.isSome then (r, none)
  else if r.verifiedVotes.finalizes.len < s.quorum then (r, none)
  else
    match fromFinalizes s r.verifiedVotes.finalizes.iter with
    | none => (r, none)
    | some c => ({ r with finalization := some c }, some c)

end

/-! ### Runs -/

/-- The operations of a round. -/
inductive Op (D Sig Cert PK : Type)
  | addNetwork (sender : PK) (msg : Vote D Sig)
  | addConstructed (msg : Vote D Sig)
  | setLeader (leader : ℕ)
  | setNotarization (certificate : Notarization D Cert)
  | setNullification (certificate : Nullification Cert)
  | setFinalization (certificate : Finalization D Cert)
  | forwardProposal (me : ℕ)
  | verify
  | tryConstructNotarization
  | tryConstructNullification
  | tryConstructFinalization

section

variable [DecidableEq D] [DecidableEq Sig] [DecidableEq PK]
variable (s : Scheme (Subject D) Sig Cert PK) (ns : Namespace)

def apply (r : Round D Sig Cert) : Op D Sig Cert PK → Except Fault (Round D Sig Cert)
  | .addNetwork sender msg => (r.addNetwork s sender msg).map (·.1)
  | .addConstructed msg =>
    (r.addConstructed msg : Except Fault (_ × List (Output D Sig Cert PK))).map (·.1)
  | .setLeader leader => r.setLeader leader
  | .setNotarization c => .ok { r with notarization := some c }
  | .setNullification c => .ok { r with nullification := some c }
  | .setFinalization c => .ok { r with finalization := some c }
  | .forwardProposal me => (r.forwardProposal me).map (·.1)
  | .verify => .ok (r.verify s ns).1
  | .tryConstructNotarization => .ok (r.tryConstructNotarization s).1
  | .tryConstructNullification => .ok (r.tryConstructNullification s).1
  | .tryConstructFinalization => .ok (r.tryConstructFinalization s).1

/-- The operations on the round `rnd` of the node `me`: votes are of that round, and votes of the
node itself carry its valid signature. -/
def allowed (me : ℕ) (rnd : Rnd) : Op D Sig Cert PK → Bool
  | .addNetwork _ msg => decide (msg.round = rnd)
  | .addConstructed msg => decide (msg.round = rnd) && decide (msg.signer = me) && msg.verify s ns
  | _ => true

/-- The proposal of the leader that an operation makes known. -/
def reveals (r : Round D Sig Cert) : Op D Sig Cert PK → Option (Proposal D)
  | .addNetwork sender msg =>
    if s.participants.idxOf? sender = some msg.signer ∧ r.pendingVotes.vacant msg = true then
      r.verifier.reveals msg
    else none
  | .addConstructed msg => r.verifier.reveals msg
  | .setLeader leader => (r.verifier.leaderVote leader).map (·.proposal)
  | _ => none

/-- What has been verified is for the proposal that the operation makes known. -/
def agrees (r : Round D Sig Cert) (op : Op D Sig Cert PK) : Bool :=
  (r.reveals s op).all fun p =>
    (r.verifiedVotes.notarizes.iter.all fun n => decide (n.proposal = p)) &&
      r.verifiedVotes.finalizes.iter.all fun f => decide (f.proposal = p)

/-- The states of the round `rnd` of the node `me`, along operations that meet a condition. -/
inductive Run (me : ℕ) (rnd : Rnd) (C : Round D Sig Cert → Op D Sig Cert PK → Bool) :
    Round D Sig Cert → Prop
  | new {r : Round D Sig Cert} (h : Round.new s = .ok r) : Run me rnd C r
  | step {r r' : Round D Sig Cert} {op : Op D Sig Cert PK} (hr : Run me rnd C r)
      (ha : allowed s ns me rnd op = true) (hc : C r op = true) (h : r.apply s ns op = .ok r') :
      Run me rnd C r'

/-- Execute operations, as long as they are allowed and meet the condition. -/
def exec? (me : ℕ) (rnd : Rnd) (C : Round D Sig Cert → Op D Sig Cert PK → Bool)
    (r : Round D Sig Cert) : List (Op D Sig Cert PK) → Option (Round D Sig Cert)
  | [] => some r
  | op :: ops =>
    if allowed s ns me rnd op && C r op then
      match r.apply s ns op with
      | .ok r' => exec? me rnd C r' ops
      | .error _ => none
    else none

/-- Execute operations on a new round. -/
def start? (me : ℕ) (rnd : Rnd) (C : Round D Sig Cert → Op D Sig Cert PK → Bool)
    (ops : List (Op D Sig Cert PK)) : Option (Round D Sig Cert) :=
  match Round.new s with
  | .ok r => exec? s ns me rnd C r ops
  | .error _ => none

variable {s ns} {me : ℕ} {rnd : Rnd} {C : Round D Sig Cert → Op D Sig Cert PK → Bool}
  {ops : List (Op D Sig Cert PK)}

theorem Run.of_exec? {r r' : Round D Sig Cert} (hr : Run s ns me rnd C r)
    (h : exec? s ns me rnd C r ops = some r') : Run s ns me rnd C r' := by
  induction ops generalizing r with
  | nil => exact some_inj.1 h ▸ hr
  | cons op ops ih =>
    simp only [exec?] at h
    split at h
    next hac =>
      obtain ⟨ha, hc⟩ := Bool.and_eq_true_iff.1 hac
      split at h
      next r'' hap => exact ih (hr.step ha hc hap) h
      · cases h
    · cases h

theorem Run.of_start? {r : Round D Sig Cert} (h : start? s ns me rnd C ops = some r) :
    Run s ns me rnd C r := by
  unfold start? at h
  split at h
  next r₀ hnw => exact (Run.new hnw).of_exec? h
  · cases h

end

/-! ### What the operations change -/

variable {r : Round D Sig Cert} {w : Vote D Sig}

theorem holds_addVerified {v : Vote D Sig}
    (h : (r.addVerified v).verifiedVotes.Holds w) : r.verifiedVotes.Holds w ∨ w = v :=
  VoteTracker.holds_insert h

@[simp] theorem verifier_foldl_addVerified (l : List (Vote D Sig)) (r : Round D Sig Cert) :
    (l.foldl addVerified r).verifier = r.verifier := by
  induction l generalizing r with
  | nil => rfl
  | cons v l ih => exact ih _

@[simp] theorem pendingVotes_foldl_addVerified (l : List (Vote D Sig)) (r : Round D Sig Cert) :
    (l.foldl addVerified r).pendingVotes = r.pendingVotes := by
  induction l generalizing r with
  | nil => rfl
  | cons v l ih => exact ih _

/-- The parts of a round that its votes are in. -/
structure SameVotes (r r' : Round D Sig Cert) : Prop where
  verifier : r'.verifier = r.verifier
  pendingVotes : r'.pendingVotes = r.pendingVotes
  verifiedVotes : r'.verifiedVotes = r.verifiedVotes

theorem SameVotes.refl (r : Round D Sig Cert) : SameVotes r r := ⟨rfl, rfl, rfl⟩

section

variable {s : Scheme (Subject D) Sig Cert PK}

theorem sameVotes_tryConstruct (r : Round D Sig Cert) :
    SameVotes r (r.tryConstructNotarization s).1 ∧ SameVotes r (r.tryConstructNullification s).1 ∧
      SameVotes r (r.tryConstructFinalization s).1 := by
  unfold tryConstructNotarization tryConstructNullification tryConstructFinalization
  refine ⟨?_, ?_, ?_⟩ <;> repeat' split
  all_goals exact ⟨rfl, rfl, rfl⟩

theorem sameVotes_forwardProposal {me : ℕ}
    {x : Round D Sig Cert × Option (Proposal D)} (h : r.forwardProposal me = .ok x) :
    SameVotes r x.1 := by
  unfold forwardProposal at h
  split_ifs at h
  · cases h
    exact .refl r
  · split at h
    · cases h
    · cases h
      exact .refl r
    · cases h
      exact ⟨rfl, rfl, rfl⟩

variable [DecidableEq D] [DecidableEq Sig] [DecidableEq PK]

/-- A vote from the network changes nothing, or it is the first of its kind from its sender and
gets reserved. -/
theorem addNetwork_cases {sender : PK} {msg : Vote D Sig}
    {x : Round D Sig Cert × List (Output D Sig Cert PK) × Bool}
    (h : r.addNetwork s sender msg = .ok x) :
    x.1 = r ∨ (x.1 = r.reserve msg ∧ s.participants.idxOf? sender = some msg.signer ∧
      r.pendingVotes.vacant msg = true) := by
  unfold addNetwork at h
  split at h
  · cases h
    exact .inl rfl
  next index hid =>
    split at h
    · cases h
      exact .inl rfl
    next hs =>
      obtain rfl : index = msg.signer := not_not.1 hs
      split at h
      next n =>
        split at h
        · split_ifs at h
          · split at h <;> cases h
            exact .inl rfl
          · cases h
            exact .inl rfl
        next hn =>
          cases h
          exact .inr ⟨rfl, hid, isNone_iff_eq_none.2 hn⟩
      next n =>
        split at h
        · split at h <;> cases h
          exact .inl rfl
        · split at h
          · split_ifs at h <;> cases h <;> exact .inl rfl
          next hn =>
            cases h
            exact .inr ⟨rfl, hid, isNone_iff_eq_none.2 hn⟩
      next f =>
        split at h
        · split at h <;> cases h
          exact .inl rfl
        · split at h
          · split_ifs at h
            · split at h <;> cases h
              exact .inl rfl
            · cases h
              exact .inl rfl
          next hf =>
            cases h
            exact .inr ⟨rfl, hid, isNone_iff_eq_none.2 hf⟩

end

/-! ### Verified votes are for one proposal -/

/-- The invariant of the round `rnd` of the node `me`.  As long as the leader's proposal is not
known, nothing but the node's own votes has been verified. -/
structure Uniform (s : Scheme (Subject D) Sig Cert PK) (ns : Namespace) (me : ℕ) (rnd : Rnd)
    (r : Round D Sig Cert) : Prop where
  consistent : r.verifier.Consistent
  pendingRound : ∀ w, r.verifier.Pending w → w.round = rnd
  verifiedRound : ∀ w, r.verifiedVotes.Holds w → w.round = rnd
  valid : ∀ w, r.verifiedVotes.Holds w → w.verify s ns = true
  forLeader : ∀ p, r.verifier.leaderProposal = some p →
    ∀ w, r.verifiedVotes.Holds w → ∀ q, w.proposal? = some q → q = p
  own : r.verifier.leaderProposal = none →
    ∀ w, r.verifiedVotes.Holds w → w.proposal?.isSome = true → w.signer = me

variable {r' : Round D Sig Cert}

theorem Uniform.of_sameVotes {s : Scheme (Subject D) Sig Cert PK} {ns : Namespace} {me : ℕ}
    {rnd : Rnd} (h : Uniform s ns me rnd r) (hs : SameVotes r r') :
    Uniform s ns me rnd r' := by
  obtain ⟨h₁, -, h₂⟩ := hs
  exact ⟨h₁ ▸ h.consistent, h₁ ▸ h.pendingRound, h₂ ▸ h.verifiedRound, h₂ ▸ h.valid,
    h₁ ▸ h₂ ▸ h.forLeader, h₁ ▸ h₂ ▸ h.own⟩

section

variable {s : Scheme (Subject D) Sig Cert PK} {ns : Namespace} {me : ℕ} {rnd : Rnd}
variable {r : Round D Sig Cert}

/-- Every verified vote for a proposal is for `p`. -/
def VerifiedFor (r : Round D Sig Cert) (p : Proposal D) : Prop :=
  ∀ w, r.verifiedVotes.Holds w → ∀ q, w.proposal? = some q → q = p

variable {t : VoteTracker D Sig}

/-- A step that changes the verifier only, and leaves fewer votes or one more vote of the round to
wait, keeps the invariant if what it reveals agrees with the verified votes. -/
theorem Uniform.of_verifier {v : Verifier D Sig} {o : Option (Proposal D)}
    (h : Uniform s ns me rnd r) (hc : v.Consistent) (hr : ∀ w, v.Pending w → w.round = rnd)
    (hp : v.leaderProposal = r.verifier.leaderProposal.or o)
    (ho : ∀ p, o = some p → r.VerifiedFor p) :
    Uniform s ns me rnd { r with verifier := v, pendingVotes := t } := by
  refine ⟨hc, hr, h.verifiedRound, h.valid, fun p hp' => ?_, fun hn => h.own ?_⟩
  · have hp'' : r.verifier.leaderProposal.or o = some p := hp.symm.trans hp'
    rcases or_eq_some_iff.1 hp'' with hl | ⟨-, hl⟩
    · exact h.forLeader p hl
    · exact ho p hl
  · exact (or_eq_none_iff.1 (hp.symm.trans hn)).1

theorem Uniform.addVerified (h : Uniform s ns me rnd r) (hr : w.round = rnd)
    (hv : w.verify s ns = true)
    (hp : ∀ p q, r.verifier.leaderProposal = some p → w.proposal? = some q → q = p)
    (ho : r.verifier.leaderProposal = none → w.proposal?.isSome = true → w.signer = me) :
    Uniform s ns me rnd (r.addVerified w) := by
  refine ⟨h.consistent, h.pendingRound, fun u hu => ?_, fun u hu => ?_, fun p hl u hu q hq => ?_,
    fun hl u hu hq => ?_⟩ <;> rcases holds_addVerified hu with hu | rfl
  · exact h.verifiedRound u hu
  · exact hr
  · exact h.valid u hu
  · exact hv
  · exact h.forLeader p hl u hu q hq
  · exact hp p q hl hq
  · exact h.own hl u hu hq
  · exact ho hl hq

theorem Uniform.foldl_addVerified {l : List (Vote D Sig)} (h : Uniform s ns me rnd r)
    (hl : ∀ w ∈ l, w.round = rnd ∧ w.verify s ns = true ∧
      ∀ q, w.proposal? = some q → r.verifier.leaderProposal = some q) :
    Uniform s ns me rnd (l.foldl Round.addVerified r) := by
  induction l generalizing r with
  | nil => exact h
  | cons w l ih =>
    obtain ⟨hr, hv, hp⟩ := hl w mem_cons_self
    refine ih (h.addVerified hr hv (fun p q hp' hq => ?_) fun hn hq => ?_)
      fun u hu => hl u (mem_cons_of_mem _ hu)
    · exact some_inj.1 ((hp q hq).symm.trans hp')
    · obtain ⟨q, hq⟩ := isSome_iff_exists.1 hq
      exact absurd (hn.symm.trans (hp q hq)) (by simp)

theorem uniform_new (h : Round.new s = .ok r) : Uniform s ns me rnd r := by
  unfold Round.new at h
  split_ifs at h
  cases h
  refine ⟨Verifier.consistent_new _, fun w hw => absurd hw (Verifier.not_pending_new _ w), ?_, ?_,
    fun _ _ => ?_, fun _ => ?_⟩ <;> exact fun w hw => absurd hw (VoteTracker.not_holds_new _ w)

variable {x : Verifier D Sig × List (Vote D Sig) × List ℕ}

/-- What a batch is: one of the three verifications, of votes that are ready. -/
theorem batch_cases (h : r.batch s ns = some x) :
    (x = r.verifier.verifyNotarizes s ns ∧ r.verifier.leaderProposal.isSome = true) ∨
    x = r.verifier.verifyNullifies s ns ∨
    (x = r.verifier.verifyFinalizes s ns ∧ r.verifier.leaderProposal.isSome = true) := by
  unfold batch at h
  split_ifs at h with h₁ h₂ h₃
  · refine .inl ⟨(some_inj.1 h).symm, ?_⟩
    simp only [readyNotarizes, Verifier.readyNotarizes, Bool.and_eq_true] at h₁
    exact h₁.2.1.2
  · exact .inr (.inl (some_inj.1 h).symm)
  · refine .inr (.inr ⟨(some_inj.1 h).symm, ?_⟩)
    simp only [readyFinalizes, Verifier.readyFinalizes, Bool.and_eq_true] at h₃
    exact h₃.2.1.2

/-- A batch leaves fewer votes to wait, and the leader and its proposal as they are. -/
theorem batch_verifier (h : r.batch s ns = some x) : r.verifier.Fewer x.1 := by
  obtain ⟨rfl, -⟩ | rfl | ⟨rfl, -⟩ := batch_cases h
  · exact Verifier.fewer_verify.1
  · exact Verifier.fewer_verify.2.1
  · exact Verifier.fewer_verify.2.2

/-- What passes in a batch is valid, of the round, and for the leader's proposal if for any. -/
theorem Uniform.mem_batch (hs : s.Sound ns) (h : Uniform s ns me rnd r) (hx : r.batch s ns = some x)
    (hw : w ∈ x.2.1) : w.round = rnd ∧ w.verify s ns = true ∧
      ∀ q, w.proposal? = some q → r.verifier.leaderProposal = some q := by
  obtain ⟨rfl, hp⟩ | rfl | ⟨rfl, hp⟩ := batch_cases hx
  · obtain ⟨p, hp⟩ := isSome_iff_exists.1 hp
    obtain ⟨hv, hsb, u, hu, hur⟩ := Verifier.mem_verifyNotarizes hs h.consistent hp hw
    refine ⟨hur ▸ h.pendingRound u hu, hv, fun q hq => ?_⟩
    cases w <;> simp_all [Vote.subject, Vote.proposal?]
  · obtain ⟨hv, hsb⟩ := Verifier.mem_verifyNullifies hs h.pendingRound hw
    refine ⟨?_, hv, fun q hq => ?_⟩ <;> cases w <;>
      simp_all [Vote.subject, Vote.proposal?, Vote.round]
  · obtain ⟨p, hp⟩ := isSome_iff_exists.1 hp
    obtain ⟨hv, hsb, u, hu, hur⟩ := Verifier.mem_verifyFinalizes hs h.consistent hp hw
    refine ⟨hur ▸ h.pendingRound u hu, hv, fun q hq => ?_⟩
    cases w <;> simp_all [Vote.subject, Vote.proposal?]

theorem Uniform.verify (hs : s.Sound ns) (h : Uniform s ns me rnd r) :
    Uniform s ns me rnd (r.verify s ns).1 := by
  unfold Round.verify
  cases hb : r.batch s ns with
  | none => exact h
  | some x =>
    obtain ⟨v, valid, invalid⟩ := x
    have hf := batch_verifier hb
    refine Uniform.foldl_addVerified (r := { r with verifier := v }) ?_ fun w hmem => ?_
    · refine h.of_verifier (o := none) (h.consistent.of_fewer hf)
        (fun w hv => h.pendingRound w (hf.pending w hv)) ?_ fun p hp => by cases hp
      simpa using hf.leaderProposal
    · obtain ⟨hr, hv, hq⟩ := h.mem_batch hs hb hmem
      exact ⟨hr, hv, fun q hwq => hf.leaderProposal.trans (hq q hwq)⟩

section

variable [DecidableEq D] {msg : Vote D Sig}

theorem Uniform.add {verified : Bool}
    (h : Uniform s ns me rnd r) (hm : msg.round = rnd)
    (ha : ∀ p, r.verifier.reveals msg = some p → r.VerifiedFor p) : Uniform s ns me rnd
      { r with verifier := (r.verifier.add msg verified).1, pendingVotes := t } := by
  refine h.of_verifier (h.consistent.add msg verified) (fun w hw => ?_)
    (r.verifier.leaderProposal_add msg verified) ha
  rcases Verifier.pending_add hw with hw | rfl
  · exact h.pendingRound w hw
  · exact hm

theorem Uniform.addConstructed
    {x : Round D Sig Cert × List (Output D Sig Cert PK)} (h : Uniform s ns me rnd r)
    (hm : msg.round = rnd) (hs : msg.signer = me) (hv : msg.verify s ns = true)
    (ha : ∀ p, r.verifier.reveals msg = some p → r.VerifiedFor p)
    (hx : r.addConstructed msg = .ok x) : Uniform s ns me rnd x.1 := by
  unfold Round.addConstructed at hx
  split_ifs at hx with hin had
  · cases hx
    exact (h.add hm ha).addVerified hm hv
      (fun p q hp hq => Verifier.proposal_of_add had hp hq) fun _ _ => hs
  · cases hx
    exact h.add hm ha

theorem Uniform.setLeader {leader : ℕ} (h : Uniform s ns me rnd r)
    (ha : ∀ n, r.verifier.leaderVote leader = some n → r.VerifiedFor n.proposal)
    (hr : r.setLeader leader = .ok r') : Uniform s ns me rnd r' := by
  unfold Round.setLeader at hr
  cases hv : r.verifier.setLeader leader with
  | error e => simp [hv, Except.map] at hr
  | ok v =>
    obtain rfl : { r with verifier := v } = r' := by simpa [hv, Except.map] using hr
    have hc := h.consistent.setLeader hv
    have hpn : ∀ w, v.Pending w → w.round = rnd := fun w hw =>
      h.pendingRound w (Verifier.pending_setLeader hv hw)
    obtain ⟨-, rfl⟩ | ⟨n, hn, rfl⟩ := Verifier.setLeader_cases hv
    · refine h.of_verifier (o := none) hc hpn ?_ fun p hp => by cases hp
      exact (or_none).symm
    · refine ⟨hc, hpn, h.verifiedRound, h.valid, fun p hp => ?_, fun hn => by cases hn⟩
      obtain rfl : n.proposal = p := some_inj.1 hp
      exact ha n hn

variable [DecidableEq PK] {op : Op D Sig Cert PK}

theorem verifiedFor_of_agrees (h : r.agrees s op = true) {p : Proposal D}
    (hp : r.reveals s op = some p) : r.VerifiedFor p := by
  rw [agrees, hp] at h
  obtain ⟨hn, hf⟩ := Bool.and_eq_true_iff.1 h
  intro w hw q hq
  cases w with
  | notarize n => exact some_inj.1 hq ▸ of_decide_eq_true (all_eq_true.1 hn n hw)
  | nullify n => cases hq
  | finalize f => exact some_inj.1 hq ▸ of_decide_eq_true (all_eq_true.1 hf f hw)

variable [DecidableEq Sig]

/-- One step keeps the verified votes on one proposal. -/
theorem Uniform.step (hs : s.Sound ns)
    (h : Uniform s ns me rnd r) (ha : allowed s ns me rnd op = true)
    (hc : r.agrees s op = true) (hr : r.apply s ns op = .ok r') : Uniform s ns me rnd r' := by
  have hag : ∀ p, r.reveals s op = some p → r.VerifiedFor p := fun p =>
    verifiedFor_of_agrees hc
  cases op with
  | addNetwork sender msg =>
    obtain ⟨x, hx, rfl⟩ := map_eq_ok.1 hr
    obtain he | ⟨he, hid, hv⟩ := addNetwork_cases hx <;> rw [he]
    · exact h
    · refine h.add (of_decide_eq_true ha) fun p hp => hag p ?_
      rw [reveals, if_pos ⟨hid, hv⟩, hp]
  | addConstructed msg =>
    obtain ⟨x, hx, rfl⟩ := map_eq_ok.1 hr
    simp only [allowed, Bool.and_eq_true, decide_eq_true_eq] at ha
    exact h.addConstructed ha.1.1 ha.1.2 ha.2 hag hx
  | setLeader leader =>
    refine h.setLeader (fun n hn => hag _ ?_) hr
    rw [reveals, hn]
    rfl
  | setNotarization c | setNullification c | setFinalization c =>
    cases hr
    exact h.of_sameVotes ⟨rfl, rfl, rfl⟩
  | forwardProposal me =>
    obtain ⟨x, hx, rfl⟩ := map_eq_ok.1 hr
    exact h.of_sameVotes (sameVotes_forwardProposal hx)
  | verify =>
    cases hr
    exact h.verify hs
  | tryConstructNotarization =>
    cases hr
    exact h.of_sameVotes (sameVotes_tryConstruct r).1
  | tryConstructNullification =>
    cases hr
    exact h.of_sameVotes (sameVotes_tryConstruct r).2.1
  | tryConstructFinalization =>
    cases hr
    exact h.of_sameVotes (sameVotes_tryConstruct r).2.2

theorem Run.uniform (hs : s.Sound ns) (h : Run s ns me rnd (agrees s) r) :
    Uniform s ns me rnd r := by
  induction h with
  | new h => exact uniform_new h
  | step _ ha hc hr ih => exact ih.step hs ha hc hr

end

end

/-! ### Certificates -/

/-- Valid votes of a quorum of different signers are behind a certificate, and it verifies. -/
structure Supported (s : Scheme (Subject D) Sig Cert PK) (ns : Namespace)
    (votes : List (Vote D Sig)) (c : Certificate D Cert) : Prop where
  quorum : s.quorum ≤ votes.length
  signers : (votes.map Vote.signer).Nodup
  votes : ∀ w ∈ votes, w.subject = c.subject ∧ w.verify s ns = true
  verifies : c.verify s ns = true

section

variable {s : Scheme (Subject D) Sig Cert PK} {ns : Namespace} {me : ℕ} {rnd : Rnd}
variable {r : Round D Sig Cert}

/-- Two verified votes are for one proposal, if those of one signer are. -/
theorem Uniform.proposal_eq (h : Uniform s ns me rnd r) (w w' : Vote D Sig) {p p' : Proposal D}
    (hw : r.verifiedVotes.Holds w) (hw' : r.verifiedVotes.Holds w') (hp : w.proposal? = some p)
    (hp' : w'.proposal? = some p') (hone : w.signer = w'.signer → p = p') : p = p' := by
  cases hl : r.verifier.leaderProposal with
  | some l => exact (h.forLeader l hl w hw p hp).trans (h.forLeader l hl w' hw' p' hp').symm
  | none =>
    -- Both votes are the node's own, and it has one slot.
    exact hone ((h.own hl w hw (by rw [hp]; rfl)).trans (h.own hl w' hw' (by rw [hp']; rfl)).symm)

theorem Uniform.notarizes_eq (h : Uniform s ns me rnd r) {n n' : Notarize D Sig}
    (hn : n ∈ r.verifiedVotes.notarizes.iter) (hn' : n' ∈ r.verifiedVotes.notarizes.iter) :
    n.proposal = n'.proposal :=
  h.proposal_eq (.notarize n) (.notarize n') hn hn' rfl rfl fun hs => by
    rw [AttributableMap.eq_of_signer hn hn' hs]

theorem Uniform.finalizes_eq (h : Uniform s ns me rnd r) {f f' : Finalize D Sig}
    (hf : f ∈ r.verifiedVotes.finalizes.iter) (hf' : f' ∈ r.verifiedVotes.finalizes.iter) :
    f.proposal = f'.proposal :=
  h.proposal_eq (.finalize f) (.finalize f') hf hf' rfl rfl fun hs => by
    rw [AttributableMap.eq_of_signer hf hf' hs]

variable {r' : Round D Sig Cert}

/-- A certificate that is assembled from the votes of one map, all valid for its subject, is
supported. -/
theorem supported_of_assemble {T C : Type} [Attributable T] {m : AttributableMap T}
    {make : T → Cert → C} {c : C} (kind : T → Vote D Sig) (wrap : C → Certificate D Cert)
    (hs : s.Sound ns) (hq : ¬ m.len < s.quorum)
    (hc : (m.iter.head?.bind fun y =>
      (s.assemble (m.iter.map fun x => (kind x).attestation)).map (make y)) = some c)
    (hk : ∀ x, (kind x).signer = Attributable.signer x)
    (hv : ∀ x ∈ m.iter, (kind x).verify s ns = true) (hsb : ∀ x ∈ m.iter, ∀ y ∈ m.iter, ∀ cert,
      (kind x).subject = (wrap (make y cert)).subject)
    (hvr : ∀ y cert, (wrap (make y cert)).verify s ns =
      s.verifyCertificate ns (wrap (make y cert)).subject cert) :
    Supported s ns (m.iter.map kind) (wrap c) := by
  obtain ⟨y, hy, hsm⟩ := bind_eq_some_iff.1 hc
  obtain ⟨cert, hcr, rfl⟩ := map_eq_some_iff.1 hsm
  have hsb := fun x hx => hsb x hx y (mem_of_head? hy) cert
  have hlen : s.quorum ≤ m.iter.length := m.length_iter ▸ Nat.le_of_not_lt hq
  have hnd : (m.iter.map fun x => (kind x).signer).Nodup := by
    rw [funext hk]
    exact m.nodup_signers
  refine ⟨by simpa using hlen, by rwa [List.map_map], fun w hw => ?_, (hvr y cert).trans ?_⟩
  · obtain ⟨x, hx, rfl⟩ := mem_map.1 hw
    exact ⟨hsb x hx, hv x hx⟩
  · refine hs.assemble_valid _ _ cert (by rwa [List.map_map]) (fun a hmem => ?_)
      (by simpa using hlen) hcr
    obtain ⟨x, hx, rfl⟩ := mem_map.1 hmem
    rw [← hsb x hx]
    exact hv x hx

theorem Uniform.notarization_supported (hs : s.Sound ns) (h : Uniform s ns me rnd r)
    {c : Notarization D Cert} (hc : r.tryConstructNotarization s = (r', some c)) :
    Supported s ns (r.verifiedVotes.notarizes.iter.map .notarize) (.notarization c) := by
  unfold tryConstructNotarization at hc
  split_ifs at hc with h₁ hq
  · simp at hc
  · simp at hc
  split at hc <;> cases hc
  next hf =>
    exact supported_of_assemble .notarize .notarization hs hq hf (fun _ => rfl)
      (fun x => h.valid (.notarize x))
      (fun _ hx _ hy _ => congrArg Subject.notarize (h.notarizes_eq hx hy)) fun _ _ => rfl

theorem Uniform.finalization_supported (hs : s.Sound ns) (h : Uniform s ns me rnd r)
    {c : Finalization D Cert} (hc : r.tryConstructFinalization s = (r', some c)) :
    Supported s ns (r.verifiedVotes.finalizes.iter.map .finalize) (.finalization c) := by
  unfold tryConstructFinalization at hc
  split_ifs at hc with h₁ hq
  · simp at hc
  · simp at hc
  split at hc <;> cases hc
  next hf =>
    exact supported_of_assemble .finalize .finalization hs hq hf (fun _ => rfl)
      (fun x => h.valid (.finalize x))
      (fun _ hx _ hy _ => congrArg Subject.finalize (h.finalizes_eq hx hy)) fun _ _ => rfl

/-- Nullifications are supported as well; their votes are all of the round. -/
theorem Uniform.nullification_supported (hs : s.Sound ns) (h : Uniform s ns me rnd r)
    {c : Nullification Cert} (hc : r.tryConstructNullification s = (r', some c)) :
    Supported s ns (r.verifiedVotes.nullifies.iter.map .nullify) (.nullification c) := by
  unfold tryConstructNullification at hc
  split_ifs at hc with h₁ hq
  · simp at hc
  · simp at hc
  split at hc <;> cases hc
  next hf =>
    exact supported_of_assemble .nullify .nullification hs hq hf (fun _ => rfl)
      (fun x => h.valid (.nullify x)) (fun x hx y hy _ => congrArg Subject.nullify
        ((h.verifiedRound (.nullify x) hx).trans (h.verifiedRound (.nullify y) hy).symm))
      fun _ _ => rfl

end

section

variable [DecidableEq D] [DecidableEq Sig] [DecidableEq PK]

/-- **Certificates are for one proposal, and verify.**  In a run where what has been verified is for
the proposal of the leader whenever that becomes known, the verified votes of a kind are for one
proposal, and a certificate has the valid votes of a quorum for its proposal behind it. -/
theorem certificates_supported {s : Scheme (Subject D) Sig Cert PK} {ns : Namespace} {me : ℕ}
    {rnd : Rnd} {r : Round D Sig Cert} (hs : s.Sound ns) (hr : Run s ns me rnd (agrees s) r) :
    (∀ n ∈ r.verifiedVotes.notarizes.iter, ∀ n' ∈ r.verifiedVotes.notarizes.iter,
      n.proposal = n'.proposal) ∧
    (∀ f ∈ r.verifiedVotes.finalizes.iter, ∀ f' ∈ r.verifiedVotes.finalizes.iter,
      f.proposal = f'.proposal) ∧ (∀ r' c, r.tryConstructNotarization s = (r', some c) →
      Supported s ns (r.verifiedVotes.notarizes.iter.map .notarize) (.notarization c)) ∧
    (∀ r' c, r.tryConstructNullification s = (r', some c) →
      Supported s ns (r.verifiedVotes.nullifies.iter.map .nullify) (.nullification c)) ∧
    ∀ r' c, r.tryConstructFinalization s = (r', some c) →
      Supported s ns (r.verifiedVotes.finalizes.iter.map .finalize) (.finalization c) := by
  have h := hr.uniform hs
  exact ⟨fun _ hn _ hn' => h.notarizes_eq hn hn', fun _ hf _ hf' => h.finalizes_eq hf hf',
    fun _ _ hc => h.notarization_supported hs hc, fun _ _ hc => h.nullification_supported hs hc,
    fun _ _ hc => h.finalization_supported hs hc⟩

end

/-! ### A run with a certificate that does not verify -/

/-- A scheme without cryptography: a signature is what it signs, and a certificate is the list of
its attestations. -/
def plainScheme (n me : ℕ) [DecidableEq D] :
    Scheme (Subject D) (Subject D) (List (Attestation (Subject D))) ℕ where
  signer := some (me, fun _ subject => subject)
  participants := List.range n
  verifyAttestation := fun _ subject a => decide (a.signature = subject)
  verifyAttestations := fun _ subject l =>
    ⟨l.filter fun a => decide (a.signature = subject),
      (l.filter fun a => !decide (a.signature = subject)).map (·.signer)⟩
  assemble := fun l => if Commonware.quorum n ≤ l.length then some l else none
  verifyCertificate := fun _ subject c =>
    decide (Commonware.quorum n ≤ c.length) && decide (c.map (·.signer)).Nodup &&
      c.all fun a => decide (a.signature = subject)
  verifyCertificates := fun _ l => l.all fun _ => false

theorem plainScheme_sound (n me : ℕ) [DecidableEq D] (ns : Namespace) :
    (plainScheme n me : Scheme (Subject D) _ _ _).Sound ns where
  verified_valid subject l a ha := (List.mem_filter.1 ha).2
  assemble_valid subject l c hnd hv hq hc := by
    have hlen : Commonware.quorum n ≤ l.length := by
      simpa [Scheme.quorum, plainScheme] using hq
    obtain rfl : l = c := by simpa [plainScheme, hlen] using hc
    simp only [plainScheme, Bool.and_eq_true, decide_eq_true_eq, List.all_eq_true]
    exact ⟨⟨hlen, hnd⟩, fun a ha => of_decide_eq_true (hv a ha)⟩

/-- Four participants, seen by the first of them. -/
def sampleScheme : Scheme (Subject ℕ) (Subject ℕ) (List (Attestation (Subject ℕ))) ℕ :=
  plainScheme 4 0

/-- A notarize vote of the first view, for a block with this payload. -/
def sampleVote (signer payload : ℕ) : Vote ℕ (Subject ℕ) :=
  let p : Proposal ℕ := ⟨⟨0, 1⟩, 0, payload⟩
  .notarize ⟨p, ⟨signer, .notarize p⟩⟩

/-- The node votes for one block, then the leader reveals another, and others vote for that. -/
def mixedOps : List (Op ℕ (Subject ℕ) (List (Attestation (Subject ℕ))) ℕ) :=
  [.addConstructed (sampleVote 0 7), .setLeader 1, .addNetwork 1 (sampleVote 1 8),
    .addNetwork 2 (sampleVote 2 8), .verify]

/-- The same votes of the others, with a vote of the node that agrees. -/
def agreedOps : List (Op ℕ (Subject ℕ) (List (Attestation (Subject ℕ))) ℕ) :=
  [.addConstructed (sampleVote 0 8), .setLeader 1, .addNetwork 1 (sampleVote 1 8),
    .addNetwork 2 (sampleVote 2 8), .verify]

/-- **A mixed certificate.**  With a sound scheme and four participants, the node's own vote for one
block is assembled with two votes for another into a certificate that does not verify. -/
theorem mixed_certificate : sampleScheme.Sound [] ∧
    ∃ r r' c, Run sampleScheme [] 0 ⟨0, 1⟩ (fun _ _ => true) r ∧
      r.tryConstructNotarization sampleScheme = (r', some c) ∧
      (Certificate.notarization c).verify sampleScheme [] = false ∧
      ∃ n ∈ r.verifiedVotes.notarizes.iter, ∃ n' ∈ r.verifiedVotes.notarizes.iter,
        n.proposal ≠ n'.proposal := by
  have h : (start? sampleScheme [] 0 ⟨0, 1⟩ (fun _ _ => true) mixedOps).any (fun r =>
      (r.tryConstructNotarization sampleScheme).2.any (fun c =>
        !(Certificate.notarization c).verify sampleScheme []) &&
      decide (∃ n ∈ r.verifiedVotes.notarizes.iter, ∃ n' ∈ r.verifiedVotes.notarizes.iter,
        n.proposal ≠ n'.proposal)) = true := by decide
  obtain ⟨r, hr, h⟩ := (any_eq_true _ _).1 h
  obtain ⟨hc, hm⟩ := Bool.and_eq_true_iff.1 h
  obtain ⟨c, hc, hv⟩ := (any_eq_true _ _).1 hc
  exact ⟨plainScheme_sound 4 0 [], r, _, c, Run.of_start? hr, Prod.ext rfl hc, by simpa using hv,
    of_decide_eq_true hm⟩

/-- The run where all votes agree meets the condition, and its certificate is supported. -/
theorem certificates_supported_sample :
    ∃ r r' c, Run sampleScheme [] 0 ⟨0, 1⟩ (agrees sampleScheme) r ∧
      r.tryConstructNotarization sampleScheme = (r', some c) ∧
      Supported sampleScheme [] (r.verifiedVotes.notarizes.iter.map .notarize)
        (.notarization c) := by
  have h : (start? sampleScheme [] 0 ⟨0, 1⟩ (agrees sampleScheme) agreedOps).any (fun r =>
      (r.tryConstructNotarization sampleScheme).2.isSome) = true := by decide
  obtain ⟨r, hr, hc⟩ := (any_eq_true _ _).1 h
  obtain ⟨c, hc⟩ := isSome_iff_exists.1 hc
  have hrn := Run.of_start? hr
  have hc' : r.tryConstructNotarization sampleScheme = (_, some c) := Prod.ext rfl hc
  exact ⟨r, _, c, hrn, hc', (certificates_supported (plainScheme_sound 4 0 []) hrn).2.2.1 _ c hc'⟩

end Round

end Commonware.Simplex.Batcher
