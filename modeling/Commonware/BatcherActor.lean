/-
**The batcher against the network.**

The batcher of `consensus/src/simplex/actors/batcher/actor.rs` takes the view updates and votes of
its own voter, and the votes and certificates of its peers.  It holds one round for each view it
still works on.  Peers may send anything that decodes; none of it should make the batcher fail.

It does fail.  A peer's vote for view zero passes the window of interesting views as long as not
much has been finalized, and then violates the assertion that the updated view is not zero.  It
also fails at the end of the view numbers, where the next view does not exist.  The theorem of this
module says that apart from these two nothing makes it fail.

Main definitions:

* `Actor`, `Event`, `Actor.handle` — the batcher, its inputs, and what it does with one of them;
* `allowed` — what the voter and the network layer guarantee about inputs;
* `safe` — the two exceptions are excluded;
* `Trace` — the states of the batcher along inputs that meet a condition.

Main results:

* `Actor.Healthy.handle` — one input does not fail, and keeps the invariant;
* `handle_never_fails` — **no input makes the batcher fail**, apart from the exceptions;
* `genesis_vote_fails` — a vote for view zero does.
-/

import Commonware.BatcherRound
import Commonware.OrdMap

set_option autoImplicit false

namespace Commonware.Simplex

open Option

def Vote.sameKind {D Sig : Type} : Vote D Sig → Vote D Sig → Bool
  | .notarize _, .notarize _ => true
  | .nullify _, .nullify _ => true
  | .finalize _, .finalize _ => true
  | _, _ => false

theorem Vote.view_eq {D Sig : Type} (v : Vote D Sig) : v.view = v.round.view := by
  cases v <;> rfl

theorem Vote.view_eq_of_round {D Sig : Type} {v w : Vote D Sig} (h : v.round = w.round) :
    v.view = w.view := by
  rw [v.view_eq, w.view_eq, h]

theorem Vote.round_eq {D Sig : Type} (v : Vote D Sig) {epoch : ℕ} (h : v.round.epoch = epoch) :
    v.round = ⟨epoch, v.view⟩ := by
  rw [v.view_eq, ← h]

end Commonware.Simplex

namespace Commonware.Simplex.Batcher

open Option

variable {D Sig Cert PK : Type}

def u64Max : ℕ := 2 ^ 64 - 1

structure Config (D Sig Cert PK : Type) where
  scheme : Scheme (Subject D) Sig Cert PK
  ns : Namespace
  epoch : ℕ
  activityTimeout : ℕ
  skipTimeout : ℕ

/-- The inputs of the batcher. -/
inductive Event (D Sig Cert PK : Type)
  | update (current leader finalized : ℕ)
  | constructed (vote : Vote D Sig)
  | certificate (sender : PK) (certificate : Certificate D Cert)
  | vote (sender : PK) (vote : Vote D Sig)
  /-- A message that does not decode. -/
  | malformed (sender : PK)

/-- The state of the batcher. -/
structure Actor (D Sig Cert : Type) where
  current : ℕ
  finalized : ℕ
  work : OrdMap ℕ (Round D Sig Cert)

namespace Round

def has (r : Round D Sig Cert) : Certificate D Cert → Bool
  | .notarization _ => r.notarization.isSome
  | .nullification _ => r.nullification.isSome
  | .finalization _ => r.finalization.isSome

def set (r : Round D Sig Cert) : Certificate D Cert → Round D Sig Cert
  | .notarization c => { r with notarization := some c }
  | .nullification c => { r with nullification := some c }
  | .finalization c => { r with finalization := some c }

/-- Verify a batch and construct the certificates that are complete. -/
def advance (s : Scheme (Subject D) Sig Cert PK) (ns : Namespace) (r : Round D Sig Cert) :
    Round D Sig Cert × List (Output D Sig Cert PK) :=
  let r₁ := r.verify s ns
  let r₂ := r₁.1.tryConstructNotarization s
  let r₃ := r₂.1.tryConstructNullification s
  let r₄ := r₃.1.tryConstructFinalization s
  (r₄.1, r₁.2 ++ r₂.2.toList.map (fun c => .recovered (.notarization c)) ++
    r₃.2.toList.map (fun c => .recovered (.nullification c)) ++
    r₄.2.toList.map fun c => .recovered (.finalization c))

end Round

namespace Actor

/-! ### The event loop -/

def init : Actor D Sig Cert := ⟨0, 0, .empty⟩

/-- Whether a view is interesting.  The view after the current one may not exist. -/
def interesting? (cfg : Config D Sig Cert PK) (a : Actor D Sig Cert) (pending : ℕ)
    (allowFuture : Bool) : Except Fault Bool :=
  if pending < minActive cfg.activityTimeout a.finalized then .ok false
  else if allowFuture then .ok true
  else if u64Max ≤ a.current then .error .viewOverflow
  else .ok (decide (pending ≤ a.current + 1))

/-- The round of a view, a new one if there is none. -/
def entry (cfg : Config D Sig Cert PK) (a : Actor D Sig Cert) (view : ℕ) :
    Except Fault (Round D Sig Cert) :=
  match a.work.get? view with
  | some r => .ok r
  | none => Round.new cfg.scheme

def put (a : Actor D Sig Cert) (view : ℕ) (r : Round D Sig Cert) : Actor D Sig Cert :=
  { a with work := a.work.insert view r }

/-- Whether the leader has voted in one of the last rounds, or there are too few to tell. -/
def isActive (cfg : Config D Sig Cert PK) (a : Actor D Sig Cert) (leader : ℕ) : Bool :=
  decide (a.work.size < cfg.skipTimeout) ||
    (a.work.values.reverse.take cfg.skipTimeout).any fun r => r.isActive leader

/-- The number of rounds, from the oldest on, that are not interesting any more. -/
def stale (cfg : Config D Sig Cert PK) (a : Actor D Sig Cert) :
    List (ℕ × Round D Sig Cert) → Except Fault ℕ
  | [] => .ok 0
  | (view, _) :: rest => do
      if ← a.interesting? cfg view false then .ok 0
      else
        let k ← stale cfg a rest
        .ok (k + 1)

/-- Drop the rounds that are not interesting any more. -/
def dropStale (cfg : Config D Sig Cert PK) (a : Actor D Sig Cert) :
    Except Fault (Actor D Sig Cert) := do
  let k ← a.stale cfg a.work.entries
  .ok { a with work := a.work.drop k }

/-- Tell the voter the leader's proposal in the current view. -/
def forward (cfg : Config D Sig Cert PK) (a : Actor D Sig Cert) :
    Except Fault (Actor D Sig Cert × List (Output D Sig Cert PK)) :=
  match a.work.get? a.current, cfg.scheme.me with
  | some r, some me => do
      let x ← r.forwardProposal me
      .ok (a.put a.current x.1, x.2.toList.map .proposal)
  | _, _ => .ok (a, [])

/-- What follows a change in a view. -/
def process (cfg : Config D Sig Cert PK) (a : Actor D Sig Cert) (updatedView : ℕ) :
    Except Fault (Actor D Sig Cert × List (Output D Sig Cert PK)) :=
  if updatedView = 0 then .error .updatedViewZero
  else do
    let x ← a.forward cfg
    if updatedView ≤ x.1.finalized then .ok x
    else
      match x.1.work.get? updatedView with
      | none => .ok x
      | some r =>
        let y := r.advance cfg.scheme cfg.ns
        let a ← (x.1.put updatedView y.1).dropStale cfg
        .ok (a, x.2 ++ y.2)

section

variable [DecidableEq D] [DecidableEq Sig] [DecidableEq PK]

/-- Take in one input.  The view is given when it has changed. -/
def receive (cfg : Config D Sig Cert PK) (a : Actor D Sig Cert) :
    Event D Sig Cert PK →
      Except Fault (Actor D Sig Cert × List (Output D Sig Cert PK) × Option ℕ)
  | .update current leader finalized => do
      let a : Actor D Sig Cert := { a with current := current, finalized := finalized }
      let r ← a.entry cfg current
      let r ← r.setLeader leader
      let a := a.put current r
      .ok (a, [.active (a.isActive cfg leader)], some current)
  | .constructed msg => do
      if ← a.interesting? cfg msg.view false then
        let r ← a.entry cfg msg.view
        let x ← r.addConstructed msg
        .ok (a.put msg.view x.1, x.2, some msg.view)
      else .ok (a, [], none)
  | .certificate sender c => do
      if c.round.epoch ≠ cfg.epoch then .ok (a, [.block sender], none)
      else if ← a.interesting? cfg c.view true then
        if (a.work.get? c.view).any fun r => r.has c then .ok (a, [], none)
        else if c.verify cfg.scheme cfg.ns then
          let r ← a.entry cfg c.view
          .ok (a.put c.view (r.set c), [.recovered c], none)
        else .ok (a, [.block sender], none)
      else .ok (a, [], none)
  | .vote sender msg => do
      if msg.round.epoch ≠ cfg.epoch then .ok (a, [.block sender], none)
      else if ← a.interesting? cfg msg.view false then
        let r ← a.entry cfg msg.view
        let x ← r.addNetwork cfg.scheme sender msg
        .ok (a.put msg.view x.1, x.2.1, some msg.view)
      else .ok (a, [], none)
  | .malformed sender => .ok (a, [.block sender], none)

/-- One turn of the event loop. -/
def handle (cfg : Config D Sig Cert PK) (a : Actor D Sig Cert) (e : Event D Sig Cert PK) :
    Except Fault (Actor D Sig Cert × List (Output D Sig Cert PK)) := do
  let x ← a.receive cfg e
  match x.2.2 with
  | none => .ok (x.1, x.2.1)
  | some view =>
    let y ← x.1.process cfg view
    .ok (y.1, x.2.1 ++ y.2)

end

end Actor

/-! ### Inputs and runs -/

/-- There are participants, and the node is one of them if it has a share. -/
structure Config.Valid (cfg : Config D Sig Cert PK) : Prop where
  participants : cfg.scheme.participants ≠ []
  me : ∀ i, cfg.scheme.me = some i → i < cfg.scheme.participants.length

section

variable [DecidableEq D] [DecidableEq Sig] [DecidableEq PK]

/-- What is known of the inputs: views are entered in increasing order, the voter casts one vote of
each kind in a view, after the genesis view and under the node's own index, and no message comes
from the node itself.  `past` are the inputs so far. -/
def allowed (cfg : Config D Sig Cert PK) (past : List (Event D Sig Cert PK))
    (a : Actor D Sig Cert) : Event D Sig Cert PK → Bool
  | .update current _ _ => decide (a.current < current)
  | .constructed msg =>
    decide (cfg.scheme.me = some msg.signer) && decide (msg.round.epoch = cfg.epoch) &&
      decide (0 < msg.view) && past.all fun e =>
        match e with
        | .constructed w => !(w.sameKind msg && decide (w.view = msg.view))
        | _ => true
  | .vote sender _ => cfg.scheme.me.all fun i =>
    decide (cfg.scheme.participants.idxOf? sender ≠ some i)
  | _ => true

/-- No vote for view zero while that view is interesting, and a view after the current one. -/
def safe (cfg : Config D Sig Cert PK) (a : Actor D Sig Cert) : Event D Sig Cert PK → Bool
  | .update current _ _ => decide (current < u64Max)
  | .vote _ msg => !(decide (msg.round.epoch = cfg.epoch) && decide (msg.view = 0) &&
      decide (a.finalized ≤ cfg.activityTimeout))
  | _ => true

/-- The states of the batcher after inputs that meet a condition, latest first. -/
inductive Trace (cfg : Config D Sig Cert PK)
    (C : Actor D Sig Cert → Event D Sig Cert PK → Bool) :
    List (Event D Sig Cert PK) → Actor D Sig Cert → Prop
  | init : Trace cfg C [] Actor.init
  | step {past : List (Event D Sig Cert PK)} {a a' : Actor D Sig Cert} {e : Event D Sig Cert PK}
      {outs : List (Output D Sig Cert PK)} (h : Trace cfg C past a)
      (ha : allowed cfg past a e = true) (hc : C a e = true)
      (he : a.handle cfg e = .ok (a', outs)) : Trace cfg C (e :: past) a'

end

/-! ### Rounds of a healthy batcher -/

/-- What holds of the round of a view after the inputs `past`: the votes that came in are of that
round, and those in the node's own name are the ones that its voter constructed. -/
structure Round.Healthy (cfg : Config D Sig Cert PK) (past : List (Event D Sig Cert PK))
    (view : ℕ) (r : Round D Sig Cert) : Prop where
  consistent : r.verifier.Consistent
  sized : r.pendingVotes.Sized cfg.scheme.participants.length
  round : ∀ w, r.pendingVotes.Holds w → w.round = ⟨cfg.epoch, view⟩
  own : ∀ w, r.pendingVotes.Holds w → cfg.scheme.me = some w.signer → .constructed w ∈ past

namespace Round

variable {cfg : Config D Sig Cert PK} {past : List (Event D Sig Cert PK)} {view : ℕ}
variable {r r' : Round D Sig Cert}

theorem Healthy.mono (h : Healthy cfg past view r) (e : Event D Sig Cert PK) :
    Healthy cfg (e :: past) view r :=
  { h with own := fun w hw hm => List.mem_cons_of_mem _ (h.own w hw hm) }

/-- The votes that came in and the leader are the same. -/
structure Keeps (r r' : Round D Sig Cert) : Prop where
  pendingVotes : r'.pendingVotes = r.pendingVotes
  leader : r'.verifier.leader = r.verifier.leader
  consistent : r.verifier.Consistent → r'.verifier.Consistent

theorem SameVotes.keeps (h : SameVotes r r') : Keeps r r' :=
  ⟨h.pendingVotes, by rw [h.verifier], fun hc => h.verifier ▸ hc⟩

theorem Keeps.trans {r'' : Round D Sig Cert} (h : Keeps r r') (h' : Keeps r' r'') : Keeps r r'' :=
  ⟨h'.pendingVotes.trans h.pendingVotes, h'.leader.trans h.leader,
    fun hc => h'.consistent (h.consistent hc)⟩

theorem Healthy.of_keeps (h : Healthy cfg past view r) (hk : Keeps r r') :
    Healthy cfg past view r' :=
  ⟨hk.consistent h.consistent, hk.pendingVotes ▸ h.sized, hk.pendingVotes ▸ h.round,
    hk.pendingVotes ▸ h.own⟩

theorem keeps_verify (s : Scheme (Subject D) Sig Cert PK) (ns : Namespace)
    (r : Round D Sig Cert) : Keeps r (r.verify s ns).1 := by
  unfold Round.verify
  cases hb : r.batch s ns with
  | none => exact (SameVotes.refl r).keeps
  | some x =>
    have hf := batch_verifier hb
    exact ⟨by simp, by simpa using hf.leader, fun hc => by simpa using hc.of_fewer hf⟩

theorem keeps_advance (s : Scheme (Subject D) Sig Cert PK) (ns : Namespace)
    (r : Round D Sig Cert) : Keeps r (r.advance s ns).1 :=
  (((keeps_verify s ns r).trans (sameVotes_tryConstruct _).1.keeps).trans
    (sameVotes_tryConstruct _).2.1.keeps).trans
    (sameVotes_tryConstruct _).2.2.keeps

theorem sameVotes_set (r : Round D Sig Cert) (c : Certificate D Cert) : SameVotes r (r.set c) := by
  cases c <;> exact ⟨rfl, rfl, rfl⟩

theorem new_healthy (hc : cfg.Valid) (past : List (Event D Sig Cert PK)) (view : ℕ) :
    ∃ r : Round D Sig Cert, Round.new cfg.scheme = .ok r ∧ Healthy cfg past view r ∧ r.verifier.leader = none := by
  have hne : cfg.scheme.participants.isEmpty = false := by
    simpa using hc.participants
  refine ⟨_, by rw [Round.new, hne]; rfl, ⟨Verifier.consistent_new _, VoteTracker.sized_new _,
    fun w hw => absurd hw (VoteTracker.not_holds_new _ w),
    fun w hw => absurd hw (VoteTracker.not_holds_new _ w)⟩, rfl⟩

theorem Healthy.forwardProposal (h : Healthy cfg past view r) (me : ℕ) :
    ∃ x, r.forwardProposal me = .ok x ∧ Keeps r x.1 := by
  obtain ⟨p, hp⟩ := h.consistent.getLeaderProposal
  suffices hx : ∃ x, r.forwardProposal me = .ok x by
    obtain ⟨x, hx⟩ := hx
    exact ⟨x, hx, (sameVotes_forwardProposal hx).keeps⟩
  unfold Round.forwardProposal
  split_ifs
  · exact ⟨_, rfl⟩
  · rw [hp]
    cases p <;> exact ⟨_, rfl⟩

variable {msg : Vote D Sig}

/-- A vote that is in the way of another one is in the tracker, and of the same signer and kind. -/
theorem exists_of_not_vacant {t : VoteTracker D Sig} (h : t.vacant msg = false) :
    ∃ w, t.Holds w ∧ w.signer = msg.signer ∧ w.sameKind msg = true := by
  cases msg with
  | notarize n =>
    obtain ⟨w, hw⟩ := isSome_iff_exists.1 (isNone_eq_false_iff.1 h)
    have hs := AttributableMap.signer_of_get hw
    exact ⟨.notarize w, AttributableMap.mem_iter.2 (hs ▸ hw), hs, rfl⟩
  | nullify n =>
    obtain ⟨w, hw⟩ := isSome_iff_exists.1 (isNone_eq_false_iff.1 h)
    have hs := AttributableMap.signer_of_get hw
    exact ⟨.nullify w, AttributableMap.mem_iter.2 (hs ▸ hw), hs, rfl⟩
  | finalize f =>
    obtain ⟨w, hw⟩ := isSome_iff_exists.1 (isNone_eq_false_iff.1 h)
    have hs := AttributableMap.signer_of_get hw
    exact ⟨.finalize w, AttributableMap.mem_iter.2 (hs ▸ hw), hs, rfl⟩

/-- What a map holds for a signer can be read off the tracker. -/
theorem Healthy.of_get {T : Type} [Attributable T] (h : Healthy cfg past view r)
    (kind : T → Vote D Sig) {m : AttributableMap T} {i : ℕ} {x : T}
    (hk : ∀ x, (kind x).signer = Attributable.signer x)
    (hm : x ∈ m.iter → r.pendingVotes.Holds (kind x)) (hx : m.get i = some x) :
    (kind x).round = ⟨cfg.epoch, view⟩ ∧ (kind x).signer = i := by
  have hs := AttributableMap.signer_of_get hx
  exact ⟨h.round _ (hm (AttributableMap.mem_iter.2 (hs ▸ hx))), (hk x).trans hs⟩

section

variable [DecidableEq D]

theorem Healthy.setLeader (h : Healthy cfg past view r) (hl : r.verifier.leader = none)
    (leader : ℕ) : ∃ r', r.setLeader leader = .ok r' ∧ Healthy cfg past view r' := by
  obtain ⟨v, hv⟩ := Verifier.setLeader_ok hl leader
  refine ⟨{ r with verifier := v }, by rw [Round.setLeader, hv]; rfl, ?_⟩
  exact { h with consistent := h.consistent.setLeader hv }

/-- A round that takes in a vote of its view, which is not in the node's own name unless the voter
constructed it. -/
theorem Healthy.insert (verified : Bool) (h : Healthy cfg past view r)
    (hr : msg.round = ⟨cfg.epoch, view⟩)
    (ho : cfg.scheme.me = some msg.signer → .constructed msg ∈ past) : Healthy cfg past view
      { r with
        pendingVotes := (r.pendingVotes.insert msg).1
        verifier := (r.verifier.add msg verified).1 } := by
  refine ⟨h.consistent.add msg verified, h.sized.insert msg, fun w hw => ?_, fun w hw hm => ?_⟩ <;>
    rcases VoteTracker.holds_insert hw with hw | rfl
  · exact h.round w hw
  · exact hr
  · exact h.own w hw hm
  · exact ho hm

/-- The first vote of a kind that the voter constructs for a view is taken in. -/
theorem Healthy.addConstructed (hc : cfg.Valid)
    (h : Healthy cfg past view r) (hr : msg.round = ⟨cfg.epoch, view⟩)
    (hm : cfg.scheme.me = some msg.signer)
    (hf : ∀ w, .constructed w ∈ past → w.sameKind msg = true → w.round ≠ msg.round) :
    ∃ x : Round D Sig Cert × List (Output D Sig Cert PK), r.addConstructed msg = .ok x ∧
      Healthy cfg (.constructed msg :: past) view x.1 ∧
      x.1.verifier.leader = r.verifier.leader := by
  have hvc : r.pendingVotes.vacant msg = true := by
    by_contra hv
    obtain ⟨w, hw, hs, hk⟩ := exists_of_not_vacant (Bool.eq_false_iff.2 hv)
    exact hf w (h.own w hw (hs ▸ hm)) hk ((h.round w hw).trans hr.symm)
  have hin := h.sized.insert_snd (hc.me _ hm) hvc
  have hnx := (h.mono (.constructed msg)).insert true hr
    fun _ => List.mem_cons_self
  unfold Round.addConstructed
  rw [if_pos hin]
  refine ⟨_, rfl, ?_⟩
  dsimp only
  split_ifs
  · exact ⟨{ hnx with }, Verifier.leader_add _ _ _⟩
  · exact ⟨hnx, Verifier.leader_add _ _ _⟩

variable [DecidableEq Sig] [DecidableEq PK]

theorem Healthy.addNetwork_ok (h : Healthy cfg past view r)
    (hr : msg.round = ⟨cfg.epoch, view⟩) (sender : PK) :
    ∃ x, r.addNetwork cfg.scheme sender msg = .ok x := by
  unfold Round.addNetwork
  split
  · exact ⟨_, rfl⟩
  split
  · exact ⟨_, rfl⟩
  next index _ hid =>
    obtain rfl : index = msg.signer := not_not.1 hid
    split
    next n =>
      split
      next previous hp =>
        obtain ⟨hr', hs'⟩ := h.of_get Vote.notarize (fun _ => rfl) id hp
        obtain ⟨e, he⟩ := Conflict.new_ok (hr'.trans hr.symm) hs'
        rw [he]
        split <;> exact ⟨_, rfl⟩
      · exact ⟨_, rfl⟩
    next n =>
      split
      next previous hp =>
        obtain ⟨hr', hs'⟩ := h.of_get Vote.finalize (fun _ => rfl) id hp
        obtain ⟨e, he⟩ := Conflict.new_ok (hr.trans hr'.symm) hs'.symm
        rw [he]
        exact ⟨_, rfl⟩
      · split
        · split <;> exact ⟨_, rfl⟩
        · exact ⟨_, rfl⟩
    next f =>
      split
      next previous hp =>
        obtain ⟨hr', hs'⟩ := h.of_get Vote.nullify (fun _ => rfl) id hp
        obtain ⟨e, he⟩ := Conflict.new_ok (hr'.trans hr.symm) hs'
        rw [he]
        exact ⟨_, rfl⟩
      · split
        next previous hp =>
          obtain ⟨hr', hs'⟩ := h.of_get Vote.finalize (fun _ => rfl) id hp
          obtain ⟨e, he⟩ := Conflict.new_ok (hr'.trans hr.symm) hs'
          rw [he]
          split <;> exact ⟨_, rfl⟩
        · exact ⟨_, rfl⟩

theorem Healthy.addNetwork {sender : PK} (h : Healthy cfg past view r)
    (hr : msg.round = ⟨cfg.epoch, view⟩)
    (hs : ∀ i, cfg.scheme.me = some i → cfg.scheme.participants.idxOf? sender ≠ some i) :
    ∃ x, r.addNetwork cfg.scheme sender msg = .ok x ∧ Healthy cfg past view x.1 ∧
      x.1.verifier.leader = r.verifier.leader := by
  obtain ⟨x, hx⟩ := h.addNetwork_ok hr sender
  refine ⟨x, hx, ?_⟩
  obtain he | ⟨he, hid, -⟩ := addNetwork_cases hx <;> rw [he]
  · exact ⟨h, rfl⟩
  · exact ⟨h.insert false hr fun hm => absurd hid (hs _ hm), Verifier.leader_add _ _ _⟩

end

end Round

/-! ### A healthy batcher -/

namespace Actor

/-- What holds of the batcher after the inputs `past`. -/
structure Healthy (cfg : Config D Sig Cert PK) (past : List (Event D Sig Cert PK))
    (a : Actor D Sig Cert) : Prop where
  bounded : a.current < u64Max
  rounds : ∀ view r, a.work.get? view = some r → r.Healthy cfg past view
  /-- The leader of a later view is not known. -/
  fresh : ∀ view r, a.work.get? view = some r → a.current < view → r.verifier.leader = none

variable {cfg : Config D Sig Cert PK} {past : List (Event D Sig Cert PK)} {a : Actor D Sig Cert}

theorem healthy_init : (init : Actor D Sig Cert).Healthy cfg past :=
  ⟨show 0 < u64Max by decide, fun _ _ h => by simp [init] at h,
    fun _ _ h => by simp [init] at h⟩

theorem Healthy.mono (h : a.Healthy cfg past) (e : Event D Sig Cert PK) :
    a.Healthy cfg (e :: past) :=
  ⟨h.bounded, fun view r hr => (h.rounds view r hr).mono e, h.fresh⟩

variable {view : ℕ}

theorem Healthy.put (h : a.Healthy cfg past) {r : Round D Sig Cert}
    (hr : r.Healthy cfg past view) (hl : a.current < view → r.verifier.leader = none) :
    (a.put view r).Healthy cfg past := by
  refine ⟨h.bounded, fun v r' hv => ?_, fun v r' hv hlt => ?_⟩ <;>
    rw [Actor.put, OrdMap.get?_insert] at hv <;> split_ifs at hv with he
  · obtain rfl := some_inj.1 hv
    exact he ▸ hr
  · exact h.rounds v r' hv
  · obtain rfl := some_inj.1 hv
    exact hl (he ▸ hlt)
  · exact h.fresh v r' hv hlt

/-- The window can be computed as long as there is a next view. -/
theorem interesting?_ok (h : a.current < u64Max) (pending : ℕ) (allowFuture : Bool) :
    a.interesting? cfg pending allowFuture =
      .ok (interesting cfg.activityTimeout a.finalized a.current pending allowFuture) := by
  unfold interesting? interesting
  cases allowFuture <;> split_ifs <;> simp_all
  all_goals omega

/-- The round of a view can be had, and nobody leads it yet if the view is a later one. -/
theorem Healthy.entry (hc : cfg.Valid) (h : a.Healthy cfg past) (view : ℕ) :
    ∃ r, a.entry cfg view = .ok r ∧ r.Healthy cfg past view ∧
      (a.current < view → r.verifier.leader = none) := by
  unfold Actor.entry
  cases hw : a.work.get? view with
  | some r => exact ⟨r, rfl, h.rounds view r hw, h.fresh view r hw⟩
  | none =>
    obtain ⟨r, hr, hok, hl⟩ := Round.new_healthy hc past view
    exact ⟨r, hr, hok, fun _ => hl⟩

theorem stale_ok (cfg : Config D Sig Cert PK) (h : a.current < u64Max) (l : List (ℕ × Round D Sig Cert)) :
    ∃ k, a.stale cfg l = .ok k := by
  induction l with
  | nil => exact ⟨0, rfl⟩
  | cons x l ih =>
    obtain ⟨k, hk⟩ := ih
    simp only [stale, interesting?_ok h, hk]
    cases interesting cfg.activityTimeout a.finalized a.current x.1 false
    · exact ⟨k + 1, rfl⟩
    · exact ⟨0, rfl⟩

theorem Healthy.dropStale (h : a.Healthy cfg past) :
    ∃ a', a.dropStale cfg = .ok a' ∧ a'.Healthy cfg past := by
  obtain ⟨k, hk⟩ := stale_ok cfg h.bounded a.work.entries
  refine ⟨{ a with work := a.work.drop k }, by rw [Actor.dropStale, hk]; rfl, h.bounded, ?_, ?_⟩
  · exact fun view r hr => h.rounds view r (OrdMap.get?_of_get?_drop _ hr)
  · exact fun view r hr => h.fresh view r (OrdMap.get?_of_get?_drop _ hr)

theorem Healthy.forward (h : a.Healthy cfg past) :
    ∃ x, a.forward cfg = .ok x ∧ x.1.Healthy cfg past := by
  unfold Actor.forward
  split
  next r me hr _ =>
    have hok := h.rounds _ r hr
    obtain ⟨x, hx, hk⟩ := hok.forwardProposal me
    refine ⟨_, by rw [hx]; rfl, h.put (hok.of_keeps hk) fun hlt => ?_⟩
    exact absurd hlt (Nat.lt_irrefl _)
  · exact ⟨_, rfl, h⟩

/-- What follows a change in a view does not fail, unless the view is zero. -/
theorem Healthy.process (h : a.Healthy cfg past) (hv : view ≠ 0) :
    ∃ x, a.process cfg view = .ok x ∧ x.1.Healthy cfg past := by
  obtain ⟨x, hx, hok⟩ := h.forward
  unfold Actor.process
  rw [if_neg hv, hx]
  simp only [bind, Except.bind]
  split
  · exact ⟨x, rfl, hok⟩
  · split
    · exact ⟨x, rfl, hok⟩
    next r hr =>
      have hk := Round.keeps_advance cfg.scheme cfg.ns r
      have hp := hok.put ((hok.rounds view r hr).of_keeps hk)
        fun hlt => hk.leader.trans (hok.fresh view r hr hlt)
      obtain ⟨a', ha', hok'⟩ := hp.dropStale
      rw [ha']
      exact ⟨_, rfl, hok'⟩

section

variable [DecidableEq D] [DecidableEq Sig] [DecidableEq PK]

/-- The view that an input has changed is not zero. -/
abbrev Received (cfg : Config D Sig Cert PK) (past : List (Event D Sig Cert PK))
    (x : Actor D Sig Cert × List (Output D Sig Cert PK) × Option ℕ) : Prop :=
  x.1.Healthy cfg past ∧ ∀ view, x.2.2 = some view → view ≠ 0

variable (h : a.Healthy cfg past)
include h

theorem Healthy.update (hc : cfg.Valid) {current leader finalized : ℕ}
    (hlt : a.current < current) (hm : current < u64Max) :
    ∃ x, a.receive cfg (.update current leader finalized) = .ok x ∧ Received cfg past x := by
  let a₁ : Actor D Sig Cert := { a with current := current, finalized := finalized }
  -- The views after the new one are later than the old one too.
  have h₁ : Healthy cfg past a₁ :=
    ⟨hm, h.rounds, fun view r hr hv => h.fresh view r hr (hlt.trans hv)⟩
  obtain ⟨r, hr, hok, hl⟩ := h.entry hc current
  obtain ⟨r', hr', hok'⟩ := hok.setLeader (hl hlt) leader
  have hx : a.receive cfg (.update current leader finalized) = .ok (a₁.put current r',
      [.active ((a₁.put current r').isActive cfg leader)], some current) := by
    simp only [receive, bind, Except.bind]
    rw [show Actor.entry cfg { a with current := current, finalized := finalized } current =
      .ok r from hr]
    simp only [hr']
    rfl
  refine ⟨_, hx, h₁.put hok' fun hlt => absurd hlt (Nat.lt_irrefl _), ?_⟩
  rintro view ⟨⟩
  omega

variable {msg : Vote D Sig}

theorem Healthy.constructed (hc : cfg.Valid)
    (hm : cfg.scheme.me = some msg.signer) (he : msg.round.epoch = cfg.epoch) (hv : 0 < msg.view)
    (hf : ∀ w, .constructed w ∈ past → w.sameKind msg = true → w.view ≠ msg.view) :
    ∃ x, a.receive cfg (.constructed msg) = .ok x ∧ Received cfg (.constructed msg :: past) x := by
  simp only [receive, interesting?_ok h.bounded, bind, Except.bind]
  split
  · obtain ⟨r, hr, hok, hl⟩ := h.entry hc msg.view
    obtain ⟨x, hx, hok', hl'⟩ := hok.addConstructed hc (msg.round_eq he) hm
      fun w hw hk heq => hf w hw hk (Vote.view_eq_of_round heq)
    rw [hr]
    simp only [hx]
    refine ⟨_, rfl, (h.mono _).put hok' fun hlt => hl'.trans (hl hlt), ?_⟩
    rintro view ⟨⟩
    exact Nat.ne_of_gt hv
  · exact ⟨_, rfl, h.mono _, fun view hvw => by cases hvw⟩

theorem Healthy.certificate (hc : cfg.Valid) (sender : PK) (c : Certificate D Cert) :
    ∃ x, a.receive cfg (.certificate sender c) = .ok x ∧ Received cfg past x := by
  obtain ⟨r, hr, hok, hl⟩ := h.entry hc c.view
  have hs := Round.sameVotes_set r c
  simp only [receive, interesting?_ok h.bounded, bind, Except.bind, hr]
  split_ifs
  · exact ⟨_, rfl, h, fun view hvw => by cases hvw⟩
  · exact ⟨_, rfl, h, fun view hvw => by cases hvw⟩
  · refine ⟨_, rfl, h.put (hok.of_keeps hs.keeps) fun hlt => ?_, fun view hvw => by cases hvw⟩
    exact hs.keeps.leader.trans (hl hlt)
  · exact ⟨_, rfl, h, fun view hvw => by cases hvw⟩
  · exact ⟨_, rfl, h, fun view hvw => by cases hvw⟩

theorem Healthy.vote (hc : cfg.Valid) {sender : PK}
    (hs : ∀ i, cfg.scheme.me = some i → cfg.scheme.participants.idxOf? sender ≠ some i)
    (hv : msg.round.epoch = cfg.epoch → msg.view = 0 → cfg.activityTimeout < a.finalized) :
    ∃ x, a.receive cfg (.vote sender msg) = .ok x ∧ Received cfg past x := by
  simp only [receive, interesting?_ok h.bounded, bind, Except.bind]
  split
  · exact ⟨_, rfl, h, fun view hvw => by cases hvw⟩
  next he =>
    have he : msg.round.epoch = cfg.epoch := not_not.1 he
    split
    next hin =>
      obtain ⟨r, hr, hok, hl⟩ := h.entry hc msg.view
      obtain ⟨x, hx, hok', hl'⟩ := hok.addNetwork (msg.round_eq he) hs
      rw [hr]
      simp only [hx]
      refine ⟨_, rfl, h.put hok' fun hlt => hl'.trans (hl hlt), ?_⟩
      rintro view ⟨⟩ h0
      -- A vote for view zero is not interesting once enough has been finalized.
      have hm := minActive_le_of_interesting hin
      have := hv he h0
      unfold minActive at hm
      omega
    · exact ⟨_, rfl, h, fun view hvw => by cases hvw⟩

variable {e : Event D Sig Cert PK}

theorem Healthy.receive (hcf : cfg.Valid)
    (ha : allowed cfg past a e = true) (hc : safe cfg a e = true) :
    ∃ x, a.receive cfg e = .ok x ∧ Received cfg (e :: past) x := by
  have weaken : ∀ {e : Event D Sig Cert PK},
      (∃ x, a.receive cfg e = .ok x ∧ Received cfg past x) →
      ∃ x, a.receive cfg e = .ok x ∧ Received cfg (e :: past) x := by
    rintro e ⟨x, hx, hok, hv⟩
    exact ⟨x, hx, hok.mono e, hv⟩
  cases e with
  | update current leader finalized =>
    exact weaken (h.update hcf (of_decide_eq_true ha) (of_decide_eq_true hc))
  | constructed msg =>
    simp only [allowed, Bool.and_eq_true, decide_eq_true_eq, List.all_eq_true] at ha
    obtain ⟨⟨⟨hm, he⟩, hv⟩, hps⟩ := ha
    refine h.constructed hcf hm he hv fun w hw hk heq => ?_
    have := hps _ hw
    simp [hk, heq] at this
  | certificate sender c => exact weaken (h.certificate hcf sender c)
  | vote sender msg =>
    refine weaken (h.vote hcf (fun i hi => ?_) fun he h0 => ?_)
    · simpa [allowed, hi] using ha
    · simpa [safe, he, h0] using hc
  | malformed sender =>
    exact ⟨_, rfl, h.mono _, fun view hvw => by cases hvw⟩

/-- One turn of the event loop does not fail, and leaves the batcher healthy. -/
theorem Healthy.handle (hcf : cfg.Valid)
    (ha : allowed cfg past a e = true) (hc : safe cfg a e = true) :
    ∃ x, a.handle cfg e = .ok x ∧ x.1.Healthy cfg (e :: past) := by
  obtain ⟨x, hx, hok, hv⟩ := h.receive hcf ha hc
  simp only [Actor.handle, hx, bind, Except.bind]
  cases hvw : x.2.2 with
  | none => exact ⟨_, rfl, hok⟩
  | some view =>
    obtain ⟨y, hy, hok'⟩ := hok.process (hv view hvw)
    simp only [hy]
    exact ⟨_, rfl, hok'⟩

end

end Actor

section

variable [DecidableEq D] [DecidableEq Sig] [DecidableEq PK]
variable {cfg : Config D Sig Cert PK} {past : List (Event D Sig Cert PK)} {a : Actor D Sig Cert}

theorem Trace.healthy (hcf : cfg.Valid) (h : Trace cfg (safe cfg) past a) : a.Healthy cfg past := by
  induction h with
  | init => exact Actor.healthy_init
  | @step past a a' e outs _ ha hc he ih =>
    obtain ⟨x, hx, hok⟩ := ih.handle hcf ha hc
    rw [he] at hx
    cases hx
    exact hok

/-- **No input makes the batcher fail.**  After any inputs, handling one more ends without a failing
assertion or an overflow, if there never is a vote for view zero while that is interesting, nor a
current view that is the last one. -/
theorem handle_never_fails (hcfg : cfg.Valid) (h : Trace cfg (safe cfg) past a)
    {e : Event D Sig Cert PK} (ha : allowed cfg past a e = true) (hc : safe cfg a e = true) :
    ∃ a' outs, a.handle cfg e = .ok (a', outs) := by
  obtain ⟨x, hx, -⟩ := (h.healthy hcfg).handle hcfg ha hc
  exact ⟨x.1, x.2, hx⟩

end

/-! ### The exceptions -/

def sampleConfig : Config ℕ (Subject ℕ) (List (Attestation (Subject ℕ))) ℕ where
  scheme := Round.sampleScheme
  ns := []
  epoch := 0
  activityTimeout := 10
  skipTimeout := 5

/-- A peer's vote to nullify the genesis view. -/
def genesisVote : Event ℕ (Subject ℕ) (List (Attestation (Subject ℕ))) ℕ :=
  .vote 1 (.nullify ⟨⟨0, 0⟩, ⟨1, .nullify ⟨0, 0⟩⟩⟩)

theorem sampleConfig_valid : sampleConfig.Valid :=
  ⟨by decide, fun i hi => by
    obtain rfl : 0 = i := by simpa [sampleConfig, Round.sampleScheme, Round.plainScheme,
      Scheme.me] using hi
    decide⟩

/-- **A vote for view zero makes the batcher fail**, and the last view does too. -/
theorem genesis_vote_fails : sampleConfig.Valid ∧
    Trace sampleConfig (fun _ _ => true) [] Actor.init ∧
    allowed sampleConfig [] Actor.init genesisVote = true ∧
    Actor.init.handle sampleConfig genesisVote = .error .updatedViewZero ∧
    allowed sampleConfig [] Actor.init (.update u64Max 1 0) = true ∧
    Actor.init.handle sampleConfig (.update u64Max 1 0) = .error .viewOverflow :=
  ⟨sampleConfig_valid, .init, by decide, by rfl, by decide, by rfl⟩

/-- The first view is entered, and then a peer votes in it. -/
theorem handle_never_fails_sample : ∃ a, Trace sampleConfig (safe sampleConfig) [.update 1 1 0] a ∧
      ∃ a' outs, a.handle sampleConfig (.vote 1 (Round.sampleVote 1 8)) = .ok (a', outs) := by
  have hf : ∃ a' outs, Actor.init.handle sampleConfig (.update 1 1 0) = .ok (a', outs) :=
    handle_never_fails sampleConfig_valid .init (by decide) (by decide)
  obtain ⟨a, outs, ha⟩ := hf
  have ht : Trace sampleConfig (safe sampleConfig) [.update 1 1 0] a :=
    .step .init (by decide) (by decide) ha
  exact ⟨a, ht, handle_never_fails sampleConfig_valid ht (by rfl) (by rfl)⟩

end Commonware.Simplex.Batcher
