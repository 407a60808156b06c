/-
**The state of the voter.**

`consensus/src/simplex/actors/voter/state.rs`: the current view, the last finalized view and one
round for every view in between that the voter has heard of.  Certificates move the view forward;
the parent of a proposal is found by walking back over nullified views to a certified one.

Main definitions:

* `Commonware.Simplex.Voter.Config`, `Commonware.Simplex.Voter.State`;
* `State.handleTimeout`, `State.addNotarization`, `State.addNullification`,
  `State.addFinalization`, `State.certified`, `State.prune`, `State.replay` — the operations;
* `State.findParent`, `State.parentPayload` — the parent rule, as the leader and as a verifier
  apply it.

Main results:

* `State.roundAt_setRound` and its companions — what each operation leaves in every round;
* `State.findParent_ok`, `State.parentPayload_some` — what a parent that was found satisfies.
-/

import Commonware.OrdMap
import Commonware.VoterRound

set_option autoImplicit false

namespace Commonware.Simplex.Voter

variable {D Sig Cert PK : Type}

/-- What a voter is started with.  The elector picks a participant for a round, given the
certificate that led to it; the genesis payload is the automaton's. -/
structure Config (D Sig Cert PK : Type) where
  scheme : Scheme (Subject D) Sig Cert PK
  elect : Rnd → Option Cert → Fin scheme.participants.length
  ns : Namespace
  epoch : ℕ
  activityTimeout : ℕ
  genesis : D

/-- The round, leader and parent of a proposal that is to be built or verified. -/
structure Context (D PK : Type) where
  round : Rnd
  leader : PK
  parent : ℕ × D
  deriving DecidableEq

structure State (D Cert PK : Type) where
  view : ℕ
  lastFinalized : ℕ
  genesis : Option D
  views : OrdMap ℕ (Round D Cert PK)
  deriving DecidableEq

namespace State

def new : State D Cert PK where
  view := genesisView
  lastFinalized := genesisView
  genesis := none
  views := OrdMap.empty

section

variable (cfg : Config D Sig Cert PK) (st : State D Cert PK)

def minActive : ℕ := Simplex.minActive cfg.activityTimeout st.lastFinalized

def isInteresting (pending : ℕ) (allowFuture : Bool) : Bool :=
  interesting cfg.activityTimeout st.lastFinalized st.view pending allowFuture

def isMe (idx : ℕ) : Bool := decide (cfg.scheme.me = some idx)

variable (v : ℕ)

/-- The round of a view, a new one if there is none yet: what `create_round` returns. -/
def roundAt : Round D Cert PK := (st.views.get? v).getD (Round.new ⟨cfg.epoch, v⟩)

def setRound (r : Round D Cert PK) : State D Cert PK :=
  { st with views := st.views.insert v r }

/-! ### Views and leaders -/

def enterView : State D Cert PK :=
  if v ≤ st.view then st else { st.setRound v (st.roundAt cfg v) with view := v }

/-- The leader of a view is set once. -/
def setLeader (certificate : Option Cert) : State D Cert PK :=
  let leader := cfg.elect ⟨cfg.epoch, v⟩ certificate
  let round := st.roundAt cfg v
  if round.leader.isSome then st.setRound v round
  else st.setRound v (round.setLeader cfg.scheme.participants leader)

def setGenesis (genesis : D) : State D Cert PK :=
  let st := { st with genesis := some genesis }
  let st := st.enterView cfg (genesisView + 1)
  st.setLeader cfg (genesisView + 1) none

def leaderIndex : Option ℕ := ((st.views.get? v).bind (·.leader)).map (·.idx)

def notarization : Option (Notarization D Cert) :=
  (st.views.get? v).bind (·.notarization)

def nullification : Option (Nullification Cert) :=
  (st.views.get? v).bind (·.nullification)

def finalization : Option (Finalization D Cert) :=
  (st.views.get? v).bind (·.finalization)

/-! ### Timeouts and certificates -/

/-- The certificate that lets others enter the view after `v`: a finalization if there is one, a
nullification before a notarization. -/
def entryCertificate : Option (Certificate D Cert) :=
  match st.finalization v, st.nullification v, st.notarization v with
  | some c, _, _ => some (.finalization c)
  | none, some c, _ => some (.nullification c)
  | none, none, some c => some (.notarization c)
  | none, none, none => none

/-- The timeout of the current view: whether the nullify vote is a retry, the vote, and on a retry
the certificate of the view before. -/
def handleTimeout : (Bool × Option (Nullify Sig) × Option (Certificate D Cert)) × State D Cert PK :=
  let (attempt, round) := (st.roundAt cfg st.view).constructNullify
  let st' := st.setRound st.view round
  match attempt with
  | none => ((false, none, none), st')
  | some retry =>
    let nullify := Nullify.sign cfg.scheme cfg.ns ⟨cfg.epoch, st.view⟩
    let entryView := st.view - 1
    if !retry || entryView == genesisView then ((retry, nullify, none), st')
    else ((retry, nullify, st'.entryCertificate entryView), st')

def addNotarization [DecidableEq D] (c : Notarization D Cert) :
    (Bool × Option PK) × State D Cert PK :=
  let v := c.proposal.view
  let st := st.setLeader cfg (v + 1) (some c.certificate)
  let (result, round) := (st.roundAt cfg v).addNotarization c
  (result, st.setRound v round)

def addNullification (c : Nullification Cert) : Bool × State D Cert PK :=
  let v := c.round.view
  let st := st.enterView cfg (v + 1)
  let st := st.setLeader cfg (v + 1) (some c.certificate)
  let (result, round) := (st.roundAt cfg v).addNullification c
  (result, st.setRound v round)

def addFinalization [DecidableEq D] (c : Finalization D Cert) :
    (Bool × Option PK) × State D Cert PK :=
  let v := c.proposal.view
  let st := if v > st.lastFinalized then { st with lastFinalized := v } else st
  let st := st.enterView cfg (v + 1)
  let st := st.setLeader cfg (v + 1) (some c.certificate)
  let (result, round) := (st.roundAt cfg v).addFinalization c
  (result, st.setRound v round)

/-! ### Votes and broadcasts -/

def constructNotarize : Option (Notarize D Sig) × State D Cert PK :=
  match st.views.get? v with
  | none => (none, st)
  | some round =>
    let (candidate, round) := round.constructNotarize
    (candidate.bind (Notarize.sign cfg.scheme cfg.ns), st.setRound v round)

def constructFinalize : Option (Finalize D Sig) × State D Cert PK :=
  match st.views.get? v with
  | none => (none, st)
  | some round =>
    let (candidate, round) := round.constructFinalize
    (candidate.bind (Finalize.sign cfg.scheme cfg.ns), st.setRound v round)

def broadcastNotarization : Option (Notarization D Cert) × State D Cert PK :=
  match st.views.get? v with
  | none => (none, st)
  | some round =>
    let (certificate, round) := round.broadcastNotarizationOnce
    (certificate, st.setRound v round)

def broadcastNullification : Option (Nullification Cert) × State D Cert PK :=
  match st.views.get? v with
  | none => (none, st)
  | some round =>
    let (certificate, round) := round.broadcastNullificationOnce
    (certificate, st.setRound v round)

def broadcastFinalization : Option (Finalization D Cert) × State D Cert PK :=
  match st.views.get? v with
  | none => (none, st)
  | some round =>
    let (certificate, round) := round.broadcastFinalizationOnce
    (certificate, st.setRound v round)

def replay (artifact : Artifact D Sig Cert) : Except Fault (State D Cert PK) := do
  let round ← (st.roundAt cfg artifact.view).replay cfg.scheme.me artifact
  return st.setRound artifact.view round

/-- Only the deadlines of the round change, which is created if need be. -/
def expireRound : State D Cert PK := st.setRound v (st.roundAt cfg v)

/-! ### The parent rule -/

/-- The payload certified in a view: the genesis block, or the proposal of a view that is finalized
or whose certification succeeded. -/
def isCertified : Except Fault (Option D) :=
  if v = genesisView then
    match st.genesis with
    | none => .error .genesisMustBePresent
    | some d => .ok (some d)
  else
    match st.views.get? v with
    | none => .ok none
    | some round =>
      if round.finalization.isSome || round.isCertified then
        match round.proposal.proposal with
        | none => .error .proposalMustExist
        | some p => .ok (some p.payload)
      else .ok none

def isNullified : Bool :=
  if v = genesisView then false
  else
    match st.views.get? v with
    | none => false
    | some round => round.nullification.isSome

/-- The walk of `find_parent`, from a cursor down: the first certified view, or the first view that
is neither certified nor nullified. -/
def findParentFrom (cursor : ℕ) : Except Fault (Except ℕ (ℕ × D)) :=
  match st.isCertified cursor with
  | .error e => .error e
  | .ok (some d) => .ok (.ok (cursor, d))
  | .ok none =>
    if !st.isNullified cursor then .ok (.error cursor)
    else
      match cursor with
      | 0 => .error .cursorMustNotWrap
      | c + 1 => findParentFrom c

def findParent : Except Fault (Except ℕ (ℕ × D)) := st.findParentFrom (v - 1)

/-- The payload of a proposal's parent, if the proposal extends a certified view over nullified
ones. -/
def parentPayload (p : Proposal D) : Except Fault (Option D) :=
  if p.view ≤ p.parent then .ok none
  else if p.parent < st.lastFinalized then .ok none
  else if !(List.range' (p.parent + 1) (p.view - (p.parent + 1))).all st.isNullified then .ok none
  else st.isCertified p.parent

/-- The certificate of the parent of the proposal of a view. -/
def parentCertificate : Option (Certificate D Cert) :=
  match ((st.views.get? v).bind (·.proposal.proposal)).bind (fun p => st.views.get? p.parent) with
  | none => none
  | some parent =>
    match parent.finalization, parent.notarization with
    | some c, _ => some (.finalization c)
    | none, some c => some (.notarization c)
    | none, none => none

/-! ### Proposing, verifying, certifying -/

def tryPropose : Except Fault (Option (Context D PK) × State D Cert PK) :=
  if st.view = genesisView then .ok (none, st)
  else
    match st.views.get? st.view with
    | none => .error .viewMustExist
    | some round =>
      if !round.shouldPropose cfg.scheme.me then .ok (none, st)
      else
        match st.findParent st.view with
        | .error e => .error e
        | .ok (.error _) => .ok (none, st)
        | .ok (.ok parent) =>
          let (leader, round) := round.tryPropose cfg.scheme.me
          .ok (leader.map fun l => ⟨⟨cfg.epoch, st.view⟩, l.key, parent⟩,
            st.setRound st.view round)

def proposed (p : Proposal D) : Bool × State D Cert PK :=
  match st.views.get? p.view with
  | none => (false, st)
  | some round =>
    let (result, round) := round.proposed p
    (result, st.setRound p.view round)

def setProposal [DecidableEq D] (p : Proposal D) : Bool × State D Cert PK :=
  let (result, round) := (st.roundAt cfg v).setProposal p
  (result, st.setRound v round)

def tryVerify : Except Fault (Option (Context D PK × Proposal D) × State D Cert PK) :=
  match st.views.get? st.view with
  | none => .ok (none, st)
  | some round =>
    match round.shouldVerify cfg.scheme.me with
    | none => .ok (none, st)
    | some (leader, p) =>
      match st.parentPayload p with
      | .error e => .error e
      | .ok none => .ok (none, st)
      | .ok (some payload) =>
        let (asked, round) := round.tryVerify cfg.scheme.me
        .ok (if asked then some (⟨p.round, leader.key, (p.parent, payload)⟩, p) else none,
          st.setRound st.view round)

def verified : Bool × State D Cert PK :=
  match st.views.get? v with
  | none => (false, st)
  | some round =>
    let (result, round) := round.verified
    (result, st.setRound v round)

def tryCertify : CertifyResult (Proposal D) :=
  match st.views.get? v with
  | none => .skip
  | some round => round.shouldCertify

def setCertifyHandle : State D Cert PK :=
  { st with views := st.views.modify v Round.setCertifyHandle }

def retryCertification : State D Cert PK :=
  { st with views := st.views.modify v Round.unsetCertifyHandle }

/-- The result of a certification: on success the next view is entered. -/
def certified (isSuccess : Bool) : Except Fault (Option (Notarization D Cert) × State D Cert PK) :=
  match st.views.get? v with
  | none => .ok (none, st)
  | some round =>
    match round.setCertified isSuccess with
    | .error e => .error e
    | .ok round =>
      match round.notarization with
      | none => .error .notarizationMustExist
      | some c =>
        let st := st.setRound v round
        .ok (some c, if isSuccess then st.enterView cfg (v + 1) else st.expireRound cfg v)

/-- Dropping the views below the window; the result lists them. -/
def prune : List ℕ × State D Cert PK :=
  let min := st.minActive cfg
  ((st.views.filter fun v _ => decide (v < min)).keys,
    { st with views := st.views.filter fun v _ => decide (min ≤ v) })

end

/-! ### What the operations leave in the rounds -/

section

variable (cfg : Config D Sig Cert PK)

@[simp] theorem roundAt_new (v : ℕ) :
    (State.new : State D Cert PK).roundAt cfg v = Round.new ⟨cfg.epoch, v⟩ := rfl

@[simp] theorem view_setRound (st : State D Cert PK) (v : ℕ) (r : Round D Cert PK) :
    (st.setRound v r).view = st.view := rfl

@[simp] theorem lastFinalized_setRound (st : State D Cert PK) (v : ℕ) (r : Round D Cert PK) :
    (st.setRound v r).lastFinalized = st.lastFinalized := rfl

@[simp] theorem roundAt_setRound (st : State D Cert PK) (v u : ℕ) (r : Round D Cert PK) :
    (st.setRound v r).roundAt cfg u = if u = v then r else st.roundAt cfg u := by
  simp only [roundAt, setRound, OrdMap.get?_insert]
  split_ifs <;> rfl

theorem roundAt_of_get? {st : State D Cert PK} {v : ℕ} {r : Round D Cert PK}
    (h : st.views.get? v = some r) : st.roundAt cfg v = r := by
  simp [roundAt, h]

/-- The rounds of two states differ in their leaders only. -/
def Agree (st st' : State D Cert PK) : Prop :=
  ∀ v, ∃ leader, st'.roundAt cfg v = { st.roundAt cfg v with leader := leader }

theorem Agree.refl (st : State D Cert PK) : st.Agree cfg st := fun v =>
  ⟨(st.roundAt cfg v).leader, rfl⟩

variable {cfg}

theorem Agree.trans {st st' st'' : State D Cert PK} (h : st.Agree cfg st')
    (h' : st'.Agree cfg st'') : st.Agree cfg st'' := by
  intro v
  obtain ⟨l, hl⟩ := h v
  obtain ⟨l', hl'⟩ := h' v
  exact ⟨l', by rw [hl', hl]⟩

theorem agree_of_roundAt_eq {st st' : State D Cert PK}
    (h : ∀ v, st'.roundAt cfg v = st.roundAt cfg v) : st.Agree cfg st' := fun v =>
  ⟨(st.roundAt cfg v).leader, h v⟩

variable (cfg)

variable (st : State D Cert PK)
include st

theorem roundAt_enterView (v u : ℕ) : (st.enterView cfg v).roundAt cfg u = st.roundAt cfg u := by
  unfold enterView
  split_ifs with h
  · rfl
  · refine (roundAt_setRound cfg st v u (st.roundAt cfg v)).trans ?_
    split_ifs with hu
    · rw [hu]
    · rfl

theorem agree_enterView (v : ℕ) : st.Agree cfg (st.enterView cfg v) :=
  agree_of_roundAt_eq (st.roundAt_enterView cfg v)

theorem agree_expireRound (v : ℕ) : st.Agree cfg (st.expireRound cfg v) := by
  refine agree_of_roundAt_eq fun u => ?_
  rw [expireRound, roundAt_setRound]
  split_ifs with h
  · rw [h]
  · rfl

theorem agree_setLeader (v : ℕ) (certificate : Option Cert) :
    st.Agree cfg (st.setLeader cfg v certificate) := by
  intro u
  simp only [setLeader]
  split_ifs with h
  · exact agree_expireRound cfg st v u
  · rw [roundAt_setRound]
    split_ifs with hu
    · exact ⟨_, by rw [hu]; rfl⟩
    · exact ⟨_, rfl⟩

theorem agree_setGenesis (genesis : D) : st.Agree cfg (st.setGenesis cfg genesis) := by
  have h : st.Agree cfg { st with genesis := some genesis } := Agree.refl cfg st
  exact (h.trans (agree_enterView cfg _ _)).trans (agree_setLeader cfg _ _ _)

/-! The view and the last finalized view only move forward. -/

@[simp] theorem view_enterView (v : ℕ) : (st.enterView cfg v).view = max st.view v := by
  unfold enterView
  split_ifs with h
  · exact (max_eq_left h).symm
  · exact (max_eq_right (Nat.le_of_not_le h)).symm

@[simp] theorem lastFinalized_enterView (v : ℕ) :
    (st.enterView cfg v).lastFinalized = st.lastFinalized := by
  unfold enterView
  split_ifs <;> rfl

@[simp] theorem view_setLeader (v : ℕ) (certificate : Option Cert) :
    (st.setLeader cfg v certificate).view = st.view := by
  simp only [setLeader]
  split_ifs <;> rfl

@[simp] theorem lastFinalized_setLeader (v : ℕ) (certificate : Option Cert) :
    (st.setLeader cfg v certificate).lastFinalized = st.lastFinalized := by
  simp only [setLeader]
  split_ifs <;> rfl

end

/-- Whatever a finalization does to the view, it leaves the finalized view behind. -/
theorem lastFinalized_addFinalization [DecidableEq D] (cfg : Config D Sig Cert PK)
    (st : State D Cert PK) (c : Finalization D Cert) :
    (st.addFinalization cfg c).2.lastFinalized = max st.lastFinalized c.proposal.view := by
  simp only [addFinalization, lastFinalized_setRound, lastFinalized_setLeader,
    lastFinalized_enterView]
  split_ifs with h
  · exact (max_eq_right (Nat.le_of_lt h)).symm
  · exact (max_eq_left (Nat.le_of_not_lt h)).symm

theorem view_addFinalization [DecidableEq D] (cfg : Config D Sig Cert PK) (st : State D Cert PK)
    (c : Finalization D Cert) :
    (st.addFinalization cfg c).2.view = max st.view (c.proposal.view + 1) := by
  simp only [addFinalization, view_setRound, view_setLeader, view_enterView]
  split_ifs <;> rfl

/-! ### The parent rule -/

section

variable {st : State D Cert PK} {v : ℕ}

theorem isNullified_true (h : st.isNullified v = true) :
    ∃ c, st.nullification v = some c := by
  unfold isNullified at h
  split_ifs at h
  cases hr : st.views.get? v with
  | none => rw [hr] at h; cases h
  | some r =>
    rw [hr] at h
    obtain ⟨c, hc⟩ := Option.isSome_iff_exists.1 h
    exact ⟨c, by simp [nullification, hr, hc]⟩

variable {d : D}

/-- A certified view is the genesis view, or its round is finalized or certified. -/
theorem isCertified_some (h : st.isCertified v = .ok (some d)) :
    v = genesisView ∨ ∃ r, st.views.get? v = some r ∧
      (r.finalization.isSome = true ∨ r.certified = some true) := by
  unfold isCertified at h
  split_ifs at h with hv
  · exact .inl hv
  · refine .inr ?_
    cases hr : st.views.get? v with
    | none => rw [hr] at h; cases h
    | some r =>
      rw [hr] at h
      dsimp only at h
      split_ifs at h with hc
      · exact ⟨r, rfl, by simpa [Round.isCertified] using hc⟩
      · cases h

/-- A parent that was found is certified, and every view skipped on the way is nullified. -/
theorem findParentFrom_ok {cursor p : ℕ} (h : st.findParentFrom cursor = .ok (.ok (p, d))) :
    p ≤ cursor ∧ st.isCertified p = .ok (some d) ∧
      ∀ u, p < u → u ≤ cursor → st.isNullified u = true := by
  induction cursor with
  | zero =>
    rw [findParentFrom] at h
    split at h
    · cases h
    · next d' hd =>
        obtain ⟨rfl, rfl⟩ : 0 = p ∧ d' = d := by simpa using h
        exact ⟨le_rfl, hd, fun u h₁ h₂ => by omega⟩
    · split_ifs at h; cases h
  | succ c ih =>
    rw [findParentFrom] at h
    split at h
    · cases h
    · next d' hd =>
        obtain ⟨rfl, rfl⟩ : c + 1 = p ∧ d' = d := by simpa using h
        exact ⟨le_rfl, hd, fun u h₁ h₂ => by omega⟩
    · next hn =>
        split_ifs at h with hnl
        · cases h
        · obtain ⟨hle, hc, ha⟩ := ih h
          refine ⟨by omega, hc, fun u h₁ h₂ => ?_⟩
          rcases Nat.lt_or_eq_of_le h₂ with hlt | rfl
          · exact ha u h₁ (by omega)
          · simpa using hnl

/-- The leader's rule: the parent is below the view and the views between are nullified. -/
theorem findParent_ok {p : ℕ} (hv : 0 < v) (h : st.findParent v = .ok (.ok (p, d))) :
    p < v ∧ st.isCertified p = .ok (some d) ∧ ∀ u, p < u → u < v → st.isNullified u = true := by
  obtain ⟨hle, hc, ha⟩ := findParentFrom_ok h
  exact ⟨by omega, hc, fun u h₁ h₂ => ha u h₁ (by omega)⟩

/-- The verifier's rule, which is the same but for the bound by the last finalized view. -/
theorem parentPayload_some {p : Proposal D} (h : st.parentPayload p = .ok (some d)) :
    p.parent < p.view ∧ st.lastFinalized ≤ p.parent ∧ st.isCertified p.parent = .ok (some d) ∧
      ∀ u, p.parent < u → u < p.view → st.isNullified u = true := by
  unfold parentPayload at h
  split_ifs at h with h₁ h₂ h₃
  · cases h
  · cases h
  · cases h
  · refine ⟨by omega, by omega, h, fun u hu hu' => ?_⟩
    simp only [Bool.not_eq_true, Bool.not_eq_false', List.all_eq_true, List.mem_range'] at h₃
    exact h₃ u ⟨u - (p.parent + 1), by omega, by omega⟩

end

end State

end Commonware.Simplex.Voter
