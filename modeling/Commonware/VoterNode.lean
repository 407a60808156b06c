/-
**The voter as a process with a journal.**

`consensus/src/simplex/actors/voter/actor.rs` drives the voter's state: it answers messages,
timeouts and results of the application, keeps its votes, the certificates it accepts and its
certification results in a journal with one section a view, and rebuilds the state from that
journal when it starts.  An operation of the actor is a function to a new in-memory state and the
list of effects it has on the outside, in order; a crash may cut that list anywhere.

A node is the in-memory state (absent while it is down), the journal with the part of it that is
durable, the view below which the journal has been pruned and, for the sake of the statements only, the history of what it signed,
sent and certified.

Main definitions:

* `Commonware.Simplex.Voter.Op`, `Enabled`, `exec` — the operations, when the actor issues
  them and what they do;
* `recover` — rebuilding the state from a journal;
* `Survives` — the journals a crash may leave behind;
* `Step` — one step of a node: an operation, an operation cut short, a crash or a restart.
-/

import Commonware.VoterState

set_option autoImplicit false

namespace Commonware.Simplex.Voter

variable {D Sig Cert PK : Type}

/-! ### The journal -/

/-- One list of records for every view, in the order in which they were appended. -/
abbrev Journal (D Sig Cert : Type) := OrdMap ℕ (List (Artifact D Sig Cert))

namespace Journal

variable (j : Journal D Sig Cert)

def sec (v : ℕ) : List (Artifact D Sig Cert) := (j.get? v).getD []

/-- Appending a record to the section of its view. -/
def append (a : Artifact D Sig Cert) : Journal D Sig Cert :=
  j.insert a.view (j.sec a.view ++ [a])

/-- The durable part `d` of a journal after the section of a view has been synced. -/
def sync (d j : Journal D Sig Cert) (v : ℕ) : Journal D Sig Cert := d.insert v (j.sec v)

/-- The records in the order in which they are replayed: by view, then by age. -/
def records : List (Artifact D Sig Cert) :=
  j.entries.flatMap Prod.snd

@[simp] theorem sec_empty (v : ℕ) : sec (OrdMap.empty : Journal D Sig Cert) v = [] := rfl

theorem sec_append (a : Artifact D Sig Cert) (v : ℕ) :
    (j.append a).sec v = if v = a.view then j.sec v ++ [a] else j.sec v := by
  simp only [sec, append, OrdMap.get?_insert]
  split_ifs with h
  · rw [h]; rfl
  · rfl

theorem sec_sync (d j : Journal D Sig Cert) (v u : ℕ) :
    (d.sync j v).sec u = if u = v then j.sec u else d.sec u := by
  simp only [sec, sync, OrdMap.get?_insert]
  split_ifs with h
  · rw [h]; rfl
  · rfl

end Journal

/-! ### Operations -/

/-- What the actor does in response to an event. -/
inductive Op (D Cert : Type)
  /-- The batcher forwards the leader's proposal. -/
  | setProposal (p : Proposal D)
  | tryVerify
  /-- The application has verified the proposal of a view. -/
  | verified (v : ℕ)
  | tryPropose
  /-- The application has built a payload. -/
  | proposed (payload : D)
  | constructNotarize (v : ℕ)
  | constructFinalize (v : ℕ)
  /-- A deadline has passed, or the application rejects the proposal. -/
  | timeout
  | tryCertify (v : ℕ)
  /-- The application has decided on the certification of a view. -/
  | certified (v : ℕ) (isSuccess : Bool)
  /-- The application did not answer a certification request. -/
  | retryCertification (v : ℕ)
  | notarization (c : Notarization D Cert)
  | nullification (c : Nullification Cert)
  | finalization (c : Finalization D Cert)
  | broadcastNotarization (v : ℕ)
  | broadcastNullification (v : ℕ)
  | broadcastFinalization (v : ℕ)
  | expireRound
  | prune

/-- The effects of an operation outside of the state. -/
inductive Effect (D Sig Cert : Type)
  | sign (v : Vote D Sig)
  | certify (v : ℕ) (isSuccess : Bool)
  | append (a : Artifact D Sig Cert)
  /-- The journal section of a view is made durable. -/
  | sync (v : ℕ)
  | send (v : Vote D Sig)
  | sendCertificate (c : Certificate D Cert)
  /-- Dropping the sections below a view. -/
  | prune (min : ℕ)

/-- What the actor holds in memory: the state and the proposal it is waiting for. -/
structure Memory (D Cert PK : Type) where
  state : State D Cert PK
  pendingPropose : Option (Context D PK)

/-- The effects of casting a vote: it is signed, recorded and made durable, and only then sent. -/
def castVote (v : Vote D Sig) : List (Effect D Sig Cert) :=
  [.sign v, .append v.artifact, .sync v.view, .send v]

/-- The effects of broadcasting a certificate of a view, whose section is made durable first. -/
def castCertificate (v : ℕ) (c : Option (Certificate D Cert)) : List (Effect D Sig Cert) :=
  (c.map fun c => [.sync v, .sendCertificate c]).getD []

section

variable [DecidableEq D] (cfg : Config D Sig Cert PK)

/-- Whether the actor may issue an operation.  Operations on a view are issued for interesting
views only; results of the application answer a request; the journal is pruned after the
finalization that moved the window has been recorded and broadcast. -/
def Enabled (m : Memory D Cert PK) : Op D Cert → Prop
  | .setProposal p => m.state.isInteresting cfg p.view false = true
  | .tryVerify | .tryPropose | .timeout | .expireRound => True
  | .verified v =>
    m.state.isInteresting cfg v true = true ∧
      (m.state.roundAt cfg v).proposal.requestedVerify = true
  | .proposed _ => ∃ ctx ∈ m.pendingPropose, ctx.round = ⟨cfg.epoch, m.state.view⟩
  | .certified v _ =>
    m.state.isInteresting cfg v true = true ∧ (m.state.roundAt cfg v).certifyHandle = true
  | .constructNotarize v | .constructFinalize v | .tryCertify v | .retryCertification v
  | .broadcastNotarization v | .broadcastNullification v | .broadcastFinalization v =>
    m.state.isInteresting cfg v true = true
  | .notarization c => m.state.isInteresting cfg c.proposal.view true = true
  | .nullification c => m.state.isInteresting cfg c.round.view true = true
  | .finalization c => m.state.isInteresting cfg c.proposal.view true = true
  | .prune =>
    m.state.lastFinalized = 0 ∨
      (m.state.roundAt cfg m.state.lastFinalized).broadcastFinalization = true

instance (m : Memory D Cert PK) (op : Op D Cert) : Decidable (Enabled cfg m op) := by
  cases op <;> unfold Enabled <;> infer_instance

/-- The timeout handler: the nullify vote is recorded the first time, and sent every time. -/
def handleTimeout (st : State D Cert PK) : State D Cert PK × List (Effect D Sig Cert) :=
  let ((retry, nullify, entry), st) := st.handleTimeout cfg
  let vote := match nullify with
    | none => []
    | some n =>
      if retry then [.sign (.nullify n), .send (.nullify n)] else castVote (.nullify n)
  (st, vote ++ (entry.map Effect.sendCertificate).toList)

variable (st : State D Cert PK)

def handleNotarization (c : Notarization D Cert) : State D Cert PK × List (Effect D Sig Cert) :=
  let ((added, _), st) := st.addNotarization cfg c
  (st, if added then [.append (.notarization c)] else [])

/-- A leader whose view is nullified shares the certificate of its proposal's parent. -/
def handleNullification (c : Nullification Cert) : State D Cert PK × List (Effect D Sig Cert) :=
  let (added, st) := st.addNullification cfg c
  let v := c.round.view
  let floor :=
    if (st.leaderIndex v).any (State.isMe cfg) then st.parentCertificate v else none
  (st, if added then .append (.nullification c) :: (floor.map Effect.sendCertificate).toList else [])

def handleFinalization (c : Finalization D Cert) : State D Cert PK × List (Effect D Sig Cert) :=
  let ((added, _), st) := st.addFinalization cfg c
  (st, if added then [.append (.finalization c)] else [])

def handleCertification (v : ℕ) (isSuccess : Bool) :
    Except Fault (State D Cert PK × List (Effect D Sig Cert)) :=
  match st.certified cfg v isSuccess with
  | .error e => .error e
  | .ok (none, st) => .ok (st, [])
  | .ok (some _, st) =>
    .ok (st, [.certify v isSuccess, .append (.certification ⟨cfg.epoch, v⟩ isSuccess), .sync v])

/-- One operation: the new memory and the effects, or the assertion that failed. -/
def exec (m : Memory D Cert PK) :
    Op D Cert → Except Fault (Memory D Cert PK × List (Effect D Sig Cert))
  | .setProposal p => .ok ({ m with state := (m.state.setProposal cfg p.view p).2 }, [])
  | .tryVerify => do
      let (_, st) ← m.state.tryVerify cfg
      return ({ m with state := st }, [])
  | .verified v => .ok ({ m with state := (m.state.verified v).2 }, [])
  | .tryPropose => do
      let (ctx, st) ← m.state.tryPropose cfg
      return (⟨st, ctx.orElse fun _ => m.pendingPropose⟩, [])
  | .proposed payload =>
    match m.pendingPropose with
    | none => .ok (m, [])
    | some ctx =>
      .ok (⟨(m.state.proposed ⟨ctx.round, ctx.parent.1, payload⟩).2, none⟩, [])
  | .constructNotarize v =>
    let (vote, st) := m.state.constructNotarize cfg v
    .ok ({ m with state := st }, (vote.map fun n => castVote (.notarize n)).getD [])
  | .constructFinalize v =>
    let (vote, st) := m.state.constructFinalize cfg v
    .ok ({ m with state := st }, (vote.map fun n => castVote (.finalize n)).getD [])
  | .timeout =>
    let (st, effects) := handleTimeout cfg m.state
    .ok ({ m with state := st }, effects)
  | .tryCertify v =>
    match m.state.tryCertify v with
    | .ready _ => .ok ({ m with state := m.state.setCertifyHandle v }, [])
    | .pending | .skip => .ok (m, [])
  | .certified v isSuccess => do
      let (st, effects) ← handleCertification cfg m.state v isSuccess
      return ({ m with state := st }, effects)
  | .retryCertification v => .ok ({ m with state := m.state.retryCertification v }, [])
  | .notarization c =>
    let (st, effects) := handleNotarization cfg m.state c
    .ok ({ m with state := st }, effects)
  | .nullification c =>
    let (st, effects) := handleNullification cfg m.state c
    .ok ({ m with state := st }, effects)
  | .finalization c =>
    let (st, effects) := handleFinalization cfg m.state c
    .ok ({ m with state := st }, effects)
  | .broadcastNotarization v =>
    let (c, st) := m.state.broadcastNotarization v
    .ok ({ m with state := st }, castCertificate v (c.map .notarization))
  | .broadcastNullification v =>
    let (c, st) := m.state.broadcastNullification v
    .ok ({ m with state := st }, castCertificate v (c.map .nullification))
  | .broadcastFinalization v =>
    let (c, st) := m.state.broadcastFinalization v
    .ok ({ m with state := st }, castCertificate v (c.map .finalization))
  | .expireRound => .ok ({ m with state := m.state.expireRound cfg m.state.view }, [])
  | .prune =>
    let (removed, st) := m.state.prune cfg
    .ok ({ m with state := st }, if removed.isEmpty then [] else [.prune (st.minActive cfg)])

/-! ### Recovery -/

/-- Replaying one record: the flags of its round are restored and, for a certificate or a
certification result, the handler of the live actor runs again. -/
def replayRecord (a : Artifact D Sig Cert) : Except Fault (State D Cert PK) :=
  match st.replay cfg a with
  | .error e => .error e
  | .ok st =>
    match a with
    | .notarize _ | .nullify _ | .finalize _ => .ok st
    | .notarization c => .ok (st.addNotarization cfg c).2
    | .nullification c => .ok (st.addNullification cfg c).2
    | .finalization c => .ok (st.addFinalization cfg c).2
    | .certification r success =>
      match st.certified cfg r.view success with
      | .error e => .error e
      | .ok (_, st) => .ok st

def replayRecords (st : State D Cert PK) :
    List (Artifact D Sig Cert) → Except Fault (State D Cert PK)
  | [] => .ok st
  | a :: l =>
    match replayRecord cfg st a with
    | .error e => .error e
    | .ok st => replayRecords st l

/-- The memory of a freshly started actor. -/
def recover (j : Journal D Sig Cert) : Except Fault (Memory D Cert PK) :=
  match replayRecords cfg (State.new.setGenesis cfg cfg.genesis) j.records with
  | .error e => .error e
  | .ok st =>
    let st := st.expireRound cfg st.view
    if (st.leaderIndex st.view).isNone then .error .leaderNotSet else .ok ⟨st, none⟩

end

/-! ### Nodes -/

/-- What a node has done. -/
inductive Event (D Sig Cert : Type)
  | signed (v : Vote D Sig)
  | certified (v : ℕ) (isSuccess : Bool)
  | sent (v : Vote D Sig)
  | sentCertificate (c : Certificate D Cert)
  deriving DecidableEq

structure Node (D Sig Cert PK : Type) where
  /-- The memory of the actor, while it is up. -/
  memory : Option (Memory D Cert PK)
  journal : Journal D Sig Cert
  /-- The part of the journal that a crash cannot take away. -/
  synced : Journal D Sig Cert
  /-- The sections below this view have been given up. -/
  pruned : ℕ
  /-- What the node has done so far, oldest first. -/
  history : List (Event D Sig Cert)

namespace Node

def init : Node D Sig Cert PK := ⟨none, OrdMap.empty, OrdMap.empty, 0, []⟩

/-- Carrying out one effect. -/
def apply (n : Node D Sig Cert PK) : Effect D Sig Cert → Node D Sig Cert PK
  | .sign v => { n with history := n.history ++ [.signed v] }
  | .certify v isSuccess => { n with history := n.history ++ [.certified v isSuccess] }
  | .append a => { n with journal := n.journal.append a }
  | .sync v => { n with synced := n.synced.sync n.journal v }
  | .send v => { n with history := n.history ++ [.sent v] }
  | .sendCertificate c => { n with history := n.history ++ [.sentCertificate c] }
  | .prune min => { n with pruned := max n.pruned min }

def applyAll (n : Node D Sig Cert PK) (effects : List (Effect D Sig Cert)) : Node D Sig Cert PK :=
  effects.foldl apply n

/-- A journal that a crash may leave behind: of every section a beginning, with all that was made
durable; of the sections that were given up anything may be left. -/
structure Survives (n : Node D Sig Cert PK) (j : Journal D Sig Cert) : Prop where
  isPrefix : ∀ v, j.sec v <+: n.journal.sec v
  synced : ∀ v, n.pruned ≤ v → n.synced.sec v <+: j.sec v

/-- One step of a node, labelled with the operation it carries out. -/
inductive Step [DecidableEq D] (cfg : Config D Sig Cert PK) :
    Node D Sig Cert PK → Option (Op D Cert) → Node D Sig Cert PK → Prop
  /-- An operation runs to its end. -/
  | op {n : Node D Sig Cert PK} {m m' : Memory D Cert PK} {op : Op D Cert}
      {effects : List (Effect D Sig Cert)} (hm : n.memory = some m) (hen : Enabled cfg m op)
      (hex : exec cfg m op = .ok (m', effects)) :
      Step cfg n (some op) { n.applyAll effects with memory := some m' }
  /-- The node crashes after some of the effects of an operation. -/
  | cut {n : Node D Sig Cert PK} {m m' : Memory D Cert PK} {op : Op D Cert}
      {effects : List (Effect D Sig Cert)} (k : ℕ) (hm : n.memory = some m)
      (hen : Enabled cfg m op) (hex : exec cfg m op = .ok (m', effects)) :
      Step cfg n (some op) { n.applyAll (effects.take k) with memory := none }
  /-- The node crashes, or stops at a failed assertion. -/
  | crash {n : Node D Sig Cert PK} : Step cfg n none { n with memory := none }
  /-- The node starts from a journal that survived. -/
  | restart {n : Node D Sig Cert PK} {m : Memory D Cert PK} {j : Journal D Sig Cert}
      (hm : n.memory = none) (hj : n.Survives j) (hrec : recover cfg j = .ok m) :
      Step cfg n none { n with memory := some m, journal := j, synced := j }

/-- The states of a node in any run. -/
inductive Reachable [DecidableEq D] (cfg : Config D Sig Cert PK) : Node D Sig Cert PK → Prop
  | init : Reachable cfg init
  | step {n n' : Node D Sig Cert PK} {label : Option (Op D Cert)} :
      Reachable cfg n → Step cfg n label n' → Reachable cfg n'

/-- The node after an operation that is enabled and does not fail. -/
def exec? [DecidableEq D] (cfg : Config D Sig Cert PK) (n : Node D Sig Cert PK) (op : Op D Cert) :
    Option (Node D Sig Cert PK) :=
  match n.memory with
  | none => none
  | some m =>
    if Enabled cfg m op then
      match exec cfg m op with
      | .error _ => none
      | .ok (m', effects) => some { n.applyAll effects with memory := some m' }
    else none

/-- The node after a list of operations, none of which fails. -/
def run? [DecidableEq D] (cfg : Config D Sig Cert PK) (n : Node D Sig Cert PK) :
    List (Op D Cert) → Option (Node D Sig Cert PK)
  | [] => some n
  | op :: ops => (n.exec? cfg op).bind fun n => n.run? cfg ops

/-- The node after a restart from all of its journal. -/
def restart? [DecidableEq D] (cfg : Config D Sig Cert PK) (n : Node D Sig Cert PK) :
    Option (Node D Sig Cert PK) :=
  match recover cfg n.journal with
  | .error _ => none
  | .ok m => some { n with memory := some m, synced := n.journal }

variable {cfg : Config D Sig Cert PK}

theorem Step.of_exec? [DecidableEq D] {n n' : Node D Sig Cert PK}
    {op : Op D Cert} (he : n.exec? cfg op = some n') : n.Step cfg (some op) n' := by
  unfold Node.exec? at he
  cases hm : n.memory with
  | none => rw [hm] at he; cases he
  | some m =>
    rw [hm] at he
    dsimp only at he
    split_ifs at he with hen
    cases hex : exec cfg m op with
    | error e => rw [hex] at he; cases he
    | ok x =>
      rw [hex] at he
      cases he
      exact .op hm hen hex

theorem Reachable.run? [DecidableEq D] {ops : List (Op D Cert)} :
    ∀ {n n' : Node D Sig Cert PK}, n.Reachable cfg → n.run? cfg ops = some n' →
      n'.Reachable cfg := by
  induction ops with
  | nil =>
    intro n n' h hr
    cases hr
    exact h
  | cons op ops ih =>
    intro n n' h hr
    obtain ⟨n₁, h₁, hr⟩ := Option.bind_eq_some_iff.1 hr
    exact ih (h.step (.of_exec? h₁)) hr

end Node

end Commonware.Simplex.Voter
