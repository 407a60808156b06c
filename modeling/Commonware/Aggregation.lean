/-
**The aggregation engine.**

The engine of `consensus/src/aggregation/engine.rs`: validators acknowledge the digest of every
index, a quorum of acknowledgements is a certificate, and the tip is the lowest index that is not
certified yet.  The engine journals its own acknowledgements, the certificates and the tips, and
reads them back when it starts.

A handler runs in `Except Halt`: an assertion that fails, or a journal that refuses a record, stops
the process and leaves the writes made so far.  A crash during an event leaves some prefix of the
event's writes.  Messages to peers, reports and metrics are not part of the model, nor are the
times of the deadlines.

Main definitions:

* `Engine`, its handlers, and `Engine.handle` for one turn of the main loop;
* `Engine.start` — replay and the first requests;
* `Action`, `Engine.act`, `Run` — runs with crashes, restricted to the actions that a condition
  allows.
-/

import Commonware.SafeTip
import Commonware.SectionedJournal
import Commonware.WireCodec
import Commonware.WriteLog

set_option autoImplicit false

namespace Commonware.Aggregation

open Wire Journal WriteLog

/-- The digest of an index. -/
structure Item (D : Type) where
  index : ℕ
  digest : D
  deriving DecidableEq

/-- A validator's acknowledgement of an item. -/
structure Ack (D Sig : Type) where
  epoch : ℕ
  item : Item D
  attestation : Attestation Sig
  deriving DecidableEq

/-- An acknowledgement with the tip of the validator that sends it. -/
structure TipAck (D Sig : Type) where
  ack : Ack D Sig
  tip : ℕ
  deriving DecidableEq

/-- A quorum of acknowledgements. -/
structure Certificate (D Cert : Type) where
  item : Item D
  certificate : Cert
  deriving DecidableEq

/-- What is journaled. -/
inductive Activity (D Sig Cert : Type)
  | ack (ack : Ack D Sig)
  | certified (certificate : Certificate D Cert)
  | tip (index : ℕ)
  deriving DecidableEq

/-- Why a handler gives up. -/
inductive Error (PK : Type)
  | unknownEpoch (epoch : ℕ)
  | unknownValidator (epoch : ℕ) (validator : PK)
  | notSigner (epoch : ℕ)
  | peerMismatch
  | invalidAckSignature
  | ackEpochOutsideBounds (epoch lo hi : ℕ)
  | ackIndex (index : ℕ)
  | ackDigest (index : ℕ)
  | ackDuplicate (sender : PK) (index : ℕ)
  | ackCertified (index : ℕ)
  deriving DecidableEq

/-- Why the process stops. -/
inductive Fault
  /-- The tip is not raised by a fast-forward. -/
  | lowerTip
  /-- The epoch goes back. -/
  | lowerEpoch
  /-- The epoch has no scheme. -/
  | missingScheme
  /-- The next index is pending already. -/
  | occupied
  /-- The journal refuses a record of a section that has been removed. -/
  | pruned
  | safeTip (fault : SafeTip.Fault)
  deriving DecidableEq

variable {PK D Sig Cert : Type}

def u64Max : ℕ := 2 ^ 64 - 1

def ackNamespace (ns : Namespace) : Bytes := ns ++ ascii "_AGG_ACK"

/-- What an engine is configured with. -/
structure Config (PK D Sig Cert : Type) where
  ns : Namespace
  provider : ℕ → Option (Scheme (Item D) Sig Cert PK)
  epochBounds : ℕ × ℕ
  window : ℕ
  activityTimeout : ℕ
  heightsPerSection : ℕ

def Ack.verify (cfg : Config PK D Sig Cert) (scheme : Scheme (Item D) Sig Cert PK)
    (ack : Ack D Sig) : Bool :=
  scheme.verifyAttestation (ackNamespace cfg.ns) ack.item ack.attestation

def Ack.sign (cfg : Config PK D Sig Cert) (scheme : Scheme (Item D) Sig Cert PK) (epoch : ℕ)
    (item : Item D) : Option (Ack D Sig) :=
  (scheme.sign (ackNamespace cfg.ns) item).map fun attestation => ⟨epoch, item, attestation⟩

/-- Assembles a certificate for the item of the first acknowledgement. -/
def Certificate.fromAcks [DecidableEq D] (scheme : Scheme (Item D) Sig Cert PK) :
    List (Ack D Sig) → Option (Certificate D Cert)
  | [] => none
  | first :: acks =>
    let attestations := ((first :: acks).filter fun ack => decide (ack.item = first.item)).map
      Ack.attestation
    (scheme.assemble attestations).map fun certificate => ⟨first.item, certificate⟩

/-- The index under which an activity is journaled. -/
def Activity.index : Activity D Sig Cert → ℕ
  | .ack a => a.item.index
  | .certified c => c.item.index
  | .tip index => index

/-- The acknowledgements of an index, by epoch and signer. -/
abbrev Acks (D Sig : Type) := OrdMap ℕ (OrdMap ℕ (Ack D Sig))

/-- An index that does not have a certificate yet. -/
inductive Pending (D Sig : Type)
  /-- The application has not yet given the digest. -/
  | unverified (acks : Acks D Sig)
  | verified (digest : D) (acks : Acks D Sig)

namespace Pending

def acks : Pending D Sig → Acks D Sig
  | .unverified acks => acks
  | .verified _ acks => acks

def setAcks (acks : Acks D Sig) : Pending D Sig → Pending D Sig
  | .unverified _ => .unverified acks
  | .verified digest _ => .verified digest acks

@[simp] theorem acks_setAcks (acks : Acks D Sig) (p : Pending D Sig) :
    (p.setAcks acks).acks = acks := by
  cases p <;> rfl

/-- The digest that the application has given. -/
def digest? : Pending D Sig → Option D
  | .unverified _ => none
  | .verified digest _ => some digest

end Pending

/-- The state of the engine, with the writes to its journal. -/
structure Engine (PK D Sig Cert : Type) where
  epoch : ℕ
  tip : ℕ
  safeTip : SafeTip PK
  pending : OrdMap ℕ (Pending D Sig)
  confirmed : OrdMap ℕ (Certificate D Cert)
  /-- The indices whose digest the application has been asked for. -/
  digestRequests : List ℕ
  rebroadcastDeadlines : List ℕ
  journal : List (Write (Activity D Sig Cert))
  /-- Records of lower sections are refused. -/
  oldestRetained : ℕ

/-- A process that has stopped, with its journal. -/
abbrev Halted (D Sig Cert : Type) := Halt Fault (Write (Activity D Sig Cert))

/-- What pruning to a section does: it removes all lower sections, or it fails after it has removed
those below some section. -/
inductive Pruning
  | done
  | failed (below : ℕ)

namespace Engine

variable (cfg : Config PK D Sig Cert)

def halt {α : Type} (e : Engine PK D Sig Cert) (fault : Fault) : Except (Halted D Sig Cert) α :=
  .error ⟨fault, e.journal⟩

/-! ### The journal -/

def getJournalSection (index : ℕ) : ℕ := index / cfg.heightsPerSection

/-- The section of a journaled activity. -/
def place (activity : Activity D Sig Cert) : ℕ := getJournalSection cfg activity.index

def activities (journal : List (Write (Activity D Sig Cert))) : List (Activity D Sig Cert) :=
  contents (place cfg) journal

/-- Appends an activity to the journal and syncs it. -/
def record (e : Engine PK D Sig Cert) (activity : Activity D Sig Cert) :
    Except (Halted D Sig Cert) (Engine PK D Sig Cert) :=
  if place cfg activity < e.oldestRetained then e.halt .pruned
  else .ok { e with journal := e.journal ++ [.record activity] }

/-- Removes the sections below one; errors are ignored. -/
def prune (e : Engine PK D Sig Cert) (bound : ℕ) : Pruning → Engine PK D Sig Cert
  | .done =>
    let removes :=
      (activities cfg e.journal).any fun activity => decide (place cfg activity < bound)
    { e with
      journal := e.journal ++ [.prune bound]
      oldestRetained := if removes then bound else e.oldestRetained }
  | .failed below => { e with journal := e.journal ++ [.prune (min below bound)] }

/-! ### The tip -/

/-- Indices below it are dropped. -/
def activityThreshold (tip : ℕ) : ℕ := tip - cfg.activityTimeout

/-- Raises the tip, and drops what is far below it. -/
def fastForwardTip (prunes : ℕ → Pruning) (e : Engine PK D Sig Cert) (tip : ℕ) :
    Except (Halted D Sig Cert) (Engine PK D Sig Cert) :=
  if tip ≤ e.tip then e.halt .lowerTip
  else do
    let threshold := activityThreshold cfg tip
    let e := { e with
      pending := e.pending.filter fun index _ => decide (threshold ≤ index)
      confirmed := e.confirmed.filter fun index _ => decide (threshold ≤ index) }
    let e ← e.record cfg (.tip tip)
    let bound := getJournalSection cfg threshold
    pure { e.prune cfg bound (prunes bound) with tip }

/-- The first index from `newTip` on that is not confirmed; the search ends at the highest one. -/
def advance (confirmed : OrdMap ℕ (Certificate D Cert)) (newTip : ℕ) : ℕ :=
  if confirmed.contains newTip ∧ newTip < u64Max then advance confirmed (newTip + 1) else newTip
termination_by u64Max - newTip

/-- The index after the highest one of a map. -/
def afterLast {V : Type} (m : OrdMap ℕ V) : ℕ :=
  match m.last? with
  | none => 0
  | some (index, _) => min (index + 1) u64Max

/-- The index that should be processed next. -/
def next (e : Engine PK D Sig Cert) : ℕ :=
  max e.tip (max (afterLast e.pending) (afterLast e.confirmed))

/-! ### Handlers -/

def handleCertificate (prunes : ℕ → Pruning) (e : Engine PK D Sig Cert)
    (certificate : Certificate D Cert) : Except (Halted D Sig Cert) (Engine PK D Sig Cert) :=
  let index := certificate.item.index
  if e.confirmed.contains index then .ok e
  else do
    let e := { e with confirmed := e.confirmed.insert index certificate }
    let e ← e.record cfg (.certified certificate)
    if index = e.tip then
      let newTip := advance e.confirmed (min (index + 1) u64Max)
      if e.tip < newTip then e.fastForwardTip cfg prunes newTip else pure e
    else pure e

section

variable [DecidableEq D]

/-- Stores an acknowledgement, and the certificate if there is a quorum for its digest.  Returns the
error, if any. -/
def handleAck (prunes : ℕ → Pruning) (e : Engine PK D Sig Cert) (ack : Ack D Sig) :
    Except (Halted D Sig Cert) (Engine PK D Sig Cert × Option (Error PK)) :=
  match cfg.provider ack.epoch with
  | none => .ok (e, some (.unknownEpoch ack.epoch))
  | some scheme =>
    match e.pending.get? ack.item.index with
    | none => .ok (e, some (.ackIndex ack.item.index))
    | some pending =>
      if pending.digest?.any fun digest => decide (ack.item.digest ≠ digest) then
        .ok (e, some (.ackDigest ack.item.index))
      else
        let acks := (pending.acks.get? ack.epoch).getD .empty
        if acks.contains ack.attestation.signer then
          -- the entry of the epoch has been made
          .ok (e, none)
        else do
          let acks := acks.insert ack.attestation.signer ack
          let pending := pending.setAcks (pending.acks.insert ack.epoch acks)
          let e := { e with pending := e.pending.insert ack.item.index pending }
          let filtered := acks.values.filter fun a => decide (a.item.digest = ack.item.digest)
          if scheme.quorum ≤ filtered.length then
            match Certificate.fromAcks scheme filtered with
            | none => pure (e, none)
            | some certificate => do
                let e ← e.handleCertificate cfg prunes certificate
                pure (e, none)
          else pure (e, none)

omit [DecidableEq D] in
/-- Signs an acknowledgement and journals it. -/
def signAck (e : Engine PK D Sig Cert) (index : ℕ) (digest : D) :
    Except (Halted D Sig Cert) (Engine PK D Sig Cert × Except (Error PK) (Ack D Sig)) :=
  match cfg.provider e.epoch with
  | none => .ok (e, .error (.unknownEpoch e.epoch))
  | some scheme =>
    match Ack.sign cfg scheme e.epoch ⟨index, digest⟩ with
    | none => .ok (e, .error (.notSigner e.epoch))
    | some ack => do
        let e ← e.record cfg (.ack ack)
        pure (e, .ok ack)

/-- Handles the acknowledgements of one epoch that are for the digest. -/
def handleEpochAcks (prunes : ℕ → Pruning) (digest : D) (e : Engine PK D Sig Cert)
    (acks : OrdMap ℕ (Ack D Sig)) : Except (Halted D Sig Cert) (Engine PK D Sig Cert) :=
  acks.values.foldlM (fun e ack =>
    if ack.item.digest ≠ digest then pure e
    else do
      let r ← handleAck cfg prunes e ack
      pure r.1) e

/-- Handles the acknowledgements epoch by epoch, until the index is confirmed. -/
def handleAcks (prunes : ℕ → Pruning) (index : ℕ) (digest : D) :
    List (OrdMap ℕ (Ack D Sig)) → Engine PK D Sig Cert →
      Except (Halted D Sig Cert) (Engine PK D Sig Cert)
  | [], e => .ok e
  | acks :: rest, e => do
      let e ← handleEpochAcks cfg prunes digest e acks
      if e.confirmed.contains index then pure e else handleAcks prunes index digest rest e

/-- Handles the digest that the application gives for an index. -/
def handleDigest (prunes : ℕ → Pruning) (e : Engine PK D Sig Cert) (index : ℕ) (digest : D) :
    Except (Halted D Sig Cert) (Engine PK D Sig Cert × Option (Error PK)) :=
  match e.pending.get? index with
  | some (.unverified acks) => do
      let e := { e with pending := e.pending.insert index (.verified digest .empty) }
      let e ← handleAcks cfg prunes index digest acks.values e
      match ← e.signAck cfg index digest with
      | (e, .error error) => pure (e, some error)
      | (e, .ok ack) =>
        let e := { e with rebroadcastDeadlines := index :: e.rebroadcastDeadlines.erase index }
        let r ← e.handleAck cfg prunes ack
        pure (r.1, none)
  | _ => .ok (e, some (.ackIndex index))

omit [DecidableEq D] in
/-- Signs again unless there is an acknowledgement of the current epoch, and sets a new deadline. -/
def handleRebroadcast (e : Engine PK D Sig Cert) (index : ℕ) :
    Except (Halted D Sig Cert) (Engine PK D Sig Cert × Option (Error PK)) :=
  match e.pending.get? index with
  | some (.verified digest acks) =>
    match cfg.provider e.epoch with
    | none => .ok (e, some (.unknownEpoch e.epoch))
    | some scheme =>
      match scheme.me with
      | none => .ok (e, some (.notSigner e.epoch))
      | some signer =>
        match (acks.get? e.epoch).bind fun acks => acks.get? signer with
        | some _ =>
          let deadlines := index :: e.rebroadcastDeadlines.erase index
          .ok ({ e with rebroadcastDeadlines := deadlines }, none)
        | none => do
            match ← e.signAck cfg index digest with
            | (e, .error error) => pure (e, some error)
            | (e, .ok _) =>
              let deadlines := index :: e.rebroadcastDeadlines.erase index
              pure ({ e with rebroadcastDeadlines := deadlines }, none)
  | _ => .ok (e, none)

/-- Checks an acknowledgement that a peer sends. -/
def validateAck [DecidableEq PK] (e : Engine PK D Sig Cert) (ack : Ack D Sig) (sender : PK) :
    Except (Error PK) Unit :=
  let boundLo := e.epoch - cfg.epochBounds.1
  let boundHi := min (e.epoch + cfg.epochBounds.2) u64Max
  if ack.epoch < boundLo ∨ boundHi < ack.epoch then
    .error (.ackEpochOutsideBounds ack.epoch boundLo boundHi)
  else
    match cfg.provider ack.epoch with
    | none => .error (.unknownEpoch ack.epoch)
    | some scheme =>
      if sender ∉ scheme.participants then .error (.unknownValidator ack.epoch sender)
      else if scheme.participants.idxOf sender ≠ ack.attestation.signer then
        .error .peerMismatch
      else if ack.item.index < activityThreshold cfg e.tip then
        .error (.ackCertified ack.item.index)
      else if cfg.window ≤ ack.item.index - e.tip then .error (.ackIndex ack.item.index)
      else if e.confirmed.contains ack.item.index then .error (.ackCertified ack.item.index)
      else
        let pending := e.pending.get? ack.item.index
        if (pending.bind Pending.digest?).any fun digest => decide (ack.item.digest ≠ digest) then
          .error (.ackDigest ack.item.index)
        else
          let haveAck := (pending.bind fun p => p.acks.get? ack.epoch).any fun acks =>
            acks.contains ack.attestation.signer
          if haveAck then .error (.ackDuplicate sender ack.item.index)
          else if !ack.verify cfg scheme then .error .invalidAckSignature
          else .ok ()

end

/-! ### Replay -/

/-- The highest tip that is journaled. -/
def replayTip (activities : List (Activity D Sig Cert)) : ℕ :=
  activities.foldl (fun tip activity => match activity with
    | .tip index => max tip index
    | _ => tip) 0

/-- The certificates that are journaled and not far below the tip. -/
def replayConfirmed (threshold : ℕ) (activities : List (Activity D Sig Cert)) :
    OrdMap ℕ (Certificate D Cert) :=
  activities.foldl (fun confirmed activity => match activity with
    | .certified certificate =>
      if threshold ≤ certificate.item.index then
        confirmed.insert certificate.item.index certificate
      else confirmed
    | _ => confirmed) .empty

/-- The acknowledgements that are journaled, of indices that are not confirmed, by index. -/
def replayAcks (threshold : ℕ) (confirmed : OrdMap ℕ (Certificate D Cert))
    (activities : List (Activity D Sig Cert)) : OrdMap ℕ (List (Ack D Sig)) :=
  activities.foldl (fun groups activity => match activity with
    | .ack ack =>
      let index := ack.item.index
      if threshold ≤ index ∧ !confirmed.contains index then
        groups.insert index ((groups.get? index).getD [] ++ [ack])
      else groups
    | _ => groups) .empty

/-- The acknowledgements of one index, by epoch and signer. -/
def epochMap (acks : List (Ack D Sig)) : Acks D Sig :=
  acks.foldl (fun epochs ack => epochs.insert ack.epoch
    (((epochs.get? ack.epoch).getD .empty).insert ack.attestation.signer ack)) .empty

/-- The digest of our own acknowledgement in the current epoch. -/
def ourDigest (epoch : ℕ) (acks : List (Ack D Sig)) : Option D :=
  ((cfg.provider epoch).bind Scheme.me).bind fun signer =>
    (acks.find? fun ack => decide (ack.epoch = epoch ∧ ack.attestation.signer = signer)).map
      fun ack => ack.item.digest

section

variable [DecidableEq D]

/-- The pending entry of the acknowledgements of one index. -/
def replayPending (epoch : ℕ) (acks : List (Ack D Sig)) : Pending D Sig :=
  match ourDigest cfg epoch acks with
  | some digest =>
    .verified digest (epochMap (acks.filter fun ack => decide (ack.item.digest = digest)))
  | none => .unverified (epochMap acks)

/-- Makes an entry for an index. -/
def replayGroup (e : Engine PK D Sig Cert) (group : ℕ × List (Ack D Sig)) :
    Engine PK D Sig Cert :=
  let pending := replayPending cfg e.epoch group.2
  let e := { e with pending := e.pending.insert group.1 pending }
  match pending with
  | .verified .. =>
    { e with rebroadcastDeadlines := group.1 :: e.rebroadcastDeadlines.erase group.1 }
  | .unverified .. => { e with digestRequests := e.digestRequests ++ [group.1] }

omit [DecidableEq D] in
/-- Makes an empty entry for an index that has none and is not confirmed. -/
def replayGap (e : Engine PK D Sig Cert) (index : ℕ) : Engine PK D Sig Cert :=
  if e.pending.contains index ∨ e.confirmed.contains index then e
  else
    let digestRequests := e.digestRequests ++ [index]
    { e with pending := e.pending.insert index (.unverified .empty), digestRequests }

/-- Restores the state from the journal.  The journal is read section by section, and the activities
of one index are in one section, so that reading them in the order of the writes gives the same. -/
def replay (e : Engine PK D Sig Cert) : Engine PK D Sig Cert :=
  let activities := activities cfg e.journal
  let tip := replayTip activities
  let threshold := activityThreshold cfg tip
  let confirmed := replayConfirmed threshold activities
  let e := { e with tip, confirmed }
  let e := (replayAcks threshold confirmed activities).entries.foldl (replayGroup cfg) e
  (List.range' e.tip (e.next - e.tip)).foldl replayGap e

/-! ### The main loop -/

omit [DecidableEq D] in
/-- Requests digests until the window is full.  Every request raises the next index, or fails at the
following one, so that `cfg.window + 1` rounds are enough. -/
def fill : ℕ → Engine PK D Sig Cert → Except (Halted D Sig Cert) (Engine PK D Sig Cert)
  | 0, e => .ok e
  | rounds + 1, e =>
    let next := e.next
    if next - e.tip < cfg.window then
      if e.pending.contains next then e.halt .occupied
      else
        let digestRequests := e.digestRequests ++ [next]
        fill rounds { e with pending := e.pending.insert next (.unverified .empty), digestRequests }
    else .ok e

def new (journal : List (Write (Activity D Sig Cert))) (epoch : ℕ) : Engine PK D Sig Cert :=
  ⟨epoch, 0, ⟨[], .empty, .empty⟩, .empty, .empty, [], [], journal, 0⟩

/-- Starts an engine in an epoch, on what an earlier one has written. -/
def start (journal : List (Write (Activity D Sig Cert))) (epoch : ℕ) :
    Except (Halted D Sig Cert) (Engine PK D Sig Cert) :=
  let e := replay cfg (new journal epoch)
  match cfg.provider epoch with
  | none => e.halt .missingScheme
  | some scheme =>
    match SafeTip.init scheme.participants with
    | .error fault => e.halt (.safeTip fault)
    | .ok safeTip => fill cfg (cfg.window + 1) { e with safeTip }

/-- What the main loop reacts to; the last argument says how pruning goes, if it comes to it. -/
inductive Event (PK D Sig : Type)
  | epoch (epoch : ℕ)
  /-- The application answers a request, or fails to. -/
  | digest (index : ℕ) (result : Option D) (prunes : ℕ → Pruning)
  | tipAck (sender : PK) (msg : TipAck D Sig) (prunes : ℕ → Pruning)
  /-- The deadline of an index passes. -/
  | rebroadcast (index : ℕ)

variable [DecidableEq PK]

omit [DecidableEq D] in
/-- Enters an epoch, and drops the acknowledgements of old ones. -/
def refreshEpoch (e : Engine PK D Sig Cert) (epoch : ℕ) :
    Except (Halted D Sig Cert) (Engine PK D Sig Cert) :=
  if epoch < e.epoch then e.halt .lowerEpoch
  else
    match cfg.provider epoch with
    | none => e.halt .missingScheme
    | some scheme =>
      match e.safeTip.reconcile scheme.participants with
      | .error fault => e.halt (.safeTip fault)
      | .ok safeTip =>
        let minEpoch := epoch - cfg.epochBounds.1
        let purge := fun pending : Pending D Sig =>
          pending.setAcks (pending.acks.filter fun epoch _ => decide (minEpoch ≤ epoch))
        let pending := e.pending.keys.foldl (fun m index => m.modify index purge) e.pending
        .ok { e with epoch, safeTip, pending }

omit [DecidableEq D] in
/-- Takes note of a peer's tip, and follows the safe tip if it is ahead. -/
def updateSafeTip (prunes : ℕ → Pruning) (e : Engine PK D Sig Cert) (sender : PK) (tip : ℕ) :
    Except (Halted D Sig Cert) (Engine PK D Sig Cert) :=
  match e.safeTip.update sender tip with
  | .error fault => e.halt (.safeTip fault)
  | .ok (safeTip, none) => .ok { e with safeTip }
  | .ok (safeTip, some _) =>
    match safeTip.get with
    | .error fault => e.halt (.safeTip fault)
    | .ok safe =>
      let e := { e with safeTip }
      if e.tip < safe then e.fastForwardTip cfg prunes safe else .ok e

/-- One event.  The application and the deadlines only speak of indices that are waited for. -/
def react (e : Engine PK D Sig Cert) : Event PK D Sig →
    Except (Halted D Sig Cert) (Engine PK D Sig Cert)
  | .epoch epoch => e.refreshEpoch cfg epoch
  | .digest index result prunes =>
    if index ∈ e.digestRequests then
      let e := { e with digestRequests := e.digestRequests.erase index }
      match result with
      | none => .ok e
      | some digest => (e.handleDigest cfg prunes index digest).map Prod.fst
    else .ok e
  | .tipAck sender msg prunes => do
      let e ← e.updateSafeTip cfg prunes sender msg.tip
      match e.validateAck cfg msg.ack sender with
      | .error _ => pure e
      | .ok () => (e.handleAck cfg prunes msg.ack).map Prod.fst
  | .rebroadcast index =>
    if index ∈ e.rebroadcastDeadlines then
      let e := { e with rebroadcastDeadlines := e.rebroadcastDeadlines.erase index }
      (e.handleRebroadcast cfg index).map Prod.fst
    else .ok e

/-- One turn of the main loop. -/
def handle (e : Engine PK D Sig Cert) (event : Event PK D Sig) :
    Except (Halted D Sig Cert) (Engine PK D Sig Cert) := do
  let e ← e.react cfg event
  fill cfg (cfg.window + 1) e

end

end Engine

/-! ### Runs -/

section

variable [DecidableEq D] [DecidableEq PK] (cfg : Config PK D Sig Cert)

/-- What can happen to an engine: an event, or a crash during an event that leaves the given
journal, and a restart in some epoch. -/
inductive Action (PK D Sig Cert : Type)
  | handle (event : Engine.Event PK D Sig)
  | crash (event : Engine.Event PK D Sig) (journal : List (Write (Activity D Sig Cert)))
      (epoch : ℕ)

/-- The journal that a crash leaves has all earlier writes and some of those of the event. -/
inductive Act (e : Engine PK D Sig Cert) : Action PK D Sig Cert → Engine PK D Sig Cert → Prop
  | handle {event : Engine.Event PK D Sig} {e' : Engine PK D Sig Cert}
      (h : e.handle cfg event = .ok e') : Act e (.handle event) e'
  | crash {event : Engine.Event PK D Sig} {journal : List (Write (Activity D Sig Cert))}
      {epoch : ℕ} {e' : Engine PK D Sig Cert} (before : e.journal <+: journal)
      (after : journal <+: Promise.written Engine.journal (e.handle cfg event))
      (h : Engine.start cfg journal epoch = .ok e') : Act e (.crash event journal epoch) e'

/-- The states an engine reaches from an empty journal by actions that are allowed in the state
before them. -/
inductive Run (Allowed : Engine PK D Sig Cert → Action PK D Sig Cert → Prop) :
    Engine PK D Sig Cert → Prop
  | start {epoch : ℕ} {e : Engine PK D Sig Cert} (h : Engine.start cfg [] epoch = .ok e) :
      Run Allowed e
  | act {e e' : Engine PK D Sig Cert} {action : Action PK D Sig Cert} (run : Run Allowed e)
      (allowed : Allowed e action) (h : Act cfg e action e') : Run Allowed e'

end

end Commonware.Aggregation
