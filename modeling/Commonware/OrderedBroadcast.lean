/-
**Ordered broadcast.**

The engine of `consensus/src/ordered_broadcast`.  Sequencers broadcast chains of chunks, one at each
height; validators acknowledge them, and a chunk may be followed by the next once a quorum has
acknowledged it.  A validator remembers the highest node of every sequencer, its tip, and writes each
new tip to a journal of that sequencer.  A journal is read back only when it is first needed.

A step handles one event.  Writing to a journal is followed at once by a sync, and pruning may fail
without notice, so that every point at which a process can be killed is one at which it is killed
between two events: before the event whose write is lost, or after it, without the pruning.

Main definitions:

* `Chunk`, `Node`, `Ack` — what sequencers broadcast and validators sign;
* `AckManager` — the acknowledgements and certificates of recent chunks;
* `Engine`, `Engine.handle`, `Engine.start` — the engine, one event, and the start from journals;
* `Run` — what can happen to an engine with crashes and restarts.
-/

import Commonware.CertificateScheme
import Commonware.OrdMap
import Commonware.Outcome
import Commonware.WireCodec

set_option autoImplicit false

namespace Commonware.OrderedBroadcast

open Function

open Wire (Bytes ascii)

/-! ### Messages -/

section Types

variable (PK D CSig Sig Cert : Type)

/-- The payload of a sequencer at a height. -/
structure Chunk where
  sequencer : PK
  height : ℕ
  payload : D
  deriving DecidableEq

/-- The parent of a chunk, with the certificate of a quorum. -/
structure Parent where
  digest : D
  epoch : ℕ
  certificate : Cert
  deriving DecidableEq

/-- A chunk with the signature of its sequencer.  All chunks but the first of a chain have a
parent. -/
structure Node where
  chunk : Chunk PK D
  signature : CSig
  parent : Option (Parent D Cert)
  parent_eq_none_iff : parent = none ↔ chunk.height = 0
  deriving DecidableEq

/-- What a validator signs. -/
structure AckSubject where
  chunk : Chunk PK D
  epoch : ℕ
  deriving DecidableEq

/-- The acknowledgement of a chunk by a validator. -/
structure Ack where
  chunk : Chunk PK D
  epoch : ℕ
  attestation : Attestation Sig
  deriving DecidableEq

/-- What the application proposes or verifies a payload for. -/
structure Context where
  sequencer : PK
  height : ℕ
  deriving DecidableEq

end Types

/-- Why a message is rejected. -/
inductive Error (PK : Type)
  | parentMissing
  | unknownScheme (epoch : ℕ)
  | unknownSequencer (epoch : ℕ) (sequencer : PK)
  | unknownValidator (epoch : ℕ) (validator : PK)
  | peerMismatch
  | invalidSequencerSignature
  | invalidCertificate
  | invalidAckSignature
  | ackEpochOutsideBounds (epoch lo hi : ℕ)
  | ackHeightOutsideBounds (height lo hi : ℕ)
  | chunkHeightTooLow (height tip : ℕ)
  | chunkMismatch (sequencer : PK) (height : ℕ)
  deriving DecidableEq

/-- Why the process stops. -/
inductive Fault
  /-- A tip is replaced by a lower one. -/
  | lowerTip
  /-- A tip is replaced by one of the same height and another payload. -/
  | conflictingTip
  /-- The tip of a journal is known before the journal is read. -/
  | knownTip
  /-- A journal is written that is not open. -/
  | missingJournal
  /-- A height exceeds the range of 64 bits. -/
  | heightOverflow
  /-- The epoch goes back. -/
  | lowerEpoch
  deriving DecidableEq

variable {PK D CSig Sig Cert : Type}

def chunkNamespace (ns : Namespace) : Bytes := ns ++ ascii "_CHUNK"

def ackNamespace (ns : Namespace) : Bytes := ns ++ ascii "_ACK"

/-- What an engine is configured with. -/
structure Config (PK D CSig Sig Cert : Type) where
  ns : Namespace
  /-- The identity of a sequencer and how it signs chunks. -/
  signer : Option (PK × (Bytes → Chunk PK D → CSig))
  sequencers : ℕ → Option (List PK)
  validators : ℕ → Option (Scheme (AckSubject PK D) Sig Cert PK)
  verifyChunk : PK → Bytes → Chunk PK D → CSig → Bool
  epochBounds : ℕ × ℕ
  heightBound : ℕ
  heightsPerSection : ℕ
  heightsPerSection_pos : 0 < heightsPerSection

/-- Whether a node can be decoded: the scheme that bounds the certificate of its parent is known. -/
def Config.readStaged (cfg : Config PK D CSig Sig Cert) (node : Node PK D CSig Cert) : Bool :=
  match node.parent with
  | none => true
  | some parent => (cfg.validators parent.epoch).isSome

/-- Verifies a node and its parent, which is returned. -/
def Node.verify (cfg : Config PK D CSig Sig Cert) (node : Node PK D CSig Cert) :
    Except (Error PK) (Option (Chunk PK D)) :=
  if !cfg.verifyChunk node.chunk.sequencer (chunkNamespace cfg.ns) node.chunk node.signature then
    .error .invalidSequencerSignature
  else
    match node.parent with
    | none => .ok none
    | some parent =>
      if node.chunk.height = 0 then .error .parentMissing
      else
        let parentChunk : Chunk PK D :=
          ⟨node.chunk.sequencer, node.chunk.height - 1, parent.digest⟩
        match cfg.validators parent.epoch with
        | none => .error (.unknownScheme parent.epoch)
        | some scheme =>
          if scheme.verifyCertificate (ackNamespace cfg.ns) ⟨parentChunk, parent.epoch⟩
            parent.certificate then .ok (some parentChunk)
          else .error .invalidCertificate

def Ack.verify (cfg : Config PK D CSig Sig Cert) (scheme : Scheme (AckSubject PK D) Sig Cert PK)
    (ack : Ack PK D Sig) : Bool :=
  scheme.verifyAttestation (ackNamespace cfg.ns) ⟨ack.chunk, ack.epoch⟩ ack.attestation

def Ack.sign (cfg : Config PK D CSig Sig Cert) (scheme : Scheme (AckSubject PK D) Sig Cert PK)
    (chunk : Chunk PK D) (epoch : ℕ) : Option (Ack PK D Sig) :=
  (scheme.sign (ackNamespace cfg.ns) ⟨chunk, epoch⟩).map fun attestation =>
    ⟨chunk, epoch, attestation⟩

/-! ### The ack manager -/

section AckManager

variable [DecidableEq PK] [DecidableEq D]

/-- The acknowledgements of a chunk: votes for payloads, or a certificate. -/
inductive Evidence (D Sig Cert : Type)
  | partials (signers : List ℕ) (attestations : D → List (Attestation Sig))
  | certificate (certificate : Cert)

/-- The evidence of each sequencer, by height and epoch. -/
def AckManager (PK D Sig Cert : Type) : Type :=
  PK → OrdMap ℕ (OrdMap ℕ (Evidence D Sig Cert))

namespace AckManager

def new : AckManager PK D Sig Cert := fun _ => .empty

variable (m : AckManager PK D Sig Cert)

/-- The evidence of a sequencer for a height. -/
def heights (sequencer : PK) (height : ℕ) : OrdMap ℕ (Evidence D Sig Cert) :=
  ((m sequencer).get? height).getD .empty

/-- Replaces the evidence of a sequencer for a height and an epoch. -/
def set (sequencer : PK) (height epoch : ℕ) (evidence : Evidence D Sig Cert) :
    AckManager PK D Sig Cert :=
  update m sequencer
    ((m sequencer).insert height ((m.heights sequencer height).insert epoch evidence))

/-- Adds a vote; returns the certificate if this vote completes one. -/
def addAck (ack : Ack PK D Sig) (scheme : Scheme (AckSubject PK D) Sig Cert PK) :
    AckManager PK D Sig Cert × Option Cert :=
  match ((m.heights ack.chunk.sequencer ack.chunk.height).get? ack.epoch).getD
      (.partials [] fun _ => []) with
  | .certificate _ => (m, none)
  | .partials signers attestations =>
    if ack.attestation.signer ∈ signers then (m, none)
    else
      let signers := ack.attestation.signer :: signers
      let votes := attestations ack.chunk.payload ++ [ack.attestation]
      let store votes := m.set ack.chunk.sequencer ack.chunk.height ack.epoch
        (.partials signers (update attestations ack.chunk.payload votes))
      match scheme.assemble votes with
      | none => (store votes, none)
      | some certificate => (store [], some certificate)

/-- The certificate of the highest epoch. -/
def getCertificate (sequencer : PK) (height : ℕ) : Option (ℕ × Cert) :=
  (m.heights sequencer height).entries.reverse.findSome? fun e =>
    match e.2 with
    | .certificate c => some (e.1, c)
    | .partials _ _ => none

/-- Sets a certificate; returns whether there was none.  A new certificate drops the evidence below
the parent. -/
def addCertificate (sequencer : PK) (height epoch : ℕ) (certificate : Cert) :
    AckManager PK D Sig Cert × Bool :=
  let m' := m.set sequencer height epoch (.certificate certificate)
  match (m.heights sequencer height).get? epoch with
  | some (.certificate _) => (m', false)
  | _ => (update m' sequencer
      ((m' sequencer).filter fun h _ => decide (height - 1 ≤ h)), true)

end AckManager

end AckManager

/-! ### The engine -/

/-- What an engine tells the network and the application. -/
inductive Output (PK D CSig Sig Cert : Type)
  | signed (ack : Ack PK D Sig)
  | tip (chunk : Chunk PK D) (signature : CSig)
  | lock (chunk : Chunk PK D) (epoch : ℕ) (certificate : Cert)
  | broadcast (node : Node PK D CSig Cert)

/-- The state of an engine: what it keeps in memory, and the journals on disk. -/
structure Engine (PK D CSig Sig Cert : Type) where
  epoch : ℕ
  tips : PK → Option (Node PK D CSig Cert)
  acks : AckManager PK D Sig Cert
  pendingVerifies : List (Context PK × D)
  /-- The proposal that the application has been asked for. -/
  pending : Option (Context PK)
  /-- The journals that are open. -/
  journals : PK → Bool
  disk : PK → List (Node PK D CSig Cert)

section

variable [DecidableEq PK] [DecidableEq D]

/-- Inserts a tip; returns whether it is new. -/
def put (tips : PK → Option (Node PK D CSig Cert)) (node : Node PK D CSig Cert) :
    Except Fault ((PK → Option (Node PK D CSig Cert)) × Bool) :=
  match tips node.chunk.sequencer with
  | none => .ok (update tips node.chunk.sequencer (some node), true)
  | some old =>
    if node.chunk.height < old.chunk.height then .error .lowerTip
    else if old.chunk.height = node.chunk.height then
      if old.chunk.payload = node.chunk.payload then .ok (tips, false)
      else .error .conflictingTip
    else .ok (update tips node.chunk.sequencer (some node), true)

/-- One record of a replay: the highest node so far is kept. -/
def replayRecord (tip : Option (Node PK D CSig Cert)) (node : Node PK D CSig Cert) :
    Option (Node PK D CSig Cert) :=
  match tip with
  | none => some node
  | some t => if t.chunk.height < node.chunk.height then some node else some t

def replayTip (journal : List (Node PK D CSig Cert)) : Option (Node PK D CSig Cert) :=
  journal.foldl replayRecord none

namespace Engine

variable (cfg : Config PK D CSig Sig Cert)
  (e : Engine PK D CSig Sig Cert) (node : Node PK D CSig Cert)

/-- Opens and replays the journal of a sequencer, unless it is open. -/
def journalPrepare (sequencer : PK) : Except Fault (Engine PK D CSig Sig Cert) :=
  if e.journals sequencer then .ok e
  else
    match replayTip (e.disk sequencer) with
    | none => .ok { e with journals := update e.journals sequencer true }
    | some node =>
      match put e.tips node with
      | .error fault => .error fault
      | .ok (tips, isNew) =>
        if isNew then
          .ok { e with tips, journals := update e.journals sequencer true }
        else .error .knownTip

def journalAppend : Except Fault (Engine PK D CSig Sig Cert) :=
  if e.journals node.chunk.sequencer then
    let journal := e.disk node.chunk.sequencer ++ [node]
    .ok { e with disk := update e.disk node.chunk.sequencer journal }
  else .error .missingJournal

def getJournalSection (height : ℕ) : ℕ := height / cfg.heightsPerSection

/-- Syncs a journal, and drops the sections below that of a height if pruning succeeds. -/
def journalSync (sequencer : PK) (height : ℕ) (pruned : Bool) :
    Except Fault (Engine PK D CSig Sig Cert) :=
  if e.journals sequencer then
    if pruned then
      let journal := (e.disk sequencer).filter fun node =>
        decide (getJournalSection cfg height ≤ getJournalSection cfg node.chunk.height)
      .ok { e with disk := update e.disk sequencer journal }
    else .ok e
  else .error .missingJournal

def handleCertificate (chunk : Chunk PK D) (epoch : ℕ) (certificate : Cert) :
    Engine PK D CSig Sig Cert × List (Output PK D CSig Sig Cert) :=
  let (acks, isNew) := e.acks.addCertificate chunk.sequencer chunk.height epoch certificate
  ({ e with acks }, if isNew then [.lock chunk epoch certificate] else [])

def handleAck (ack : Ack PK D Sig) : Engine PK D CSig Sig Cert × List (Output PK D CSig Sig Cert) :=
  match cfg.validators ack.epoch with
  | none => (e, [])
  | some scheme =>
    match e.acks.addAck ack scheme with
    | (acks, none) => ({ e with acks }, [])
    | (acks, some certificate) =>
      handleCertificate { e with acks } ack.chunk ack.epoch certificate

/-- Stores a node as the tip of its sequencer and has the application verify it. -/
def handleNode (pruned : Bool) : Except Fault (Engine PK D CSig Sig Cert) := do
  let (tips, isNew) ← put e.tips node
  let e := { e with tips }
  let e ← if isNew then do
      let e ← e.journalAppend node
      e.journalSync cfg node.chunk.sequencer node.chunk.height pruned
    else pure e
  let context : Context PK := ⟨node.chunk.sequencer, node.chunk.height⟩
  pure { e with pendingVerifies := e.pendingVerifies ++ [(context, node.chunk.payload)] }

/-- Signs the tip of a sequencer that the application has verified. -/
def handleAppVerified (context : Context PK) (payload : D) (pruned : Bool) :
    Except Fault (Engine PK D CSig Sig Cert × List (Output PK D CSig Sig Cert)) :=
  match e.tips context.sequencer with
  | none => .ok (e, [])
  | some tip =>
    if tip.chunk.height ≠ context.height then .ok (e, [])
    else if tip.chunk.payload ≠ payload then .ok (e, [])
    else
      match cfg.validators e.epoch with
      | none => .ok (e, [.tip tip.chunk tip.signature])
      | some scheme =>
        match Ack.sign cfg scheme tip.chunk e.epoch with
        | none => .ok (e, [.tip tip.chunk tip.signature])
        | some ack => do
            let e ← e.journalSync cfg context.sequencer context.height pruned
            let (e, out) := e.handleAck cfg ack
            pure (e, .tip tip.chunk tip.signature :: .signed ack :: out)

/-! ### Proposing -/

/-- Whether a public key belongs to a sequencer of an epoch. -/
def isSequencer (epoch : ℕ) (pk : PK) : Bool :=
  match cfg.sequencers epoch with
  | none => false
  | some sequencers => decide (pk ∈ sequencers)

def nextHeight (height : ℕ) : Except Fault ℕ :=
  if height + 1 < 2 ^ 64 then .ok (height + 1) else .error .heightOverflow

def shouldPropose : Except Fault (Option (Context PK)) :=
  match cfg.signer with
  | none => .ok none
  | some (me, _) =>
    if !isSequencer cfg e.epoch me then .ok none
    else
      match e.tips me with
      | none => .ok (some ⟨me, 0⟩)
      | some tip =>
        match e.acks.getCertificate me tip.chunk.height with
        | none => .ok none
        | some _ => (nextHeight tip.chunk.height).map fun height => some ⟨me, height⟩

/-- Broadcasts a node if the validators of the epoch are known. -/
def broadcast : List (Output PK D CSig Sig Cert) :=
  if (cfg.validators e.epoch).isSome then [.broadcast node] else []

/-- The next node of the own chain: its height and its parent. -/
def nextParent (me : PK) :
    Except Fault (Option {x : ℕ × Option (Parent D Cert) // x.2 = none ↔ x.1 = 0}) :=
  match e.tips me with
  | none => .ok (some ⟨(0, none), by simp⟩)
  | some tip =>
    match e.acks.getCertificate me tip.chunk.height with
    | none => .ok none
    | some (epoch, certificate) =>
      if tip.chunk.height + 1 < 2 ^ 64 then
        .ok (some ⟨(tip.chunk.height + 1, some ⟨tip.chunk.payload, epoch, certificate⟩),
          by simp⟩)
      else .error .heightOverflow

def propose (context : Context PK) (payload : D) (pruned : Bool) :
    Except Fault (Engine PK D CSig Sig Cert × List (Output PK D CSig Sig Cert)) :=
  match cfg.signer with
  | none => .ok (e, [])
  | some (me, sign) =>
    if context.sequencer ≠ me then .ok (e, [])
    else if !isSequencer cfg e.epoch me then .ok (e, [])
    else
      match e.nextParent me with
      | .error fault => .error fault
      | .ok none => .ok (e, [])
      | .ok (some ⟨(height, parent), h⟩) =>
        if context.height ≠ height then .ok (e, [])
        else do
          let chunk : Chunk PK D := ⟨me, height, payload⟩
          let node : Node PK D CSig Cert :=
            ⟨chunk, sign (chunkNamespace cfg.ns) chunk, parent, h⟩
          let e ← e.handleNode cfg node pruned
          let e ← e.journalSync cfg me height pruned
          pure (e, e.broadcast cfg node)

/-- Broadcasts the own tip again while it has no certificate. -/
def rebroadcast : List (Output PK D CSig Sig Cert) :=
  match cfg.signer with
  | none => []
  | some (me, _) =>
    if !isSequencer cfg e.epoch me then []
    else
      match e.tips me with
      | none => []
      | some tip =>
        if (e.acks.getCertificate me tip.chunk.height).isSome then []
        else e.broadcast cfg tip

/-! ### Validation -/

def validateChunk (chunk : Chunk PK D) (epoch : ℕ) : Except (Error PK) Unit :=
  if !isSequencer cfg epoch chunk.sequencer then .error (.unknownSequencer epoch chunk.sequencer)
  else
    match e.tips chunk.sequencer with
    | none => .ok ()
    | some tip =>
      if chunk.height < tip.chunk.height then
        .error (.chunkHeightTooLow chunk.height tip.chunk.height)
      else if chunk.height = tip.chunk.height ∧ tip.chunk.payload ≠ chunk.payload then
        .error (.chunkMismatch chunk.sequencer chunk.height)
      else .ok ()

/-- Validates a node of a sender; returns its parent unless the node is the tip. -/
def validateNode [DecidableEq CSig] [DecidableEq Cert] (sender : PK) :
    Except (Error PK) (Option (Chunk PK D)) :=
  if node.chunk.sequencer ≠ sender then .error .peerMismatch
  else if e.tips sender = some node then .ok none
  else
    match e.validateChunk cfg node.chunk e.epoch with
    | .error error => .error error
    | .ok () => node.verify cfg

def validateAck (ack : Ack PK D Sig) (sender : PK) : Except (Error PK) Unit :=
  match e.validateChunk cfg ack.chunk ack.epoch with
  | .error error => .error error
  | .ok () =>
    match cfg.validators ack.epoch with
    | none => .error (.unknownScheme ack.epoch)
    | some scheme =>
      let boundLo := e.epoch - cfg.epochBounds.1
      let boundHi := min (e.epoch + cfg.epochBounds.2) (2 ^ 64 - 1)
      let heightLo := match e.tips ack.chunk.sequencer with
        | none => 0
        | some tip => tip.chunk.height
      let heightHi := heightLo + cfg.heightBound
      if sender ∉ scheme.participants then .error (.unknownValidator ack.epoch sender)
      else if scheme.participants.idxOf sender ≠ ack.attestation.signer then
        .error .peerMismatch
      else if ack.epoch < boundLo ∨ boundHi < ack.epoch then
        .error (.ackEpochOutsideBounds ack.epoch boundLo boundHi)
      else if ack.chunk.height < heightLo ∨ heightHi < ack.chunk.height then
        .error (.ackHeightOutsideBounds ack.chunk.height heightLo heightHi)
      else if !ack.verify cfg scheme then .error .invalidAckSignature
      else .ok ()

/-! ### Events -/

end Engine

/-- What the main loop reacts to. -/
inductive Event (PK D CSig Sig Cert : Type)
  /-- The epoch changes. -/
  | epoch (epoch : ℕ)
  /-- The rebroadcast deadline passes. -/
  | rebroadcast
  /-- The application is asked for a proposal, if one is due. -/
  | request
  /-- The application answers a request, or drops it. -/
  | proposed (payload : Option D) (pruned : Bool)
  | node (sender : PK) (node : Node PK D CSig Cert) (pruned : Bool)
  | ack (sender : PK) (ack : Ack PK D Sig)
  /-- The application completes one of the verifications, or drops it. -/
  | verified (index : ℕ) (result : Option Bool) (pruned : Bool)

namespace Engine

variable (cfg : Config PK D CSig Sig Cert) [DecidableEq CSig] [DecidableEq Cert]

omit [DecidableEq CSig] [DecidableEq Cert] in
/-- Handles the certificate of a node's parent. -/
def handleParent (e : Engine PK D CSig Sig Cert) (node : Node PK D CSig Cert)
    (result : Option (Chunk PK D)) :
    Engine PK D CSig Sig Cert × List (Output PK D CSig Sig Cert) :=
  match result, node.parent with
  | some parentChunk, some parent =>
    e.handleCertificate parentChunk parent.epoch parent.certificate
  | _, _ => (e, [])

def receiveNode (e : Engine PK D CSig Sig Cert) (sender : PK) (node : Node PK D CSig Cert)
    (pruned : Bool) :
    Except Fault (Engine PK D CSig Sig Cert × List (Output PK D CSig Sig Cert)) :=
  if !cfg.readStaged node then .ok (e, [])
  else
    match e.validateNode cfg node sender with
    | .error _ => .ok (e, [])
    | .ok result => do
        let e ← e.journalPrepare sender
        let (e, out) := e.handleParent node result
        let e ← e.handleNode cfg node pruned
        pure (e, out)

def handle (e : Engine PK D CSig Sig Cert) :
    Event PK D CSig Sig Cert →
      Except Fault (Engine PK D CSig Sig Cert × List (Output PK D CSig Sig Cert))
  | .epoch epoch => if e.epoch ≤ epoch then .ok ({ e with epoch }, []) else .error .lowerEpoch
  | .rebroadcast => .ok (e, e.rebroadcast cfg)
  | .request =>
    if e.pending.isSome then .ok (e, [])
    else (e.shouldPropose cfg).map fun pending => ({ e with pending }, [])
  | .proposed payload pruned =>
    match e.pending, payload with
    | some context, some payload => { e with pending := none }.propose cfg context payload pruned
    | _, _ => .ok ({ e with pending := none }, [])
  | .node sender node pruned => e.receiveNode cfg sender node pruned
  | .ack sender ack =>
    match e.validateAck cfg ack sender with
    | .error _ => .ok (e, [])
    | .ok () => .ok (e.handleAck cfg ack)
  | .verified index result pruned =>
    match e.pendingVerifies[index]? with
    | none => .ok (e, [])
    | some (context, payload) =>
      let e := { e with pendingVerifies := e.pendingVerifies.eraseIdx index }
      if result = some true then e.handleAppVerified cfg context payload pruned
      else .ok (e, [])

omit [DecidableEq CSig] [DecidableEq Cert] in
def new (disk : PK → List (Node PK D CSig Cert)) (epoch : ℕ) : Engine PK D CSig Sig Cert :=
  ⟨epoch, fun _ => none, .new, [], none, fun _ => false, disk⟩

/-- Starts an engine from the journals on disk: only the own journal is read. -/
def start (disk : PK → List (Node PK D CSig Cert)) (epoch : ℕ) :
    Except Fault (Engine PK D CSig Sig Cert × List (Output PK D CSig Sig Cert)) :=
  match cfg.signer with
  | none => .ok (new disk epoch, [])
  | some (me, _) => do
      let e ← (new disk epoch).journalPrepare me
      pure (e, e.rebroadcast cfg)

end Engine

/-- What can happen to an engine: an event, or a crash that leaves only the journals and a restart
in some epoch. -/
inductive Action (PK D CSig Sig Cert : Type)
  | handle (event : Event PK D CSig Sig Cert)
  | restart (epoch : ℕ)

/-- One action, with everything the engine has told so far. -/
def Engine.act (cfg : Config PK D CSig Sig Cert) [DecidableEq CSig] [DecidableEq Cert]
    (s : Engine PK D CSig Sig Cert × List (Output PK D CSig Sig Cert)) :
    Action PK D CSig Sig Cert →
      Except Fault (Engine PK D CSig Sig Cert × List (Output PK D CSig Sig Cert))
  | .handle event => (s.1.handle cfg event).map fun r => (r.1, s.2 ++ r.2)
  | .restart epoch => (start cfg s.1.disk epoch).map fun r => (r.1, s.2 ++ r.2)

/-- The states an engine reaches from empty journals. -/
inductive Run (cfg : Config PK D CSig Sig Cert) [DecidableEq CSig] [DecidableEq Cert] :
    Engine PK D CSig Sig Cert × List (Output PK D CSig Sig Cert) → Prop
  | start {epoch : ℕ} {s : Engine PK D CSig Sig Cert × List (Output PK D CSig Sig Cert)}
      (h : Engine.start cfg (fun _ => []) epoch = .ok s) : Run cfg s
  | act {s s' : Engine PK D CSig Sig Cert × List (Output PK D CSig Sig Cert)}
      {action : Action PK D CSig Sig Cert} (run : Run cfg s)
      (h : Engine.act cfg s action = .ok s') : Run cfg s'

theorem Run.foldlM {cfg : Config PK D CSig Sig Cert} [DecidableEq CSig] [DecidableEq Cert]
    {actions : List (Action PK D CSig Sig Cert)}
    {s s' : Engine PK D CSig Sig Cert × List (Output PK D CSig Sig Cert)} (run : Run cfg s)
    (h : actions.foldlM (Engine.act cfg) s = .ok s') : Run cfg s' :=
  foldlM_keeps (fun _ run ha => run.act ha) run h

end

end Commonware.OrderedBroadcast
