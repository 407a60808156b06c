/-
**The marshal.**

The actor of `consensus/src/marshal/actor.rs` puts finalized blocks into order: it stores what
consensus finalizes, fetches missing blocks backwards along the parent links, and reports the blocks
to the application by height, one at a time.  The height that the application has acknowledged is
kept in a metadata store; it can also be raised from outside.

Everything durable is a log: the writes to the archives, to the cache of `cache.rs` and to the
metadata, in their order, together with what is reported.  What the stores hold is computed from the
log, so that the states a crash can leave are the prefixes of the log of an event.  A failed write
is a crash before it.

The two loops of the gap repair run for a number of rounds that the event gives; what the code does
is what the model does with enough rounds.  Deliveries can come for anything that was requested since
the start, so that cancelling requests has no effect here.  Subscribers, answers to peers and
metrics are not part of the model.

Main definitions:

* `Archive`, `Cache`, `Storage` — the stores;
* `Entry`, `stored` — the log, and the stores after it;
* `Actor`, its handlers, `Actor.handle` and `Actor.start`;
* `Reach` — the logs and actors of runs with crashes at any point.
-/

import Commonware.InOrderDelivery
import Commonware.OrdMap
import Commonware.SimplexTypes
import Commonware.WriteLog

set_option autoImplicit false

namespace Commonware.Marshal

open Simplex (Rnd Notarization Finalization)
open WriteLog

variable {B C Sig Cert PK : Type}

def u64Max : ℕ := 2 ^ 64 - 1

/-! ### Archives -/

/-- Values by index, each with a key; indices below the oldest one that is allowed are refused. -/
structure Archive (C V : Type) where
  items : OrdMap ℕ (C × V)
  oldestAllowed : ℕ

namespace Archive

variable {V : Type}

def empty : Archive C V := ⟨.empty, 0⟩

variable (a : Archive C V)

/-- Stores a value unless its index is taken; fails below the oldest index that is allowed. -/
def put (index : ℕ) (key : C) (value : V) : Option (Archive C V) :=
  if index < a.oldestAllowed then none
  else if a.items.contains index then some a
  else some { a with items := a.items.insert index (key, value) }

def get (a : Archive C V) (index : ℕ) : Option V := (a.items.get? index).map Prod.snd

def getKey [DecidableEq C] (key : C) : Option V :=
  (a.items.values.find? fun item => decide (item.1 = key)).map Prod.snd

/-- Drops the sections below the one of an index. -/
def prune (itemsPerSection : ℕ) (a : Archive C V) (min : ℕ) : Archive C V :=
  let bound := min / itemsPerSection * itemsPerSection
  if bound ≤ a.oldestAllowed then a
  else ⟨a.items.filter fun index _ => decide (bound ≤ index), bound⟩

/-- An archive that is opened again has forgotten what it refuses. -/
def reopen : Archive C V := { a with oldestAllowed := 0 }

/-- The end of the range of indices around a value, and the start of the next range. -/
def nextGap (value : ℕ) : Option ℕ × Option ℕ :=
  let indices := a.items.keys
  let rangeEnd := indices.foldl (fun last index => if index = last + 1 then index else last) value
  (if a.items.contains value then some rangeEnd else none,
    indices.find? fun index => decide (value < index) && !a.items.contains (index - 1))

/-- Up to `max` indices from a start on that are missing below an index that is present. -/
def missingItems (start max : ℕ) : List ℕ :=
  match a.items.last? with
  | none => []
  | some (last, _) =>
    ((List.range' start (last - start)).filter fun index => !a.items.contains index).take max

end Archive

/-- The archives of one epoch, by view. -/
structure EpochCache (B C Cert : Type) where
  verifiedBlocks : Archive C B
  notarizedBlocks : Archive C B
  notarizations : Archive C (Notarization C Cert)
  finalizations : Archive C (Finalization C Cert)

namespace EpochCache

def empty : EpochCache B C Cert := ⟨.empty, .empty, .empty, .empty⟩

def prune (itemsPerSection : ℕ) (c : EpochCache B C Cert) (minView : ℕ) : EpochCache B C Cert :=
  ⟨c.verifiedBlocks.prune itemsPerSection minView, c.notarizedBlocks.prune itemsPerSection minView,
    c.notarizations.prune itemsPerSection minView, c.finalizations.prune itemsPerSection minView⟩

def reopen (c : EpochCache B C Cert) : EpochCache B C Cert :=
  ⟨c.verifiedBlocks.reopen, c.notarizedBlocks.reopen, c.notarizations.reopen,
    c.finalizations.reopen⟩

end EpochCache

/-- The caches of the epochs that are open, those that are only on disk, and the range of epochs
that may have data. -/
structure Cache (B C Cert : Type) where
  caches : OrdMap ℕ (EpochCache B C Cert)
  closed : OrdMap ℕ (EpochCache B C Cert)
  floor : ℕ
  ceiling : ℕ

namespace Cache

def empty : Cache B C Cert := ⟨.empty, .empty, 0, 0⟩

variable (c : Cache B C Cert)

/-- Opens the cache of an epoch, unless the epoch has been pruned. -/
def getOrInitEpoch (epoch : ℕ) : Option (EpochCache B C Cert × Cache B C Cert) :=
  match c.caches.get? epoch with
  | some cache => some (cache, c)
  | none =>
    if epoch < c.floor then none
    else
      let cache := (c.closed.get? epoch).getD .empty
      some (cache, { c with
        caches := c.caches.insert epoch cache
        closed := c.closed.erase epoch
        ceiling := max c.ceiling epoch })

/-- Changes the cache of an epoch, if it is not pruned. -/
def update (epoch : ℕ) (f : EpochCache B C Cert → EpochCache B C Cert) : Cache B C Cert :=
  match c.getOrInitEpoch epoch with
  | none => c
  | some (cache, c) => { c with caches := c.caches.insert epoch (f cache) }

def putVerified (round : Rnd) (commitment : C) (block : B) : Cache B C Cert :=
  c.update round.epoch fun e => { e with
    verifiedBlocks := (e.verifiedBlocks.put round.view commitment block).getD e.verifiedBlocks }

def putBlock (round : Rnd) (commitment : C) (block : B) : Cache B C Cert :=
  c.update round.epoch fun e => { e with
    notarizedBlocks := (e.notarizedBlocks.put round.view commitment block).getD e.notarizedBlocks }

def putNotarization (round : Rnd) (commitment : C) (notarization : Notarization C Cert) :
    Cache B C Cert :=
  c.update round.epoch fun e => { e with
    notarizations :=
      (e.notarizations.put round.view commitment notarization).getD e.notarizations }

def putFinalization (round : Rnd) (commitment : C) (finalization : Finalization C Cert) :
    Cache B C Cert :=
  c.update round.epoch fun e => { e with
    finalizations :=
      (e.finalizations.put round.view commitment finalization).getD e.finalizations }

section

variable [DecidableEq C]

/-- A finalization of a commitment, from the latest epoch that has one. -/
def getFinalizationFor (c : Cache B C Cert) (commitment : C) : Option (Finalization C Cert) :=
  c.caches.values.reverse.findSome? fun cache => cache.finalizations.getKey commitment

/-- A verified or notarized block, from the latest epoch that has one. -/
def findBlock (c : Cache B C Cert) (commitment : C) : Option B :=
  c.caches.values.reverse.findSome? fun cache =>
    (cache.verifiedBlocks.getKey commitment).or (cache.notarizedBlocks.getKey commitment)

end

/-- Drops the epochs before that of a round, and in its epoch the views below it. -/
def prune (itemsPerSection : ℕ) (c : Cache B C Cert) (round : Rnd) : Cache B C Cert :=
  let caches := c.caches.filter fun epoch _ => decide (round.epoch ≤ epoch)
  { c with
    caches := caches.modify round.epoch fun cache => cache.prune itemsPerSection round.view
    floor := max c.floor round.epoch
    ceiling := if c.floor < round.epoch then max c.ceiling round.epoch else c.ceiling }

/-- After a restart no epoch is open. -/
def reopen (c : Cache B C Cert) : Cache B C Cert :=
  { c with
    caches := .empty
    closed := c.caches.entries.foldl (fun m entry => m.insert entry.1 entry.2.reopen) c.closed }

end Cache

/-! ### The log -/

/-- What an actor is configured with; an archive without sections is never pruned. -/
structure Config (B C Sig Cert PK : Type) where
  tree : BlockTree B C
  ns : Namespace
  /-- A scheme that verifies certificates of every epoch, if there is one. -/
  all : Option (Scheme (Simplex.Subject C) Sig Cert PK)
  scopedTo : ℕ → Option (Scheme (Simplex.Subject C) Sig Cert PK)
  /-- The epoch of a height. -/
  containing : ℕ → Option ℕ
  viewRetentionTimeout : ℕ
  maxRepair : ℕ
  cacheSection : ℕ
  blocksSection : Option ℕ
  finalizationsSection : Option ℕ

/-- What is written and what is reported, in order. -/
inductive Entry (B C Cert : Type)
  /-- The processed height is raised by an acknowledgement of the block. -/
  | processed (height : ℕ) (commitment : C)
  /-- The processed height is raised from outside. -/
  | floor (height : ℕ)
  | block (block : B)
  | finalization (height : ℕ) (commitment : C) (finalization : Finalization C Cert)
  | pruneBlocks (height : ℕ)
  | pruneFinalizations (height : ℕ)
  | cacheVerified (round : Rnd) (commitment : C) (block : B)
  | cacheBlock (round : Rnd) (commitment : C) (block : B)
  | cacheNotarization (round : Rnd) (commitment : C) (notarization : Notarization C Cert)
  | cacheFinalization (round : Rnd) (commitment : C) (finalization : Finalization C Cert)
  | pruneCache (round : Rnd)
  | reportedBlock (block : B)
  | reportedTip (height : ℕ) (commitment : C)
  | restarted

/-- What the application sees of an entry. -/
def Entry.notice : Entry B C Cert → Option (Delivery.Notice B C)
  | .processed height commitment => some (.processed height commitment)
  | .floor height => some (.floor height)
  | .reportedBlock b => some (.reported b)
  | .restarted => some .restarted
  | _ => none

def notices (log : List (Entry B C Cert)) : List (Delivery.Notice B C) := log.filterMap Entry.notice

structure Storage (B C Cert : Type) where
  /-- The processed height. -/
  metadata : Option ℕ
  blocks : Archive C B
  finalizations : Archive C (Finalization C Cert)
  cache : Cache B C Cert

def Storage.empty : Storage B C Cert := ⟨none, .empty, .empty, .empty⟩

/-- Pruning does nothing for an archive without sections. -/
def pruneArchive {V : Type} (section? : Option ℕ) (a : Archive C V) (height : ℕ) : Archive C V :=
  match section? with
  | none => a
  | some n => a.prune n height

variable (cfg : Config B C Sig Cert PK)

def Storage.apply (s : Storage B C Cert) : Entry B C Cert → Storage B C Cert
  | .processed height _ => { s with metadata := some height }
  | .floor height => { s with metadata := some height }
  | .block b =>
    let blocks := (s.blocks.put (cfg.tree.height b) (cfg.tree.commitment b) b).getD s.blocks
    { s with blocks }
  | .finalization height commitment f =>
    let finalizations := (s.finalizations.put height commitment f).getD s.finalizations
    { s with finalizations }
  | .pruneBlocks height => { s with blocks := pruneArchive cfg.blocksSection s.blocks height }
  | .pruneFinalizations height =>
    let finalizations := pruneArchive cfg.finalizationsSection s.finalizations height
    { s with finalizations }
  | .cacheVerified round commitment b =>
    { s with cache := s.cache.putVerified round commitment b }
  | .cacheBlock round commitment b => { s with cache := s.cache.putBlock round commitment b }
  | .cacheNotarization round commitment n =>
    { s with cache := s.cache.putNotarization round commitment n }
  | .cacheFinalization round commitment f =>
    { s with cache := s.cache.putFinalization round commitment f }
  | .pruneCache round => { s with cache := s.cache.prune cfg.cacheSection round }
  | .reportedBlock _ => s
  | .reportedTip _ _ => s
  | .restarted => ⟨s.metadata, s.blocks.reopen, s.finalizations.reopen, s.cache.reopen⟩

def stored (log : List (Entry B C Cert)) : Storage B C Cert :=
  log.foldl (Storage.apply cfg) .empty

/-! ### The actor -/

/-- What is asked of peers. -/
inductive Request (C : Type)
  | block (commitment : C)
  | finalized (height : ℕ)
  | notarized (round : Rnd)
  deriving DecidableEq

/-- Why the process stops. -/
inductive Fault
  /-- The block that is stored under a height has another one. -/
  | heightMismatch
  /-- A block or finalization is stored below what has been pruned. -/
  | alreadyPruned
  /-- The block at the end of a gap is missing. -/
  | missingBlock
  | notAcknowledged
  deriving DecidableEq

structure Actor (B C Cert : Type) where
  lastProcessedRound : Rnd
  lastProcessedHeight : ℕ
  /-- The height and the commitment of the block that waits for its acknowledgement. -/
  pendingAck : Option (ℕ × C)
  tip : ℕ
  requests : List (Request C)
  log : List (Entry B C Cert)

/-- What the outside contributes to a handler: the blocks in the broadcast buffer, the number of
rounds of its loops, and which of two parallel writes comes first. -/
structure Env (T : BlockTree B C) where
  buffer : C → Option B
  buffer_commitment : ∀ c b, buffer c = some b → T.commitment b = c
  rounds : ℕ
  finalizationFirst : Bool

abbrev Halted (B C Cert : Type) := Halt Fault (Entry B C Cert)

namespace Actor

variable (a : Actor B C Cert)

def halt {α : Type} (fault : Fault) : Except (Halted B C Cert) α :=
  .error ⟨fault, a.log⟩

def write (entry : Entry B C Cert) : Actor B C Cert :=
  { a with log := a.log ++ [entry] }

def request (a : Actor B C Cert) (request : Request C) : Actor B C Cert :=
  { a with requests := a.requests ++ [request] }

def storage : Storage B C Cert := stored cfg a.log

/-! ### Reports to the application -/

/-- Reports the next finalized block, unless one waits for its acknowledgement. -/
def tryDispatchBlock : Except (Halted B C Cert) (Actor B C Cert) :=
  if a.pendingAck.isSome then .ok a
  else
    let nextHeight := min (a.lastProcessedHeight + 1) u64Max
    match (a.storage cfg).blocks.get nextHeight with
    | none => .ok a
    | some block =>
      if cfg.tree.height block ≠ nextHeight then a.halt .heightMismatch
      else
        let pendingAck := some (cfg.tree.height block, cfg.tree.commitment block)
        .ok { a.write (.reportedBlock block) with pendingAck }

def handleBlockProcessed (height : ℕ) (commitment : C) : Actor B C Cert :=
  let a := { a.write (.processed height commitment) with lastProcessedHeight := height }
  match (a.storage cfg).finalizations.get height with
  | none => a
  | some finalization =>
    let lpr := a.lastProcessedRound
    let a := a.write (.pruneCache ⟨lpr.epoch, lpr.view - cfg.viewRetentionTimeout⟩)
    { a with lastProcessedRound := finalization.proposal.round }

/-! ### Storing finalized blocks -/

/-- Stores a finalized block; fails if its height has been pruned. -/
def putBlock (block : B) : Except (Halted B C Cert) (Actor B C Cert) :=
  match (a.storage cfg).blocks.put (cfg.tree.height block) (cfg.tree.commitment block) block with
  | none => a.halt .alreadyPruned
  | some _ => .ok (a.write (.block block))

def putFinalization (height : ℕ) (commitment : C) :
    Option (Finalization C Cert) → Except (Halted B C Cert) (Actor B C Cert)
  | none => .ok a
  | some finalization =>
    match (a.storage cfg).finalizations.put height commitment finalization with
    | none => a.halt .alreadyPruned
    | some _ => .ok (a.write (.finalization height commitment finalization))

def storeFinalization (env : Env cfg.tree) (a : Actor B C Cert) (height : ℕ) (commitment : C)
    (block : B) (finalization : Option (Finalization C Cert)) :
    Except (Halted B C Cert) (Actor B C Cert) := do
  let a ←
    if env.finalizationFirst then do
      let a ← a.putFinalization cfg height commitment finalization
      a.putBlock cfg block
    else do
      let a ← a.putBlock cfg block
      a.putFinalization cfg height commitment finalization
  let a := if a.tip < height then { a.write (.reportedTip height commitment) with tip := height }
    else a
  a.tryDispatchBlock cfg

section

variable [DecidableEq C]

/-- Looks for a block in the buffer, in the cache and among the finalized blocks. -/
def findBlock (env : Env cfg.tree) (a : Actor B C Cert) (commitment : C) : Option B :=
  ((env.buffer commitment).or ((a.storage cfg).cache.findBlock commitment)).or
    ((a.storage cfg).blocks.getKey commitment)

/-- Stores the parents of a block, as far as they are there; the result says whether the gap is
closed. -/
def repairBackwards (env : Env cfg.tree) (gapStart : ℕ) :
    ℕ → Actor B C Cert → B → Except (Halted B C Cert) (Actor B C Cert × Bool)
  | 0, a, _ => .ok (a, true)
  | rounds + 1, a, cursor =>
    if gapStart < cfg.tree.height cursor then
      let commitment := cfg.tree.parent cursor
      match a.findBlock cfg env commitment with
      | some block => do
          let finalization := (a.storage cfg).cache.getFinalizationFor commitment
          let a ← a.storeFinalization cfg env (cfg.tree.height block) commitment block finalization
          repairBackwards env gapStart rounds a block
      | none => .ok (a.request (.block commitment), false)
    else .ok (a, true)

/-- Closes gaps from a start on, until there is none or a block is missing. -/
def repairGaps (env : Env cfg.tree) (start : ℕ) :
    ℕ → Actor B C Cert → Except (Halted B C Cert) (Actor B C Cert)
  | 0, a => .ok a
  | rounds + 1, a =>
    match (a.storage cfg).blocks.nextGap start with
    | (_, none) => .ok a
    | (gapStart, some gapEnd) =>
      match (a.storage cfg).blocks.get gapEnd with
      | none => a.halt .missingBlock
      | some cursor => do
          let gapStart := (gapStart.map fun s => min (s + 1) u64Max).getD start
          let (a, repaired) ← repairBackwards cfg env gapStart env.rounds a cursor
          if repaired then repairGaps env start rounds a
          else
            let missing := (a.storage cfg).blocks.missingItems start cfg.maxRepair
            .ok { a with requests := a.requests ++ missing.map .finalized }

variable (env : Env cfg.tree) (a : Actor B C Cert)

def tryRepairGaps : Except (Halted B C Cert) (Actor B C Cert) :=
  repairGaps cfg env (min (a.lastProcessedHeight + 1) u64Max) env.rounds a

/-- Stores a finalized block and repairs gaps. -/
def finalize (height : ℕ) (commitment : C) (block : B) (finalization : Option (Finalization C Cert)) :
    Except (Halted B C Cert) (Actor B C Cert) := do
  let a ← a.storeFinalization cfg env height commitment block finalization
  a.tryRepairGaps cfg env

/-! ### Events -/

/-- What the main loop reacts to.  Deliveries have the decoded value, if it decodes. -/
inductive Event (B C Cert : Type) (T : BlockTree B C)
  /-- The application acknowledges the block, or drops it. -/
  | ack (ok : Bool)
  | proposed (round : Rnd) (block : B)
  | verified (round : Rnd) (block : B)
  | notarization (notarization : Notarization C Cert) (env : Env T)
  | finalization (finalization : Finalization C Cert) (env : Env T)
  | hintFinalized (height : ℕ)
  | subscribe (round : Option Rnd) (commitment : C) (env : Env T)
  | setFloor (height : ℕ)
  | deliverBlock (commitment : C) (value : Option B) (env : Env T)
  | deliverFinalized (height : ℕ) (value : Option (Finalization C Cert × B)) (env : Env T)
  | deliverNotarized (round : Rnd) (value : Option (Notarization C Cert × B)) (env : Env T)

def getSchemeCertificateVerifier (epoch : ℕ) : Option (Scheme (Simplex.Subject C) Sig Cert PK) :=
  cfg.all.or (cfg.scopedTo epoch)

omit [DecidableEq C] in
/-- Raises the processed height, forgets the block that waits, and prunes the archives. -/
def setFloor (a : Actor B C Cert) (height : ℕ) : Actor B C Cert :=
  if (a.storage cfg).metadata.any fun stored => decide (height ≤ stored) then a
  else
    let a := { a.write (.floor height) with lastProcessedHeight := height, pendingAck := none }
    (a.write (.pruneBlocks height)).write (.pruneFinalizations height)

def handleNotarization (notarization : Notarization C Cert) : Actor B C Cert :=
  let round := notarization.proposal.round
  let commitment := notarization.proposal.payload
  let a := a.write (.cacheNotarization round commitment notarization)
  match a.findBlock cfg env commitment with
  | some block => a.write (.cacheBlock round commitment block)
  | none => a.request (.notarized round)

def handleFinalization (finalization : Finalization C Cert) :
    Except (Halted B C Cert) (Actor B C Cert) :=
  let commitment := finalization.proposal.payload
  let a := a.write (.cacheFinalization finalization.proposal.round commitment finalization)
  match a.findBlock cfg env commitment with
  | some block =>
    a.finalize cfg env (cfg.tree.height block) commitment block (some finalization)
  | none => .ok (a.request (.block commitment))

omit [DecidableEq C] in
def hintFinalized (a : Actor B C Cert) (height : ℕ) : Actor B C Cert :=
  if height ≤ a.lastProcessedHeight then a
  else
    match (a.storage cfg).finalizations.get height with
    | some _ => a
    | none => a.request (.finalized height)

def subscribe (round : Option Rnd) (commitment : C) : Actor B C Cert :=
  match a.findBlock cfg env commitment, round with
  | some _, _ => a
  | none, none => a
  | none, some round =>
    let lpr := a.lastProcessedRound
    if round.epoch < lpr.epoch ∨ round.epoch = lpr.epoch ∧ round.view < lpr.view then a
    else a.request (.notarized round)

/-- A block that was asked for by its commitment. -/
def deliverBlock (commitment : C) (block : B) : Except (Halted B C Cert) (Actor B C Cert) :=
  if cfg.tree.commitment block ≠ commitment then .ok a
  else
    let finalization := (a.storage cfg).cache.getFinalizationFor commitment
    a.finalize cfg env (cfg.tree.height block) commitment block finalization

/-- A finalization that was asked for by its height, with its block. -/
def deliverFinalized (height : ℕ) (value : Finalization C Cert × B) :
    Except (Halted B C Cert) (Actor B C Cert) :=
  match (cfg.containing height).bind (getSchemeCertificateVerifier cfg) with
  | none => .ok a
  | some scheme =>
    let (finalization, block) := value
    let commitment := cfg.tree.commitment block
    if cfg.tree.height block ≠ height ∨ finalization.proposal.payload ≠ commitment ∨
        !(Simplex.Certificate.finalization finalization).verify scheme cfg.ns then .ok a
    else a.finalize cfg env height commitment block (some finalization)

/-- A notarization that was asked for by its round, with its block. -/
def deliverNotarized (round : Rnd) (value : Notarization C Cert × B) :
    Except (Halted B C Cert) (Actor B C Cert) :=
  match getSchemeCertificateVerifier cfg round.epoch with
  | none => .ok a
  | some scheme =>
    let (notarization, block) := value
    let commitment := cfg.tree.commitment block
    if notarization.proposal.round ≠ round ∨ notarization.proposal.payload ≠ commitment ∨
        !(Simplex.Certificate.notarization notarization).verify scheme cfg.ns then .ok a
    else do
      let a ← match (a.storage cfg).cache.getFinalizationFor commitment with
        | some finalization =>
          a.finalize cfg env (cfg.tree.height block) commitment block (some finalization)
        | none => .ok a
      let a := a.write (.cacheBlock round commitment block)
      pure (a.write (.cacheNotarization round commitment notarization))

/-- One turn of the main loop. -/
def handle : Event B C Cert cfg.tree →
    Except (Halted B C Cert) (Actor B C Cert)
  | .ack ok =>
    match a.pendingAck with
    | none => .ok a
    | some (height, commitment) =>
      if ok then
        let a := { a with pendingAck := none }
        (a.handleBlockProcessed cfg height commitment).tryDispatchBlock cfg
      else a.halt .notAcknowledged
  | .proposed round block => .ok (a.write (.cacheVerified round (cfg.tree.commitment block) block))
  | .verified round block => .ok (a.write (.cacheVerified round (cfg.tree.commitment block) block))
  | .notarization notarization env => .ok (a.handleNotarization cfg env notarization)
  | .finalization finalization env => a.handleFinalization cfg env finalization
  | .hintFinalized height => .ok (a.hintFinalized cfg height)
  | .subscribe round commitment env => .ok (a.subscribe cfg env round commitment)
  | .setFloor height => .ok (a.setFloor cfg height)
  | .deliverBlock commitment value env =>
    match value with
    | some block =>
      if .block commitment ∈ a.requests then a.deliverBlock cfg env commitment block else .ok a
    | none => .ok a
  | .deliverFinalized height value env =>
    match value with
    | some value =>
      if .finalized height ∈ a.requests then a.deliverFinalized cfg env height value else .ok a
    | none => .ok a
  | .deliverNotarized round value env =>
    match value with
    | some value =>
      if .notarized round ∈ a.requests then a.deliverNotarized cfg env round value else .ok a
    | none => .ok a

omit [DecidableEq C] in
/-- The actor that has just been created on what an earlier one has left. -/
def init (log : List (Entry B C Cert)) : Actor B C Cert :=
  let log := log ++ [.restarted]
  ⟨⟨0, 0⟩, (stored cfg log).metadata.getD 0, none, 0, [], log⟩

/-- Starts an actor: the tip is reported, then the next block, and gaps are repaired. -/
def start (log : List (Entry B C Cert)) : Except (Halted B C Cert) (Actor B C Cert) := do
  let a : Actor B C Cert := init cfg log
  let a := match (a.storage cfg).finalizations.items.last? with
    | none => a
    | some (height, _, finalization) =>
      { a.write (.reportedTip height finalization.proposal.payload) with tip := height }
  let a ← a.tryDispatchBlock cfg
  a.tryRepairGaps cfg env

end

end Actor

/-! ### Runs -/

/-- The logs on disk and the actors that run, if any, from empty stores by allowed events; the
process can be stopped after any write and started again. -/
inductive Reach [DecidableEq C] (Allowed : Actor.Event B C Cert cfg.tree → Prop) :
    List (Entry B C Cert) → Option (Actor B C Cert) → Prop
  | empty : Reach Allowed [] none
  | start {log : List (Entry B C Cert)} {old : Option (Actor B C Cert)} {env : Env cfg.tree}
      {a : Actor B C Cert} (run : Reach Allowed log old) (h : Actor.start cfg env log = .ok a) :
      Reach Allowed a.log (some a)
  | startCrash {log log' : List (Entry B C Cert)} {old : Option (Actor B C Cert)}
      {env : Env cfg.tree} (run : Reach Allowed log old) (before : log ++ [.restarted] <+: log')
      (after : log' <+: Promise.written Actor.log (Actor.start cfg env log)) :
      Reach Allowed log' none
  | handle {log : List (Entry B C Cert)} {a a' : Actor B C Cert}
      {event : Actor.Event B C Cert cfg.tree} (run : Reach Allowed log (some a))
      (allowed : Allowed event) (h : a.handle cfg event = .ok a') : Reach Allowed a'.log (some a')
  | crash {log log' : List (Entry B C Cert)} {a : Actor B C Cert}
      {event : Actor.Event B C Cert cfg.tree} (run : Reach Allowed log (some a))
      (allowed : Allowed event) (before : log <+: log')
      (after : log' <+: Promise.written Actor.log (a.handle cfg event)) : Reach Allowed log' none

end Commonware.Marshal
