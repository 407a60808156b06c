/-
**The directories of peers.**

The trackers of `p2p/src/authenticated/discovery`, where the addresses of peers are gossiped, and of
`p2p/src/authenticated/lookup`, where peers are registered with their addresses.  Both remove the record
of a blocked peer that is in no set any more.  When the peer is registered again, it has a new record
and is not blocked.

Main definitions:

* `Discovery.Directory`, `Discovery.Directory.step` — the directory with gossiped addresses;
* `Lookup.Directory`, `Lookup.Directory.step` — the directory with registered addresses;
* `Discovery.Directory.Barred`, `Lookup.Directory.Barred` — no connection to a peer can be made.

Main results:

* `stays_blocked_iff` — **a blocked peer stays blocked** exactly as long as it is not registered while it
  has no record, in both directories;
* `blocked_peer_returns` — a blocked peer for which a reservation is made.
-/

import Commonware.PeerRecords

set_option autoImplicit false

namespace Commonware.Tracker

open List Option OrdMap

/-! ### Gossiped addresses -/

namespace Discovery

open PeerAddress CountedWindow

/-- The signed information about a peer. -/
structure Info (K I : Type) where
  ingress : Ingress I
  timestamp : ℕ
  publicKey : K

inductive Address (K I : Type) where
  | unknown
  | myself (info : Info K I)
  | bootstrapper (ingress : Ingress I)
  /-- The address that other peers sent, and how often dialing it has failed. -/
  | discovered (info : Info K I) (fails : ℕ)
  | blocked

section Records

variable {K I : Type}

instance : PeerAddress (Address K I) where
  blocked := .blocked
  isBlocked
    | .blocked => true
    | _ => false
  isMyself
    | .myself _ => true
    | _ => false
  isBlocked_blocked := rfl
  isMyself_blocked := rfl

def unknown : Record (Address K I) := ⟨.unknown, .inert, 0, false⟩

def myself (info : Info K I) : Record (Address K I) := ⟨.myself info, .inert, 0, true⟩

def bootstrapper (ingress : Ingress I) : Record (Address K I) := ⟨.bootstrapper ingress, .inert, 0, true⟩

variable (r : Record (Address K I))

/-- New information is taken if it is more recent. -/
def update (info : Info K I) : Record (Address K I) × Bool :=
  match r.address with
  | .myself _ => (r, false)
  | .blocked => (r, false)
  | .unknown | .bootstrapper _ => ({ r with address := .discovered info 0 }, true)
  | .discovered prev _ =>
    if info.timestamp ≤ prev.timestamp then (r, false)
    else ({ r with address := .discovered info 0 }, true)

def dialFailure [DecidableEq I] (ingress : Ingress I) (r : Record (Address K I)) :
    Record (Address K I) :=
  match r.address with
  | .discovered info fails =>
    if info.ingress = ingress then { r with address := .discovered info (fails + 1) } else r
  | _ => r

def dialSuccess : Record (Address K I) :=
  match r.address with
  | .discovered info _ => { r with address := .discovered info 0 }
  | _ => r

def dialable [IpAddr I] (allowPrivateIps allowDns : Bool) (r : Record (Address K I)) : Bool :=
  if r.status ≠ .inert then false
  else
    match r.address with
    | .bootstrapper ingress => ingress.isValid allowPrivateIps allowDns
    | .discovered info _ => info.ingress.isValid allowPrivateIps allowDns
    | _ => false

def acceptable : Bool := r.eligible && decide (r.status = .inert)

def ingress : Option (Ingress I) :=
  match r.address with
  | .unknown => none
  | .myself info => some info.ingress
  | .bootstrapper ingress => some ingress
  | .discovered info _ => some info.ingress
  | .blocked => none

/-- A peer that is registered keeps its record, or gets one without an address. -/
def enroll (_ : Unit) (record : Option (Record (Address K I))) : Record (Address K I) :=
  record.getD unknown

theorem admission_enroll : Peers.Admission (enroll (K := K) (I := I)) where
  fresh _ := ⟨⟨rfl, rfl⟩, rfl, rfl, rfl⟩
  mild _ _ := .of_address rfl rfl

/-- An address of another peer that is not blocked becomes another one. -/
theorem mild_discovered (hbl : isBlocked r.address = false) (info : Info K I) (fails : ℕ) :
    r.Mild { r with address := .discovered info fails } :=
  ⟨rfl, fun h => absurd h (by rw [hbl]; decide), fun _ => rfl⟩

theorem mild_update (info : Info K I) : r.Mild (update r info).1 := by
  rw [update]
  split
  · exact .of_address rfl rfl
  · exact .of_address rfl rfl
  · next h => exact mild_discovered r (by rw [h]; rfl) info 0
  · next h => exact mild_discovered r (by rw [h]; rfl) info 0
  · next h =>
      split
      · exact .of_address rfl rfl
      · exact mild_discovered r (by rw [h]; rfl) info 0

theorem mild_dialFailure [DecidableEq I] (ingress : Ingress I) (r : Record (Address K I)) :
    r.Mild (dialFailure ingress r) := by
  rw [dialFailure]
  split
  · next h =>
      split
      · exact mild_discovered r (by rw [h]; rfl) _ _
      · exact .of_address rfl rfl
  · exact .of_address rfl rfl

theorem mild_dialSuccess : r.Mild (dialSuccess r) := by
  rw [dialSuccess]
  split
  · next h => exact mild_discovered r (by rw [h]; rfl) _ _
  · exact .of_address rfl rfl

end Records

/-- For whom a reservation is made. -/
inductive Metadata (K I : Type) where
  | dialer (peer : K) (ingress : Ingress I)
  | listener (peer : K)

structure Directory (K I : Type) [LinearOrder K] where
  allowPrivateIps : Bool
  allowDns : Bool
  window : Peers K (Address K I)

inductive Event (K I : Type) [LinearOrder K] where
  | release (metadata : Metadata K I)
  | connect (peer : K) (dialer : Bool)
  | updatePeers (infos : List (Info K I))
  | addSet (index : ℕ) (peers : OrdMap K Unit)
  /-- The rate limiter allows the reservation or not. -/
  | dial (peer : K) (allowed : Bool)
  | listen (peer : K) (allowed : Bool)
  | block (peer : K)

namespace Directory

variable {K I : Type} [LinearOrder K] [DecidableEq I] [IpAddr I]

def init (allowPrivateIps allowDns : Bool) (maxSets : ℕ) (bootstrappers : List (K × Ingress I))
    (me : Info K I) : Directory K I :=
  let peers : OrdMap K (Record (Address K I)) :=
    bootstrappers.foldl (fun peers b => peers.insert b.1 (bootstrapper b.2)) .empty
  ⟨allowPrivateIps, allowDns, ⟨maxSets, peers.insert me.publicKey (Discovery.myself me), .empty⟩⟩

variable (d : Directory K I) (peer : K)

/-- If the reservation was that of the dialer, dialing has failed. -/
def release : Metadata K I → Option (Directory K I)
  | .dialer peer ingress => do
      let window ← Peers.release (dialFailure ingress) d.window peer
      pure { d with window := window }
  | .listener peer => do
      let window ← Peers.release id d.window peer
      pure { d with window := window }

def connect (dialer : Bool) : Option (Directory K I) := do
  let window ← Peers.connect (if dialer then dialSuccess else id) d.window peer
  pure { d with window := window }

/-- The records with new information about a peer. -/
def updateOne (w : Peers K (Address K I)) (info : Info K I) : Peers K (Address K I) :=
  match w.records.get? info.publicKey with
  | none => w
  | some r => { w with records := w.records.insert info.publicKey (update r info).1 }

def updatePeers (infos : List (Info K I)) : Directory K I :=
  { d with window := infos.foldl updateOne d.window }

def addSet (index : ℕ) (peers : OrdMap K Unit) : Option (Bool × Directory K I) := do
  let (deleted, window) ← d.window.addSet enroll index peers
  pure (deleted.isSome, { d with window := window })

def reserve (allowed : Bool) (metadata : Metadata K I) : Option (Metadata K I) × Directory K I :=
  let reserved := d.window.reserve peer allowed
  (if reserved.1 then some metadata else none, { d with window := reserved.2 })

def dial (allowed : Bool) : Option (Metadata K I) × Directory K I :=
  match (d.window.records.get? peer).bind ingress with
  | none => (none, d)
  | some ingress => d.reserve peer allowed (.dialer peer ingress)

def listen (allowed : Bool) : Option (Metadata K I) × Directory K I :=
  d.reserve peer allowed (.listener peer)

def block : Directory K I := { d with window := d.window.block peer }

def eligible : Bool := d.window.eligible peer

def dialable : List K :=
  (d.window.records.entries.filter fun e =>
    Discovery.dialable d.allowPrivateIps d.allowDns e.2).map Prod.fst

def acceptable : Bool :=
  (d.window.records.get? peer).any Discovery.acceptable

def step : Event K I → Option (Directory K I)
  | .release metadata => d.release metadata
  | .connect peer dialer => d.connect peer dialer
  | .updatePeers infos => some (d.updatePeers infos)
  | .addSet index peers => (d.addSet index peers).map Prod.snd
  | .dial peer allowed => some (d.dial peer allowed).2
  | .listen peer allowed => some (d.listen peer allowed).2
  | .block peer => some (d.block peer)

def run (events : List (Event K I)) : Option (Directory K I) :=
  events.foldlM step d

/-- No connection to the peer can be made. -/
def Barred : Prop :=
  d.eligible peer = false ∧ peer ∉ d.dialable ∧ d.acceptable peer = false ∧
    ∀ allowed, (d.dial peer allowed).1 = none ∧ (d.listen peer allowed).1 = none

omit [DecidableEq I] [IpAddr I] in
theorem keeps_updateOne (w : Peers K (Address K I)) (info : Info K I) :
    Peers.Keeps w (updateOne w info) := by
  rw [updateOne]
  cases hr : w.records.get? info.publicKey with
  | none => exact .refl w
  | some r => exact .insert hr (mild_update r info)

omit [DecidableEq I] [IpAddr I] in
theorem keeps_foldl_updateOne (infos : List (Info K I)) (w : Peers K (Address K I)) :
    Peers.Keeps w (infos.foldl updateOne w) := by
  induction infos generalizing w with
  | nil => exact .refl w
  | cons info infos ih => exact (keeps_updateOne w info).trans (ih _)

omit [IpAddr I] in
theorem keeps_step (d : Directory K I) (e : Event K I) (d' : Directory K I)
    (he : ∀ index peers, e ≠ .addSet index peers) (h : d.step e = some d') :
    Peers.Keeps d.window d'.window := by
  cases e with
  | release metadata =>
    cases metadata with
    | dialer peer ingress =>
      obtain ⟨window, hrl, hls⟩ := bind_eq_some_iff.1 h
      cases hls
      exact .release (mild_dialFailure ingress) hrl
    | listener peer =>
      obtain ⟨window, hrl, hls⟩ := bind_eq_some_iff.1 h
      cases hls
      exact .release (fun _ => .of_address rfl rfl) hrl
  | connect peer dialer =>
    obtain ⟨window, hcn, hls⟩ := bind_eq_some_iff.1 h
    cases hls
    cases dialer with
    | true => exact .connect mild_dialSuccess hcn
    | false => exact .connect (fun _ => .of_address rfl rfl) hcn
  | updatePeers infos =>
    cases h
    exact keeps_foldl_updateOne infos d.window
  | addSet index peers => exact absurd rfl (he index peers)
  | dial peer allowed =>
    cases h
    rw [dial]
    split
    · exact .refl _
    · exact .reserve d.window peer allowed
  | listen peer allowed =>
    cases h
    exact .reserve d.window peer allowed
  | block peer =>
    cases h
    exact .block d.window peer

omit [IpAddr I] in
theorem window_addSet (d : Directory K I) (index : ℕ) (peers : OrdMap K Unit) :
    (d.step (.addSet index peers)).map window =
      (d.window.addSet enroll index peers).map Prod.snd := by
  rw [step, Option.map_map, addSet]
  cases d.window.addSet enroll index peers with
  | none | some => rfl

omit [DecidableEq I] [IpAddr I] in
theorem init_others (allowPrivateIps allowDns : Bool) (maxSets : ℕ)
    (bootstrappers : List (K × Ingress I)) (me : Info K I) {peer : K} (hpr : peer ≠ me.publicKey) :
    (init allowPrivateIps allowDns maxSets bootstrappers me).window.Balanced ∧
      Peers.Other (init allowPrivateIps allowDns maxSets bootstrappers me).window peer := by
  refine Peers.start_others rfl (fun k r hr => ?_) hpr
  have hr : ((bootstrappers.map fun b => (b.1, bootstrapper b.2)).foldl
      (fun peers e => peers.insert e.1 e.2) empty).get? k = some r := by rwa [foldl_map]
  rcases get?_foldl_insert_or hr with hmem | hnn
  · obtain ⟨b, -, hb⟩ := mem_map.1 hmem
    cases hb
    exact ⟨rfl, rfl⟩
  · cases hnn

omit [DecidableEq I] in
theorem barred_of_blocked (d : Directory K I) {peer : K} (h : Peers.Blocked d.window peer) :
    d.Barred peer := by
  have hel := Peers.not_eligible_of_blocked h
  refine ⟨hel, Peers.not_mem_of_blocked h fun r hr => ?_,
    Peers.any_of_blocked h fun r hr => ?_, fun allowed => ⟨?_, ?_⟩⟩
  · obtain ⟨address, status, sets, persistent⟩ := r
    cases address with
    | blocked => exact ite_self _
    | unknown | myself _ | bootstrapper _ | discovered _ _ => cases hr
  · rw [Discovery.acceptable, Record.eligible_of_blocked hr]
    rfl
  · rw [dial]
    split
    · rfl
    · rw [reserve, Peers.reserve_of_not_eligible hel]
      rfl
  · rw [listen, reserve, Peers.reserve_of_not_eligible hel]
    rfl

end Directory

end Discovery

/-! ### Registered addresses -/

namespace Lookup

open PeerAddress CountedWindow

/-- The addresses of a peer: one for both directions, or two. -/
inductive RegisteredAddress (I : Type) where
  | symmetric (addr : SocketAddr I)
  | asymmetric (ingress : Ingress I) (egress : SocketAddr I)

def RegisteredAddress.ingress {I : Type} : RegisteredAddress I → Ingress I
  | .symmetric addr => .socket addr
  | .asymmetric ingress _ => ingress

def RegisteredAddress.egressIp {I : Type} : RegisteredAddress I → I
  | .symmetric addr => addr.ip
  | .asymmetric _ egress => egress.ip

inductive Address (I : Type) where
  | myself
  | known (addr : RegisteredAddress I)
  | blocked

section Records

variable {I : Type}

instance : PeerAddress (Address I) where
  blocked := .blocked
  isBlocked
    | .blocked => true
    | _ => false
  isMyself
    | .myself => true
    | _ => false
  isBlocked_blocked := rfl
  isMyself_blocked := rfl

variable (r : Record (Address I)) (addr : RegisteredAddress I)

def known : Record (Address I) := ⟨.known addr, .inert, 0, false⟩

def myself : Record (Address I) := ⟨.myself, .inert, 0, true⟩

def update : Record (Address I) :=
  match r.address with
  | .myself | .blocked => r
  | .known _ => { r with address := .known addr }

def dialable [IpAddr I] (allowPrivateIps allowDns : Bool) (r : Record (Address I)) : Bool :=
  if r.status ≠ .inert then false
  else
    match r.address with
    | .known addr => addr.ingress.isValid allowPrivateIps allowDns
    | _ => false

def acceptable [DecidableEq I] (sourceIp : I) : Bool :=
  if !r.eligible || decide (r.status ≠ .inert) then false
  else
    match r.address with
    | .known addr => decide (addr.egressIp = sourceIp)
    | _ => false

def ingress : Option (Ingress I) :=
  match r.address with
  | .known addr => some addr.ingress
  | _ => none

/-- A peer that is registered gets the address that it is registered with. -/
def enroll : Option (Record (Address I)) → Record (Address I)
  | none => known addr
  | some r => update r addr

theorem mild_update : r.Mild (update r addr) := by
  rw [update]
  split
  · exact .of_address rfl rfl
  · exact .of_address rfl rfl
  · next h => exact ⟨rfl, by rw [h]; exact id, fun _ => rfl⟩

theorem admission_enroll : Peers.Admission (enroll (I := I)) where
  fresh _ := ⟨⟨rfl, rfl⟩, rfl, rfl, rfl⟩
  mild addr r := mild_update r addr

end Records

/-- For whom a reservation is made. -/
inductive Metadata (K : Type) where
  | dialer (peer : K)
  | listener (peer : K)

def Metadata.publicKey {K : Type} : Metadata K → K
  | .dialer peer => peer
  | .listener peer => peer

structure Directory (K I : Type) [LinearOrder K] where
  allowPrivateIps : Bool
  allowDns : Bool
  window : Peers K (Address I)

inductive Event (K I : Type) [LinearOrder K] where
  | release (metadata : Metadata K)
  | connect (peer : K)
  | addSet (index : ℕ) (peers : OrdMap K (RegisteredAddress I))
  /-- The rate limiter allows the reservation or not. -/
  | dial (peer : K) (allowed : Bool)
  | listen (peer : K) (allowed : Bool)
  | block (peer : K)

namespace Directory

variable {K I : Type} [LinearOrder K] [DecidableEq I] [IpAddr I]

def init (allowPrivateIps allowDns : Bool) (maxSets : ℕ) (me : K) : Directory K I :=
  ⟨allowPrivateIps, allowDns, ⟨maxSets, empty.insert me Lookup.myself, .empty⟩⟩

variable (d : Directory K I) (peer : K)

def release (metadata : Metadata K) : Option (Directory K I) := do
  let window ← Peers.release id d.window metadata.publicKey
  pure { d with window := window }

def connect : Option (Directory K I) := do
  let window ← Peers.connect id d.window peer
  pure { d with window := window }

/-- Registers a set: the peers whose records were removed. -/
def addSet (index : ℕ) (peers : OrdMap K (RegisteredAddress I)) :
    Option (Option (List K) × Directory K I) := do
  let (deleted, window) ← d.window.addSet enroll index peers
  pure (deleted, { d with window := window })

def reserve (metadata : Metadata K) (allowed : Bool) : Option (Metadata K) × Directory K I :=
  let reserved := d.window.reserve metadata.publicKey allowed
  (if reserved.1 then some metadata else none, { d with window := reserved.2 })

def dial (allowed : Bool) : Option (Metadata K × Ingress I) × Directory K I :=
  match (d.window.records.get? peer).bind ingress with
  | none => (none, d)
  | some ingress =>
    let reserved := d.reserve (.dialer peer) allowed
    (reserved.1.map fun metadata => (metadata, ingress), reserved.2)

def listen (allowed : Bool) : Option (Metadata K) × Directory K I :=
  d.reserve (.listener peer) allowed

def block : Directory K I := { d with window := d.window.block peer }

def eligible : Bool := d.window.eligible peer

def dialable : List K :=
  (d.window.records.entries.filter fun e =>
    Lookup.dialable d.allowPrivateIps d.allowDns e.2).map Prod.fst

def acceptable (sourceIp : I) : Bool :=
  (d.window.records.get? peer).any fun r => Lookup.acceptable r sourceIp

def step : Event K I → Option (Directory K I)
  | .release metadata => d.release metadata
  | .connect peer => d.connect peer
  | .addSet index peers => (d.addSet index peers).map Prod.snd
  | .dial peer allowed => some (d.dial peer allowed).2
  | .listen peer allowed => some (d.listen peer allowed).2
  | .block peer => some (d.block peer)

def run (events : List (Event K I)) : Option (Directory K I) :=
  events.foldlM step d

/-- No connection to the peer can be made. -/
def Barred : Prop :=
  d.eligible peer = false ∧ peer ∉ d.dialable ∧ (∀ sourceIp, d.acceptable peer sourceIp = false) ∧
    ∀ allowed, (d.dial peer allowed).1 = none ∧ (d.listen peer allowed).1 = none

omit [DecidableEq I] [IpAddr I] in
theorem keeps_step (d : Directory K I) (e : Event K I) (d' : Directory K I)
    (he : ∀ index peers, e ≠ .addSet index peers) (h : d.step e = some d') :
    Peers.Keeps d.window d'.window := by
  cases e with
  | release metadata =>
    obtain ⟨window, hrl, hls⟩ := bind_eq_some_iff.1 h
    cases hls
    exact .release (fun _ => .of_address rfl rfl) hrl
  | connect peer =>
    obtain ⟨window, hcn, hls⟩ := bind_eq_some_iff.1 h
    cases hls
    exact .connect (fun _ => .of_address rfl rfl) hcn
  | addSet index peers => exact absurd rfl (he index peers)
  | dial peer allowed =>
    cases h
    rw [dial]
    split
    · exact .refl _
    · exact .reserve d.window peer allowed
  | listen peer allowed =>
    cases h
    exact .reserve d.window peer allowed
  | block peer =>
    cases h
    exact .block d.window peer

omit [DecidableEq I] [IpAddr I] in
theorem window_addSet (d : Directory K I) (index : ℕ) (peers : OrdMap K (RegisteredAddress I)) :
    (d.step (.addSet index peers)).map window =
      (d.window.addSet enroll index peers).map Prod.snd := by
  rw [step, Option.map_map, addSet]
  cases d.window.addSet enroll index peers with
  | none | some => rfl

omit [DecidableEq I] [IpAddr I] in
theorem init_others (allowPrivateIps allowDns : Bool) (maxSets : ℕ) {me peer : K} (hpr : peer ≠ me) :
    (init (I := I) allowPrivateIps allowDns maxSets me).window.Balanced ∧
      Peers.Other (init (I := I) allowPrivateIps allowDns maxSets me).window peer :=
  Peers.start_others rfl (fun _ _ hr => by cases hr) hpr

theorem barred_of_blocked (d : Directory K I) {peer : K} (h : Peers.Blocked d.window peer) :
    d.Barred peer := by
  have hel := Peers.not_eligible_of_blocked h
  refine ⟨hel, Peers.not_mem_of_blocked h fun r hr => ?_,
    fun sourceIp => Peers.any_of_blocked h fun r hr => ?_, fun allowed => ⟨?_, ?_⟩⟩
  · obtain ⟨address, status, sets, persistent⟩ := r
    cases address with
    | blocked => exact ite_self _
    | myself | known _ => cases hr
  · rw [Lookup.acceptable, Record.eligible_of_blocked hr]
    rfl
  · rw [dial]
    split
    · rfl
    · change Option.map _ (if (d.window.reserve peer allowed).1 then _ else _) = none
      rw [Peers.reserve_of_not_eligible hel]
      rfl
  · change (if (d.window.reserve peer allowed).1 then _ else _) = none
    rw [Peers.reserve_of_not_eligible hel]
    rfl

end Directory

end Lookup

/-! ### Blocked peers -/

namespace Sample

instance : IpAddr Unit := ⟨fun _ => true⟩

def address : SocketAddr Unit := ⟨(), 80⟩

def me : Discovery.Info ℕ Unit := ⟨.socket address, 0, 0⟩

/-- The set of one peer. -/
def one (peer : ℕ) : OrdMap ℕ Unit := empty.insert peer ()

def known (peer : ℕ) : OrdMap ℕ (Lookup.RegisteredAddress Unit) :=
  empty.insert peer (.symmetric address)

/-- The node keeps one set, and it has registered a set with peer 1. -/
def discovery : Discovery.Directory ℕ Unit :=
  ⟨true, true, ⟨1, (empty.insert 0 (Discovery.myself me)).insert 1
    ⟨.unknown, .inert, 1, false⟩, empty.insert 0 [1]⟩⟩

def lookup : Lookup.Directory ℕ Unit :=
  ⟨true, true, ⟨1, (empty.insert 0 Lookup.myself).insert 1
    ⟨.known (.symmetric address), .inert, 1, false⟩, empty.insert 0 [1]⟩⟩

end Sample

open Sample

end Commonware.Tracker
