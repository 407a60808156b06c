/-
**The records of peers.**

What the trackers of `p2p/src/authenticated/discovery` and `p2p/src/authenticated/lookup` have in common.
A record has the address of a peer, the status of the connection to it and the number of peer sets
that it is in.  A peer is blocked in its record.  The record of a peer that is in no set any more is
removed, and with it the fact that the peer was blocked.

Main definitions:

* `PeerAddress`, `Record` — the record of a peer, over the addresses of a directory;
* `Peers` — the records and the peer sets; `Peers.release`, `Peers.connect`, `Peers.reserve`,
  `Peers.block`;
* `Peers.Keeps` — what a step does that is not the registration of a set;
* `Peers.Admission` — how a directory makes or changes the record of a peer that is registered.

Main results:

* `Peers.eligible_addSet` — a peer without a record that is registered is eligible;
* `Peers.blocked_addSet` — a blocked peer with a record stays blocked when it is registered;
* `Peers.blocked_run_iff` — **when a blocked peer stays blocked** in a run of a directory.
-/

import Commonware.CountedWindow

set_option autoImplicit false

namespace Commonware.Tracker

open Option OrdMap

/-! ### Addresses -/

class IpAddr (I : Type) where
  isGlobal : I → Bool

structure SocketAddr (I : Type) where
  ip : I
  port : ℕ
  deriving DecidableEq

inductive Ingress (I : Type) where
  | socket (addr : SocketAddr I)
  | dns (host : String) (port : ℕ)
  deriving DecidableEq

def Ingress.isValid {I : Type} [IpAddr I] (allowPrivateIps allowDns : Bool) : Ingress I → Bool
  | .socket addr => allowPrivateIps || IpAddr.isGlobal addr.ip
  | .dns _ _ => allowDns

/-- The addresses of a directory: those of the node itself and those of blocked peers are apart. -/
class PeerAddress (A : Type) where
  blocked : A
  isBlocked : A → Bool
  isMyself : A → Bool
  isBlocked_blocked : isBlocked blocked = true
  isMyself_blocked : isMyself blocked = false

/-! ### Records -/

inductive Status where
  | inert
  | reserved
  | active
  deriving DecidableEq

structure Record (A : Type) where
  address : A
  status : Status
  /-- The number of peer sets with the peer. -/
  sets : ℕ
  /-- The record stays even if no set has the peer. -/
  persistent : Bool

namespace Record

variable {A : Type} [PeerAddress A]

open PeerAddress

variable (r : Record A)

def block : Record A × Bool :=
  if isBlocked r.address || isMyself r.address then (r, false)
  else ({ r with address := blocked, persistent := false }, true)

def increment : Record A := { r with sets := r.sets + 1 }

def decrement : Option (Record A) :=
  if r.sets = 0 then none else some { r with sets := r.sets - 1 }

def reserve : Record A × Bool :=
  if isBlocked r.address || isMyself r.address then (r, false)
  else
    match r.status with
    | .inert => ({ r with status := .reserved }, true)
    | _ => (r, false)

def connect : Option (Record A) :=
  match r.status with
  | .reserved => some { r with status := .active }
  | _ => none

def release : Option (Record A) :=
  match r.status with
  | .inert => none
  | _ => some { r with status := .inert }

/-- There is a reservation or a connection. -/
def isReserved : Bool :=
  match r.status with
  | .inert => false
  | _ => true

def deletable : Bool :=
  decide (r.sets = 0) && !r.persistent && decide (r.status = .inert)

def eligible : Bool :=
  if isBlocked r.address || isMyself r.address then false
  else decide (0 < r.sets) || r.persistent

omit [PeerAddress A] in
theorem decrement_eq_some {r r' : Record A} (h : r.decrement = some r') :
    r.sets = r'.sets + 1 ∧ r'.address = r.address ∧ r'.status = r.status ∧
      r'.persistent = r.persistent := by
  rw [decrement] at h
  split_ifs at h with hz
  cases h
  exact ⟨(Nat.succ_pred_eq_of_ne_zero hz).symm, rfl, rfl, rfl⟩

instance : Counted (Record A) where
  count := sets
  increment := increment
  decrement := decrement
  deletable := deletable
  count_increment _ := rfl
  exists_decrement r h := ⟨{ r with sets := r.sets - 1 }, if_neg h.ne'⟩
  count_decrement _ _ h := (decrement_eq_some h).1
  count_of_deletable r h := by
    rw [deletable, Bool.and_eq_true, Bool.and_eq_true] at h
    exact of_decide_eq_true h.1.1

/-- The address is that of another peer, and it is not blocked. -/
def Open : Prop := isBlocked r.address = false ∧ isMyself r.address = false

theorem eligible_of_open {r : Record A} (h : r.Open) (hp : 0 < r.sets) : r.eligible = true := by
  rw [eligible, h.1, h.2]
  exact Bool.or_eq_true_iff.2 (.inl (decide_eq_true hp))

theorem eligible_of_blocked {r : Record A} (h : isBlocked r.address = true) : r.eligible = false := by
  rw [eligible, h]
  rfl

theorem block_address {r : Record A} (h : isMyself r.address = false) :
    isBlocked r.block.1.address = true := by
  rw [block, h, Bool.or_false]
  split_ifs with hb
  · exact hb
  · exact isBlocked_blocked

/-- A change that keeps the count; a blocked peer stays blocked, and another peer another one. -/
structure Mild (r r' : Record A) : Prop where
  sets : r'.sets = r.sets
  blocked : isBlocked r.address = true → isBlocked r'.address = true
  others : isMyself r.address = false → isMyself r'.address = false

theorem Mild.of_address {r r' : Record A} (hst : r'.sets = r.sets) (h : r'.address = r.address) :
    r.Mild r' :=
  ⟨hst, fun hb => h ▸ hb, fun hm => h ▸ hm⟩

theorem mild_block : r.Mild r.block.1 := by
  rw [block]
  split
  · exact .of_address rfl rfl
  · exact ⟨rfl, fun _ => isBlocked_blocked, fun _ => isMyself_blocked⟩

end Record

open Record

/-! ### What the directories have in common -/

/-- The records and the peer sets. -/
abbrev Peers (K A : Type) [LinearOrder K] := CountedWindow K (Record A)

namespace Peers

variable {K A : Type} [LinearOrder K] [PeerAddress A]

open PeerAddress CountedWindow

/-- Ends a reservation or a connection; `after` is done to the record then. -/
def release (after : Record A → Record A) (w : Peers K A) (peer : K) : Option (Peers K A) :=
  match w.records.get? peer with
  | none => some w
  | some r => do
      let r ← r.release
      pure (CountedWindow.deleteIfNeeded
        { w with records := w.records.insert peer (after r) } peer).1

/-- Makes a connection from a reservation; `before` is done to the record first. -/
def connect (before : Record A → Record A) (w : Peers K A) (peer : K) : Option (Peers K A) := do
  let r ← w.records.get? peer
  let r ← (before r).connect
  pure { w with records := w.records.insert peer r }

def block (w : Peers K A) (peer : K) : Peers K A :=
  { w with records := w.records.modify peer fun r => r.block.1 }

def eligible (w : Peers K A) (peer : K) : Bool :=
  (w.records.get? peer).any Record.eligible

/-- Makes a reservation if the peer is eligible, there is none, and the rate limiter allows it. -/
def reserve (w : Peers K A) (peer : K) (allowed : Bool) : Bool × Peers K A :=
  match w.records.get? peer with
  | none => (false, w)
  | some r =>
    if !r.eligible || r.isReserved || !allowed then (false, w)
    else if r.reserve.2 then (true, { w with records := w.records.insert peer r.reserve.1 })
    else (false, w)

/-- The peer is blocked if it has a record. -/
abbrev Blocked (w : Peers K A) (k : K) : Prop := Only (fun r => isBlocked r.address = true) w k

/-- The peer is not the node itself. -/
abbrev Other (w : Peers K A) (k : K) : Prop := Only (fun r => isMyself r.address = false) w k

/-- What a step does that is not the registration of a set. -/
structure Keeps (w w' : Peers K A) : Prop where
  maxSets : w'.maxSets = w.maxSets
  balanced : w.Balanced → w'.Balanced
  blocked : ∀ k, Blocked w k → Blocked w' k
  others : ∀ k, Other w k → Other w' k

theorem Keeps.refl (w : Peers K A) : Keeps w w := ⟨rfl, id, fun _ => id, fun _ => id⟩

theorem Keeps.trans {w₁ w₂ w₃ : Peers K A} (h₁ : Keeps w₁ w₂) (h₂ : Keeps w₂ w₃) : Keeps w₁ w₃ :=
  ⟨h₂.maxSets.trans h₁.maxSets, fun h => h₂.balanced (h₁.balanced h),
    fun k h => h₂.blocked k (h₁.blocked k h), fun k h => h₂.others k (h₁.others k h)⟩

variable {peer : K} {w : Peers K A}

omit [PeerAddress A] in
theorem only_insert {P : Record A → Prop} {k : K} (h : Only P w k)
    {r r' : Record A} (hr : w.records.get? peer = some r) (hP : P r → P r') :
    Only P { w with records := w.records.insert peer r' } k := by
  intro s hs
  by_cases hk : k = peer
  · subst hk
    rw [get?_insert_self, Option.some.injEq] at hs
    exact hs ▸ hP (h r hr)
  · rw [get?_insert_of_ne _ _ hk] at hs
    exact h s hs

theorem Keeps.insert {r r' : Record A}
    (hr : w.records.get? peer = some r) (hml : r.Mild r') :
    Keeps w { w with records := w.records.insert peer r' } where
  maxSets := rfl
  balanced h := by
    refine ⟨h.nodup, fun k => ?_⟩
    rw [← h.counts k, countOf_insert]
    split_ifs with hk
    · rw [hk, countOf, hr]
      exact hml.sets
    · rfl
  blocked _ h := only_insert h hr hml.blocked
  others _ h := only_insert h hr hml.others

theorem Keeps.deleteIfNeeded (w : Peers K A) (peer : K) : Keeps w (w.deleteIfNeeded peer).1 where
  maxSets := (deleteIfNeeded_sets w peer).2
  balanced h := h.deleteIfNeeded peer
  blocked _ h := h.deleteIfNeeded peer
  others _ h := h.deleteIfNeeded peer

section Steps

variable {w w' : Peers K A} {peer : K}

theorem Keeps.release {after : Record A → Record A} (hml : ∀ r, Record.Mild r (after r))
    (h : Peers.release after w peer = some w') : Keeps w w' := by
  rw [Peers.release] at h
  cases hr : w.records.get? peer with
  | none =>
    rw [hr] at h
    cases h
    exact .refl w
  | some r =>
    rw [hr] at h
    obtain ⟨r₁, hrl, hls⟩ := bind_eq_some_iff.1 h
    cases hls
    obtain rfl : r₁ = { r with status := .inert } := by
      rw [Record.release] at hrl
      split at hrl
      · cases hrl
      · exact (Option.some.inj hrl).symm
    obtain ⟨hst, hbl, hot⟩ := hml { r with status := .inert }
    exact (Keeps.insert hr ⟨hst, hbl, hot⟩).trans (.deleteIfNeeded _ peer)

theorem Keeps.connect {before : Record A → Record A} (hml : ∀ r, Record.Mild r (before r))
    (h : Peers.connect before w peer = some w') : Keeps w w' := by
  obtain ⟨r, hr, h⟩ := bind_eq_some_iff.1 h
  obtain ⟨r₁, hcn, hls⟩ := bind_eq_some_iff.1 h
  cases hls
  obtain rfl : r₁ = { before r with status := .active } := by
    rw [Record.connect] at hcn
    split at hcn
    · exact (Option.some.inj hcn).symm
    · cases hcn
  obtain ⟨hst, hbl, hot⟩ := hml r
  exact Keeps.insert hr ⟨hst, hbl, hot⟩

theorem Keeps.block (w : Peers K A) (peer : K) : Keeps w (w.block peer) := by
  rw [Peers.block, OrdMap.modify]
  cases hr : w.records.get? peer with
  | none => exact .refl w
  | some r => exact Keeps.insert hr r.mild_block

theorem only_block (h : Other w peer) : Blocked (w.block peer) peer := by
  intro r hr
  rw [Peers.block, get?_modify, if_pos rfl] at hr
  obtain ⟨r₀, hr₀, rfl⟩ := map_eq_some_iff.1 hr
  exact block_address (h r₀ hr₀)

theorem Keeps.reserve (w : Peers K A) (peer : K) (allowed : Bool) :
    Keeps w (w.reserve peer allowed).2 := by
  rw [Peers.reserve]
  cases hr : w.records.get? peer with
  | none => exact .refl w
  | some r =>
    dsimp only
    split
    · exact .refl w
    split
    · have hsm : r.reserve.1.sets = r.sets ∧ r.reserve.1.address = r.address := by
        rw [Record.reserve]
        split
        · exact ⟨rfl, rfl⟩
        · split
          · exact ⟨rfl, rfl⟩
          · exact ⟨rfl, rfl⟩
      exact Keeps.insert hr (.of_address hsm.1 hsm.2)
    · exact .refl w

theorem reserve_of_not_eligible (h : w.eligible peer = false) (allowed : Bool) :
    (w.reserve peer allowed).1 = false := by
  rw [Peers.reserve]
  cases hr : w.records.get? peer with
  | none => rfl
  | some r =>
    rw [Peers.eligible, hr] at h
    change r.eligible = false at h
    dsimp only
    rw [h]
    rfl

variable {f : Record A → Bool}

theorem any_of_blocked (h : Blocked w peer)
    (hf : ∀ r, isBlocked r.address = true → f r = false) : (w.records.get? peer).any f = false := by
  cases hr : w.records.get? peer with
  | none => rfl
  | some r => exact hf r (h r hr)

theorem not_eligible_of_blocked (h : Blocked w peer) : w.eligible peer = false :=
  any_of_blocked h fun _ => Record.eligible_of_blocked

theorem not_mem_of_blocked (h : Blocked w peer)
    (hf : ∀ r, isBlocked r.address = true → f r = false) :
    peer ∉ (w.records.entries.filter fun e => f e.2).map Prod.fst := by
  intro hmem
  obtain ⟨⟨k, r⟩, he, rfl⟩ := List.mem_map.1 hmem
  obtain ⟨het, hr⟩ := List.mem_filter.1 he
  rw [hf r (h r ((mem_entries_iff _).1 het))] at hr
  cases hr

/-- At the start no set is kept, and only the node itself has its address. -/
theorem start_others {records : OrdMap K (Record A)} {me : K} {own : Record A} {maxSets : ℕ}
    (hon : own.sets = 0)
    (h : ∀ k r, records.get? k = some r → r.sets = 0 ∧ isMyself r.address = false)
    (hpr : peer ≠ me) : (⟨maxSets, records.insert me own, .empty⟩ : Peers K A).Balanced ∧
      Other ⟨maxSets, records.insert me own, .empty⟩ peer := by
  refine ⟨⟨fun keys hky => (by cases hky), fun k => ?_⟩, fun r hr => ?_⟩
  · change countOf _ k = 0
    rw [countOf_insert]
    split_ifs
    · exact hon
    · rw [countOf]
      cases hr : records.get? k with
      | none => rfl
      | some r => exact (h k r hr).1
  · rw [get?_insert_of_ne _ _ hpr] at hr
    exact (h peer r hr).2

end Steps

/-! ### Registration -/

/-- How a directory makes a record for a peer that is registered, or changes the one that it has. -/
structure Admission {B : Type} (enroll : B → Option (Record A) → Record A) : Prop where
  fresh : ∀ b, (enroll b none).Open ∧ (enroll b none).sets = 0 ∧
    (enroll b none).persistent = false ∧ (enroll b none).status = .inert
  mild : ∀ b r, Record.Mild r (enroll b (some r))

theorem Admission.sets {B : Type} {enroll : B → Option (Record A) → Record A} (h : Admission enroll)
    (b : B) (o : Option (Record A)) : (enroll b o).sets = o.elim 0 sets := by
  cases o with
  | none => exact (h.fresh b).2.1
  | some r => exact (h.mild b r).sets

section Registration

variable {B : Type} {enroll : B → Option (Record A) → Record A} (henroll : Admission enroll)
  {w w' : Peers K A} {peer : K} {index : ℕ} {peers : OrdMap K B} {deleted : Option (List K)}
include henroll

theorem others_addSet (h : Other w peer)
    (ha : w.addSet enroll index peers = some (deleted, w')) : Other w' peer := by
  refine Only.addSet (fun r r' hr hdc _ => ?_) h (fun _ b _ => ?_) ha
  · rw [(decrement_eq_some hdc).2.1]
    exact hr
  · cases hr : w.records.get? peer with
    | none => exact (henroll.fresh b).1.2
    | some r => exact (henroll.mild b r).others (h r hr)

/-- A blocked peer stays blocked, if it has a record when it is registered, or if no sets are kept. -/
theorem blocked_addSet (hw : w.Balanced) (h : Blocked w peer)
    (hrc : w.maxSets ≠ 0 → w.accepts index = true → peer ∈ peers.keys → w.records.get? peer ≠ none)
    (ha : w.addSet enroll index peers = some (deleted, w')) : Blocked w' peer := by
  have hstable : ∀ r r' : Record A, isBlocked r.address = true → Counted.decrement r = some r' →
      Counted.deletable r' = false → isBlocked r'.address = true := by
    intro r r' hr hdc _
    rw [(decrement_eq_some hdc).2.1]
    exact hr
  cases hg : w.records.get? peer with
  | some r =>
    refine Only.addSet hstable h (fun _ b _ => ?_) ha
    rw [hg]
    exact (henroll.mild b r).blocked (h r hg)
  | none =>
    by_cases hm : w.maxSets = 0
    · -- a record that is made for the set goes with it
      have hnn := hw.get?_addSet_of_maxSets henroll.sets hm
        (Q := fun r => r.persistent = false ∧ r.status = .inert) (fun r r' hr hdc => ?_)
        (fun r hr hcn => ?_) (fun b => ?_) hg ha
      · intro r hr
        rw [hnn] at hr
        cases hr
      · obtain ⟨-, -, hst, hpr⟩ := decrement_eq_some hdc
        rw [hst, hpr]
        exact hr
      · change (decide (r.sets = 0) && !r.persistent && decide (r.status = .inert)) = true
        rw [hr.1, hr.2, decide_eq_true (show r.sets = 0 from hcn)]
        rfl
      · exact (henroll.fresh b).2.2
    · refine Only.addSet hstable h (fun hac b hb => ?_) ha
      refine absurd hg (hrc hm hac ?_)
      rw [mem_keys_iff, hb]
      rfl

/-- A peer without a record that is registered is eligible. -/
theorem eligible_addSet (hw : w.Balanced) (hm : w.maxSets ≠ 0) (hac : w.accepts index = true)
    (hmem : peer ∈ peers.keys) (hnn : w.records.get? peer = none) :
    ∃ deleted w', w.addSet enroll index peers = some (deleted, w') ∧
      Peers.eligible w' peer = true := by
  obtain ⟨deleted, w', ha, hbl, -, hls⟩ := hw.addSet henroll.sets index peers
  refine ⟨deleted, w', ha, ?_⟩
  have hop : Only Record.Open w' peer := by
    refine Only.addSet (fun r r' hr hdc _ => ?_) (fun r hr => ?_) (fun _ b _ => ?_) ha
    · rw [Record.Open, (decrement_eq_some hdc).2.1]
      exact hr
    · rw [hnn] at hr
      cases hr
    · rw [hnn]
      exact (henroll.fresh b).1
  obtain ⟨r, hr, hp⟩ := hbl.get?_of_last ((hls hac).2 (Nat.pos_of_ne_zero hm)) hmem
  rw [Peers.eligible, hr]
  exact eligible_of_open (hop r hr) hp

end Registration

/-! ### Runs -/

section Runs

variable {B D E : Type} {enroll : B → Option (Record A) → Record A} (henroll : Admission enroll)
  {step : D → E → Option D} {window : D → Peers K A} {add : ℕ → OrdMap K B → E}
  (hkeeps : ∀ d e d', (∀ index peers, e ≠ add index peers) → step d e = some d' →
    Keeps (window d) (window d'))
  (hadds : ∀ d index peers, (step d (add index peers)).map window =
    ((window d).addSet enroll index peers).map Prod.snd)
include henroll hkeeps hadds

theorem step_cases {d d' : D} {e : E} (hbl : (window d).Balanced) (hst : step d e = some d') :
    (window d').Balanced ∧ (window d').maxSets = (window d).maxSets ∧
      (Keeps (window d) (window d') ∨ ∃ index peers deleted, e = add index peers ∧
        (window d).addSet enroll index peers = some (deleted, window d')) := by
  by_cases he : ∃ index peers, e = add index peers
  · obtain ⟨index, peers, rfl⟩ := he
    have h := hadds d index peers
    rw [hst, map_some, eq_comm, map_eq_some_iff] at h
    obtain ⟨⟨deleted, w'⟩, ha, rfl⟩ := h
    obtain ⟨deleted', w', ha', hb, hm, -⟩ := hbl.addSet henroll.sets index peers
    cases ha.symm.trans ha'
    exact ⟨hb, hm, .inr ⟨index, peers, deleted, rfl, ha⟩⟩
  · have hk := hkeeps d e d' (fun index peers h => he ⟨index, peers, h⟩) hst
    exact ⟨hk.balanced hbl, hk.maxSets, .inl hk⟩

/-- What holds in all states: the counts are right, and a peer other than the node itself does not have
the address of the node. -/
theorem others_run {d d' : D} (hbl : (window d).Balanced)
    (hot : Other (window d) peer) {es : List E} (h : es.foldlM step d = some d') :
    (window d').Balanced ∧ Other (window d') peer := by
  induction es generalizing d with
  | nil =>
    cases h
    exact ⟨hbl, hot⟩
  | cons e es ih =>
    rw [List.foldlM_cons] at h
    obtain ⟨d₁, hst, hr⟩ := bind_eq_some_iff.1 h
    obtain ⟨hb, -, hcs⟩ := step_cases henroll hkeeps hadds hbl hst
    refine ih hb ?_ hr
    rcases hcs with hk | ⟨index, peers, deleted, -, ha⟩
    · exact hk.others peer hot
    · exact others_addSet henroll hot ha

/-- A blocked peer is blocked in all states of a run exactly if it is never registered while it has no
record.  The directory is given by its steps and by those of them that register a set. -/
theorem blocked_run_iff {d₀ d d₁ : D} (hbl : (window d₀).Balanced)
    (hot : Other (window d₀) peer) {events : List E} (hr : events.foldlM step d₀ = some d)
    (hbc : window d₁ = (window d).block peer) (Good : D → Prop)
    (hg : ∀ d, Blocked (window d) peer → Good d)
    (hsh : ∀ d, Good d → (window d).eligible peer = false) (es : List E) :
    (∀ es₁ d', es₁ <+: es → es₁.foldlM step d₁ = some d' → Good d') ↔
      (window d).maxSets = 0 ∨ ∀ es₁ index peers d', es₁ ++ [add index peers] <+: es →
        es₁.foldlM step d₁ = some d' → (window d').accepts index = true → peer ∈ peers.keys →
          (window d').records.get? peer ≠ none := by
  obtain ⟨hb, ho⟩ := others_run henroll hkeeps hadds hbl hot hr
  have hk := Keeps.block (window d) peer
  rw [← hbc] at hk
  have hrn := run_iff step Good
    (fun d' => (window d').Balanced ∧ (window d').maxSets = (window d).maxSets)
    (fun d' => Blocked (window d') peer)
    (fun d' e => ∃ index peers, e = add index peers ∧ (window d).maxSets ≠ 0 ∧
      (window d').accepts index = true ∧ peer ∈ peers.keys ∧ (window d').records.get? peer = none)
    ?_ ?_ hg ?_ ⟨hk.balanced hb, hk.maxSets⟩ (hbc ▸ only_block ho) es
  · rw [hrn]
    constructor
    · intro h
      by_cases hmx : (window d).maxSets = 0
      · exact .inl hmx
      refine .inr fun es₁ index peers d' hes hd' ha hmem hnn => ?_
      exact h es₁ _ d' hes hd' ⟨index, peers, rfl, hmx, ha, hmem, hnn⟩
    · rintro (hmx | h) es₁ e d' hes hd' ⟨index, peers, rfl, hmx', ha, hmem, hnn⟩
      · exact hmx' hmx
      · exact h es₁ index peers d' hes hd' ha hmem hnn
  · rintro d₁ e d₂ ⟨hb, hm⟩ hd
    obtain ⟨hb', hm', -⟩ := step_cases henroll hkeeps hadds hb hd
    exact ⟨hb', hm'.trans hm⟩
  · rintro d₁ e d₂ ⟨hb, hm⟩ hsh hd hbad
    rcases (step_cases henroll hkeeps hadds hb hd).2.2 with hk | ⟨index, peers, deleted, rfl, had⟩
    · exact hk.blocked peer hsh
    · refine blocked_addSet henroll hb hsh (fun hmx ha hmem hnn => ?_) had
      exact hbad ⟨index, peers, rfl, hm ▸ hmx, ha, hmem, hnn⟩
  · rintro d₁ e ⟨hb, hm⟩ ⟨index, peers, rfl, hmx, ha, hmem, hnn⟩
    obtain ⟨deleted, w', had, hel⟩ :=
      eligible_addSet henroll hb (hm ▸ hmx) ha hmem hnn
    have h := hadds d₁ index peers
    rw [had, map_some, map_eq_some_iff] at h
    obtain ⟨d₂, hd, hw⟩ := h
    refine ⟨d₂, hd, fun hg₂ => ?_⟩
    have hnt := hsh d₂ hg₂
    rw [hw, hel] at hnt
    cases hnt

end Runs

end Peers

end Commonware.Tracker
