/-
**What a voter votes for.**

A voter notarizes a proposal that it built, that the application verified after the parent rule was
checked, or that a certificate carries.  In all three cases the proposal extends a certified
proposal over nullified views.  The facts in question are those the certificates in the voter's
hands establish: the module is relative to a collection of facts that covers these certificates and
in which confirmed proposals extend confirmed ones.

Main definitions:

* `Grounded`, `GroundedState`, `GroundedRecord` — the certificates that a round, a state or a
  journal record holds are facts, and the proposals it vouches for extend the chain;
* `GroundedNode` — the same of a node with its history.

Main results:

* `GroundedState.parentPayload`, `GroundedState.findParent` — the parent rule, in terms of facts;
* `exec_grounded`, `recover_grounded` — operations and recovery keep the memory grounded;
* `GroundedNode.step` — **one step of a node keeps its votes grounded**.
-/

import Commonware.ChainVoting
import Commonware.VoterDiscipline

set_option autoImplicit false

namespace Commonware.Simplex.Voter

open List Option

open ChainVoting (Facts)

variable {D Sig Cert PK : Type}

/-- The proposal extends a confirmed proposal over nullified views. -/
abbrev Extends (F : Facts (Proposal D)) (p : Proposal D) : Prop :=
  F.Extends Proposal.view Proposal.parent p

/-! ### Rounds -/

/-- The certificates of a round of view `v` are facts, and its slot vouches for proposals that
extend the chain. -/
structure Grounded (F : Facts (Proposal D)) (v : ℕ) (r : Round D Cert PK) : Prop where
  vouches : r.proposal.Vouches (Extends F)
  notarization : ∀ c, r.notarization = some c → c.proposal.view = v ∧ F.notarized c.proposal
  nullification : ∀ c, r.nullification = some c → F.nullified v
  finalization : ∀ c, r.finalization = some c → c.proposal.view = v ∧ F.finalized c.proposal
  certified : r.certified = some true → r.notarization.isSome = true

section

variable {F F' : Facts (Proposal D)} {v : ℕ} {r r' : Round D Cert PK}

theorem grounded_new (F : Facts (Proposal D)) (v : ℕ) (rnd : Rnd) :
    Grounded F v (Round.new rnd : Round D Cert PK) :=
  ⟨Slot.vouches_new _, by simp [Round.new], by simp [Round.new], by simp [Round.new],
    by simp [Round.new]⟩

variable (h : Grounded F v r)
include h

theorem Grounded.mono (hF : F.Le F') : Grounded F' v r where
  vouches := h.vouches.mono fun _ hp => hp.mono hF
  notarization := fun c hc => (h.notarization c hc).imp id (hF.notarized _)
  nullification := fun c hc => hF.nullified v (h.nullification c hc)
  finalization := fun c hc => (h.finalization c hc).imp id (hF.finalized _)
  certified := h.certified

theorem Grounded.withSlot {s : Slot D} (hs : s.Vouches (Extends F)) :
    Grounded F v { r with proposal := s } :=
  { h with vouches := hs }

theorem Grounded.tryPropose (me : Option ℕ) : Grounded F v (r.tryPropose me).2 := by
  unfold Round.tryPropose
  split
  · exact h
  · exact h.withSlot h.vouches.setBuilding

variable {p : Proposal D}

theorem Grounded.tryVerify (me : Option ℕ) (hp : r.proposal.proposal = some p)
    (he : Extends F p) : Grounded F v (r.tryVerify me).2 := by
  unfold Round.tryVerify
  split_ifs
  · exact h
  · exact h.withSlot (h.vouches.requestVerify hp he)

theorem Grounded.verified (hr : r.proposal.requestedVerify = true) : Grounded F v r.verified.2 := by
  unfold Round.verified
  split_ifs
  · exact h
  · exact h.withSlot (h.vouches.markVerified hr)

theorem Grounded.proposed (he : Extends F p) : Grounded F v (r.proposed p).2 := by
  unfold Round.proposed
  split_ifs
  · exact h
  · exact h.withSlot (h.vouches.built he)

theorem Grounded.setProposal [DecidableEq D] (p : Proposal D) :
    Grounded F v (r.setProposal p).2 := by
  unfold Round.setProposal
  split_ifs
  · exact h
  · exact h.withSlot (h.vouches.update_heard p)

theorem Grounded.addNotarization [DecidableEq D] {c : Notarization D Cert}
    (hv : c.proposal.view = v) (hc : F.notarized c.proposal) (he : Extends F c.proposal) :
    Grounded F v (r.addNotarization c).2 := by
  unfold Round.addNotarization
  split_ifs
  · exact h
  · refine ⟨h.vouches.update_recovered he, ?_, h.nullification, h.finalization, fun _ => rfl⟩
    rintro x ⟨⟩
    exact ⟨hv, hc⟩

theorem Grounded.addNullification {c : Nullification Cert}
    (hc : F.nullified v) : Grounded F v (r.addNullification c).2 := by
  unfold Round.addNullification
  split_ifs
  · exact h
  · exact { h with nullification := fun _ _ => hc }

theorem Grounded.addFinalization [DecidableEq D] {c : Finalization D Cert}
    (hv : c.proposal.view = v) (hc : F.finalized c.proposal) (he : Extends F c.proposal) :
    Grounded F v (r.addFinalization c).2 := by
  unfold Round.addFinalization
  split_ifs
  · exact h
  · refine ⟨h.vouches.update_recovered he, h.notarization, h.nullification, ?_, h.certified⟩
    rintro x ⟨⟩
    exact ⟨hv, hc⟩

/-- A certification result is recorded for a view whose notarization is held. -/
theorem Grounded.decided {isSuccess : Bool}
    (hn : isSuccess = true → r.notarization.isSome = true) : Grounded F v (r.decided isSuccess) :=
  { h with certified := fun hc => hn (some_inj.1 hc) }

/-- A broadcast, or a vote, only sets a flag of the round. -/
theorem Grounded.flagged (hr : r.Flagged r') : Grounded F v r' := by
  constructor
  · rw [hr.proposal]; exact h.vouches
  · rw [hr.notarization]; exact h.notarization
  · rw [hr.nullification]; exact h.nullification
  · rw [hr.finalization]; exact h.finalization
  · rw [hr.certified, hr.notarization]; exact h.certified

/-- A proposal that is voted for extends the chain. -/
theorem Grounded.notarize (hp : r.constructNotarize.1 = some p) : Extends F p := by
  unfold Round.constructNotarize at hp
  split_ifs at hp with h₁ h₂
  exact h.vouches.verified (not_not.1 h₂) p hp

end

/-! ### States -/

def GroundedState (cfg : Config D Sig Cert PK) (F : Facts (Proposal D)) (st : State D Cert PK) :
    Prop :=
  ∀ v, Grounded F v (st.roundAt cfg v)

section

variable {cfg : Config D Sig Cert PK} {F F' : Facts (Proposal D)} {st st' : State D Cert PK}

variable (h : GroundedState cfg F st)
include h

variable {v : ℕ}

theorem GroundedState.get {r : Round D Cert PK}
    (hr : st.views.get? v = some r) : Grounded F v r := by
  have := h v
  rwa [State.roundAt_of_get? cfg hr] at this

/-- A certified view has a confirmed proposal. -/
theorem GroundedState.isCertified {d : D} (hc : st.isCertified v = .ok (some d)) :
    v = 0 ∨ ∃ p : Proposal D, p.view = v ∧ F.Confirmed p := by
  rcases State.isCertified_some hc with h₀ | ⟨r, hr, hf | hs⟩
  · exact .inl h₀
  · obtain ⟨c, hc⟩ := isSome_iff_exists.1 hf
    obtain ⟨hv, hF⟩ := (h.get hr).finalization c hc
    exact .inr ⟨c.proposal, hv, .inr hF⟩
  · obtain ⟨c, hc⟩ := isSome_iff_exists.1 ((h.get hr).certified hs)
    obtain ⟨hv, hF⟩ := (h.get hr).notarization c hc
    exact .inr ⟨c.proposal, hv, .inl hF⟩

theorem GroundedState.isNullified (hn : st.isNullified v = true) : F.nullified v := by
  obtain ⟨c, hc⟩ := State.isNullified_true hn
  obtain ⟨r, hr, hrc⟩ := bind_eq_some_iff.1 hc
  exact (h.get hr).nullification c hrc

/-- The verifier's parent rule, in terms of facts. -/
theorem GroundedState.parentPayload {p : Proposal D} {d : D}
    (hp : st.parentPayload p = .ok (some d)) : Extends F p := by
  obtain ⟨hlt, -, hc, hn⟩ := State.parentPayload_some hp
  exact ⟨hlt, fun u h₁ h₂ => h.isNullified (hn u h₁ h₂), h.isCertified hc⟩

/-- The leader's parent rule, in terms of facts. -/
theorem GroundedState.findParent {rnd : Rnd} {parent : ℕ} {d d' : D}
    (hv : 0 < rnd.view) (hp : st.findParent rnd.view = .ok (.ok (parent, d))) :
    Extends F ⟨rnd, parent, d'⟩ := by
  obtain ⟨hlt, hc, hn⟩ := State.findParent_ok hv hp
  exact ⟨hlt, fun u h₁ h₂ => h.isNullified (hn u h₁ h₂), h.isCertified hc⟩

end

/-! ### Operations -/

def GroundedRecord (F : Facts (Proposal D)) : Artifact D Sig Cert → Prop
  | .notarize vote => Extends F vote.proposal
  | .notarization c => F.notarized c.proposal
  | .nullification c => F.nullified c.round.view
  | .finalization c => F.finalized c.proposal
  | .certification _ _ | .nullify _ | .finalize _ => True

/-- An effect is grounded: it signs, records or sends nothing that does not extend the chain. -/
def GroundedEffect (F : Facts (Proposal D)) : Effect D Sig Cert → Prop
  | .sign (.notarize vote) | .send (.notarize vote) => Extends F vote.proposal
  | .append a => GroundedRecord F a
  | .sign _ | .send _ | .certify _ _ | .sync _ | .sendCertificate _ | .prune _ => True

/-- The certificate an operation brings in is a fact. -/
def OpFacts (F : Facts (Proposal D)) : Op D Cert → Prop
  | .notarization c => F.notarized c.proposal
  | .nullification c => F.nullified c.round.view
  | .finalization c => F.finalized c.proposal
  | _ => True

structure GroundedMemory (cfg : Config D Sig Cert PK) (F : Facts (Proposal D))
    (m : Memory D Cert PK) : Prop where
  state : GroundedState cfg F m.state
  pending : ∀ ctx, m.pendingPropose = some ctx → ∀ d, Extends F ⟨ctx.round, ctx.parent.1, d⟩

section

variable {cfg : Config D Sig Cert PK} {F F' : Facts (Proposal D)} {st st' : State D Cert PK}
  {m : Memory D Cert PK}

theorem GroundedMemory.mono (h : GroundedMemory cfg F m) (hF : F.Le F') : GroundedMemory cfg F' m :=
  ⟨fun v => (h.state v).mono hF, fun ctx hc d => (h.pending ctx hc d).mono hF⟩

variable {a : Artifact D Sig Cert}

theorem GroundedRecord.mono (h : GroundedRecord F a) (hF : F.Le F') :
    GroundedRecord F' a := by
  cases a with
  | notarize x => exact Facts.Extends.mono h hF
  | notarization c => exact hF.notarized _ h
  | nullification c => exact hF.nullified _ h
  | finalization c => exact hF.finalized _ h
  | certification | nullify | finalize => trivial

/-- What a call brings in is grounded. -/
def CallFacts (cfg : Config D Sig Cert PK) (F : Facts (Proposal D)) (st : State D Cert PK) :
    Call D Sig Cert → Prop
  | .addNotarization c => F.notarized c.proposal
  | .addNullification c => F.nullified c.round.view
  | .addFinalization c => F.finalized c.proposal
  | .proposed p => Extends F p
  | .verified v => (st.roundAt cfg v).proposal.requestedVerify = true
  | .replay (.notarize vote) => Extends F vote.proposal
  | .replay (.certification rnd true) => (st.roundAt cfg rnd.view).notarization.isSome = true
  | _ => True

variable {c : Call D Sig Cert}

/-- **A call keeps a state grounded.** -/
theorem GroundedState.call [DecidableEq D] (h : GroundedState cfg F st)
    (hF : ∀ p, F.Confirmed p → Extends F p) (hc : CallFacts cfg F st c)
    (hst : st.call cfg c = .ok st') : GroundedState cfg F st' := by
  intro v
  have hv := h v
  generalize hr' : st'.roundAt cfg v = r'
  cases hr' ▸ State.call_edits hst v with
  | same => exact hv
  | led leader | handled | unhandled => exact { hv with }
  | flagged hf => exact hv.flagged (Call.flagged hf _)
  | tryPropose => exact hv.tryPropose _
  | tryVerify hp hd => exact hv.tryVerify _ hp (h.parentPayload hd)
  | proposed p => exact hv.proposed hc
  | setProposal p => exact hv.setProposal p
  | verified => exact hv.verified hc
  | notarized n hn => exact hv.addNotarization hn hc (hF _ (.inl hc))
  | nullified n hn => exact hv.addNullification (hn ▸ hc)
  | finalized n hn => exact hv.addFinalization hn hc (hF _ (.inr hc))
  | decided b hn => exact hv.decided fun _ => hn
  | replayed ha hr =>
    rcases Round.replay_cases hr with ⟨-, hf | ⟨x, rfl, hf⟩⟩ | ⟨rnd, b, rfl, rfl⟩
    · exact hv.flagged hf
    · exact (hv.withSlot (hv.vouches.built hc)).flagged hf
    · refine hv.decided ?_
      rintro rfl
      exact ha ▸ hc
  | dropped => exact grounded_new F v _

/-- A context handed to the application names a parent that the chain can be extended from. -/
theorem GroundedState.tryPropose (h : GroundedState cfg F st) {ctx : Context D PK}
    (hx : st.tryPropose cfg = .ok (some ctx, st')) (d : D) :
    Extends F ⟨ctx.round, ctx.parent.1, d⟩ := by
  unfold State.tryPropose at hx
  split_ifs at hx with hv
  · cases hx
  · split at hx
    · cases hx
    · split_ifs at hx
      · cases hx
      · split at hx
        · cases hx
        · cases hx
        · next parent hp =>
            obtain ⟨l, -, rfl⟩ := map_eq_some_iff.1 (congrArg Prod.fst (Except.ok.inj hx))
            have he : Extends F ⟨⟨cfg.epoch, st.view⟩, parent.1, d⟩ :=
              h.findParent (Nat.pos_of_ne_zero hv) hp
            exact he

/-- Casting a vote is grounded when a notarize vote extends the chain. -/
theorem grounded_castVote {vote : Vote D Sig} (h : ∀ x, vote = .notarize x → Extends F x.proposal) :
    ∀ e ∈ (castVote vote : List (Effect D Sig Cert)), GroundedEffect F e := by
  intro e he
  simp only [castVote, mem_cons, not_mem_nil, or_false] at he
  rcases he with rfl | rfl | rfl | rfl <;> cases vote <;>
    first | trivial | exact h _ rfl

/-- The certificates that are sent along with other effects need no grounds. -/
theorem grounded_certificate {l : List (Effect D Sig Cert)} (h : ∀ e ∈ l, GroundedEffect F e)
    (c : Option (Certificate D Cert)) :
    ∀ e ∈ l ++ (c.map Effect.sendCertificate).toList, GroundedEffect F e := by
  intro e he
  rcases mem_append.1 he with he | he
  · exact h e he
  · cases c with
    | none => simp at he
    | some c => cases mem_singleton.1 he; trivial

variable {op : Op D Cert}

/-- An operation calls the state with facts. -/
theorem callFacts_of_enabled (h : GroundedMemory cfg F m) (hop : OpFacts F op)
    (hen : Enabled cfg m op) (hc : op.call m = some c) :
    CallFacts cfg F m.state c := by
  cases op with
  | verified v => cases hc; exact hen.2
  | notarization c | nullification c | finalization c => cases hc; exact hop
  | proposed payload =>
    obtain ⟨ctx, hct, rfl⟩ := map_eq_some_iff.1 hc
    exact h.pending ctx hct payload
  | tryCertify v =>
    simp only [Op.call] at hc
    split at hc <;> cases hc
    trivial
  | _ => cases hc; trivial

/-- **An operation keeps the memory grounded, and has grounded effects.** -/
theorem exec_grounded [DecidableEq D] {m' : Memory D Cert PK}
    {effects : List (Effect D Sig Cert)} (h : GroundedMemory cfg F m)
    (hF : ∀ p, F.Confirmed p → Extends F p) (hop : OpFacts F op) (hen : Enabled cfg m op)
    (hex : exec cfg m op = .ok (m', effects)) :
    GroundedMemory cfg F m' ∧ ∀ e ∈ effects, GroundedEffect F e := by
  refine ⟨⟨?_, fun ctx hc d => ?_⟩, ?_⟩
  · rcases exec_call hex with ⟨-, hm⟩ | ⟨c, hc, hst⟩
    · rw [hm]
      exact h.state
    · exact h.state.call hF (callFacts_of_enabled h hop hen hc) hst
  · rcases exec_pending hex hc with hc | ⟨st, hx⟩
    · exact h.pending ctx hc d
    · exact h.state.tryPropose hx d
  · cases exec_emits hex with
    | silent => simp
    | notarize v hp hx =>
      refine grounded_castVote ?_
      rintro x ⟨⟩
      rw [(sign_notarize hx).1]
      exact (h.state v).notarize hp
    | finalize v hp hx => exact grounded_castVote (by simp)
    | nullify c hx => exact grounded_certificate (grounded_castVote (by simp)) c
    | retry x c => exact grounded_certificate (by simp [GroundedEffect]) c
    | entry c => exact grounded_certificate (by simp) c
    | notarization c | finalization c => exact fun e he => mem_singleton.1 he ▸ hop
    | nullification c floor =>
      exact grounded_certificate (fun e he => mem_singleton.1 he ▸ hop) floor
    | certified v b => simp [GroundedEffect, GroundedRecord]
    | certificate | pruned => simp [GroundedEffect]

/-! ### Recovery -/

/-- **The replay of a grounded record keeps the state grounded.**  A certification result is only
replayed for a view whose notarization was replayed before it: the handler, which runs after the
result has been noted in the round, insists on it. -/
theorem replayRecord_grounded [DecidableEq D]
    (hF : ∀ p, F.Confirmed p → Extends F p) (h : GroundedState cfg F st)
    (ha : GroundedRecord F a) (hr : replayRecord cfg st a = .ok st') : GroundedState cfg F st' := by
  obtain ⟨st₁, h₁, hst⟩ := replayRecord_calls hr
  have hf : CallFacts cfg F st (.replay a) := by
    cases a with
    | notarize x => exact ha
    | certification rnd b =>
      cases b with
      | false => trivial
      | true =>
        rcases hst with ⟨hno, -⟩ | ⟨c, hc, hst⟩
        · cases hno
        · cases hc
          obtain ⟨r, hrr, rfl⟩ := State.replay_ok h₁
          obtain rfl := Round.setCertified_ok hrr
          obtain ⟨x, hx, -⟩ := map_eq_ok.1 hst
          have hg := OrdMap.get?_insert_self st.views rnd.view
            ((st.roundAt cfg rnd.view).decided true)
          rcases State.certified_ok hx with ⟨⟨hnn, -⟩, -⟩ | ⟨r, hr, hn, -⟩
          · cases hg.symm.trans hnn
          · cases hg.symm.trans hr
            exact hn
    | _ => trivial
  have hg₁ := h.call hF hf h₁
  rcases hst with ⟨-, rfl⟩ | ⟨c, hc, hst⟩
  · exact hg₁
  · refine hg₁.call hF ?_ hst
    cases a with
    | notarize x | nullify x | finalize x => cases hc
    | notarization x | nullification x | finalization x => cases hc; exact ha
    | certification rnd b => cases hc; trivial

theorem replayRecords_grounded [DecidableEq D] (hF : ∀ p, F.Confirmed p → Extends F p)
    {l : List (Artifact D Sig Cert)} :
    ∀ {st : State D Cert PK}, GroundedState cfg F st → (∀ a ∈ l, GroundedRecord F a) →
      replayRecords cfg st l = .ok st' → GroundedState cfg F st' := by
  induction l with
  | nil =>
    intro st h _ hr
    cases hr
    exact h
  | cons a l ih =>
    intro st h ha hr
    rw [replayRecords] at hr
    cases hst : replayRecord cfg st a with
    | error e => rw [hst] at hr; cases hr
    | ok st₁ =>
      rw [hst] at hr
      have h₁ := replayRecord_grounded hF h (ha a mem_cons_self) hst
      exact ih h₁ (fun b hb => ha b (mem_cons_of_mem _ hb)) hr

/-- **A voter that starts from a grounded journal is grounded.** -/
theorem recover_grounded [DecidableEq D] (hF : ∀ p, F.Confirmed p → Extends F p)
    {j : Journal D Sig Cert} (hj : ∀ v, ∀ a ∈ j.sec v, GroundedRecord F a)
    (hr : recover cfg j = .ok m) : GroundedMemory cfg F m := by
  have hrc : ∀ a ∈ j.records, GroundedRecord F a := by
    intro a ha
    obtain ⟨e, he, hae⟩ := mem_flatMap.1 ha
    refine hj e.1 a ?_
    rw [Journal.sec, j.mem_entries_iff.1 he]
    exact hae
  unfold recover at hr
  cases hst : replayRecords cfg (State.new.setGenesis cfg cfg.genesis) j.records with
  | error e => rw [hst] at hr; cases hr
  | ok st =>
    rw [hst] at hr
    dsimp only at hr
    split_ifs at hr
    cases hr
    have h₀ : GroundedState cfg F (State.new : State D Cert PK) := fun v => grounded_new F v _
    have h₁ : GroundedState cfg F (State.new.setGenesis cfg cfg.genesis) :=
      h₀.call hF (c := .setGenesis cfg.genesis) trivial rfl
    have h := replayRecords_grounded hF h₁ hrc hst
    exact ⟨h.call hF (c := .expireRound st.view) trivial rfl, by simp⟩

end

/-! ### Nodes -/

/-- What a node holds in memory or on disk is grounded, and so is every notarize vote it ever
signed. -/
structure GroundedNode (cfg : Config D Sig Cert PK) (F : Facts (Proposal D))
    (n : Node D Sig Cert PK) : Prop where
  memory : ∀ m, n.memory = some m → GroundedMemory cfg F m
  journal : ∀ v, ∀ a ∈ n.journal.sec v, GroundedRecord F a
  signed : ∀ x, .signed (.notarize x) ∈ n.history → Extends F x.proposal
  sent : ∀ x, .sent (.notarize x) ∈ n.history → Extends F x.proposal

section

variable {cfg : Config D Sig Cert PK} {F F' : Facts (Proposal D)} {n n' : Node D Sig Cert PK}

theorem groundedNode_init : GroundedNode cfg F (Node.init : Node D Sig Cert PK) :=
  ⟨by simp [Node.init], by simp [Node.init], by simp [Node.init], by simp [Node.init]⟩

theorem GroundedNode.mono (h : GroundedNode cfg F n) (hF : F.Le F') : GroundedNode cfg F' n where
  memory := fun m hm => (h.memory m hm).mono hF
  journal := fun v a ha => (h.journal v a ha).mono hF
  signed := fun x hx => (h.signed x hx).mono hF
  sent := fun x hx => (h.sent x hx).mono hF

/-- The memory may be replaced by another that is grounded. -/
theorem GroundedNode.withMemory (h : GroundedNode cfg F n) {m : Option (Memory D Cert PK)}
    (hm : ∀ x, m = some x → GroundedMemory cfg F x) : GroundedNode cfg F { n with memory := m } :=
  { h with memory := hm }

theorem GroundedNode.apply (h : GroundedNode cfg F n) {e : Effect D Sig Cert}
    (he : GroundedEffect F e) : GroundedNode cfg F (n.apply e) := by
  cases e with
  | sign vote =>
    refine ⟨h.memory, h.journal, fun x hx => ?_,
      fun x hx => h.sent x (by simpa [Node.apply] using hx)⟩
    rcases mem_append.1 hx with hx | hx
    · exact h.signed x hx
    · cases mem_singleton.1 hx
      exact he
  | send vote =>
    refine ⟨h.memory, h.journal, fun x hx => h.signed x (by simpa [Node.apply] using hx),
      fun x hx => ?_⟩
    rcases mem_append.1 hx with hx | hx
    · exact h.sent x hx
    · cases mem_singleton.1 hx
      exact he
  | append a =>
    refine { h with journal := fun v b hb => ?_ }
    simp only [Node.apply, Journal.sec_append] at hb
    split_ifs at hb
    · rcases mem_append.1 hb with hb | hb
      · exact h.journal v b hb
      · cases mem_singleton.1 hb
        exact he
    · exact h.journal v b hb
  | certify v s | sendCertificate c =>
    exact ⟨h.memory, h.journal, fun x hx => h.signed x (by simpa [Node.apply] using hx),
      fun x hx => h.sent x (by simpa [Node.apply] using hx)⟩
  | sync v | prune min => exact { h with }

theorem GroundedNode.applyAll {effects : List (Effect D Sig Cert)} :
    ∀ {n : Node D Sig Cert PK}, GroundedNode cfg F n → (∀ e ∈ effects, GroundedEffect F e) →
      GroundedNode cfg F (n.applyAll effects) := by
  induction effects with
  | nil => exact fun h _ => h
  | cons e l ih =>
    intro n h he
    exact ih (h.apply (he e mem_cons_self)) fun x hx => he x (mem_cons_of_mem _ hx)

/-- **One step of a node keeps its votes grounded**, as long as the certificates it is given are
facts. -/
theorem GroundedNode.step [DecidableEq D] (hF : ∀ p, F.Confirmed p → Extends F p)
    (h : GroundedNode cfg F n) {label : Option (Op D Cert)} (hl : ∀ op ∈ label, OpFacts F op)
    (hs : n.Step cfg label n') : GroundedNode cfg F n' := by
  cases hs with
  | @op _ m' op effects hm hen hex =>
    obtain ⟨hm', he⟩ := exec_grounded (h.memory _ hm) hF (hl op rfl) hen hex
    refine (h.applyAll he).withMemory ?_
    rintro x ⟨⟩
    exact hm'
  | @cut _ m' op effects k hm hen hex =>
    obtain ⟨-, he⟩ := exec_grounded (h.memory _ hm) hF (hl op rfl) hen hex
    exact (h.applyAll fun e hek => he e (mem_of_mem_take hek)).withMemory (by simp)
  | crash => exact h.withMemory (by simp)
  | @restart m j hm hj hr =>
    have hj' : ∀ v, ∀ a ∈ j.sec v, GroundedRecord F a := fun v a ha =>
      h.journal v a ((hj.isPrefix v).subset ha)
    refine ⟨?_, hj', h.signed, h.sent⟩
    rintro x ⟨⟩
    exact recover_grounded hF hj' hr

end

end Commonware.Simplex.Voter
