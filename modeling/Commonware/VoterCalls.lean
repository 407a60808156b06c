/-
**Calls on the voter's state.**

The operations of `consensus/src/simplex/actors/voter/state.rs` in any order, whoever issues them.
What a call may do to the round of a view is listed in `Edits`, one entry for each operation on a
round; most of them keep the leader, the proposal and the certificates, and `Round.Moves` lists the
others.  Invariants of the state are read off these lists.

Main definitions:

* `Commonware.Simplex.Voter.Call`, `State.call`, `State.calls` — the operations;
* `Edits`, `Round.Kept`, `Round.Moves` — what a call does to the round of a view.

Main results:

* `State.calls_induction` — what every call keeps holds after any calls;
* `State.call_edits`, `State.call_moves`, `State.call_frame` — **what a call can do**.
-/

import Commonware.Outcome
import Commonware.VoterState

set_option autoImplicit false

namespace Commonware.Simplex.Voter

variable {D Sig Cert PK : Type}

/-- An operation on the state.  Reading deadlines creates the round of a view at most, as
`expireRound` does. -/
inductive Call (D Sig Cert : Type)
  | setGenesis (genesis : D)
  | handleTimeout
  | addNotarization (c : Notarization D Cert)
  | addNullification (c : Nullification Cert)
  | addFinalization (c : Finalization D Cert)
  | constructNotarize (v : ℕ)
  | constructFinalize (v : ℕ)
  | broadcastNotarization (v : ℕ)
  | broadcastNullification (v : ℕ)
  | broadcastFinalization (v : ℕ)
  | replay (a : Artifact D Sig Cert)
  | expireRound (v : ℕ)
  | tryPropose
  | proposed (p : Proposal D)
  | setProposal (v : ℕ) (p : Proposal D)
  | tryVerify
  | verified (v : ℕ)
  | setCertifyHandle (v : ℕ)
  | retryCertification (v : ℕ)
  | certified (v : ℕ) (isSuccess : Bool)
  | prune

namespace State

section

variable [DecidableEq D] (cfg : Config D Sig Cert PK)

/-- The state after a call, or the assertion that failed. -/
def call (st : State D Cert PK) : Call D Sig Cert → Except Fault (State D Cert PK)
  | .setGenesis genesis => .ok (st.setGenesis cfg genesis)
  | .handleTimeout => .ok (st.handleTimeout cfg).2
  | .addNotarization c => .ok (st.addNotarization cfg c).2
  | .addNullification c => .ok (st.addNullification cfg c).2
  | .addFinalization c => .ok (st.addFinalization cfg c).2
  | .constructNotarize v => .ok (st.constructNotarize cfg v).2
  | .constructFinalize v => .ok (st.constructFinalize cfg v).2
  | .broadcastNotarization v => .ok (st.broadcastNotarization v).2
  | .broadcastNullification v => .ok (st.broadcastNullification v).2
  | .broadcastFinalization v => .ok (st.broadcastFinalization v).2
  | .replay a => st.replay cfg a
  | .expireRound v => .ok (st.expireRound cfg v)
  | .tryPropose => (st.tryPropose cfg).map Prod.snd
  | .proposed p => .ok (st.proposed p).2
  | .setProposal v p => .ok (st.setProposal cfg v p).2
  | .tryVerify => (st.tryVerify cfg).map Prod.snd
  | .verified v => .ok (st.verified v).2
  | .setCertifyHandle v => .ok (st.setCertifyHandle v)
  | .retryCertification v => .ok (st.retryCertification v)
  | .certified v isSuccess => (st.certified cfg v isSuccess).map Prod.snd
  | .prune => .ok (st.prune cfg).2

/-- The state after a list of calls, none of which fails. -/
def calls (st : State D Cert PK) : List (Call D Sig Cert) → Except Fault (State D Cert PK)
  | [] => .ok st
  | c :: cs =>
    match st.call cfg c with
    | .error e => .error e
    | .ok st' => st'.calls cs

variable {cfg}

/-- What every call keeps holds after any calls. -/
theorem calls_induction {Q : State D Cert PK → Prop} {cs : List (Call D Sig Cert)}
    (hst : ∀ st c st', c ∈ cs → Q st → st.call cfg c = .ok st' → Q st') :
    ∀ {st st' : State D Cert PK}, Q st → st.calls cfg cs = .ok st' → Q st' := by
  induction cs with
  | nil =>
    intro st st' hq h
    cases h
    exact hq
  | cons c cs ih =>
    intro st st' hq h
    rw [calls] at h
    cases hc : st.call cfg c with
    | error e => rw [hc] at h; cases h
    | ok st₁ =>
      rw [hc] at h
      exact ih (fun s d s' hd => hst s d s' (List.mem_cons_of_mem c hd))
        (hst st c st₁ List.mem_cons_self hq hc) h

theorem calls_snoc (cs : List (Call D Sig Cert)) (c : Call D Sig Cert) {st₂ : State D Cert PK} :
    ∀ {st : State D Cert PK}, st.calls cfg (cs ++ [c]) = .ok st₂ ↔
      ∃ st₁, st.calls cfg cs = .ok st₁ ∧ st₁.call cfg c = .ok st₂ := by
  induction cs with
  | nil =>
    intro st
    cases hc : st.call cfg c with
    | error | ok => simp [calls, hc]
  | cons d cs ih =>
    intro st
    rw [List.cons_append, calls, calls]
    cases hd : st.call cfg d with
    | error e => simp
    | ok st₁ => exact ih

end

end State

/-! ### What a call does to a round -/

variable {s : Slot D} {p : Proposal D}

theorem Slot.proposal_built (h : s.proposal = some p)
    (q : Proposal D) : (s.built q).proposal = some p := by
  rw [Slot.built, h]
  exact h

theorem Slot.proposal_requestVerify (s : Slot D) : s.requestVerify.2.proposal = s.proposal := by
  unfold Slot.requestVerify
  split <;> rfl

theorem Slot.proposal_markVerified (s : Slot D) : s.markVerified.2.proposal = s.proposal := by
  unfold Slot.markVerified
  split <;> rfl

theorem Slot.proposal_update_heard [DecidableEq D]
    (h : s.proposal = some p) (q : Proposal D) : (s.update q false).2.proposal = some p := by
  simp only [Slot.update, h, Bool.false_eq_true, ↓reduceIte]
  split_ifs
  · exact h
  · exact h
  · rfl

/-- A certified proposal ends up in the slot, unless the slot was equivocated. -/
theorem Slot.proposal_update_recovered [DecidableEq D] (s : Slot D) (p : Proposal D) :
    (s.update p true).2.proposal = some p ↔ (s.status = .equivocated → s.proposal = some p) := by
  simp only [Slot.update, ↓reduceIte]
  split
  · next h => simp [h]
  · next h =>
      refine iff_of_true ?_ fun he => absurd he h
      split
      · rfl
      · split_ifs <;> rfl

namespace Round

section

variable {r r' r'' : Round D Cert PK}

/-- A change of the flags that say what was broadcast. -/
structure Flagged (r r' : Round D Cert PK) : Prop where
  leader : r'.leader = r.leader
  proposal : r'.proposal = r.proposal
  notarization : r'.notarization = r.notarization
  nullification : r'.nullification = r.nullification
  finalization : r'.finalization = r.finalization
  certified : r'.certified = r.certified
  handle : r'.certifyHandle = r.certifyHandle

theorem Flagged.refl (r : Round D Cert PK) : r.Flagged r := ⟨rfl, rfl, rfl, rfl, rfl, rfl, rfl⟩

/-- A change that keeps the leader, the proposal, the certificates and the certification result. -/
structure Kept (r r' : Round D Cert PK) : Prop where
  leader : r.leader.isSome = true → r'.leader.isSome = true
  proposal : ∀ p, r.proposal.proposal = some p → r'.proposal.proposal = some p
  notarization : r'.notarization = r.notarization
  finalization : r'.finalization = r.finalization
  certified : r'.certified = r.certified
  handle : r'.certifyHandle = true → r.certifyHandle = true

theorem Kept.refl (r : Round D Cert PK) : r.Kept r :=
  ⟨id, fun _ h => h, rfl, rfl, rfl, id⟩

theorem Flagged.kept (h : r.Flagged r') : r.Kept r' :=
  ⟨fun hl => by rwa [h.leader], fun p hp => by rwa [h.proposal], h.notarization, h.finalization,
    h.certified, fun hh => h.handle ▸ hh⟩

/-- A change of the slot that keeps its proposal. -/
theorem Kept.slot (h : ∀ p, r.proposal.proposal = some p → s.proposal = some p) :
    r.Kept { r with proposal := s } :=
  ⟨id, h, rfl, rfl, rfl, id⟩

theorem kept_tryPropose (me : Option ℕ) (r : Round D Cert PK) : r.Kept (r.tryPropose me).2 := by
  unfold tryPropose
  split
  · exact .refl r
  · exact .slot fun _ h => h

theorem kept_tryVerify (me : Option ℕ) (r : Round D Cert PK) : r.Kept (r.tryVerify me).2 := by
  unfold tryVerify
  split_ifs
  · exact .refl r
  · exact .slot fun p h => (Slot.proposal_requestVerify _).trans h

theorem kept_proposed (r : Round D Cert PK) (p : Proposal D) : r.Kept (r.proposed p).2 := by
  unfold proposed
  split_ifs
  · exact .refl r
  · exact .slot fun _ h => Slot.proposal_built h p

theorem kept_verified (r : Round D Cert PK) : r.Kept r.verified.2 := by
  unfold verified
  split_ifs
  · exact .refl r
  · exact .slot fun _ h => (Slot.proposal_markVerified _).trans h

theorem kept_setProposal [DecidableEq D] (r : Round D Cert PK) (p : Proposal D) :
    r.Kept (r.setProposal p).2 := by
  unfold setProposal
  split_ifs
  · exact .refl r
  · exact .slot fun _ h => Slot.proposal_update_heard h p

theorem kept_addNullification (r : Round D Cert PK) (c : Nullification Cert) :
    r.Kept (r.addNullification c).2 := by
  unfold addNullification
  split_ifs
  · exact .refl r
  · exact ⟨id, fun _ h => h, rfl, rfl, rfl, id⟩

/-- Replay sets flags; the vote for a proposal also fills the slot, and a certification result is
recorded. -/
theorem replay_cases {me : Option ℕ} {a : Artifact D Sig Cert} (h : r.replay me a = .ok r') :
    ((∀ rnd b, a ≠ .certification rnd b) ∧ (r.Flagged r' ∨ ∃ x, a = .notarize x ∧
        Flagged { r with proposal := r.proposal.built x.proposal } r')) ∨
      ∃ rnd b, a = .certification rnd b ∧ r' = r.decided b := by
  cases a with
  | notarize x =>
    simp only [replay] at h
    split_ifs at h
    cases h
    exact .inl ⟨by simp, .inr ⟨x, rfl, rfl, rfl, rfl, rfl, rfl, rfl, rfl⟩⟩
  | nullify x | finalize x =>
    simp only [replay] at h
    split_ifs at h
    cases h
    exact .inl ⟨by simp, .inl ⟨rfl, rfl, rfl, rfl, rfl, rfl, rfl⟩⟩
  | notarization x | nullification x | finalization x =>
    cases h
    exact .inl ⟨by simp, .inl ⟨rfl, rfl, rfl, rfl, rfl, rfl, rfl⟩⟩
  | certification rnd b => exact .inr ⟨rnd, b, rfl, setCertified_ok h⟩

end

end Round

open Round

/-- The flags that a call on the state `st` sets, and the view that it sets them in. -/
def Call.flags (st : State D Cert PK) :
    Call D Sig Cert → Option (ℕ × (Round D Cert PK → Round D Cert PK))
  | .handleTimeout => some (st.view, fun r => r.constructNullify.2)
  | .constructNotarize v => some (v, fun r => r.constructNotarize.2)
  | .constructFinalize v => some (v, fun r => r.constructFinalize.2)
  | .broadcastNotarization v => some (v, fun r => r.broadcastNotarizationOnce.2)
  | .broadcastNullification v => some (v, fun r => r.broadcastNullificationOnce.2)
  | .broadcastFinalization v => some (v, fun r => r.broadcastFinalizationOnce.2)
  | _ => none

variable {f : Round D Cert PK → Round D Cert PK} {v : ℕ}

theorem Call.flagged {st : State D Cert PK} {c : Call D Sig Cert}
    (h : c.flags st = some (v, f)) (r : Round D Cert PK) :
    r.Flagged (f r) := by
  cases c with
  | handleTimeout | constructNotarize w | constructFinalize w =>
    cases h
    dsimp only [Round.constructNullify, Round.constructNotarize, Round.constructFinalize]
    split_ifs <;> exact ⟨rfl, rfl, rfl, rfl, rfl, rfl, rfl⟩
  | broadcastNotarization w | broadcastNullification w | broadcastFinalization w =>
    cases h
    dsimp only [Round.broadcastNotarizationOnce, Round.broadcastNullificationOnce,
      Round.broadcastFinalizationOnce]
    split_ifs
    · exact .refl r
    · split <;> exact ⟨rfl, rfl, rfl, rfl, rfl, rfl, rfl⟩
  | _ => cases h

/-- What a call on the state `st` does to the round `r` of view `v`. -/
inductive Edits [DecidableEq D] (cfg : Config D Sig Cert PK) (st : State D Cert PK) (v : ℕ)
    (r : Round D Cert PK) : Call D Sig Cert → Round D Cert PK → Prop
  | same {c : Call D Sig Cert} : Edits cfg st v r c r
  | led {c : Call D Sig Cert} (leader : Option (Leader PK))
      (h : r.leader.isSome = true → leader.isSome = true) : Edits cfg st v r c { r with leader }
  | flagged {c : Call D Sig Cert} {f : Round D Cert PK → Round D Cert PK}
      (h : c.flags st = some (v, f)) : Edits cfg st v r c (f r)
  | tryPropose : Edits cfg st v r .tryPropose (r.tryPropose cfg.scheme.me).2
  | tryVerify {p : Proposal D} {d : D} (hp : r.proposal.proposal = some p)
      (hd : st.parentPayload p = .ok (some d)) :
      Edits cfg st v r .tryVerify (r.tryVerify cfg.scheme.me).2
  | proposed (p : Proposal D) (h : p.view = v) : Edits cfg st v r (.proposed p) (r.proposed p).2
  | setProposal (p : Proposal D) : Edits cfg st v r (.setProposal v p) (r.setProposal p).2
  | verified : Edits cfg st v r (.verified v) r.verified.2
  | handled : Edits cfg st v r (.setCertifyHandle v) r.setCertifyHandle
  | unhandled : Edits cfg st v r (.retryCertification v) r.unsetCertifyHandle
  | notarized (c : Notarization D Cert) (h : c.proposal.view = v) :
      Edits cfg st v r (.addNotarization c) (r.addNotarization c).2
  | nullified (c : Nullification Cert) (h : c.round.view = v) :
      Edits cfg st v r (.addNullification c) (r.addNullification c).2
  | finalized (c : Finalization D Cert) (h : c.proposal.view = v) :
      Edits cfg st v r (.addFinalization c) (r.addFinalization c).2
  | decided (isSuccess : Bool) (h : r.notarization.isSome = true) :
      Edits cfg st v r (.certified v isSuccess) (r.decided isSuccess)
  | replayed {a : Artifact D Sig Cert} {r' : Round D Cert PK} (hv : a.view = v)
      (h : r.replay cfg.scheme.me a = .ok r') : Edits cfg st v r (.replay a) r'
  | dropped (h : v < st.minActive cfg) : Edits cfg st v r .prune (.new ⟨cfg.epoch, v⟩)

namespace State

section

variable {cfg : Config D Sig Cert PK} {st st' : State D Cert PK}

theorem state_handleTimeout (cfg : Config D Sig Cert PK) (st : State D Cert PK) :
    (st.handleTimeout cfg).2 = st.setRound st.view (st.roundAt cfg st.view).constructNullify.2 := by
  unfold handleTimeout
  rcases (st.roundAt cfg st.view).constructNullify with ⟨- | retry, r⟩
  · rfl
  · dsimp only
    split_ifs <;> rfl

theorem roundAt_setLeader_of_ne (st : State D Cert PK) {w : ℕ} (certificate : Option Cert)
    (h : v ≠ w) : (st.setLeader cfg w certificate).roundAt cfg v = st.roundAt cfg v := by
  simp only [setLeader]
  split_ifs <;> rw [roundAt_setRound, if_neg h]

theorem roundAt_setLeader (cfg : Config D Sig Cert PK) (st : State D Cert PK) (w v : ℕ) (certificate : Option Cert) :
    ∃ leader, ((st.roundAt cfg v).leader.isSome = true → leader.isSome = true) ∧
      (v = w → leader.isSome = true) ∧ (st.setLeader cfg w certificate).roundAt cfg v =
        { st.roundAt cfg v with leader } := by
  by_cases hv : v = w
  · subst hv
    simp only [setLeader]
    split_ifs with h
    · exact ⟨_, id, fun _ => h, (roundAt_setRound cfg st v v _).trans (if_pos rfl)⟩
    · exact ⟨_, fun _ => rfl, fun _ => rfl, (roundAt_setRound cfg st v v _).trans (if_pos rfl)⟩
  · exact ⟨_, id, fun h => absurd h hv, roundAt_setLeader_of_ne st certificate hv⟩

theorem leader_setLeader (st : State D Cert PK) (w : ℕ) (certificate : Option Cert) :
    ((st.setLeader cfg w certificate).roundAt cfg w).leader.isSome = true := by
  obtain ⟨leader, -, hw, hr⟩ := roundAt_setLeader cfg st w w certificate
  rw [hr]
  exact hw rfl

theorem roundAt_finalize (st : State D Cert PK) (w v : ℕ) :
    (if w > st.lastFinalized then { st with lastFinalized := w } else st : State D Cert PK).roundAt
      cfg v = st.roundAt cfg v := by
  split_ifs <;> rfl

theorem roundAt_expireRound (cfg : Config D Sig Cert PK) (st : State D Cert PK) (v u : ℕ) :
    (st.expireRound cfg v).roundAt cfg u = st.roundAt cfg u := by
  rw [expireRound, roundAt_setRound]
  split_ifs with h
  · rw [h]
  · rfl

theorem roundAt_prune (st : State D Cert PK) (v : ℕ) : (st.prune cfg).2.roundAt cfg v =
      if st.minActive cfg ≤ v then st.roundAt cfg v else Round.new ⟨cfg.epoch, v⟩ := by
  simp only [prune, roundAt, OrdMap.get?_filter]
  cases hr : st.views.get? v with
  | none => simp
  | some r => by_cases h : st.minActive cfg ≤ v <;> simp [h, Option.filter]

theorem kept_setGenesis (st : State D Cert PK) (genesis : D) (v : ℕ) :
    (st.roundAt cfg v).Kept ((st.setGenesis cfg genesis).roundAt cfg v) := by
  obtain ⟨leader, hl, -, hr⟩ := roundAt_setLeader cfg
    (({ st with genesis := some genesis } : State D Cert PK).enterView cfg (genesisView + 1))
    (genesisView + 1) v none
  rw [roundAt_enterView] at hl hr
  exact hr ▸ ⟨hl, fun _ h => h, rfl, rfl, rfl, id⟩

theorem genesis_enterView (st : State D Cert PK) (v : ℕ) :
    (st.enterView cfg v).genesis = st.genesis := by
  unfold enterView
  split_ifs <;> rfl

theorem genesis_setLeader (st : State D Cert PK) (v : ℕ) (certificate : Option Cert) :
    (st.setLeader cfg v certificate).genesis = st.genesis := by
  simp only [setLeader]
  split_ifs <;> rfl

theorem replay_ok {a : Artifact D Sig Cert} (h : st.replay cfg a = .ok st') :
    ∃ r, (st.roundAt cfg a.view).replay cfg.scheme.me a = .ok r ∧ st' = st.setRound a.view r := by
  obtain ⟨r, hr, hst⟩ := bind_eq_ok.1 h
  exact ⟨r, hr, (Except.ok.inj hst).symm⟩

variable {isSuccess : Bool}

/-- A certification result is recorded in the round, and on success the next view is entered. -/
theorem certified_ok {x : Option (Notarization D Cert)}
    (h : st.certified cfg v isSuccess = .ok (x, st')) :
    (st.views.get? v = none ∧ x = none) ∧ st' = st ∨
      ∃ r, st.views.get? v = some r ∧ r.notarization.isSome = true ∧ x.isSome = true ∧
        st' = if isSuccess then (st.setRound v (r.decided isSuccess)).enterView cfg (v + 1)
          else (st.setRound v (r.decided isSuccess)).expireRound cfg v := by
  unfold certified at h
  cases hr : st.views.get? v with
  | none => rw [hr] at h; cases h; exact .inl ⟨⟨rfl, rfl⟩, rfl⟩
  | some r =>
    rw [hr] at h
    refine .inr ?_
    cases hc : r.setCertified isSuccess with
    | error e => simp [hc] at h
    | ok r' =>
      simp only [hc] at h
      cases hn : r'.notarization with
      | none => simp [hn] at h
      | some c =>
        simp only [hn, Except.ok.injEq, Prod.mk.injEq] at h
        obtain rfl := setCertified_ok hc
        have hs : r.notarization.isSome = true := Option.isSome_iff_exists.2 ⟨c, hn⟩
        exact ⟨r, rfl, hs, by rw [← h.1]; rfl, h.2.symm⟩

variable {r : Round D Cert PK}

theorem roundAt_certified
    (hst : st' = if isSuccess then (st.setRound v (r.decided isSuccess)).enterView cfg (v + 1)
      else (st.setRound v (r.decided isSuccess)).expireRound cfg v) (u : ℕ) :
    st'.roundAt cfg u = if u = v then r.decided isSuccess else st.roundAt cfg u := by
  rw [← roundAt_setRound cfg st v u, hst]
  split_ifs
  · exact roundAt_enterView cfg _ _ u
  · exact roundAt_expireRound cfg _ _ u

theorem edits_tryPropose {x : Option (Context D PK)} (h : st.tryPropose cfg = .ok (x, st')) :
    st' = st ∨ ∃ r, st.views.get? st.view = some r ∧
      st' = st.setRound st.view (r.tryPropose cfg.scheme.me).2 := by
  unfold tryPropose at h
  split_ifs at h
  · cases h; exact .inl rfl
  · split at h
    · cases h
    · next r hr =>
        split_ifs at h
        · cases h; exact .inl rfl
        · split at h
          · cases h
          · cases h; exact .inl rfl
          · cases h; exact .inr ⟨r, hr, rfl⟩

theorem edits_tryVerify {x : Option (Context D PK × Proposal D)}
    (h : st.tryVerify cfg = .ok (x, st')) :
    st' = st ∨ ∃ r p d, st.views.get? st.view = some r ∧ r.proposal.proposal = some p ∧
      st.parentPayload p = .ok (some d) ∧
      st' = st.setRound st.view (r.tryVerify cfg.scheme.me).2 := by
  unfold tryVerify at h
  split at h
  · cases h; exact .inl rfl
  · next r hr =>
      split at h
      · cases h; exact .inl rfl
      · next leader p hsv =>
          split at h
          · cases h
          · cases h; exact .inl rfl
          · next d hd =>
              cases h
              refine .inr ⟨r, p, d, hr, ?_, hd, rfl⟩
              unfold shouldVerify at hsv
              split at hsv
              · next hp => cases hsv; exact hp
              · cases hsv

/-- The state after a call that changes one round, if it is there. -/
theorem match_get {A : Type} (st : State D Cert PK) (w : ℕ) (f : Round D Cert PK → Round D Cert PK)
    (a : A) (g : Round D Cert PK → A) :
    (match st.views.get? w with
      | none => (a, st)
      | some r => (g r, st.setRound w (f r))).2 = st ∨
      ∃ r, st.views.get? w = some r ∧ (match st.views.get? w with
        | none => (a, st)
        | some r => (g r, st.setRound w (f r))).2 = st.setRound w (f r) := by
  cases hr : st.views.get? w with
  | none => exact .inl rfl
  | some r => exact .inr ⟨r, rfl, rfl⟩

theorem broadcastFinalization_fst (cfg : Config D Sig Cert PK) (st : State D Cert PK) (v : ℕ) :
    (st.broadcastFinalization v).1 = (st.roundAt cfg v).broadcastFinalizationOnce.1 := by
  unfold broadcastFinalization roundAt
  cases st.views.get? v <;> rfl

/-- The round of view `w` changes by `f`, and of the other rounds the leader at most. -/
def Adds (cfg : Config D Sig Cert PK) (st : State D Cert PK) (w : ℕ)
    (f : Round D Cert PK → Round D Cert PK) (st' : State D Cert PK) : Prop :=
  ∀ v, (v = w ∧ st'.roundAt cfg v = f (st.roundAt cfg v)) ∨
    (v ≠ w ∧ ∃ leader, ((st.roundAt cfg v).leader.isSome = true → leader.isSome = true) ∧
      st'.roundAt cfg v = { st.roundAt cfg v with leader })

variable {w : ℕ}

theorem Adds.self (h : st.Adds cfg w f st') :
    st'.roundAt cfg w = f (st.roundAt cfg w) := by
  rcases h w with ⟨-, hr⟩ | ⟨hne, -⟩
  · exact hr
  · exact absurd rfl hne

/-- A certificate is added to the round of its view after the leader of the next one is set. -/
theorem adds_setRound {st₀ : State D Cert PK} (h : ∀ v, st₀.roundAt cfg v = st.roundAt cfg v)
    (w : ℕ) (certificate : Option Cert) (f : Round D Cert PK → Round D Cert PK) :
    let st₁ := st₀.setLeader cfg (w + 1) certificate
    st.Adds cfg w f (st₁.setRound w (f (st₁.roundAt cfg w))) := by
  intro st₁ v
  rw [roundAt_setRound]
  by_cases hv : v = w
  · refine .inl ⟨hv, ?_⟩
    rw [if_pos hv, hv, roundAt_setLeader_of_ne st₀ certificate (Nat.lt_succ_self w).ne, h]
  · obtain ⟨leader, hl, -, hr⟩ := roundAt_setLeader cfg st₀ (w + 1) v certificate
    rw [h] at hl hr
    exact .inr ⟨hv, leader, hl, by rw [if_neg hv, hr]⟩

theorem adds_nullification (st : State D Cert PK) (n : Nullification Cert) :
    st.Adds cfg n.round.view (fun r => (r.addNullification n).2) (st.addNullification cfg n).2 :=
  adds_setRound (st.roundAt_enterView cfg _) _ _ _

variable [DecidableEq D] {c : Call D Sig Cert}

/-- A call that changes one round, which may have to be created. -/
theorem edits_setRound (h : Edits cfg st w (st.roundAt cfg w) c r) (v : ℕ) :
    Edits cfg st v (st.roundAt cfg v) c ((st.setRound w r).roundAt cfg v) := by
  rw [roundAt_setRound]
  split_ifs with hv
  · exact hv ▸ h
  · exact .same

/-- The state is as it was, but for a change of one round. -/
def Touches (cfg : Config D Sig Cert PK) (st : State D Cert PK) (c : Call D Sig Cert)
    (st' : State D Cert PK) : Prop :=
  st' = st ∨ ∃ w r, st' = st.setRound w r ∧ Edits cfg st w (st.roundAt cfg w) c r

variable {f : Round D Cert PK → Round D Cert PK}

theorem touches_get (hst : st' = st ∨ ∃ r, st.views.get? w = some r ∧ st' = st.setRound w (f r))
    (h : Edits cfg st w (st.roundAt cfg w) c (f (st.roundAt cfg w))) : Touches cfg st c st' := by
  rcases hst with hst | ⟨r, hr, hst⟩
  · exact .inl hst
  · rw [← roundAt_of_get? cfg hr] at hst
    exact .inr ⟨w, _, hst, h⟩

theorem touches_flags (h : c.flags st = some (w, f))
    (hst : st' = st ∨ ∃ r, st.views.get? w = some r ∧ st' = st.setRound w (f r)) :
    Touches cfg st c st' :=
  touches_get hst (.flagged h)

theorem edits_modify (h : Edits cfg st w (st.roundAt cfg w) c (f (st.roundAt cfg w))) (v : ℕ) :
    Edits cfg st v (st.roundAt cfg v) c
      (({ st with views := st.views.modify w f } : State D Cert PK).roundAt cfg v) := by
  simp only [roundAt, OrdMap.get?_modify] at h ⊢
  split_ifs with hv
  · subst hv
    cases hr : st.views.get? v with
    | none => exact .same
    | some r =>
      rw [hr] at h
      exact h
  · exact .same

theorem adds_notarization (st : State D Cert PK) (n : Notarization D Cert) :
    st.Adds cfg n.proposal.view (fun r => (r.addNotarization n).2) (st.addNotarization cfg n).2 :=
  adds_setRound (fun _ => rfl) _ _ _

theorem adds_finalization (st : State D Cert PK) (n : Finalization D Cert) :
    st.Adds cfg n.proposal.view (fun r => (r.addFinalization n).2) (st.addFinalization cfg n).2 :=
  adds_setRound (fun u => (roundAt_enterView cfg _ _ u).trans (roundAt_finalize st _ u)) _ _ _

end

end State

/-- The calls that change one round at most. -/
def Call.Plain : Call D Sig Cert → Prop
  | .setGenesis _ | .addNotarization _ | .addNullification _ | .addFinalization _
  | .setCertifyHandle _ | .retryCertification _ | .certified _ _ | .prune => False
  | _ => True

namespace State

section

variable [DecidableEq D] {cfg : Config D Sig Cert PK} {st st' : State D Cert PK}
  {c : Call D Sig Cert}

theorem call_touches (hc : c.Plain) (h : st.call cfg c = .ok st') : Touches cfg st c st' := by
  cases c with
  | handleTimeout =>
    cases h
    exact .inr ⟨_, _, state_handleTimeout cfg st, .flagged (f := fun r => r.constructNullify.2) rfl⟩
  | constructNotarize w | constructFinalize w | broadcastNotarization w
  | broadcastNullification w | broadcastFinalization w =>
    cases h
    exact touches_flags rfl (match_get st w _ _ _)
  | replay a =>
    obtain ⟨r, hr, hst⟩ := replay_ok h
    exact .inr ⟨_, _, hst, .replayed rfl hr⟩
  | expireRound w =>
    cases h
    exact .inr ⟨w, _, rfl, .same⟩
  | tryPropose =>
    obtain ⟨x, hx, rfl⟩ := map_eq_ok.1 h
    exact touches_get (edits_tryPropose hx) .tryPropose
  | proposed p =>
    cases h
    exact touches_get (match_get st p.view _ _ _) (.proposed p rfl)
  | setProposal w p =>
    cases h
    exact .inr ⟨w, _, rfl, .setProposal p⟩
  | tryVerify =>
    obtain ⟨x, hx, rfl⟩ := map_eq_ok.1 h
    rcases edits_tryVerify hx with hst | ⟨r, p, d, hr, hp, hd, hst⟩
    · exact .inl hst
    · rw [← roundAt_of_get? cfg hr] at hp hst
      exact .inr ⟨_, _, hst, .tryVerify hp hd⟩
  | verified w =>
    cases h
    exact touches_get (match_get st w _ _ _) .verified
  | setGenesis | addNotarization | addNullification | addFinalization | setCertifyHandle
  | retryCertification | certified | prune => exact hc.elim

/-- **What a call does to every round.** -/
theorem call_edits (h : st.call cfg c = .ok st') (v : ℕ) :
    Edits cfg st v (st.roundAt cfg v) c (st'.roundAt cfg v) := by
  by_cases hc : c.Plain
  · rcases call_touches hc h with rfl | ⟨w, r, rfl, hr⟩
    · exact .same
    · exact edits_setRound hr v
  cases c with
  | setGenesis genesis =>
    cases h
    obtain ⟨leader, hl, -, hr⟩ := roundAt_setLeader cfg
      (({ st with genesis := some genesis } : State D Cert PK).enterView cfg (genesisView + 1))
      (genesisView + 1) v none
    rw [roundAt_enterView] at hl hr
    exact hr ▸ .led leader hl
  | addNotarization n =>
    cases h
    rcases adds_notarization st n v with ⟨hv, hr⟩ | ⟨-, leader, hl, hr⟩
    · exact hr ▸ .notarized n hv.symm
    · exact hr ▸ .led leader hl
  | addNullification n =>
    cases h
    rcases adds_nullification st n v with ⟨hv, hr⟩ | ⟨-, leader, hl, hr⟩
    · exact hr ▸ .nullified n hv.symm
    · exact hr ▸ .led leader hl
  | addFinalization n =>
    cases h
    rcases adds_finalization st n v with ⟨hv, hr⟩ | ⟨-, leader, hl, hr⟩
    · exact hr ▸ .finalized n hv.symm
    · exact hr ▸ .led leader hl
  | setCertifyHandle w =>
    cases h
    exact edits_modify .handled v
  | retryCertification w =>
    cases h
    exact edits_modify .unhandled v
  | certified w isSuccess =>
    obtain ⟨x, hx, rfl⟩ := map_eq_ok.1 h
    rcases certified_ok hx with ⟨-, hst⟩ | ⟨r, hr, hn, -, hst⟩
    · rw [hst]
      exact .same
    · rw [roundAt_certified hst]
      split_ifs with hv
      · subst hv
        rw [roundAt_of_get? cfg hr]
        exact .decided isSuccess hn
      · exact .same
  | prune =>
    cases h
    rw [roundAt_prune]
    split_ifs with hv
    · exact .same
    · exact .dropped (Nat.lt_of_not_le hv)
  | _ => exact absurd trivial hc

end

end State

/-- The changes of a round by a call, as far as its leader, its proposal, its certificates and its
certification result go. -/
inductive Round.Moves [DecidableEq D] (min v : ℕ) (r : Round D Cert PK) :
    Call D Sig Cert → Round D Cert PK → Prop
  | kept {c : Call D Sig Cert} {r' : Round D Cert PK} (h : r.Kept r') : Moves min v r c r'
  | dropped (rnd : Rnd) (h : v < min) : Moves min v r .prune (new rnd)
  | notarized (c : Notarization D Cert) (h : c.proposal.view = v) :
      Moves min v r (.addNotarization c) (r.addNotarization c).2
  | finalized (c : Finalization D Cert) (h : c.proposal.view = v) :
      Moves min v r (.addFinalization c) (r.addFinalization c).2
  | handled : Moves min v r (.setCertifyHandle v) r.setCertifyHandle
  | decided (isSuccess : Bool) (h : r.notarization.isSome = true) :
      Moves min v r (.certified v isSuccess) (r.decided isSuccess)
  | replayed (rnd : Rnd) (isSuccess : Bool) (h : rnd.view = v) :
      Moves min v r (.replay (.certification rnd isSuccess)) (r.decided isSuccess)

namespace State

section

variable [DecidableEq D] {cfg : Config D Sig Cert PK} {st st' : State D Cert PK}
  {c : Call D Sig Cert}

theorem call_moves (h : st.call cfg c = .ok st') (v : ℕ) :
    Round.Moves (st.minActive cfg) v (st.roundAt cfg v) c (st'.roundAt cfg v) := by
  generalize hr' : st'.roundAt cfg v = r'
  cases hr' ▸ call_edits h v with
  | same => exact .kept (.refl _)
  | led leader hl => exact .kept ⟨hl, fun _ h => h, rfl, rfl, rfl, id⟩
  | flagged hf => exact .kept (Call.flagged hf _).kept
  | tryPropose => exact .kept (kept_tryPropose _ _)
  | tryVerify => exact .kept (kept_tryVerify _ _)
  | proposed p => exact .kept (kept_proposed _ p)
  | setProposal p => exact .kept (kept_setProposal _ p)
  | verified => exact .kept (kept_verified _)
  | handled => exact .handled
  | unhandled => exact .kept ⟨id, fun _ h => h, rfl, rfl, rfl, fun h => by cases h⟩
  | notarized n hn => exact .notarized n hn
  | nullified n => exact .kept (kept_addNullification _ n)
  | finalized n hn => exact .finalized n hn
  | decided b hn => exact .decided b hn
  | replayed hv hr =>
    rcases replay_cases hr with ⟨-, hf | ⟨x, -, hf⟩⟩ | ⟨rnd, b, rfl, hd⟩
    · exact .kept hf.kept
    · have hk := hf.kept
      exact .kept { hk with proposal := fun p hp => hk.proposal p (Slot.proposal_built hp _) }
    · exact hd ▸ .replayed rnd b hv
  | dropped hlt => exact .dropped _ hlt

end

end State

/-- The view that a call finalizes, or zero. -/
def Call.finalized : Call D Sig Cert → ℕ
  | .addFinalization c => c.proposal.view
  | _ => 0

namespace State

/-- The view that a call enters, or zero. -/
def entered (st : State D Cert PK) : Call D Sig Cert → ℕ
  | .setGenesis _ => genesisView + 1
  | .addNullification c => c.round.view + 1
  | .addFinalization c => c.proposal.view + 1
  | .certified v true => if (st.views.get? v).isSome then v + 1 else 0
  | _ => 0

theorem finalized_lt_entered (st : State D Cert PK) (c : Call D Sig Cert) :
    c.finalized = 0 ∨ c.finalized < st.entered c := by
  cases c with
  | addFinalization n => exact .inr (Nat.lt_succ_self _)
  | _ => exact .inl rfl

section

variable [DecidableEq D] {cfg : Config D Sig Cert PK} {st st' : State D Cert PK}
  {c : Call D Sig Cert}

/-- **What a call does to the rest of the state.** -/
theorem call_frame (h : st.call cfg c = .ok st') :
    (st.genesis.isSome = true → st'.genesis.isSome = true) ∧
      st'.lastFinalized = max st.lastFinalized c.finalized ∧
      st'.view = max st.view (st.entered c) := by
  by_cases hc : c.Plain
  · have h₀ : c.finalized = 0 ∧ st.entered c = 0 := by
      cases c with
      | setGenesis | addNullification | addFinalization | certified => exact hc.elim
      | _ => exact ⟨rfl, rfl⟩
    rw [h₀.1, h₀.2, Nat.max_zero, Nat.max_zero]
    rcases call_touches hc h with rfl | ⟨v, r, rfl, -⟩ <;> exact ⟨id, rfl, rfl⟩
  cases c with
  | setGenesis genesis =>
    cases h
    refine ⟨fun _ => ?_, ?_, ?_⟩
    · simp only [setGenesis, genesis_setLeader, genesis_enterView]
      rfl
    · simp [setGenesis, Call.finalized]
    · simp [setGenesis, entered]
  | addNotarization n | addNullification n =>
    cases h
    refine ⟨fun hg => ?_, ?_, ?_⟩
    · simpa only [addNotarization, addNullification, setRound, genesis_setLeader,
        genesis_enterView] using hg
    · simp [addNotarization, addNullification, Call.finalized]
    · simp [addNotarization, addNullification, entered]
  | addFinalization n =>
    cases h
    refine ⟨fun hg => ?_, lastFinalized_addFinalization cfg st n, view_addFinalization cfg st n⟩
    simp only [addFinalization, setRound, genesis_setLeader, genesis_enterView]
    split_ifs <;> exact hg
  | setCertifyHandle v | retryCertification v | prune =>
    cases h
    exact ⟨id, (Nat.max_zero _).symm, (Nat.max_zero _).symm⟩
  | certified v isSuccess =>
    obtain ⟨x, hx, rfl⟩ := map_eq_ok.1 h
    rcases certified_ok hx with ⟨⟨hr, -⟩, hst⟩ | ⟨r, hr, -, -, hst⟩
    · rw [hst]
      cases isSuccess <;> simp [Call.finalized, entered, hr]
    · rw [hst]
      cases isSuccess with
      | true =>
        refine ⟨fun hg => ?_, ?_, ?_⟩
        · simpa only [if_true, setRound, genesis_enterView] using hg
        · simp [Call.finalized]
        · simp [entered, hr]
      | false => exact ⟨id, (Nat.max_zero _).symm, (Nat.max_zero _).symm⟩
  | _ => exact absurd trivial hc

end

end State

end Commonware.Simplex.Voter
