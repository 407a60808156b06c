/-
**The operations of the voter's actor.**

An operation of `consensus/src/simplex/actors/voter/actor.rs` makes one call on the state at most,
and has few kinds of effects: it casts a vote, records a certificate or a certification result, sends
a certificate or prunes the journal.

Main definitions:

* `Op.call` — the call of an operation;
* `Emits` — the effects an operation may have.

Main results:

* `exec_call`, `exists_exec` — an operation does to the state what its call does, and fails only if
  the call does;
* `exec_emits` — **what an operation can do outside of the state**.
-/

import Commonware.VoterCalls
import Commonware.VoterNode

set_option autoImplicit false

namespace Commonware.Simplex.Voter

variable {D Sig Cert PK : Type}

/-- The call on the state that an operation of the actor makes. -/
def Op.call (m : Memory D Cert PK) : Op D Cert → Option (Call D Sig Cert)
  | .setProposal p => some (.setProposal p.view p)
  | .tryVerify => some .tryVerify
  | .verified v => some (.verified v)
  | .tryPropose => some .tryPropose
  | .proposed payload =>
    m.pendingPropose.map fun ctx => .proposed ⟨ctx.round, ctx.parent.1, payload⟩
  | .constructNotarize v => some (.constructNotarize v)
  | .constructFinalize v => some (.constructFinalize v)
  | .timeout => some .handleTimeout
  | .tryCertify v =>
    match m.state.tryCertify v with
    | .ready _ => some (.setCertifyHandle v)
    | .pending | .skip => none
  | .certified v isSuccess => some (.certified v isSuccess)
  | .retryCertification v => some (.retryCertification v)
  | .notarization c => some (.addNotarization c)
  | .nullification c => some (.addNullification c)
  | .finalization c => some (.addFinalization c)
  | .broadcastNotarization v => some (.broadcastNotarization v)
  | .broadcastNullification v => some (.broadcastNullification v)
  | .broadcastFinalization v => some (.broadcastFinalization v)
  | .expireRound => some (.expireRound m.state.view)
  | .prune => some .prune

/-- The votes of a timeout: none once the view is finalized, and none without a share. -/
def timeoutVotes (cfg : Config D Sig Cert PK) (st : State D Cert PK) : List (Effect D Sig Cert) :=
  match (st.roundAt cfg st.view).constructNullify.1,
      Nullify.sign cfg.scheme cfg.ns ⟨cfg.epoch, st.view⟩ with
  | some true, some x => [.sign (.nullify x), .send (.nullify x)]
  | some false, some x => Voter.castVote (.nullify x)
  | _, _ => []

theorem handleTimeout_eq (cfg : Config D Sig Cert PK) (st : State D Cert PK) :
    ∃ c : Option (Certificate D Cert), Voter.handleTimeout cfg st =
      (st.setRound st.view (st.roundAt cfg st.view).constructNullify.2,
        timeoutVotes cfg st ++ (c.map Effect.sendCertificate).toList) := by
  rcases hc : (st.roundAt cfg st.view).constructNullify.1 with _ | _ | _
  · refine ⟨none, ?_⟩
    simp [Voter.handleTimeout, State.handleTimeout, timeoutVotes, hc]
  · refine ⟨none, ?_⟩
    cases hs : Nullify.sign cfg.scheme cfg.ns ⟨cfg.epoch, st.view⟩ <;>
      simp [Voter.handleTimeout, State.handleTimeout, timeoutVotes, hc, hs]
  · refine ⟨((Voter.State.handleTimeout cfg st).1.2.2), ?_⟩
    cases hs : Nullify.sign cfg.scheme cfg.ns ⟨cfg.epoch, st.view⟩ <;>
      by_cases hv : st.view - 1 = genesisView <;>
      simp [Voter.handleTimeout, State.handleTimeout, timeoutVotes, hc, hs, hv]

section

variable {cfg : Config D Sig Cert PK} {p : Proposal D}

theorem sign_notarize {vote : Notarize D Sig}
    (h : Notarize.sign cfg.scheme cfg.ns p = some vote) :
    vote.proposal = p ∧ cfg.scheme.me = some vote.attestation.signer := by
  obtain ⟨a, ha, rfl⟩ := Option.map_eq_some_iff.1 h
  exact ⟨rfl, Scheme.signer_of_sign ha⟩

theorem sign_finalize {vote : Finalize D Sig}
    (h : Finalize.sign cfg.scheme cfg.ns p = some vote) :
    vote.proposal = p ∧ cfg.scheme.me = some vote.attestation.signer := by
  obtain ⟨a, ha, rfl⟩ := Option.map_eq_some_iff.1 h
  exact ⟨rfl, Scheme.signer_of_sign ha⟩

theorem sign_nullify {r : Rnd} {vote : Nullify Sig}
    (h : Nullify.sign cfg.scheme cfg.ns r = some vote) :
    vote.round = r ∧ cfg.scheme.me = some vote.attestation.signer := by
  obtain ⟨a, ha, rfl⟩ := Option.map_eq_some_iff.1 h
  exact ⟨rfl, Scheme.signer_of_sign ha⟩

end

/-- The effects that an operation may have. -/
inductive Emits (cfg : Config D Sig Cert PK) (m : Memory D Cert PK) :
    Op D Cert → List (Effect D Sig Cert) → Prop
  | silent {op : Op D Cert} : Emits cfg m op []
  | notarize (v : ℕ) {p : Proposal D} {x : Notarize D Sig}
      (hp : (m.state.roundAt cfg v).constructNotarize.1 = some p)
      (hx : Notarize.sign cfg.scheme cfg.ns p = some x) :
      Emits cfg m (.constructNotarize v) (castVote (.notarize x))
  | finalize (v : ℕ) {p : Proposal D} {x : Finalize D Sig}
      (hp : (m.state.roundAt cfg v).constructFinalize.1 = some p)
      (hx : Finalize.sign cfg.scheme cfg.ns p = some x) :
      Emits cfg m (.constructFinalize v) (castVote (.finalize x))
  | nullify {x : Nullify Sig} (c : Option (Certificate D Cert))
      (hx : Nullify.sign cfg.scheme cfg.ns ⟨cfg.epoch, m.state.view⟩ = some x) :
      Emits cfg m .timeout (castVote (.nullify x) ++ (c.map Effect.sendCertificate).toList)
  | retry (x : Nullify Sig) (c : Option (Certificate D Cert)) :
      Emits cfg m .timeout
        ([.sign (.nullify x), .send (.nullify x)] ++ (c.map Effect.sendCertificate).toList)
  | entry (c : Option (Certificate D Cert)) :
      Emits cfg m .timeout ([] ++ (c.map Effect.sendCertificate).toList)
  | notarization (c : Notarization D Cert) :
      Emits cfg m (.notarization c) [.append (.notarization c)]
  | nullification (c : Nullification Cert) (floor : Option (Certificate D Cert)) :
      Emits cfg m (.nullification c)
        ([.append (.nullification c)] ++ (floor.map Effect.sendCertificate).toList)
  | finalization (c : Finalization D Cert) :
      Emits cfg m (.finalization c) [.append (.finalization c)]
  | certified (v : ℕ) (b : Bool) (h : m.state.views.get? v ≠ none) :
      Emits cfg m (.certified v b)
        [.certify v b, .append (.certification ⟨cfg.epoch, v⟩ b), .sync v]
  | certificate {op : Op D Cert} (v : ℕ) (c : Certificate D Cert) :
      Emits cfg m op [.sync v, .sendCertificate c]
  | pruned : Emits cfg m .prune [.prune (m.state.minActive cfg)]

section

variable {cfg : Config D Sig Cert PK} {m m' : Memory D Cert PK} {op : Op D Cert}
  {effects : List (Effect D Sig Cert)}

theorem emits_castCertificate (v : ℕ) (c : Option (Certificate D Cert)) :
    Emits cfg m op (castCertificate v c) := by
  cases c with
  | none => exact .silent
  | some c => exact .certificate v c

variable [DecidableEq D]

theorem exec_call (h : exec cfg m op = .ok (m', effects)) :
    (op.call m = (none : Option (Call D Sig Cert)) ∧ m'.state = m.state) ∨
      ∃ c : Call D Sig Cert, op.call m = some c ∧ m.state.call cfg c = .ok m'.state := by
  cases op with
  | tryVerify | tryPropose =>
    obtain ⟨x, hx, he⟩ := bind_eq_ok.1 h
    cases he
    exact .inr ⟨_, rfl, map_eq_ok.2 ⟨x, hx, rfl⟩⟩
  | certified v b =>
    obtain ⟨x, hx, he⟩ := bind_eq_ok.1 h
    cases he
    refine .inr ⟨_, rfl, map_eq_ok.2 ?_⟩
    unfold handleCertification at hx
    split at hx
    · cases hx
    · next hc => cases hx; exact ⟨_, hc, rfl⟩
    · next hc => cases hx; exact ⟨_, hc, rfl⟩
  | proposed payload =>
    simp only [exec] at h
    cases hp : m.pendingPropose with
    | none =>
      rw [hp] at h
      cases h
      exact .inl ⟨by rw [Op.call, hp]; rfl, rfl⟩
    | some ctx =>
      rw [hp] at h
      cases h
      exact .inr ⟨_, by rw [Op.call, hp]; rfl, rfl⟩
  | tryCertify v =>
    simp only [exec] at h
    split at h
    · next p hp => cases h; exact .inr ⟨_, by rw [Op.call, hp], rfl⟩
    · next hp => cases h; exact .inl ⟨by rw [Op.call, hp], rfl⟩
    · next hp => cases h; exact .inl ⟨by rw [Op.call, hp], rfl⟩
  | _ => cases h; exact .inr ⟨_, rfl, rfl⟩

theorem exec_some {c : Call D Sig Cert} (h : exec cfg m op = .ok (m', effects))
    (hc : op.call m = some c) : m.state.call cfg c = .ok m'.state := by
  rcases exec_call h with ⟨hno, -⟩ | ⟨c', hc', hst⟩
  · cases hno.symm.trans hc
  · cases hc'.symm.trans hc
    exact hst

/-- An operation fails only if its call does. -/
theorem exists_exec (h : ∀ c : Call D Sig Cert, op.call m = some c →
    ∃ st', m.state.call cfg c = .ok st') : ∃ x, exec cfg m op = .ok x := by
  cases op with
  | tryVerify | tryPropose =>
    obtain ⟨st', hst⟩ := h _ rfl
    obtain ⟨x, hx, -⟩ := map_eq_ok.1 hst
    exact ⟨_, bind_eq_ok.2 ⟨x, hx, rfl⟩⟩
  | certified v b =>
    obtain ⟨st', hst⟩ := h _ rfl
    obtain ⟨⟨x, st₁⟩, hx, -⟩ := map_eq_ok.1 hst
    have hc : ∃ y, handleCertification cfg m.state v b = .ok y := by
      unfold handleCertification
      rw [hx]
      cases x <;> exact ⟨_, rfl⟩
    obtain ⟨y, hy⟩ := hc
    exact ⟨_, bind_eq_ok.2 ⟨y, hy, rfl⟩⟩
  | proposed payload =>
    simp only [exec]
    cases m.pendingPropose <;> exact ⟨_, rfl⟩
  | tryCertify v =>
    simp only [exec]
    cases m.state.tryCertify v <;> exact ⟨_, rfl⟩
  | _ => exact ⟨_, rfl⟩

theorem exec_pending (h : exec cfg m op = .ok (m', effects)) {ctx : Context D PK}
    (hc : m'.pendingPropose = some ctx) :
    m.pendingPropose = some ctx ∨ ∃ st, m.state.tryPropose cfg = .ok (some ctx, st) := by
  cases op with
  | tryPropose =>
    obtain ⟨⟨y, st⟩, hx, he⟩ := bind_eq_ok.1 h
    cases he
    cases y with
    | none => exact .inl hc
    | some y => cases hc; exact .inr ⟨st, hx⟩
  | tryVerify | certified =>
    obtain ⟨x, -, he⟩ := bind_eq_ok.1 h
    cases he
    exact .inl hc
  | proposed payload =>
    simp only [exec] at h
    split at h
    · cases h; exact .inl hc
    · cases h; cases hc
  | tryCertify v =>
    simp only [exec] at h
    split at h <;> cases h <;> exact .inl hc
  | _ => cases h; exact .inl hc

/-- **What an operation can do outside of the state.** -/
theorem exec_emits (h : exec cfg m op = .ok (m', effects)) : Emits cfg m op effects := by
  cases op with
  | tryVerify | tryPropose =>
    obtain ⟨x, -, he⟩ := bind_eq_ok.1 h
    cases he
    exact .silent
  | proposed payload | tryCertify v =>
    simp only [exec] at h
    split at h <;> cases h <;> exact .silent
  | constructNotarize v =>
    rcases hv : m.state.constructNotarize cfg v with ⟨vote, st⟩
    simp only [exec, hv, Except.ok.injEq, Prod.mk.injEq] at h
    obtain ⟨-, rfl⟩ := h
    cases vote with
    | none => exact .silent
    | some x =>
      unfold State.constructNotarize at hv
      split at hv
      · cases hv
      · next r hr =>
          obtain ⟨p, hp, hs⟩ := Option.bind_eq_some_iff.1 (congrArg Prod.fst hv)
          exact .notarize v (by rwa [State.roundAt_of_get? cfg hr]) hs
  | constructFinalize v =>
    rcases hv : m.state.constructFinalize cfg v with ⟨vote, st⟩
    simp only [exec, hv, Except.ok.injEq, Prod.mk.injEq] at h
    obtain ⟨-, rfl⟩ := h
    cases vote with
    | none => exact .silent
    | some x =>
      unfold State.constructFinalize at hv
      split at hv
      · cases hv
      · next r hr =>
          obtain ⟨p, hp, hs⟩ := Option.bind_eq_some_iff.1 (congrArg Prod.fst hv)
          exact .finalize v (by rwa [State.roundAt_of_get? cfg hr]) hs
  | timeout =>
    obtain ⟨c, hc⟩ := handleTimeout_eq cfg m.state
    simp only [exec, hc] at h
    cases h
    unfold timeoutVotes
    split
    · exact .retry _ c
    · next x _ hs => exact .nullify c hs
    · exact .entry c
  | certified v b =>
    obtain ⟨x, hx, he⟩ := bind_eq_ok.1 h
    cases he
    unfold handleCertification at hx
    split at hx
    · cases hx
    · cases hx; exact .silent
    · next c st hc =>
        cases hx
        refine .certified v b fun hr => ?_
        rw [State.certified, hr] at hc
        cases hc
  | notarization c =>
    rcases hx : m.state.addNotarization cfg c with ⟨⟨added, equivocator⟩, st⟩
    simp only [exec, handleNotarization, hx, Except.ok.injEq, Prod.mk.injEq] at h
    obtain ⟨-, rfl⟩ := h
    split_ifs
    · exact .notarization c
    · exact .silent
  | nullification c =>
    rcases hx : m.state.addNullification cfg c with ⟨added, st⟩
    simp only [exec, handleNullification, hx, Except.ok.injEq, Prod.mk.injEq] at h
    obtain ⟨-, rfl⟩ := h
    split_ifs
    · exact .nullification c _
    · exact .nullification c none
    · exact .silent
  | finalization c =>
    rcases hx : m.state.addFinalization cfg c with ⟨⟨added, equivocator⟩, st⟩
    simp only [exec, handleFinalization, hx, Except.ok.injEq, Prod.mk.injEq] at h
    obtain ⟨-, rfl⟩ := h
    split_ifs
    · exact .finalization c
    · exact .silent
  | broadcastNotarization v | broadcastNullification v | broadcastFinalization v =>
    cases h
    exact emits_castCertificate v _
  | prune =>
    cases h
    split_ifs
    · exact .silent
    · exact .pruned
  | setProposal p | verified v | retryCertification v | expireRound =>
    cases h
    exact .silent

end

/-! ### Replay -/

/-- The call that handles a record after it has been replayed. -/
def handler : Artifact D Sig Cert → Option (Call D Sig Cert)
  | .notarize _ | .nullify _ | .finalize _ => none
  | .notarization c => some (.addNotarization c)
  | .nullification c => some (.addNullification c)
  | .finalization c => some (.addFinalization c)
  | .certification rnd isSuccess => some (.certified rnd.view isSuccess)

/-- A record makes two calls at most. -/
theorem replayRecord_calls [DecidableEq D] {cfg : Config D Sig Cert PK} {st st' : State D Cert PK}
    {a : Artifact D Sig Cert} (h : replayRecord cfg st a = .ok st') :
    ∃ st₁, st.replay cfg a = .ok st₁ ∧ (handler a = none ∧ st' = st₁ ∨
      ∃ c, handler a = some c ∧ st₁.call cfg c = .ok st') := by
  unfold replayRecord at h
  cases hst : st.replay cfg a with
  | error e => rw [hst] at h; cases h
  | ok st₁ =>
    rw [hst] at h
    refine ⟨st₁, rfl, ?_⟩
    cases a with
    | notarize x | nullify x | finalize x => cases h; exact .inl ⟨rfl, rfl⟩
    | notarization c | nullification c | finalization c => cases h; exact .inr ⟨_, rfl, rfl⟩
    | certification rnd b =>
      refine .inr ⟨_, rfl, map_eq_ok.2 ?_⟩
      dsimp only at h
      split at h
      · cases h
      · next hc => cases h; exact ⟨_, hc, rfl⟩

end Commonware.Simplex.Voter
