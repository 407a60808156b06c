/-
**Certified views and parents.**

Two consequences of what the calls on a voter's state can do.

* A round that holds a certificate should hold its proposal too.  It does, unless the slot was
  equivocated before the certificate came: such a slot skips the certified proposal and goes on to
  offer the one it retained, to the application and as a parent.
* The leader's walk to a parent and the check of a verifier agree above the last finalized view,
  whose round is never dropped and has its finalization.

Main definitions:

* `State.Yields` — certificates and proposals agree, `State.Retains` — the condition for it;
* `State.Rooted` — the walk to a parent has a floor.

Main results:

* `State.yields_iff` — **when certified views yield their certificate's payload**;
* `State.findParent_agrees` — **leader and verifiers agree on parents**.
-/

import Commonware.VoterDiscipline

set_option autoImplicit false

namespace Commonware.Simplex.Voter

open Option

variable {D Sig Cert PK : Type}

/-! ### Certificates and proposals -/

/-- The round holds a certificate for `p`. -/
def Round.HoldsFor (r : Round D Cert PK) (p : Proposal D) : Prop :=
  (∃ c, r.notarization = some c ∧ c.proposal = p) ∨ ∃ c, r.finalization = some c ∧ c.proposal = p

/-- The proposal of the round is that of its certificates. -/
def Round.Faithful (r : Round D Cert PK) : Prop :=
  ∀ p, r.HoldsFor p → r.proposal.proposal = some p

namespace State

/-- The views with a certificate yield its proposal: it is the one the application is asked to
certify, and its payload is the payload of the view, for the leader and for verifiers. -/
structure Yields (cfg : Config D Sig Cert PK) (st : State D Cert PK) : Prop where
  proposal : ∀ v, (st.roundAt cfg v).Faithful
  ready : ∀ v p, st.tryCertify v = .ready p → (st.roundAt cfg v).HoldsFor p
  certified : ∀ v p d, v ≠ genesisView → (st.roundAt cfg v).HoldsFor p →
    st.isCertified v = .ok (some d) → d = p.payload
  found : ∀ w v p d, v ≠ genesisView → (st.roundAt cfg v).HoldsFor p →
    st.findParent w = .ok (.ok (v, d)) → d = p.payload
  accepted : ∀ q p d, q.parent ≠ genesisView → (st.roundAt cfg q.parent).HoldsFor p →
    st.parentPayload q = .ok (some d) → d = p.payload

section

variable {cfg : Config D Sig Cert PK} {st st' : State D Cert PK}

/-- The payload of a certified view is that of the proposal of its round. -/
theorem proposal_of_isCertified (cfg : Config D Sig Cert PK) {v : ℕ} {d : D} (hv : v ≠ genesisView)
    (h : st.isCertified v = .ok (some d)) :
    ∃ p, (st.roundAt cfg v).proposal.proposal = some p ∧ p.payload = d := by
  unfold isCertified at h
  rw [if_neg hv] at h
  cases hr : st.views.get? v with
  | none => rw [hr] at h; cases h
  | some r =>
    rw [hr] at h
    dsimp only at h
    split_ifs at h
    · cases hp : r.proposal.proposal with
      | none => rw [hp] at h; cases h
      | some p =>
        rw [hp] at h
        exact ⟨p, by rw [roundAt_of_get? cfg hr, hp], by simpa using h⟩
    · cases h

theorem ready_of_tryCertify (cfg : Config D Sig Cert PK) {v : ℕ} {p : Proposal D} (h : st.tryCertify v = .ready p) :
    (st.roundAt cfg v).notarization.isSome = true ∧ (st.roundAt cfg v).certified = none ∧
      (st.roundAt cfg v).proposal.proposal = some p := by
  unfold tryCertify at h
  cases hr : st.views.get? v with
  | none => rw [hr] at h; cases h
  | some r =>
    rw [hr] at h
    rw [roundAt_of_get? cfg hr]
    simp only [Round.shouldCertify] at h
    split_ifs at h with hs
    cases hp : r.proposal.proposal with
    | none => rw [hp] at h; cases h
    | some q =>
      rw [hp] at h
      cases h
      simp only [Bool.or_eq_true, not_or, isNone_iff_eq_none, isSome_iff_ne_none, not_not] at hs
      exact ⟨isSome_iff_ne_none.2 hs.1.1, hs.1.2, rfl⟩

theorem Yields.of_faithful (h : ∀ v, (st.roundAt cfg v).Faithful) : st.Yields cfg := by
  have hcr : ∀ v p d, v ≠ genesisView → (st.roundAt cfg v).HoldsFor p →
      st.isCertified v = .ok (some d) → d = p.payload := by
    intro v p d hv hp hd
    obtain ⟨q, hq, rfl⟩ := proposal_of_isCertified cfg hv hd
    rw [Option.some.inj (hq.symm.trans (h v p hp))]
  refine ⟨h, fun v p hr => ?_, hcr, fun w v p d hv hp hd => ?_, fun q p d hv hp hd => ?_⟩
  · obtain ⟨hn, -, hp⟩ := ready_of_tryCertify cfg hr
    obtain ⟨c, hc⟩ := isSome_iff_exists.1 hn
    have hq := h v c.proposal (.inl ⟨c, hc, rfl⟩)
    exact .inl ⟨c, hc, Option.some.inj (hq.symm.trans hp)⟩
  · exact hcr v p d hv hp (findParentFrom_ok hd).2.1
  · exact hcr _ p d hv hp (parentPayload_some hd).2.2.1

end

end State

/-- The certificates that are added to a view are for the proposal `P` has for it. -/
def Call.Carries (P : ℕ → Proposal D) : Call D Sig Cert → Prop
  | .addNotarization c => c.proposal = P c.proposal.view
  | .addFinalization c => c.proposal = P c.proposal.view
  | _ => True

namespace State

/-- A certificate that meets an equivocated slot is for the proposal which the slot retains. -/
def Retains (cfg : Config D Sig Cert PK) (st : State D Cert PK) : Call D Sig Cert → Prop
  | .addNotarization c =>
    (st.roundAt cfg c.proposal.view).proposal.status = .equivocated →
      (st.roundAt cfg c.proposal.view).proposal.proposal = some c.proposal
  | .addFinalization c =>
    (st.roundAt cfg c.proposal.view).proposal.status = .equivocated →
      (st.roundAt cfg c.proposal.view).proposal.proposal = some c.proposal
  | _ => True

end State

namespace Round

section

variable {r r' : Round D Cert PK} {p : Proposal D}

theorem Kept.holdsFor (h : r.Kept r') : r'.HoldsFor p ↔ r.HoldsFor p := by
  rw [HoldsFor, HoldsFor, h.notarization, h.finalization]

theorem not_holdsFor_new (rnd : Rnd) : ¬(new rnd : Round D Cert PK).HoldsFor p := by
  rintro (⟨c, hc, -⟩ | ⟨c, hc, -⟩) <;> cases hc

theorem Kept.faithful (h : r.Kept r') (hf : r.Faithful) : r'.Faithful := fun p hp =>
  h.proposal p (hf p (h.holdsFor.1 hp))

variable [DecidableEq D]

/-- A certificate for `p` is added to the round, or ignored because one of its kind is there. -/
def Added (p : Proposal D) (r r' : Round D Cert PK) : Prop :=
  (r' = r ∧ ∃ q, r.HoldsFor q) ∨
    (r'.proposal = (r.proposal.update p true).2 ∧ r'.HoldsFor p ∧
      ∀ q, r'.HoldsFor q → q = p ∨ r.HoldsFor q)

theorem added_addNotarization (r : Round D Cert PK) (c : Notarization D Cert) :
    Added c.proposal r (r.addNotarization c).2 := by
  unfold addNotarization
  split_ifs with hs
  · obtain ⟨n, hn⟩ := isSome_iff_exists.1 hs
    exact .inl ⟨rfl, n.proposal, .inl ⟨n, hn, rfl⟩⟩
  · refine .inr ⟨rfl, .inl ⟨c, rfl, rfl⟩, ?_⟩
    rintro q (⟨n, hn, rfl⟩ | hf)
    · exact .inl (by rw [Option.some.inj hn])
    · exact .inr (.inr hf)

theorem added_addFinalization (r : Round D Cert PK) (c : Finalization D Cert) :
    Added c.proposal r (r.addFinalization c).2 := by
  unfold addFinalization
  split_ifs with hs
  · obtain ⟨n, hn⟩ := isSome_iff_exists.1 hs
    exact .inl ⟨rfl, n.proposal, .inr ⟨n, hn, rfl⟩⟩
  · refine .inr ⟨rfl, .inr ⟨c, rfl, rfl⟩, ?_⟩
    rintro q (hf | ⟨n, hn, rfl⟩)
    · exact .inr (.inl hf)
    · exact .inl (by rw [Option.some.inj hn])

theorem Added.holdsFor (h : Added p r r') (hr : ∀ q, r.HoldsFor q → q = p) {q : Proposal D}
    (hq : r'.HoldsFor q) : q = p := by
  rcases h with ⟨rfl, -⟩ | ⟨-, -, h⟩
  · exact hr q hq
  · exact (h q hq).elim id (hr q)

theorem Added.faithful (h : Added p r r') (hr : ∀ q, r.HoldsFor q → q = p) (hf : r.Faithful) :
    r'.Faithful ↔ (r.proposal.status = .equivocated → r.proposal.proposal = some p) := by
  have ha : ∀ q, r'.HoldsFor q → q = p := fun q hq => h.holdsFor hr hq
  rcases h with ⟨rfl, q, hq⟩ | ⟨hsl, hp, -⟩
  · -- the certificate that is held already is for this proposal
    have hp := hr q hq ▸ hf q hq
    exact iff_of_true hf fun _ => hp
  · rw [← Slot.proposal_update_recovered, ← hsl]
    exact ⟨fun hf' => hf' p hp, fun hs q hq => ha q hq ▸ hs⟩

end

end Round

namespace State

section

variable [DecidableEq D] {cfg : Config D Sig Cert PK} {st st' : State D Cert PK}
  {c : Call D Sig Cert} {P : ℕ → Proposal D}

theorem holdsFor_call (hP : c.Carries P)
    (h : ∀ v p, (st.roundAt cfg v).HoldsFor p → p = P v) (hc : st.call cfg c = .ok st') :
    ∀ v p, (st'.roundAt cfg v).HoldsFor p → p = P v := by
  intro v p hp
  have hv := h v
  generalize hr' : st'.roundAt cfg v = r' at hp
  cases hr' ▸ call_moves hc v with
  | kept hk => exact hv p (hk.holdsFor.1 hp)
  | dropped rnd => exact absurd hp (Round.not_holdsFor_new rnd)
  | notarized n hn =>
    have hn' : P v = n.proposal := (hn ▸ hP : n.proposal = P v).symm
    rw [hn'] at hv ⊢
    exact (Round.added_addNotarization _ n).holdsFor hv hp
  | finalized n hn =>
    have hn' : P v = n.proposal := (hn ▸ hP : n.proposal = P v).symm
    rw [hn'] at hv ⊢
    exact (Round.added_addFinalization _ n).holdsFor hv hp
  | handled | decided | replayed => exact hv p hp

/-- A call keeps certificates and proposals in line just when it adds no certificate that an
equivocated slot skips. -/
theorem faithful_call (hP : c.Carries P) (h : ∀ v p, (st.roundAt cfg v).HoldsFor p → p = P v)
    (hf : ∀ v, (st.roundAt cfg v).Faithful) (hc : st.call cfg c = .ok st') :
    (∀ v, (st'.roundAt cfg v).Faithful) ↔ st.Retains cfg c := by
  have hh : ∀ p : Proposal D, p = P p.view →
      ∀ q, (st.roundAt cfg p.view).HoldsFor q → q = p := fun p hp q hq => (h _ q hq).trans hp.symm
  constructor
  · intro ha
    cases c with
    | addNotarization n =>
      cases hc
      have hn := ha n.proposal.view
      rw [(adds_notarization _ _).self] at hn
      exact ((Round.added_addNotarization _ n).faithful (hh _ hP) (hf _)).1 hn
    | addFinalization n =>
      cases hc
      have hn := ha n.proposal.view
      rw [(adds_finalization _ _).self] at hn
      exact ((Round.added_addFinalization _ n).faithful (hh _ hP) (hf _)).1 hn
    | _ => trivial
  · intro hr v
    generalize hr' : st'.roundAt cfg v = r'
    cases hr' ▸ call_moves hc v with
    | kept hk => exact hk.faithful (hf v)
    | dropped rnd => exact fun p hp => absurd hp (Round.not_holdsFor_new rnd)
    | notarized n hn =>
      subst hn
      exact ((Round.added_addNotarization _ n).faithful (hh _ hP) (hf _)).2 hr
    | finalized n hn =>
      subst hn
      exact ((Round.added_addFinalization _ n).faithful (hh _ hP) (hf _)).2 hr
    | handled | decided | replayed => exact hf v

/-- Along any calls whose certificates agree, the rounds hold certificates for `P` only. -/
theorem holdsFor_calls {cs : List (Call D Sig Cert)} (hP : ∀ c ∈ cs, c.Carries P)
    (h : State.new.calls cfg cs = .ok st) (v : ℕ) (p : Proposal D)
    (hp : (st.roundAt cfg v).HoldsFor p) : p = P v := by
  have h₀ : ∀ v p, ((State.new : State D Cert PK).roundAt cfg v).HoldsFor p → p = P v :=
    fun v p hp => absurd hp (Round.not_holdsFor_new _)
  exact calls_induction (Q := fun st => ∀ v p, (st.roundAt cfg v).HoldsFor p → p = P v)
    (fun _ c _ hc hq hcl => holdsFor_call (hP c hc) hq hcl) h₀ h v p hp

/-- **When certified views yield their certificate's payload.**  In a run whose certificates for a
view are all for one proposal they do, throughout, just when no certificate meets an equivocated slot
that retains another proposal. -/
theorem yields_iff (cfg : Config D Sig Cert PK) (P : ℕ → Proposal D)
    (cs : List (Call D Sig Cert)) (hP : ∀ c ∈ cs, c.Carries P) :
    (∀ pre st, pre <+: cs → State.new.calls cfg pre = .ok st → st.Yields cfg) ↔
      ∀ pre c st, pre ++ [c] <+: cs → State.new.calls cfg pre = .ok st → st.Retains cfg c := by
  have hs : ∀ {pre}, pre <+: cs → ∀ c ∈ pre, c.Carries P := fun hpr c hc =>
    hP c (hpr.subset hc)
  have hls : ∀ {pre c}, pre ++ [c] <+: cs → c.Carries P := fun hpr =>
    hP _ (hpr.subset (by simp))
  constructor
  · intro ha pre c st hpr hst
    have hpr' : pre <+: cs := (List.prefix_append pre [c]).trans hpr
    -- a call that adds a certificate does not fail
    have hsp : ∀ st', st.call cfg c = .ok st' → st.Retains cfg c := fun st' hc =>
      (faithful_call (hls hpr) (holdsFor_calls (hs hpr') hst) (ha pre st hpr' hst).proposal
        hc).1 (ha _ st' hpr ((calls_snoc pre c).2 ⟨st, hst, hc⟩)).proposal
    cases c with
    | addNotarization | addFinalization => exact hsp _ rfl
    | _ => trivial
  · intro hr pre
    induction pre using List.reverseRecOn with
    | nil =>
      intro st _ hst
      cases hst
      exact .of_faithful fun v p hp => absurd hp (Round.not_holdsFor_new _)
    | append_singleton pre c ih =>
      intro st' hpr hst
      obtain ⟨st, hst, hc⟩ := (calls_snoc pre c).1 hst
      have hpr' : pre <+: cs := (List.prefix_append pre [c]).trans hpr
      exact .of_faithful ((faithful_call (hls hpr) (holdsFor_calls (hs hpr') hst)
        (ih st hpr' hst).proposal hc).2 (hr pre c st hpr hst))

end

end State

def splitProposal : Proposal ℕ := ⟨⟨0, 1⟩, 0, 8⟩

/-- The leader of view 1 sends two proposals; the second one is notarized and certified. -/
def splitCalls : List (Call ℕ Unit Unit) :=
  [.setGenesis 0, .setProposal 1 soloProposal, .setProposal 1 splitProposal,
    .addNotarization ⟨splitProposal, ()⟩, .setCertifyHandle 1, .certified 1 true]

theorem carries_splitCalls : ∀ c ∈ splitCalls, c.Carries fun _ => splitProposal := by
  simp [splitCalls, Call.Carries]

theorem State.yields_iff_split :
    (∀ c ∈ splitCalls, c.Carries fun _ => splitProposal) ∧
      ((∀ pre st, pre <+: splitCalls → State.new.calls solo pre = .ok st → st.Yields solo) ↔
        ∀ pre c st, pre ++ [c] <+: splitCalls → State.new.calls solo pre = .ok st →
          st.Retains solo c) :=
  ⟨carries_splitCalls, State.yields_iff solo (fun _ => splitProposal) splitCalls carries_splitCalls⟩

/-- The application is asked to certify the proposal that was not notarized, and the view yields its
payload to the leader of the next one. -/
theorem State.not_yields_split :
    (∀ c ∈ splitCalls, c.Carries fun _ => splitProposal) ∧
      (∃ st, State.new.calls solo (splitCalls.take 4) = .ok st ∧
        (st.roundAt solo 1).HoldsFor splitProposal ∧
        (st.roundAt solo 1).proposal.proposal = some soloProposal ∧
        st.tryCertify 1 = .ready soloProposal) ∧ ∃ st, State.new.calls solo splitCalls = .ok st ∧
        (st.roundAt solo 1).HoldsFor splitProposal ∧
        st.findParent 2 = .ok (.ok (1, soloProposal.payload)) :=
  ⟨carries_splitCalls, ⟨_, rfl, .inl ⟨_, rfl, rfl⟩, rfl, rfl⟩, ⟨_, rfl, .inl ⟨_, rfl, rfl⟩, rfl⟩⟩

/-! ### The walk to a parent -/

/-- A certificate comes with a proposal, and a certification result with a notarization. -/
structure Round.Sound (r : Round D Cert PK) : Prop where
  proposal : r.notarization.isSome = true ∨ r.finalization.isSome = true →
    r.proposal.proposal ≠ none
  certified : r.certified.isSome = true → r.notarization.isSome = true

/-- The calls other than the replay of a certification result. -/
def Call.Direct (c : Call D Sig Cert) : Prop := ∀ rnd b, c ≠ .replay (.certification rnd b)

namespace Round

section

variable {r r' : Round D Cert PK}

theorem sound_new (rnd : Rnd) : (new rnd : Round D Cert PK).Sound :=
  ⟨by simp [new], by simp [new]⟩

theorem Kept.sound (h : r.Kept r') (hr : r.Sound) : r'.Sound := by
  refine ⟨fun hc => ?_, fun hc => ?_⟩
  · rw [h.notarization, h.finalization] at hc
    obtain ⟨p, hp⟩ := ne_none_iff_exists'.1 (hr.proposal hc)
    rw [h.proposal p hp]
    exact some_ne_none p
  · rw [h.notarization]
    exact hr.certified (h.certified ▸ hc)

variable [DecidableEq D]

theorem Sound.addNotarization (hr : r.Sound) (c : Notarization D Cert) :
    (r.addNotarization c).2.Sound := by
  unfold Round.addNotarization
  split_ifs
  · exact hr
  · exact ⟨fun _ => (Slot.settled_update_recovered _ _).proposal_ne_none, fun _ => rfl⟩

theorem Sound.addFinalization (hr : r.Sound) (c : Finalization D Cert) :
    (r.addFinalization c).2.Sound := by
  unfold Round.addFinalization
  split_ifs
  · exact hr
  · exact ⟨fun _ => (Slot.settled_update_recovered _ _).proposal_ne_none, hr.certified⟩

variable {c : Call D Sig Cert}

theorem Moves.sound {min v : ℕ} (h : Moves min v r c r')
    (hc : ∀ rnd b, c = .replay (.certification rnd b) → rnd.view = v → r.notarization.isSome = true)
    (hr : r.Sound) : r'.Sound := by
  cases h with
  | kept hk => exact hk.sound hr
  | dropped rnd => exact sound_new rnd
  | notarized n => exact hr.addNotarization n
  | finalized n => exact hr.addFinalization n
  | handled => exact ⟨hr.proposal, hr.certified⟩
  | decided _ hn => exact ⟨hr.proposal, fun _ => hn⟩
  | replayed rnd b hv => exact ⟨hr.proposal, fun _ => hc rnd b rfl hv⟩

/-- A finalization stays in the round of an active view. -/
theorem Moves.finalization {min v : ℕ} (h : Moves min v r c r')
    (hv : min ≤ v) (hr : r.finalization.isSome = true) : r'.finalization.isSome = true := by
  cases h with
  | kept hk => rwa [hk.finalization]
  | dropped rnd hlt => exact absurd hv (Nat.not_le_of_lt hlt)
  | notarized n =>
    unfold addNotarization
    split_ifs <;> exact hr
  | finalized n =>
    unfold addFinalization
    split_ifs
    exact hr
  | handled | decided | replayed => exact hr

theorem finalization_addFinalization (r : Round D Cert PK) (c : Finalization D Cert) :
    (r.addFinalization c).2.finalization.isSome = true := by
  unfold addFinalization
  split_ifs with h
  · exact h
  · rfl

end

end Round

namespace State

/-- The genesis block is known, the rounds are sound, and the last finalized view has its
finalization. -/
structure Rooted (cfg : Config D Sig Cert PK) (st : State D Cert PK) : Prop where
  genesis : st.genesis.isSome = true
  sound : ∀ v, (st.roundAt cfg v).Sound
  finalized : st.lastFinalized = genesisView ∨
    (st.roundAt cfg st.lastFinalized).finalization.isSome = true

section

variable {cfg : Config D Sig Cert PK} {st st' : State D Cert PK}

theorem rooted_setGenesis (cfg : Config D Sig Cert PK) (genesis : D) :
    ((State.new : State D Cert PK).setGenesis cfg genesis).Rooted cfg where
  genesis := by
    simp only [setGenesis, genesis_setLeader, genesis_enterView]
    rfl
  sound := fun v => (kept_setGenesis State.new genesis v).sound (Round.sound_new _)
  finalized := by
    refine .inl ?_
    simp only [setGenesis, lastFinalized_setLeader, lastFinalized_enterView]
    rfl

/-- A call keeps the state rooted, if it is no certification result that is replayed before the
notarization. -/
theorem Rooted.call [DecidableEq D] {c : Call D Sig Cert} (h : st.Rooted cfg)
    (hc : ∀ rnd b, c = .replay (.certification rnd b) →
      (st.roundAt cfg rnd.view).notarization.isSome = true)
    (hst : st.call cfg c = .ok st') : st'.Rooted cfg := by
  obtain ⟨hg, hlf, -⟩ := call_frame hst
  refine ⟨hg h.genesis, fun v => (call_moves hst v).sound ?_ (h.sound v), ?_⟩
  · rintro rnd b rfl rfl
    exact hc rnd b rfl
  by_cases hnw : st.lastFinalized < c.finalized
  · -- only a finalization moves the last finalized view, to its own
    cases c with
    | addFinalization n =>
      refine .inr ?_
      cases hst
      have hv : (st.addFinalization cfg n).2.lastFinalized = n.proposal.view :=
        hlf.trans (max_eq_right hnw.le)
      rw [hv, (adds_finalization _ _).self]
      exact Round.finalization_addFinalization _ n
    | _ => exact absurd hnw (Nat.not_lt_zero _)
  · rw [hlf, max_eq_left (Nat.le_of_not_lt hnw)]
    exact h.finalized.imp id ((call_moves hst _).finalization (minActive_le _ _))

theorem Rooted.isCertified (h : st.Rooted cfg) (v : ℕ) : ∃ x, st.isCertified v = .ok x := by
  unfold State.isCertified
  split_ifs
  · obtain ⟨d, hd⟩ := isSome_iff_exists.1 h.genesis
    rw [hd]
    exact ⟨some d, rfl⟩
  · cases hr : st.views.get? v with
    | none => exact ⟨none, rfl⟩
    | some r =>
      dsimp only
      split_ifs with hc
      · have hs := roundAt_of_get? cfg hr ▸ h.sound v
        have hp : r.proposal.proposal ≠ none := by
          refine hs.proposal ?_
          rcases (Bool.or_eq_true _ _).mp hc with hf | hn
          · exact .inr hf
          · refine .inl (hs.certified ?_)
            rw [of_decide_eq_true hn]
            rfl
        obtain ⟨p, hp⟩ := ne_none_iff_exists'.1 hp
        exact ⟨some p.payload, by rw [hp]⟩
      · exact ⟨none, rfl⟩

/-- The last finalized view is certified. -/
theorem Rooted.isCertified_lastFinalized (h : st.Rooted cfg) :
    ∃ d, st.isCertified st.lastFinalized = .ok (some d) := by
  obtain ⟨x, hx⟩ := h.isCertified st.lastFinalized
  cases x with
  | some d => exact ⟨d, hx⟩
  | none =>
    exfalso
    unfold State.isCertified at hx
    split_ifs at hx with h₀
    · split at hx <;> cases hx
    · have hf := h.finalized.resolve_left h₀
      cases hr : st.views.get? st.lastFinalized with
      | none => simp [roundAt, hr, Round.new] at hf
      | some r =>
        rw [roundAt_of_get? cfg hr] at hf
        simp only [hr, hf, Bool.true_or, if_true] at hx
        split at hx <;> cases hx

/-- The views above `v` up to `cursor` are nullified and not certified. -/
def Skipped (st : State D Cert PK) (v cursor : ℕ) : Prop :=
  ∀ u, v < u → u ≤ cursor → st.isNullified u = true ∧ st.isCertified u = .ok none

/-- The walk from a cursor stops at the first view that is certified, or neither certified nor
nullified; it does not pass a certified view. -/
theorem findParentFrom_stops (ha : ∀ v, ∃ x, st.isCertified v = .ok x) {floor : ℕ} {d₀ : D}
    (hf : st.isCertified floor = .ok (some d₀)) {cursor : ℕ} (hle : floor ≤ cursor) :
    (∃ p d, st.findParentFrom cursor = .ok (.ok (p, d)) ∧ floor ≤ p ∧ p ≤ cursor ∧
        st.isCertified p = .ok (some d) ∧ st.Skipped p cursor) ∨
      ∃ m, st.findParentFrom cursor = .ok (.error m) ∧ floor < m ∧ m ≤ cursor ∧
        st.isCertified m = .ok none ∧ st.isNullified m = false ∧ st.Skipped m cursor := by
  have hsl : st.Skipped cursor cursor := fun u h₁ h₂ => absurd h₁ (Nat.not_lt_of_le h₂)
  induction cursor, hle using Nat.le_induction with
  | base =>
    refine .inl ⟨floor, d₀, ?_, le_rfl, le_rfl, hf, hsl⟩
    rw [findParentFrom.eq_def, hf]
  | succ c hc ih =>
    obtain ⟨x, hx⟩ := ha (c + 1)
    cases x with
    | some d =>
      refine .inl ⟨c + 1, d, ?_, by omega, le_rfl, hx, hsl⟩
      rw [findParentFrom, hx]
    | none =>
      by_cases hn : st.isNullified (c + 1) = true
      · -- the walk goes on, and has skipped one more view
        have hst : st.findParentFrom (c + 1) = st.findParentFrom c := by
          rw [findParentFrom, hx]
          simp [hn]
        have hsk : ∀ v, st.Skipped v c → st.Skipped v (c + 1) := by
          intro v hv u h₁ h₂
          rcases Nat.lt_or_eq_of_le h₂ with hlt | rfl
          · exact hv u h₁ (by omega)
          · exact ⟨hn, hx⟩
        rw [hst]
        rcases ih fun u h₁ h₂ => absurd h₁ (Nat.not_lt_of_le h₂) with
          ⟨p, d, hp, h₁, h₂, h₃, h₄⟩ | ⟨m, hm, h₁, h₂, h₃, h₄, h₅⟩
        · exact .inl ⟨p, d, hp, h₁, by omega, h₃, hsk p h₄⟩
        · exact .inr ⟨m, hm, h₁, by omega, h₃, h₄, hsk m h₅⟩
      · refine .inr ⟨c + 1, ?_, by omega, le_rfl, hx, by simpa using hn, hsl⟩
        rw [findParentFrom, hx]
        simp [hn]

/-- A certified view above which all views are nullified is accepted as a parent. -/
theorem parentPayload_of_skipped {q : Proposal D} {d : D} (hv : q.parent < q.view)
    (hf : st.lastFinalized ≤ q.parent) (hd : st.isCertified q.parent = .ok (some d))
    (hs : st.Skipped q.parent (q.view - 1)) : st.parentPayload q = .ok (some d) := by
  have ha : (List.range' (q.parent + 1) (q.view - (q.parent + 1))).all st.isNullified = true := by
    rw [List.all_eq_true]
    intro u hu
    rw [List.mem_range'_1] at hu
    exact (hs u (by omega) (by omega)).1
  rw [parentPayload, if_neg (Nat.not_le_of_lt hv), if_neg (Nat.not_lt_of_le hf), ha]
  exact hd

/-- **Leader and verifiers agree on parents.**  Above the last finalized view the leader's walk
returns.  A parent it finds is one that verifiers accept, with the same payload; a view it misses is
above the last finalized one and neither certified nor nullified; and no parent that verifiers accept
is above the one it finds. -/
theorem findParent_agrees [DecidableEq D] (cfg : Config D Sig Cert PK) (genesis : D)
    {cs : List (Call D Sig Cert)} (hcs : ∀ c ∈ cs, c.Direct) {st : State D Cert PK}
    (h : (State.new.setGenesis cfg genesis).calls cfg cs = .ok st) {view : ℕ}
    (hview : st.lastFinalized < view) : ∃ result, st.findParent view = .ok result ∧
      (∀ p d, result = .ok (p, d) → st.lastFinalized ≤ p ∧
        ∀ q : Proposal D, q.view = view → q.parent = p → st.parentPayload q = .ok (some d)) ∧
      (∀ m, result = .error m → st.lastFinalized < m ∧ st.isCertified m = .ok none ∧
        st.isNullified m = false) ∧
      ∀ (q : Proposal D) d, q.view = view → st.parentPayload q = .ok (some d) →
        ∃ p' d', result = .ok (p', d') ∧ q.parent ≤ p' := by
  have hr : st.Rooted cfg := calls_induction
    (fun _ c _ hc hq hst => hq.call (fun rnd b he => absurd he (hcs c hc rnd b)) hst)
    (rooted_setGenesis cfg genesis) h
  obtain ⟨d₀, hd₀⟩ := hr.isCertified_lastFinalized
  rcases findParentFrom_stops hr.isCertified hd₀ (Nat.le_sub_one_of_lt hview) with
    ⟨p, d, hp, hle, hlt, hd, hsk⟩ | ⟨m, hm, hlt, hle, hd, hn, hsk⟩
  · refine ⟨.ok (p, d), hp, ?_, fun m hm => (by cases hm), fun q e hq he => ⟨p, d, rfl, ?_⟩⟩
    · intro p' d' hp'
      cases hp'
      refine ⟨hle, ?_⟩
      rintro q rfl rfl
      exact parentPayload_of_skipped (by omega) hle hd hsk
    · -- a parent further up would have been met on the way down
      obtain ⟨hqv, -, hqc, -⟩ := parentPayload_some he
      by_contra hlt'
      rw [(hsk q.parent (by omega) (by omega)).2] at hqc
      cases hqc
  · refine ⟨.error m, hm, fun p d hp => (by cases hp), ?_, fun q e hq he => ?_⟩
    · intro m' hm'
      cases hm'
      exact ⟨hlt, hd, hn⟩
    · exfalso
      obtain ⟨hqv, -, hqc, hqn⟩ := parentPayload_some he
      rcases Nat.lt_trichotomy q.parent m with hlt' | rfl | hlt'
      · rw [hqn m hlt' (by omega)] at hn
        cases hn
      · rw [hd] at hqc
        cases hqc
      · rw [(hsk q.parent hlt' (by omega)).2] at hqc
        cases hqc

theorem findParent_agrees_split :
    ∃ st, (State.new.setGenesis solo 0).calls solo (splitCalls.drop 1) = .ok st ∧
      st.lastFinalized < 2 ∧ ∃ result, st.findParent 2 = .ok result ∧
        (∀ p d, result = .ok (p, d) → st.lastFinalized ≤ p ∧
          ∀ q : Proposal ℕ, q.view = 2 → q.parent = p → st.parentPayload q = .ok (some d)) ∧
        (∀ m, result = .error m → st.lastFinalized < m ∧ st.isCertified m = .ok none ∧
          st.isNullified m = false) ∧
        ∀ (q : Proposal ℕ) d, q.view = 2 → st.parentPayload q = .ok (some d) →
          ∃ p' d', result = .ok (p', d') ∧ q.parent ≤ p' :=
  have hcs : ∀ c ∈ splitCalls.drop 1, c.Direct := by simp [splitCalls, Call.Direct]
  ⟨_, rfl, by decide, findParent_agrees solo 0 hcs rfl (by decide)⟩

end

end State

end Commonware.Simplex.Voter
