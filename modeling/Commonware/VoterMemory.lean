/-
**The memory of a running voter.**

While a voter runs, its rounds know what the journal sections of their views say, from the least
active view on.  Every operation of the actor keeps this so, and has permitted effects only: a vote
is cast when the section of its view allows the record, and never for a view whose section has been
given up.

Main definitions:

* `Follows`, `Live` — the invariant of the memory; `Runs` — what an operation has to do.

Main results:

* `constructNotarize_spec`, `constructFinalize_spec`, `timeoutVotes_spec` — the votes;
* `handleNotarization_spec`, `handleNullification_spec`, `handleFinalization_spec`,
  `handleCertification_spec` — the certificates and the certification results;
* `exec_spec` — **every operation has permitted effects and keeps the invariant**.
-/

import Commonware.VoterActor
import Commonware.VoterHistory

set_option autoImplicit false

namespace Commonware.Simplex.Voter

open Journal Option

variable {D Sig Cert PK : Type}

/-! ### The memory -/

/-- The rounds from view `min` on know what their sections say, and which views are final. -/
def Follows (cfg : Config D Sig Cert PK) (j : ℕ → List (Artifact D Sig Cert)) (final : ℕ → Prop)
    (min : ℕ) (st : State D Cert PK) : Prop :=
  ∀ v, min ≤ v → Tracks cfg.scheme.me v (final v) (j v) (st.roundAt cfg v)

/-- The finalization of the view is durable. -/
def Node.Final (n : Node D Sig Cert PK) (v : ℕ) : Prop :=
  ∃ c : Finalization D Cert, .finalization c ∈ n.synced.sec v

/-- The nullify votes on record are durable, as they are between two operations. -/
def Node.Rests (n : Node D Sig Cert PK) : Prop :=
  ∀ v x, .nullify x ∈ n.journal.sec v → .nullify x ∈ n.synced.sec v

/-- The invariant of a node's memory. -/
structure Live (cfg : Config D Sig Cert PK) (n : Node D Sig Cert PK) (m : Memory D Cert PK) :
    Prop where
  follows : Follows cfg n.journal.sec n.Final (m.state.minActive cfg) m.state
  behind : m.state.lastFinalized < m.state.view
  pruned : n.pruned ≤ m.state.minActive cfg
  rests : n.Rests

/-- What the effects of an operation do not change for the worse. -/
structure Node.Keeps (n n' : Node D Sig Cert PK) : Prop where
  pruned : n'.pruned = n.pruned
  final : ∀ v, n.Final v → n'.Final v
  rests : n.Rests → n'.Rests

section

variable {cfg : Config D Sig Cert PK} {n n' n'' : Node D Sig Cert PK}

theorem Node.Keeps.refl (n : Node D Sig Cert PK) : n.Keeps n := ⟨rfl, fun _ h => h, fun h => h⟩

theorem Node.Keeps.trans (h : n.Keeps n') (h' : n'.Keeps n'') : n.Keeps n'' :=
  ⟨h'.pruned.trans h.pruned, fun v hv => h'.final v (h.final v hv), fun hr => h'.rests (h.rests hr)⟩

theorem Node.keeps_history (n : Node D Sig Cert PK) (history : List (Event D Sig Cert)) :
    n.Keeps { n with history } := ⟨rfl, fun _ h => h, fun h => h⟩

theorem Node.keeps_append (n : Node D Sig Cert PK) {a : Artifact D Sig Cert}
    (ha : ∀ x, a ≠ .nullify x) : n.Keeps (n.apply (.append a)) := by
  refine ⟨rfl, fun _ h => h, fun h v x hx => h v x ?_⟩
  simp only [Node.apply, sec_append] at hx
  split_ifs at hx
  · rcases List.mem_append.1 hx with hx | hx
    · exact hx
    · exact absurd (List.mem_singleton.1 hx).symm (ha x)
  · exact hx

theorem Disk.keeps_sync (h : Disk cfg n) (v : ℕ) : n.Keeps (n.apply (.sync v)) := by
  refine ⟨rfl, fun u ⟨c, hc⟩ => ⟨c, h.mem_sync v hc⟩, fun hr u x hx => ?_⟩
  simp only [Node.apply, sec_sync]
  split_ifs
  · exact hx
  · exact hr u x hx

/-- A vote that is cast is durable when it is sent. -/
theorem Disk.keeps_castVote (h : Disk cfg n) (vote : Vote D Sig) :
    n.Keeps (n.applyAll (Voter.castVote vote)) := by
  have hva : (vote.artifact : Artifact D Sig Cert).view = vote.view := Vote.view_artifact vote
  have hs : ∀ u, ((n.applyAll (Voter.castVote vote)).synced).sec u =
      if u = vote.view then n.journal.sec u ++ [vote.artifact] else n.synced.sec u := by
    intro u
    change (n.synced.sync (n.journal.append vote.artifact) vote.view).sec u = _
    rw [sec_sync, sec_append, hva]
    split_ifs <;> rfl
  refine ⟨rfl, fun u ⟨c, hc⟩ => ⟨c, ?_⟩, fun hr u x hx => ?_⟩
  · rw [hs]
    split_ifs
    · exact List.mem_append_left _ ((h.isPrefix u).subset hc)
    · exact hc
  · change _ ∈ (n.journal.append vote.artifact).sec u at hx
    rw [sec_append, hva] at hx
    rw [hs]
    split_ifs at hx ⊢
    · exact hx
    · exact hr u x hx

end

section

variable {cfg : Config D Sig Cert PK} {j : ℕ → List (Artifact D Sig Cert)} {final : ℕ → Prop}
  {min : ℕ} {st st' : State D Cert PK} {n : Node D Sig Cert PK} {m : Memory D Cert PK}

theorem Follows.mono (h : Follows cfg j final min st) {min' : ℕ} (hm : min ≤ min') :
    Follows cfg j final min' st := fun v hv => h v (le_trans hm hv)

theorem Follows.imp (h : Follows cfg j final min st) {final' : ℕ → Prop}
    (hf : ∀ v, final v → final' v) : Follows cfg j final' min st :=
  fun v hv => (h v hv).mono (hf v)

theorem Follows.agree (h : Follows cfg j final min st) (ha : st.Agree cfg st') :
    Follows cfg j final min st' := by
  intro v hv
  obtain ⟨l, hl⟩ := ha v
  rw [hl]
  exact { h v hv with }

variable {r : Round D Cert PK} {v : ℕ}

theorem Follows.setRound (h : Follows cfg j final min st)
    (hr : min ≤ v → Tracks cfg.scheme.me v (final v) (j v) r) :
    Follows cfg j final min (st.setRound v r) := by
  intro u hu
  rw [State.roundAt_setRound]
  split_ifs with h'
  · subst h'
    exact hr hu
  · exact h u hu

/-- Recording an artifact, with the matching change of its round. -/
theorem Follows.record {jo : Journal D Sig Cert} (h : Follows cfg jo.sec final min st)
    {a : Artifact D Sig Cert}
    (hr : min ≤ a.view → Tracks cfg.scheme.me a.view (final a.view) (jo.sec a.view ++ [a]) r) :
    Follows cfg (jo.append a).sec final min (st.setRound a.view r) := by
  intro u hu
  rw [State.roundAt_setRound, sec_append]
  split_ifs with h'
  · subst h'
    exact hr hu
  · exact h u hu

theorem Follows.get (h : Follows cfg j final min st) (hv : min ≤ v)
    (hr : st.views.get? v = some r) : Tracks cfg.scheme.me v (final v) (j v) r := by
  have := h v hv
  rwa [State.roundAt_of_get? cfg hr] at this

theorem Live.view_active (h : Live cfg n m) : m.state.minActive cfg ≤ m.state.view :=
  le_trans (minActive_le _ _) h.behind.le

/-- An operation that moves only the rounds, or the view forward. -/
theorem Live.withState (h : Live cfg n m) {m' : Memory D Cert PK} {n' : Node D Sig Cert PK}
    (hf : Follows cfg n'.journal.sec n'.Final (m.state.minActive cfg) m'.state)
    (hl : m'.state.lastFinalized = m.state.lastFinalized) (hv : m.state.view ≤ m'.state.view)
    (hk : n.Keeps n') : Live cfg n' m' := by
  have hm : m'.state.minActive cfg = m.state.minActive cfg := by
    rw [State.minActive, State.minActive, hl]
  refine ⟨hm ▸ hf, ?_, ?_, hk.rests h.rests⟩
  · rw [hl]
    exact lt_of_lt_of_le h.behind hv
  · rw [hk.pruned, hm]
    exact h.pruned

theorem State.isInteresting_active {b : Bool} (h : st.isInteresting cfg v b = true) :
    st.minActive cfg ≤ v := minActive_le_of_interesting h

end

/-! ### Operations without effects on the journal -/

section

variable {cfg : Config D Sig Cert PK} {j : ℕ → List (Artifact D Sig Cert)} {final : ℕ → Prop}
  {min : ℕ} {st st' : State D Cert PK}

/-- A call that the journal says nothing about; the finalization of a view is broadcast when the
view is final. -/
def Quiet (cfg : Config D Sig Cert PK) (j : ℕ → List (Artifact D Sig Cert)) (final : ℕ → Prop)
    (st : State D Cert PK) : Call D Sig Cert → Prop
  | .handleTimeout | .constructNotarize _ | .constructFinalize _ | .addNotarization _
  | .addNullification _ | .addFinalization _ | .certified _ _ | .replay _ => False
  | .setProposal v p => p.view = v
  | .broadcastFinalization v =>
    (st.roundAt cfg v).broadcastFinalizationOnce.1.isSome = true →
      (∃ c, .finalization c ∈ j v) → final v
  | _ => True

variable [DecidableEq D] {c : Call D Sig Cert}

theorem Follows.call (h : Follows cfg j final min st) (hq : Quiet cfg j final st c)
    (hm : st.minActive cfg ≤ min) (hc : st.call cfg c = .ok st') : Follows cfg j final min st' := by
  intro v hv
  have ht := h v hv
  generalize hr' : st'.roundAt cfg v = r'
  cases hr' ▸ State.call_edits hc v with
  | same => exact ht
  | led leader | handled | unhandled => exact { ht with }
  | flagged hf =>
    cases c with
    | broadcastNotarization w => cases hf; exact ht.broadcastNotarizationOnce
    | broadcastNullification w => cases hf; exact ht.broadcastNullificationOnce
    | broadcastFinalization w =>
      cases hf
      exact ht.broadcastFinalizationOnce fun hs =>
        hq hs (ht.finalization.1 (Round.finalization_of_broadcast hs))
    | handleTimeout | constructNotarize | constructFinalize => exact hq.elim
    | _ => cases hf
  | tryPropose => exact ht.tryPropose
  | tryVerify => exact ht.tryVerify
  | proposed p hp => exact ht.proposed hp
  | setProposal p => exact ht.setProposal hq
  | verified => exact ht.verified
  | dropped hlt => exact absurd (hm.trans hv) (Nat.not_le_of_lt hlt)
  | notarized | nullified | finalized | decided | replayed => exact hq.elim

/-- A quiet call does not move the window. -/
theorem Quiet.lastFinalized (hq : Quiet cfg j final st c) (hc : st.call cfg c = .ok st') :
    st'.lastFinalized = st.lastFinalized := by
  rw [(State.call_frame hc).2.1]
  cases c with
  | addFinalization n => exact hq.elim
  | _ => exact Nat.max_zero _

theorem Live.call {n n' : Node D Sig Cert PK} {m m' : Memory D Cert PK} (hl : Live cfg n m)
    (hq : Quiet cfg n.journal.sec n'.Final m.state c) (hc : m.state.call cfg c = .ok m'.state)
    (hj : n'.journal = n.journal) (hk : n.Keeps n') : Live cfg n' m' := by
  refine hl.withState ?_ (hq.lastFinalized hc) ?_ hk
  · rw [hj]
    exact (hl.follows.imp hk.final).call hq le_rfl hc
  · rw [(State.call_frame hc).2.2]
    exact le_max_left _ _

end

/-! ### Votes -/

section

variable {cfg : Config D Sig Cert PK} {n : Node D Sig Cert PK} {m : Memory D Cert PK}

/-- The effects are permitted, and the memory follows the journal after them. -/
def Runs (cfg : Config D Sig Cert PK) (n : Node D Sig Cert PK) (effects : List (Effect D Sig Cert))
    (m : Memory D Cert PK) : Prop :=
  PermitsAll cfg n effects ∧ Live cfg (n.applyAll effects) m

theorem permitsAll_append (cfg : Config D Sig Cert PK) (n : Node D Sig Cert PK)
    (l l' : List (Effect D Sig Cert)) :
    PermitsAll cfg n (l ++ l') ↔ PermitsAll cfg n l ∧ PermitsAll cfg (n.applyAll l) l' := by
  induction l generalizing n with
  | nil => simp [PermitsAll, Node.applyAll]
  | cons e l ih =>
    rw [List.cons_append, PermitsAll, PermitsAll, ih, and_assoc]
    rfl

/-- A certificate may be sent at any time. -/
theorem permitsAll_certificate (cfg : Config D Sig Cert PK) (n : Node D Sig Cert PK)
    (c : Option (Certificate D Cert)) : PermitsAll cfg n (c.map Effect.sendCertificate).toList := by
  cases c <;> simp [PermitsAll, Permits]

variable {vote : Vote D Sig}

/-- A vote may be cast when its record is allowed: no nullify vote of the view was sent before a
notarize vote, since its section would hold it. -/
theorem permitsAll_castVote (hd : Disk cfg n) (hp : n.pruned ≤ vote.view)
    (ha : Allowed (n.journal.sec vote.view) vote.artifact) (hx : ∀ x, vote = .nullify x →
      Nullify.sign cfg.scheme cfg.ns ⟨cfg.epoch, vote.view⟩ = some x) :
    PermitsAll cfg n (castVote vote : List (Effect D Sig Cert)) := by
  have hsn : Permits cfg (((n.apply (.sign vote)).apply (.append vote.artifact)).apply
      (.sync vote.view)) (.send vote) := by
    refine ⟨hp, ?_⟩
    change vote.artifact ∈ (n.synced.sync (n.journal.append vote.artifact) vote.view).sec vote.view
    simp [sec_sync, sec_append]
  cases vote with
  | notarize x =>
    refine ⟨?_, ⟨ha, ?_⟩, trivial, hsn, trivial⟩
    · intro y hy hyx
      have hv : Vote.view (.nullify y : Vote D Sig) = Vote.view (.notarize x) := hyx
      exact ha.2.1 y ((hd.isPrefix _).subset (hv ▸ hd.sent _ hy (hv ▸ hp)))
    · simp [Node.apply]
  | nullify x => exact ⟨trivial, ⟨ha, hx x rfl⟩, trivial, hsn, trivial⟩
  | finalize x => exact ⟨trivial, ha, trivial, hsn, trivial⟩

variable {v : ℕ} {r : Round D Cert PK}

theorem Live.castVote (hd : Disk cfg n) (hl : Live cfg n m) (hv : vote.view = v)
    (hr : Tracks cfg.scheme.me v (n.Final v) (n.journal.sec v ++ [vote.artifact]) r) :
    Live cfg (n.applyAll (Voter.castVote vote))
      { m with state := m.state.setRound v r } := by
  subst hv
  have hk := hd.keeps_castVote vote
  refine hl.withState (Follows.imp ?_ hk.final) rfl le_rfl hk
  have hva : (vote.artifact : Artifact D Sig Cert).view = vote.view := Vote.view_artifact vote
  rw [← hva] at hr ⊢
  exact hl.follows.record fun _ => hr

/-- A vote that is cast if there is one, with the matching change of its round. -/
theorem Live.cast (hd : Disk cfg n) (hl : Live cfg n m) (hv : m.state.minActive cfg ≤ v)
    {vote : Option (Vote D Sig)}
    (hnn : vote = none → Tracks cfg.scheme.me v (n.Final v) (n.journal.sec v) r)
    (hsm : ∀ x ∈ vote, x.view = v ∧ Allowed (n.journal.sec v) x.artifact ∧
      Tracks cfg.scheme.me v (n.Final v) (n.journal.sec v ++ [x.artifact]) r ∧
      ∀ y, x = .nullify y → Nullify.sign cfg.scheme cfg.ns ⟨cfg.epoch, v⟩ = some y) :
    Runs cfg n ((vote.map Voter.castVote).getD []) { m with state := m.state.setRound v r } := by
  cases vote with
  | none =>
    exact ⟨trivial, hl.withState (hl.follows.setRound fun _ => hnn rfl) rfl le_rfl (.refl n)⟩
  | some x =>
    obtain ⟨rfl, ha, ht, hx⟩ := hsm x rfl
    exact ⟨permitsAll_castVote hd (le_trans hl.pruned hv) ha hx, hl.castVote hd rfl ht⟩

/-- The notarize vote of a view, if one is cast, is permitted and recorded. -/
theorem constructNotarize_spec (hd : Disk cfg n) (hl : Live cfg n m)
    (hv : m.state.minActive cfg ≤ v) : let x := m.state.constructNotarize cfg v
    Runs cfg n ((x.1.map fun vote => Voter.castVote (.notarize vote)).getD [])
      { m with state := x.2 } := by
  intro x
  cases hr : m.state.views.get? v with
  | none =>
    have hx : x = (none, m.state) := by simp only [x, State.constructNotarize, hr]
    rw [hx]
    exact ⟨trivial, hl⟩
  | some r =>
    have ht := hl.follows.get hv hr
    have hx : x = (r.constructNotarize.1.bind (Notarize.sign cfg.scheme cfg.ns),
        m.state.setRound v r.constructNotarize.2) := by
      simp only [x, State.constructNotarize, hr]
    rw [hx, ← Function.comp_def, ← map_map]
    refine hl.cast hd hv (fun hnn => ?_) fun vote hvt => ?_
    · cases hc : r.constructNotarize.1 with
      | none => exact ht.constructNotarize_none hc
      | some p =>
        refine ht.constructNotarize_verifier ?_
        simpa [hc, Notarize.sign, Scheme.sign_eq_none_iff] using hnn
    · obtain ⟨vote, hs, rfl⟩ := map_eq_some_iff.1 hvt
      obtain ⟨p, hc, hs⟩ := bind_eq_some_iff.1 hs
      obtain ⟨ha, hpv, ht'⟩ := ht.constructNotarize hc (sign_notarize hs).1
      refine ⟨?_, ha, ht', by simp⟩
      rw [← hpv, ← (sign_notarize hs).1]
      rfl

theorem constructFinalize_spec (hd : Disk cfg n) (hl : Live cfg n m)
    (hv : m.state.minActive cfg ≤ v) : let x := m.state.constructFinalize cfg v
    Runs cfg n ((x.1.map fun vote => Voter.castVote (.finalize vote)).getD [])
      { m with state := x.2 } := by
  intro x
  cases hr : m.state.views.get? v with
  | none =>
    have hx : x = (none, m.state) := by simp only [x, State.constructFinalize, hr]
    rw [hx]
    exact ⟨trivial, hl⟩
  | some r =>
    have ht := hl.follows.get hv hr
    have hx : x = (r.constructFinalize.1.bind (Finalize.sign cfg.scheme cfg.ns),
        m.state.setRound v r.constructFinalize.2) := by
      simp only [x, State.constructFinalize, hr]
    rw [hx, ← Function.comp_def, ← map_map]
    refine hl.cast hd hv (fun _ => ht.constructFinalize_flag) fun vote hvt => ?_
    obtain ⟨vote, hs, rfl⟩ := map_eq_some_iff.1 hvt
    obtain ⟨p, hc, hs⟩ := bind_eq_some_iff.1 hs
    obtain ⟨hvp, hme⟩ := sign_finalize hs
    obtain ⟨ha, hpv, ht'⟩ := ht.constructFinalize (by simp [hme]) hc hvp
    refine ⟨?_, ha, ht', by simp⟩
    rw [← hpv, ← hvp]
    rfl

theorem timeoutVotes_spec (hd : Disk cfg n) (hl : Live cfg n m) :
    Runs cfg n (timeoutVotes cfg m.state)
      ⟨m.state.setRound m.state.view (m.state.roundAt cfg m.state.view).constructNullify.2,
        m.pendingPropose⟩ := by
  have ht := hl.follows m.state.view hl.view_active
  have hpv : n.pruned ≤ m.state.view := le_trans hl.pruned hl.view_active
  have hq : ((m.state.roundAt cfg m.state.view).constructNullify.1 ≠ some false ∨
      cfg.scheme.me = none) → ∀ history : List (Event D Sig Cert), Live cfg { n with history }
        ⟨m.state.setRound m.state.view (m.state.roundAt cfg m.state.view).constructNullify.2,
          m.pendingPropose⟩ := by
    intro h history
    refine hl.withState ?_ rfl le_rfl (n.keeps_history history)
    exact hl.follows.setRound fun _ => ht.constructNullify_quiet h
  unfold timeoutVotes
  split
  · next x hc hs =>
      -- the flag was set before, so the vote is in the section of the current view
      have hxv : Vote.view (.nullify x : Vote D Sig) = m.state.view := by
        change x.round.view = _
        rw [(sign_nullify hs).1]
      have hme : cfg.scheme.me ≠ none := by
        intro hme
        rw [(show Nullify.sign cfg.scheme cfg.ns ⟨cfg.epoch, m.state.view⟩ = none by
          simpa [Nullify.sign, Scheme.sign_eq_none_iff] using hme)] at hs
        cases hs
      obtain ⟨y, hy⟩ := (ht.nullified (Round.nullify_of_retry hc)).resolve_left hme
      obtain rfl : x = y := some_inj.1 (hs.symm.trans (hd.nullify _ y hy))
      refine ⟨⟨trivial, ⟨hxv ▸ hpv, ?_⟩, trivial⟩, hq (.inl (by simp [hc])) _⟩
      rw [hxv]
      exact hl.rests _ x hy
  · next x hc hs =>
      obtain ⟨ha, ht'⟩ := ht.constructNullify hc x
      have hvv : Vote.view (.nullify x : Vote D Sig) = m.state.view := by
        change x.round.view = _
        rw [(sign_nullify hs).1]
      refine ⟨permitsAll_castVote hd (hvv ▸ hpv) (hvv ▸ ha) ?_, hl.castVote hd hvv ht'⟩
      intro y hy
      cases Vote.nullify.inj hy
      rw [hvv]
      exact hs
  · next h₁ h₂ =>
      refine ⟨trivial, hq ?_ n.history⟩
      by_cases hme : cfg.scheme.me = none
      · exact .inr hme
      · refine .inl fun hc => ?_
        cases hs : Nullify.sign cfg.scheme cfg.ns ⟨cfg.epoch, m.state.view⟩ with
        | none => exact hme (by simpa [Nullify.sign, Scheme.sign_eq_none_iff] using hs)
        | some x => exact h₂ x hc hs

/-! ### Certificates -/

variable {st : State D Cert PK}

/-- A certificate that is recorded if it was added to its round. -/
theorem Live.addCertificate {a : Artifact D Sig Cert}
    {added : Bool} (floor : Option (Certificate D Cert)) (hn : ∀ x, a ≠ .nullify x)
    (hf : Follows cfg n.journal.sec n.Final (m.state.minActive cfg) st)
    (hlv : ∀ n' : Node D Sig Cert PK, n.Keeps n' →
      Follows cfg n'.journal.sec n'.Final (m.state.minActive cfg) (st.setRound a.view r) →
      Live cfg n' { m with state := st.setRound a.view r })
    (ha : added = true → Permits cfg n (.append a) ∧
      Tracks cfg.scheme.me a.view (n.Final a.view) (n.journal.sec a.view ++ [a]) r)
    (hnt : ¬ added = true → Tracks cfg.scheme.me a.view (n.Final a.view) (n.journal.sec a.view) r) :
    Runs cfg n (if added = true then .append a :: (floor.map Effect.sendCertificate).toList else [])
      { m with state := st.setRound a.view r } := by
  have hk := n.keeps_append hn
  split_ifs with h
  · obtain ⟨hp, ht⟩ := ha h
    have hf' := hf.record fun _ => ht
    refine ⟨⟨hp, permitsAll_certificate _ _ _⟩, ?_⟩
    cases floor with
    | none => exact hlv _ hk hf'
    | some x => exact hlv _ (hk.trans (Node.keeps_history _ _)) hf'
  · exact ⟨trivial, hlv n (.refl n) (hf.setRound fun _ => hnt h)⟩

theorem handleNotarization_spec [DecidableEq D] (hl : Live cfg n m) {c : Notarization D Cert}
    (hv : m.state.minActive cfg ≤ c.proposal.view) : Runs cfg n (handleNotarization cfg m.state c).2
      { m with state := (handleNotarization cfg m.state c : _ × List (Effect D Sig Cert)).1 } := by
  have hf := hl.follows.agree
    (State.agree_setLeader cfg m.state (c.proposal.view + 1) (some c.certificate))
  have ht := hf _ hv
  refine Live.addCertificate (a := .notarization c) none (by simp) hf
    (fun n' hk hf' => hl.withState hf' (by simp) (by simp) hk) (ht.addNotarization rfl) fun ha => ?_
  exact (Round.addNotarization_of_not ha).symm ▸ ht

theorem handleNullification_spec (hl : Live cfg n m) {c : Nullification Cert}
    (hv : m.state.minActive cfg ≤ c.round.view) : Runs cfg n (handleNullification cfg m.state c).2
      { m with state := (handleNullification cfg m.state c : _ × List (Effect D Sig Cert)).1 } := by
  have hf := (hl.follows.agree (State.agree_enterView cfg m.state (c.round.view + 1))).agree
    (State.agree_setLeader cfg _ (c.round.view + 1) (some c.certificate))
  obtain ⟨ht, ht'⟩ := (hf _ hv).addNullification c
  exact Live.addCertificate (a := .nullification c) _ (by simp) hf
    (fun n' hk hf' => hl.withState hf' (by simp) (by simp) hk) (fun _ => ⟨trivial, ht'⟩) fun _ => ht

theorem handleFinalization_spec [DecidableEq D] (hl : Live cfg n m) {c : Finalization D Cert}
    (hv : m.state.minActive cfg ≤ c.proposal.view) : Runs cfg n (handleFinalization cfg m.state c).2
      { m with state := (handleFinalization cfg m.state c : _ × List (Effect D Sig Cert)).1 } := by
  let v := c.proposal.view
  let st₀ := if v > m.state.lastFinalized then { m.state with lastFinalized := v } else m.state
  have h₀ : m.state.Agree cfg st₀ := by
    refine State.agree_of_roundAt_eq fun u => ?_
    simp only [st₀]
    split_ifs <;> rfl
  have hf := ((hl.follows.agree h₀).agree (State.agree_enterView cfg _ (v + 1))).agree
    (State.agree_setLeader cfg _ (v + 1) (some c.certificate))
  -- the window moves up with the last finalized view, and the view stays ahead of it
  have hlf := State.lastFinalized_addFinalization cfg m.state c
  have hvw := State.view_addFinalization cfg m.state c
  have hm : m.state.minActive cfg ≤ (m.state.addFinalization cfg c).2.minActive cfg := by
    rw [State.minActive, State.minActive, hlf]
    exact minActive_mono _ (le_max_left _ _)
  have ht := hf _ hv
  refine Live.addCertificate (a := .finalization c) none (by simp) hf (fun n' hk hf' => ?_)
    (ht.addFinalization rfl) fun ha => (Round.addFinalization_of_not ha).symm ▸ ht
  refine ⟨hf'.mono hm, ?_, ?_, hk.rests hl.rests⟩
  · have := hl.behind
    change (m.state.addFinalization cfg c).2.lastFinalized < (m.state.addFinalization cfg c).2.view
    rw [hlf, hvw]
    omega
  · rw [hk.pruned]
    exact le_trans hl.pruned hm

theorem handleCertification_spec [DecidableEq D] (hd : Disk cfg n) (hl : Live cfg n m) {isSuccess : Bool}
    (hv : m.state.minActive cfg ≤ v) {effects : List (Effect D Sig Cert)}
    (h : handleCertification cfg m.state v isSuccess = .ok (st, effects)) :
    Runs cfg n effects { m with state := st } := by
  unfold handleCertification at h
  split at h
  · cases h
  · next hc =>
      cases h
      rcases State.certified_ok hc with ⟨-, rfl⟩ | ⟨r, -, -, hx, -⟩
      · exact ⟨trivial, hl⟩
      · cases hx
  · next hc =>
      cases h
      rcases State.certified_ok hc with ⟨⟨-, hx⟩, -⟩ | ⟨r, hr, -, -, hst⟩
      · cases hx
      · have ht := (hl.follows.get hv hr).decided ⟨cfg.epoch, v⟩ isSuccess
        have hcl : m.state.call cfg (.certified v isSuccess : Call D Sig Cert) = .ok st :=
          map_eq_ok.2 ⟨_, hc, rfl⟩
        obtain ⟨-, hlf, hvw⟩ := State.call_frame hcl
        let a : Artifact D Sig Cert := .certification ⟨cfg.epoch, v⟩ isSuccess
        have hp : Permits cfg (n.apply (.certify v isSuccess)) (.append a) := by
          rintro rfl
          simp [Node.apply]
        have hd' := (hd.apply (e := .certify v isSuccess) trivial).apply hp
        have hk : n.Keeps (((n.apply (.certify v isSuccess)).apply (.append a)).apply (.sync v)) :=
          ((n.keeps_history _).trans (Node.keeps_append _ (by simp [a]))).trans (hd'.keeps_sync v)
        refine ⟨⟨trivial, hp, trivial, trivial⟩,
          hl.withState (Follows.imp ?_ hk.final) (hlf.trans (Nat.max_zero _))
            (hvw ▸ le_max_left _ _) hk⟩
        refine (hl.follows.record (a := a) fun _ => ht).agree (State.agree_of_roundAt_eq fun u => ?_)
        rw [State.roundAt_certified hst, State.roundAt_setRound]
        rfl

/-- The sections below the window may be given up once the finalization that moved it there has
been broadcast: it is durable by then. -/
theorem prune_permitted [DecidableEq D] (hd : Disk cfg n) (hl : Live cfg n m)
    (hen : Enabled cfg m (.prune : Op D Cert)) :
    Permits cfg n (.prune (m.state.minActive cfg)) := by
  rcases hen with h₀ | hb
  · refine .inl ?_
    rw [State.minActive, h₀]
    exact Nat.le_zero.1 (minActive_le _ _)
  · obtain ⟨c, hc⟩ := (hl.follows _ (minActive_le _ _)).broadcast hb
    have hv : c.proposal.view = m.state.lastFinalized :=
      hd.keyed _ _ ((hd.isPrefix _).subset hc)
    exact .inr ⟨c, hv ▸ hc, hv ▸ le_rfl⟩

end

/-! ### Every operation -/

/-- **The effects of an operation are permitted, and its memory follows the journal.** -/
theorem exec_spec [DecidableEq D] {cfg : Config D Sig Cert PK} {n : Node D Sig Cert PK}
    {m m' : Memory D Cert PK} {op : Op D Cert} {effects : List (Effect D Sig Cert)}
    (hd : Disk cfg n) (hl : Live cfg n m) (hen : Enabled cfg m op)
    (hex : exec cfg m op = .ok (m', effects)) : Runs cfg n effects m' := by
  have hqt : ∀ c : Call D Sig Cert, op.call m = some c →
      Quiet cfg n.journal.sec n.Final m.state c → effects = [] → Runs cfg n effects m' := by
    rintro c hc hq rfl
    exact ⟨trivial, hl.call hq (exec_some hex hc) rfl (.refl n)⟩
  have hbr : ∀ (c : Call D Sig Cert) (v : ℕ) (x : Option (Certificate D Cert)),
      op.call m = some c → (∀ final : ℕ → Prop,
        (x.isSome = true → (∃ c, .finalization c ∈ n.journal.sec v) → final v) →
        Quiet cfg n.journal.sec final m.state c) → effects = castCertificate v x →
      Runs cfg n effects m' := by
    rintro c v x hc hq rfl
    cases x with
    | none => exact ⟨trivial, hl.call (hq _ (by simp)) (exec_some hex hc) rfl (.refl n)⟩
    | some x =>
      refine ⟨⟨trivial, trivial, trivial⟩, hl.call (hq _ ?_) (exec_some hex hc) rfl
        ((hd.keeps_sync v).trans (Node.keeps_history _ _))⟩
      rintro - ⟨c', hc'⟩
      refine ⟨c', ?_⟩
      change _ ∈ (n.synced.sync n.journal v).sec v
      rwa [sec_sync, if_pos rfl]
  cases op with
  | setProposal p | verified v | retryCertification v | expireRound =>
    exact hqt _ rfl (by first | rfl | trivial) (by cases hex; rfl)
  | tryVerify | tryPropose =>
    obtain ⟨x, -, he⟩ := bind_eq_ok.1 hex
    cases he
    exact hqt _ rfl trivial rfl
  | proposed payload =>
    simp only [exec] at hex
    split at hex
    · cases hex
      exact ⟨trivial, hl⟩
    · next ctx hct =>
        cases hex
        exact hqt (.proposed ⟨ctx.round, ctx.parent.1, payload⟩) (by simp [Op.call, hct])
          trivial rfl
  | constructNotarize v =>
    cases hex
    exact constructNotarize_spec hd hl (State.isInteresting_active hen)
  | constructFinalize v =>
    cases hex
    exact constructFinalize_spec hd hl (State.isInteresting_active hen)
  | timeout =>
    obtain ⟨c, hc⟩ := handleTimeout_eq cfg m.state
    obtain ⟨hp, hl'⟩ := timeoutVotes_spec hd hl
    simp only [exec, hc] at hex
    cases hex
    refine ⟨(permitsAll_append _ _ _ _).2 ⟨hp, permitsAll_certificate _ _ _⟩, ?_⟩
    rw [Node.applyAll, List.foldl_append]
    cases c with
    | none => exact hl'
    | some x => exact hl'.withState hl'.follows rfl le_rfl (Node.keeps_history _ _)
  | tryCertify v =>
    simp only [exec] at hex
    split at hex
    · next p hp =>
        cases hex
        exact hqt (.setCertifyHandle v) (by simp [Op.call, hp]) trivial rfl
    · cases hex
      exact ⟨trivial, hl⟩
    · cases hex
      exact ⟨trivial, hl⟩
  | certified v isSuccess =>
    obtain ⟨x, hx, he⟩ := bind_eq_ok.1 hex
    cases he
    exact handleCertification_spec hd hl (State.isInteresting_active hen.1) hx
  | notarization c =>
    cases hex
    exact handleNotarization_spec hl (State.isInteresting_active hen)
  | nullification c =>
    cases hex
    exact handleNullification_spec hl (State.isInteresting_active hen)
  | finalization c =>
    cases hex
    exact handleFinalization_spec hl (State.isInteresting_active hen)
  | broadcastNotarization v | broadcastNullification v =>
    exact hbr _ v _ rfl (fun _ _ => trivial) (by cases hex; rfl)
  | broadcastFinalization v =>
    refine hbr _ v ((m.state.broadcastFinalization v).1.map .finalization) rfl
      (fun final hf hs => hf ?_) (by cases hex; rfl)
    rw [isSome_map, State.broadcastFinalization_fst cfg]
    exact hs
  | prune =>
    have hf := hl.follows.call (c := .prune) trivial le_rfl (exec_some hex rfl)
    cases hex
    split_ifs with he
    · exact ⟨trivial, hl.withState hf rfl le_rfl (.refl n)⟩
    · refine ⟨⟨prune_permitted hd hl hen, trivial⟩, hf, hl.behind, ?_, hl.rests⟩
      exact max_le hl.pruned le_rfl

end Commonware.Simplex.Voter
