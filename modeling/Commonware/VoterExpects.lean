/-
**The voter meets its own expectations.**

The state of `consensus/src/simplex/actors/voter/state.rs` expects a round for the current view, a
proposal in a certified round, a notarization for a certification result and one result a view, and
`actor.rs` expects a leader for the current view.  A running actor finds all of them, and so does one
that replays any journal an actor has left: a view is entered with its leader set, a certification
result is asked for once, after the notarization, and its record stands behind that of the
notarization.

Main definitions:

* `State.Ready` — what the state expects of itself, `State.Guards` — how the actor uses it;
* `Orderly` — what a replay expects of a section of the journal.

Main results:

* `State.Ready.call` — guarded calls keep the state ready;
* `replayRecords_ready` — an orderly journal is replayed to its end;
* `expects_unreachable` — **no expectation of the voter fails** in any run.
-/

import Commonware.VoterParents

set_option autoImplicit false

namespace Commonware.Simplex.Voter

open List Option

variable {D Sig Cert PK : Type}

/-! ### A state that is ready -/

namespace Round

section

variable [DecidableEq D] {r r' : Round D Cert PK} {min v : ℕ} {c : Call D Sig Cert}

theorem Moves.leader (h : Moves min v r c r') (hv : c = .prune → min ≤ v)
    (hr : r.leader.isSome = true) : r'.leader.isSome = true := by
  cases h with
  | kept hk => exact hk.leader hr
  | dropped rnd hlt => exact absurd (hv rfl) (Nat.not_le_of_lt hlt)
  | notarized n =>
    unfold addNotarization
    split_ifs <;> exact hr
  | finalized n =>
    unfold addFinalization
    split_ifs <;> exact hr
  | handled | decided | replayed => exact hr

/-- A notarization stays, and comes with `addNotarization` only. -/
theorem Moves.notarization (h : Moves min v r c r') (hv : c = .prune → min ≤ v) :
    (r.notarization.isSome = true → r'.notarization.isSome = true) ∧
      (r'.notarization.isSome = true → r.notarization.isSome = true ∨
        ∃ n, c = .addNotarization n ∧ n.proposal.view = v) := by
  cases h with
  | kept hk =>
    rw [hk.notarization]
    exact ⟨id, .inl⟩
  | dropped rnd hlt => exact absurd (hv rfl) (Nat.not_le_of_lt hlt)
  | notarized n hn =>
    refine ⟨fun hr => ?_, fun _ => .inr ⟨n, rfl, hn⟩⟩
    unfold addNotarization
    split_ifs
    exact hr
  | finalized n =>
    unfold addFinalization
    split_ifs <;> exact ⟨id, .inl⟩
  | handled | decided | replayed => exact ⟨id, .inl⟩

/-- A certification result changes when it is recorded only. -/
theorem Moves.certified (h : Moves min v r c r') (hv : c = .prune → min ≤ v)
    (hc : ∀ b, c ≠ .certified v b) (hr : c.Direct) : r'.certified = r.certified := by
  cases h with
  | kept hk => exact hk.certified
  | dropped rnd hlt => exact absurd (hv rfl) (Nat.not_le_of_lt hlt)
  | notarized n =>
    unfold addNotarization
    split_ifs <;> rfl
  | finalized n =>
    unfold addFinalization
    split_ifs <;> rfl
  | handled => rfl
  | decided b => exact absurd rfl (hc b)
  | replayed rnd b => exact absurd rfl (hr rnd b)

/-- A certification runs for a round that is notarized and has no result. -/
def Asked (r : Round D Cert PK) : Prop :=
  r.certifyHandle = true → r.notarization.isSome = true ∧ r.certified = none

theorem Moves.asked (h : Moves min v r c r') (hr : r.Asked)
    (hc : c = .setCertifyHandle v → r.notarization.isSome = true ∧ r.certified = none) :
    r'.Asked := by
  intro hh
  cases h with
  | kept hk =>
    rw [hk.notarization, hk.certified]
    exact hr (hk.handle hh)
  | dropped => cases hh
  | notarized n =>
    unfold addNotarization at hh ⊢
    split_ifs at hh ⊢
    · exact hr hh
    · exact ⟨rfl, (hr hh).2⟩
  | finalized n =>
    unfold addFinalization at hh ⊢
    split_ifs at hh ⊢ <;> exact hr hh
  | handled => exact hc rfl
  | decided | replayed => cases hh

end

end Round

namespace State

/-- What the state expects of itself, when views from `min` on are active. -/
structure Ready (cfg : Config D Sig Cert PK) (min : ℕ) (st : State D Cert PK) : Prop
    extends st.Rooted cfg where
  behind : st.lastFinalized < st.view
  current : (st.roundAt cfg st.view).leader.isSome = true
  next : ∀ v, min ≤ v → (st.roundAt cfg v).notarization.isSome = true →
    (st.roundAt cfg (v + 1)).leader.isSome = true
  asked : ∀ v, (st.roundAt cfg v).Asked

/-- How the actor uses the state. -/
def Guards (cfg : Config D Sig Cert PK) (min : ℕ) (st : State D Cert PK) :
    Call D Sig Cert → Prop
  | .setCertifyHandle v => ∃ p, st.tryCertify v = .ready p
  | .certified v _ => min ≤ v
  | .replay (.certification rnd _) => (st.roundAt cfg rnd.view).notarization.isSome = true
  | .prune => st.minActive cfg ≤ min
  | _ => True

section

variable {cfg : Config D Sig Cert PK} {min : ℕ} {st st' : State D Cert PK}

theorem Ready.mono (h : st.Ready cfg min) {min' : ℕ} (hm : min ≤ min') : st.Ready cfg min' :=
  { h with next := fun v hv => h.next v (hm.trans hv) }

theorem Ready.exists_current (h : st.Ready cfg min) :
    ∃ r, st.views.get? st.view = some r ∧ r.leader.isSome = true := by
  have hl := h.current
  cases hr : st.views.get? st.view with
  | none => simp [roundAt, hr, Round.new] at hl
  | some r => exact ⟨r, rfl, roundAt_of_get? cfg hr ▸ hl⟩

theorem Ready.leaderIndex (h : st.Ready cfg min) : (st.leaderIndex st.view).isSome = true := by
  obtain ⟨r, hr, hl⟩ := h.exists_current
  rw [State.leaderIndex, hr]
  simpa using hl

theorem ready_setGenesis (cfg : Config D Sig Cert PK) (genesis : D) :
    ((State.new : State D Cert PK).setGenesis cfg genesis).Ready cfg 0 := by
  have hk : ∀ v, (State.new.roundAt cfg v).Kept ((State.new.setGenesis cfg genesis).roundAt cfg v) :=
    kept_setGenesis State.new genesis
  have hvw : ((State.new : State D Cert PK).setGenesis cfg genesis).view = genesisView + 1 := by
    simp [setGenesis, new]
  refine ⟨rooted_setGenesis cfg genesis, ?_, ?_, fun v _ hn => ?_, fun v hh => ?_⟩
  · simp [setGenesis, new]
  · rw [hvw]
    exact leader_setLeader _ _ _
  · rw [(hk v).notarization] at hn
    cases hn
  · cases (hk v).handle hh

variable {c : Call D Sig Cert}

/-- A view is entered with its leader set. -/
theorem Ready.leader_entered [DecidableEq D] (h : st.Ready cfg min)
    (hg : st.Guards cfg min c) (hc : st.call cfg c = .ok st') (hlt : 0 < st.entered c) :
    (st'.roundAt cfg (st.entered c)).leader.isSome = true := by
  cases c with
  | setGenesis genesis => cases hc; exact leader_setLeader _ _ _
  | addNullification n =>
    cases hc
    simp only [addNullification, entered, roundAt_setRound, if_neg (Nat.succ_ne_self n.round.view)]
    exact leader_setLeader _ _ _
  | addFinalization n =>
    cases hc
    simp only [addFinalization, entered, roundAt_setRound,
      if_neg (Nat.succ_ne_self n.proposal.view)]
    exact leader_setLeader _ _ _
  | certified v isSuccess =>
    cases isSuccess with
    | false => exact absurd hlt (Nat.lt_irrefl 0)
    | true =>
      obtain ⟨x, hx, rfl⟩ := map_eq_ok.1 hc
      rcases certified_ok hx with ⟨⟨hr, -⟩, -⟩ | ⟨r, hr, hn, -⟩
      · simp [entered, hr] at hlt
      · have hnx := h.next v hg (by rwa [roundAt_of_get? cfg hr])
        have hl := (call_moves hc (v + 1)).leader (by simp) hnx
        simpa [entered, hr] using hl
  | _ => exact absurd hlt (Nat.lt_irrefl 0)

/-- **Guarded calls keep the state ready.** -/
theorem Ready.call [DecidableEq D] (h : st.Ready cfg min)
    (hg : st.Guards cfg min c) (hc : st.call cfg c = .ok st') : st'.Ready cfg min := by
  obtain ⟨-, hlf, hvw⟩ := call_frame hc
  have hm : st.minActive cfg ≤ st.lastFinalized := minActive_le _ _
  refine ⟨h.toRooted.call (fun rnd b he => by subst he; exact hg) hc, ?_, ?_, fun v hv hn => ?_,
    fun v => ?_⟩
  · rw [hlf, hvw]
    have := h.behind
    rcases finalized_lt_entered st c with h₀ | h₀ <;> omega
  · rcases Nat.lt_or_ge st.view (st.entered c) with hlt | hge
    · rw [hvw, max_eq_right hlt.le]
      exact h.leader_entered hg hc (Nat.zero_lt_of_lt hlt)
    · rw [hvw, max_eq_left hge]
      exact (call_moves hc _).leader (fun _ => hm.trans h.behind.le) h.current
  · have hprune : c = .prune → st.minActive cfg ≤ v := by
      rintro rfl
      exact le_trans hg hv
    rcases ((call_moves hc v).notarization hprune).2 hn with hn | ⟨n, rfl, rfl⟩
    · exact (call_moves hc (v + 1)).leader (fun hp => (hprune hp).trans (Nat.le_succ v))
        (h.next v hv hn)
    · -- the leader of the next view is set before the notarization is kept
      cases hc
      simp only [addNotarization, roundAt_setRound, if_neg (Nat.succ_ne_self n.proposal.view)]
      exact leader_setLeader _ _ _
  · refine (call_moves hc v).asked (h.asked v) ?_
    rintro rfl
    obtain ⟨p, hp⟩ := hg
    exact ⟨(ready_of_tryCertify cfg hp).1, (ready_of_tryCertify cfg hp).2.1⟩

theorem Ready.tryPropose (h : st.Ready cfg min) : ∃ x, st.tryPropose cfg = .ok x := by
  obtain ⟨r, hr, -⟩ := h.exists_current
  obtain ⟨d₀, hd₀⟩ := h.isCertified_lastFinalized
  unfold State.tryPropose
  rw [hr]
  split_ifs
  · exact ⟨_, rfl⟩
  · dsimp only
    split_ifs
    · exact ⟨_, rfl⟩
    · rcases findParentFrom_stops h.isCertified hd₀ (Nat.le_sub_one_of_lt h.behind) with
        ⟨p, d, hp, -⟩ | ⟨m, hm, -⟩
      · rw [findParent, hp]
        exact ⟨_, rfl⟩
      · rw [findParent, hm]
        exact ⟨_, rfl⟩

theorem Ready.tryVerify (h : st.Ready cfg min) : ∃ x, st.tryVerify cfg = .ok x := by
  have hp : ∀ q : Proposal D, ∃ x, st.parentPayload q = .ok x := by
    intro q
    unfold parentPayload
    split_ifs
    · exact ⟨_, rfl⟩
    · exact ⟨_, rfl⟩
    · exact ⟨_, rfl⟩
    · exact h.isCertified _
  obtain ⟨r, hr, -⟩ := h.exists_current
  unfold State.tryVerify
  rw [hr]
  dsimp only
  split
  · exact ⟨_, rfl⟩
  · next leader q _ =>
      obtain ⟨x, hx⟩ := hp q
      rw [hx]
      cases x <;> exact ⟨_, rfl⟩

/-- A result is recorded for a notarized round that has no other one. -/
theorem exists_certified (cfg : Config D Sig Cert PK) (st : State D Cert PK) {v : ℕ} {b : Bool}
    (hn : (st.roundAt cfg v).notarization.isSome = true)
    (hc : (st.roundAt cfg v).certified = none ∨ (st.roundAt cfg v).certified = some b) :
    ∃ x, st.certified cfg v b = .ok x := by
  unfold State.certified
  cases hr : st.views.get? v with
  | none => exact ⟨_, rfl⟩
  | some r =>
    rw [roundAt_of_get? cfg hr] at hn hc
    obtain ⟨n, hn⟩ := isSome_iff_exists.1 hn
    simp only [Round.setCertified, if_pos hc, hn]
    exact ⟨_, rfl⟩

end

end State

open State

/-! ### Replaying a journal -/

/-- What the replay of the record `a` expects of the records `l` before it. -/
structure Fits (me : Option ℕ) (l : List (Artifact D Sig Cert)) (a : Artifact D Sig Cert) :
    Prop where
  signed : ∀ vote : Vote D Sig, a = vote.artifact → me = some vote.signer
  notarized : ∀ rnd b, a = .certification rnd b →
    ∃ c, .notarization c ∈ l ∧ c.proposal.view = rnd.view
  agreed : ∀ rnd b, a = .certification rnd b → ∀ rnd' b', .certification rnd' b' ∈ l →
    rnd'.view = rnd.view → b' = b

/-- Every record fits the ones before it. -/
def Orderly (me : Option ℕ) (l : List (Artifact D Sig Cert)) : Prop :=
  ∀ l' a, l' ++ [a] <+: l → Fits me l' a

variable {a : Artifact D Sig Cert} {me : Option ℕ}

theorem Orderly.snoc {l : List (Artifact D Sig Cert)}
    (h : Orderly me l) (ha : Fits me l a) : Orderly me (l ++ [a]) := by
  intro l' b hl
  rcases prefix_concat_iff.1 hl with heq | hl
  · obtain ⟨rfl, hb⟩ := append_inj' heq rfl
    cases hb
    exact ha
  · exact h l' b hl

variable {j : Journal D Sig Cert}

/-- The records are replayed section by section. -/
theorem orderly_records
    (hk : ∀ v, ∀ a ∈ j.sec v, a.view = v) (h : ∀ v, Orderly me (j.sec v)) :
    Orderly me j.records := by
  intro l a hl
  have ha := h a.view (atView l a.view) a (prefix_sec hk hl)
  refine ⟨ha.signed, fun rnd b he => ?_, fun rnd b he rnd' b' hb hv => ?_⟩
  · obtain ⟨c, hc, hv⟩ := ha.notarized rnd b he
    exact ⟨c, mem_of_mem_filter hc, hv⟩
  · subst he
    exact ha.agreed rnd b rfl rnd' b' (mem_filter.2 ⟨hb, decide_eq_true hv⟩) hv

/-- The state after the records `l`: it is ready, and has the notarizations and the certification
results of `l`. -/
structure Replayed (cfg : Config D Sig Cert PK) (l : List (Artifact D Sig Cert))
    (st : State D Cert PK) : Prop extends st.Ready cfg 0 where
  notarized : ∀ c, .notarization c ∈ l →
    (st.roundAt cfg c.proposal.view).notarization.isSome = true
  recorded : ∀ rnd b, .certification rnd b ∈ l → (st.roundAt cfg rnd.view).certified = some b
  known : ∀ v b, (st.roundAt cfg v).certified = some b →
    ∃ rnd, .certification rnd b ∈ l ∧ rnd.view = v

section

variable {cfg : Config D Sig Cert PK} {l : List (Artifact D Sig Cert)} {a : Artifact D Sig Cert}
  {st st' : State D Cert PK}

theorem Replayed.snoc (h : Replayed cfg l st) (hc : ∀ rnd b, a ≠ .certification rnd b)
    (hn : ∀ c, a = .notarization c →
      (st.roundAt cfg c.proposal.view).notarization.isSome = true) : Replayed cfg (l ++ [a]) st := by
  refine ⟨h.toReady, fun c hm => ?_, fun rnd b hm => ?_, fun v b hb => ?_⟩
  · rcases mem_append.1 hm with hm | hm
    · exact h.notarized c hm
    · exact hn c (mem_singleton.1 hm).symm
  · rcases mem_append.1 hm with hm | hm
    · exact h.recorded rnd b hm
    · exact absurd (mem_singleton.1 hm).symm (hc rnd b)
  · obtain ⟨rnd, hm, hv⟩ := h.known v b hb
    exact ⟨rnd, mem_append_left _ hm, hv⟩

theorem exists_replay (st : State D Cert PK) (ha : Fits cfg.scheme.me l a)
    (hc : ∀ rnd b, a = .certification rnd b → (st.roundAt cfg rnd.view).certified = none ∨
      (st.roundAt cfg rnd.view).certified = some b) : ∃ st', st.replay cfg a = .ok st' := by
  have hrn : ∃ r, (st.roundAt cfg a.view).replay cfg.scheme.me a = .ok r := by
    cases a with
    | notarize x =>
      exact ⟨_, if_pos (decide_eq_true (ha.signed (.notarize x) rfl))⟩
    | nullify x => exact ⟨_, if_pos (decide_eq_true (ha.signed (.nullify x) rfl))⟩
    | finalize x => exact ⟨_, if_pos (decide_eq_true (ha.signed (.finalize x) rfl))⟩
    | notarization | nullification | finalization => exact ⟨_, rfl⟩
    | certification rnd b => exact ⟨_, if_pos (hc rnd b rfl)⟩
  obtain ⟨r, hr⟩ := hrn
  exact ⟨st.setRound a.view r, by rw [replay, hr]; rfl⟩

variable [DecidableEq D]

/-- A call that neither drops rounds nor decides on a certification. -/
theorem Replayed.call {c : Call D Sig Cert} (h : Replayed cfg l st) (hg : st.Guards cfg 0 c)
    (hd : c.Direct) (hp : c ≠ .prune) (hv : ∀ v b, c ≠ .certified v b)
    (hc : st.call cfg c = .ok st') : Replayed cfg l st' := by
  have hcr : ∀ v, (st'.roundAt cfg v).certified = (st.roundAt cfg v).certified := fun v =>
    (call_moves hc v).certified (fun he => absurd he hp) (hv v) hd
  refine ⟨h.toReady.call hg hc, fun c' hm => ?_, fun rnd b hm => ?_, fun v b hb => ?_⟩
  · exact ((call_moves hc _).notarization fun he => absurd he hp).1 (h.notarized c' hm)
  · rw [hcr]
    exact h.recorded rnd b hm
  · exact h.known v b (hcr v ▸ hb)

/-- A certification result is recorded twice, by the replay and by the handler. -/
theorem Replayed.certification {rnd : Rnd} {b : Bool} (h : Replayed cfg l st)
    (ha : Fits cfg.scheme.me l (.certification rnd b)) :
    ∃ st', replayRecord cfg st (.certification rnd b) = .ok st' ∧
      Replayed cfg (l ++ [.certification rnd b]) st' := by
  have hn : (st.roundAt cfg rnd.view).notarization.isSome = true := by
    obtain ⟨c, hc, hv⟩ := ha.notarized rnd b rfl
    exact hv ▸ h.notarized c hc
  have hb : (st.roundAt cfg rnd.view).certified = none ∨
      (st.roundAt cfg rnd.view).certified = some b := by
    cases hcr : (st.roundAt cfg rnd.view).certified with
    | none => exact .inl rfl
    | some b' =>
      obtain ⟨rnd', hm, hv⟩ := h.known _ _ hcr
      exact .inr (congrArg some (ha.agreed rnd b rfl rnd' b' hm hv))
  obtain ⟨st₁, h₁⟩ := exists_replay st ha (by rintro rnd' b' ⟨⟩; exact hb)
  obtain ⟨r, hr, hst₁⟩ := replay_ok h₁
  obtain rfl := Round.setCertified_ok hr
  have hrn : ∀ v, (st₁.roundAt cfg v) =
      if v = rnd.view then (st.roundAt cfg rnd.view).decided b else st.roundAt cfg v := fun v =>
    hst₁ ▸ roundAt_setRound cfg st rnd.view v _
  have hrd₁ : st₁.Ready cfg 0 := h.toReady.call (c := .replay (.certification rnd b)) hn h₁
  have hsl := hrn rnd.view
  rw [if_pos rfl] at hsl
  obtain ⟨⟨x, st₂⟩, h₂⟩ := exists_certified cfg st₁ (v := rnd.view) (b := b)
    (by rw [hsl]; exact hn) (.inr (by rw [hsl]; rfl))
  have hcl : st₁.call cfg (.certified rnd.view b) = .ok st₂ := map_eq_ok.2 ⟨_, h₂, rfl⟩
  have hcr : ∀ v, (st₂.roundAt cfg v).certified =
      if v = rnd.view then some b else (st.roundAt cfg v).certified := by
    intro v
    have hv : (st₁.roundAt cfg v).certified =
        if v = rnd.view then some b else (st.roundAt cfg v).certified := by
      rw [hrn v]
      split_ifs <;> rfl
    generalize hr₂ : st₂.roundAt cfg v = r₂
    cases hr₂ ▸ call_moves hcl v with
    | kept hk => exact hk.certified.trans hv
    | decided => exact (if_pos rfl).symm
  have hnt : ∀ v, (st.roundAt cfg v).notarization.isSome = true →
      (st₂.roundAt cfg v).notarization.isSome = true := fun v hv =>
    ((call_moves hcl v).notarization (by simp)).1
      (((call_moves (c := .replay (.certification rnd b)) h₁ v).notarization (by simp)).1 hv)
  refine ⟨st₂, by rw [replayRecord, h₁]; dsimp only; rw [h₂],
    hrd₁.call (c := .certified rnd.view b) (Nat.zero_le _) hcl,
    fun c hm => ?_, fun rnd' b' hm => ?_, fun v b' hv => ?_⟩
  · exact hnt _ (h.notarized c (by simpa using hm))
  · rw [hcr]
    rcases mem_append.1 hm with hm | hm
    · split_ifs with hv
      · rw [ha.agreed rnd b rfl rnd' b' hm hv]
      · exact h.recorded rnd' b' hm
    · cases mem_singleton.1 hm
      exact if_pos rfl
  · rw [hcr] at hv
    split_ifs at hv with he
    · cases hv
      exact ⟨rnd, by simp, he.symm⟩
    · obtain ⟨rnd', hm, hv'⟩ := h.known v b' hv
      exact ⟨rnd', mem_append_left _ hm, hv'⟩

theorem replayRecord_ready (h : Replayed cfg l st) (ha : Fits cfg.scheme.me l a) :
    ∃ st', replayRecord cfg st a = .ok st' ∧ Replayed cfg (l ++ [a]) st' := by
  by_cases hcr : ∃ rnd b, a = .certification rnd b
  · obtain ⟨rnd, b, rfl⟩ := hcr
    exact h.certification ha
  have hno : ∀ rnd b, a ≠ .certification rnd b := fun rnd b he => hcr ⟨rnd, b, he⟩
  obtain ⟨st₁, h₁⟩ := exists_replay st ha fun rnd b he => absurd he (hno rnd b)
  have hg : st.Guards cfg 0 (.replay a) := by
    cases a with
    | certification rnd b => exact absurd rfl (hno rnd b)
    | _ => trivial
  have hr₁ : Replayed cfg l st₁ := h.call (c := .replay a) hg
    (fun rnd b he => by cases he; exact hno rnd b rfl) (by simp) (by simp) h₁
  cases a with
  | certification rnd b => exact absurd rfl (hno rnd b)
  | notarize x | nullify x | finalize x =>
    exact ⟨st₁, by rw [replayRecord, h₁], hr₁.snoc hno (by simp)⟩
  | notarization c =>
    have hr₂ := hr₁.call (c := .addNotarization c) trivial (by simp [Call.Direct]) (by simp)
      (by simp) rfl
    refine ⟨_, by rw [replayRecord, h₁], hr₂.snoc hno ?_⟩
    rintro c' ⟨⟩
    rw [(adds_notarization _ _).self]
    unfold Round.addNotarization
    split_ifs with hs
    · exact hs
    · rfl
  | nullification c =>
    have hr₂ := hr₁.call (c := .addNullification c) trivial (by simp [Call.Direct]) (by simp)
      (by simp) rfl
    exact ⟨_, by rw [replayRecord, h₁], hr₂.snoc hno (by simp)⟩
  | finalization c =>
    have hr₂ := hr₁.call (c := .addFinalization c) trivial (by simp [Call.Direct]) (by simp)
      (by simp) rfl
    exact ⟨_, by rw [replayRecord, h₁], hr₂.snoc hno (by simp)⟩

theorem replayRecords_ready : ∀ {l₀ : List (Artifact D Sig Cert)} {st : State D Cert PK},
    Replayed cfg l₀ st → Orderly cfg.scheme.me (l₀ ++ l) →
      ∃ st', replayRecords cfg st l = .ok st' ∧ Replayed cfg (l₀ ++ l) st' := by
  induction l with
  | nil =>
    intro l₀ st h _
    exact ⟨st, rfl, by rwa [append_nil]⟩
  | cons a l ih =>
    intro l₀ st h ho
    have hsp : l₀ ++ a :: l = l₀ ++ [a] ++ l := by simp
    obtain ⟨st₁, h₁, hr₁⟩ := replayRecord_ready h (ho l₀ a ⟨l, hsp.symm⟩)
    obtain ⟨st', h', hr'⟩ := ih hr₁ (hsp ▸ ho)
    exact ⟨st', by rw [replayRecords, h₁]; exact h', hsp ▸ hr'⟩

/-- **An orderly journal is replayed to its end.** -/
theorem recover_ready (hk : ∀ v, ∀ a ∈ j.sec v, a.view = v)
    (ho : ∀ v, Orderly cfg.scheme.me (j.sec v)) :
    ∃ m, recover cfg j = .ok m ∧ Replayed cfg j.records m.state := by
  have h₀ : Replayed cfg [] (new.setGenesis cfg cfg.genesis) := by
    refine ⟨ready_setGenesis cfg cfg.genesis, by simp, by simp, fun v b hb => ?_⟩
    rw [(kept_setGenesis new cfg.genesis v).certified] at hb
    cases hb
  obtain ⟨st, hst, hr⟩ := replayRecords_ready h₀ (l := j.records) (orderly_records hk ho)
  have hr' : Replayed cfg j.records (st.expireRound cfg st.view) :=
    hr.call (c := .expireRound st.view) trivial (by simp [Call.Direct]) (by simp) (by simp) rfl
  refine ⟨⟨st.expireRound cfg st.view, none⟩, ?_, hr'⟩
  have hl := hr'.leaderIndex
  rw [recover, hst]
  dsimp only
  rw [if_neg]
  rw [isNone_iff_eq_none]
  exact isSome_iff_ne_none.1 hl

end

/-! ### The running actor -/

/-- The records among the effects of an operation. -/
def recorded (effects : List (Effect D Sig Cert)) : List (Artifact D Sig Cert) :=
  effects.filterMap fun
    | .append a => some a
    | _ => none

/-- The records an operation may write: its own votes, certificates, and its certification result. -/
inductive Writes (cfg : Config D Sig Cert PK) (m : Memory D Cert PK) :
    Op D Cert → Artifact D Sig Cert → Prop
  | vote {op : Op D Cert} (vote : Vote D Sig) (h : cfg.scheme.me = some vote.signer) :
      Writes cfg m op vote.artifact
  | certificate {op : Op D Cert} {a : Artifact D Sig Cert}
      (hv : ∀ vote : Vote D Sig, a ≠ vote.artifact) (hc : ∀ rnd b, a ≠ .certification rnd b) :
      Writes cfg m op a
  | verdict (v : ℕ) (b : Bool) (h : m.state.views.get? v ≠ none) :
      Writes cfg m (.certified v b) (.certification ⟨cfg.epoch, v⟩ b)

section

variable {cfg : Config D Sig Cert PK} {m m' : Memory D Cert PK} {op : Op D Cert}
  {effects : List (Effect D Sig Cert)} {c : Call D Sig Cert}

/-- The actor guards its calls. -/
theorem guards_of_enabled (hen : Enabled cfg m op)
    (hc : op.call m = some c) : m.state.Guards cfg (m.state.minActive cfg) c := by
  cases op with
  | certified v b =>
    cases hc
    exact isInteresting_active hen.1
  | prune => cases hc; exact le_rfl
  | tryCertify v =>
    simp only [Op.call] at hc
    split at hc
    · next p hp => cases hc; exact ⟨p, hp⟩
    · cases hc
    · cases hc
  | proposed payload =>
    obtain ⟨ctx, -, rfl⟩ := map_eq_some_iff.1 hc
    trivial
  | _ => cases hc; trivial

/-- An operation does not drop rounds of active views, and decides on a view in one way only. -/
theorem call_of_op (hc : op.call m = some c) :
    c.Direct ∧ ∀ v b, c = .certified v b → op = .certified v b := by
  cases op with
  | tryCertify v =>
    simp only [Op.call] at hc
    split at hc <;> cases hc
    exact ⟨by simp [Call.Direct], by simp⟩
  | proposed payload =>
    obtain ⟨ctx, -, rfl⟩ := map_eq_some_iff.1 hc
    exact ⟨by simp [Call.Direct], by simp⟩
  | certified v b =>
    cases hc
    exact ⟨by simp [Call.Direct], by simp⟩
  | _ => cases hc; exact ⟨by simp [Call.Direct], by simp⟩

variable [DecidableEq D]

theorem exec_writes (h : exec cfg m op = .ok (m', effects)) :
    recorded effects = [] ∨ ∃ a, recorded effects = [a] ∧ Writes cfg m op a := by
  have hcr : ∀ (l : List (Effect D Sig Cert)) (c : Option (Certificate D Cert)),
      recorded (l ++ (c.map Effect.sendCertificate).toList) = recorded l := by
    intro l c
    rw [recorded, filterMap_append]
    cases c <;> exact append_nil _
  cases exec_emits h with
  | silent => exact .inl rfl
  | notarize v _ hx => exact .inr ⟨_, rfl, .vote (.notarize _) (sign_notarize hx).2⟩
  | finalize v _ hx => exact .inr ⟨_, rfl, .vote (.finalize _) (sign_finalize hx).2⟩
  | nullify c hx => exact .inr ⟨_, hcr _ c, .vote (.nullify _) (sign_nullify hx).2⟩
  | retry x c => exact .inl (hcr [_, _] c)
  | entry c => exact .inl (hcr [] c)
  | notarization c | finalization c =>
    exact .inr ⟨_, rfl, .certificate (by rintro ⟨⟩ <;> simp [Vote.artifact]) (by simp)⟩
  | nullification c floor =>
    exact .inr ⟨_, hcr [_] floor,
      .certificate (by rintro ⟨⟩ <;> simp [Vote.artifact]) (by simp)⟩
  | certified v b hv => exact .inr ⟨_, rfl, .verdict v b hv⟩
  | certificate | pruned => exact .inl rfl

/-- **An operation that the actor issues does not fail.** -/
theorem State.Ready.exists_exec {min : ℕ} (h : m.state.Ready cfg min) (hen : Enabled cfg m op) :
    ∃ x, exec cfg m op = .ok x := by
  refine Voter.exists_exec fun c hc => ?_
  cases c with
  | tryVerify =>
    obtain ⟨x, hx⟩ := h.tryVerify
    exact ⟨x.2, map_eq_ok.2 ⟨x, hx, rfl⟩⟩
  | tryPropose =>
    obtain ⟨x, hx⟩ := h.tryPropose
    exact ⟨x.2, map_eq_ok.2 ⟨x, hx, rfl⟩⟩
  | certified v b =>
    obtain rfl := (call_of_op hc).2 v b rfl
    obtain ⟨hn, hcr⟩ := h.asked v hen.2
    obtain ⟨x, hx⟩ := exists_certified cfg m.state (b := b) hn (.inl hcr)
    exact ⟨x.2, map_eq_ok.2 ⟨x, hx, rfl⟩⟩
  | replay a =>
    exfalso
    cases op with
    | tryCertify v =>
      simp only [Op.call] at hc
      split at hc <;> cases hc
    | proposed payload =>
      obtain ⟨ctx, -, he⟩ := map_eq_some_iff.1 hc
      cases he
    | _ => cases hc
  | _ => exact ⟨_, rfl⟩

end

/-! ### Runs -/

/-- The journal is orderly and, while the actor is up, its state is ready and has the certification
results of the active views. -/
structure Meets (cfg : Config D Sig Cert PK) (n : Node D Sig Cert PK) : Prop where
  orderly : ∀ v, Orderly cfg.scheme.me (n.journal.sec v)
  ready : ∀ m, n.memory = some m → m.state.Ready cfg (m.state.minActive cfg)
  recorded : ∀ m, n.memory = some m → ∀ v rnd b, m.state.minActive cfg ≤ v →
    .certification rnd b ∈ n.journal.sec v → (m.state.roundAt cfg v).certified = some b

section

variable {cfg : Config D Sig Cert PK} {n n' : Node D Sig Cert PK} {m m' : Memory D Cert PK}
  {op : Op D Cert} {effects : List (Effect D Sig Cert)}

theorem sec_applyAll (n : Node D Sig Cert PK) (effects : List (Effect D Sig Cert)) (v : ℕ) :
    (n.applyAll effects).journal.sec v = n.journal.sec v ++ atView (recorded effects) v := by
  induction effects generalizing n with
  | nil => exact (append_nil _).symm
  | cons e effects ih =>
    rw [Node.applyAll, foldl_cons, ← Node.applyAll, ih]
    cases e with
    | append a =>
      change (n.journal.append a).sec v ++ _ = _ ++ List.filter _ (a :: recorded effects)
      rw [Journal.sec_append, filter_cons]
      by_cases hv : v = a.view
      · simp [hv, atView]
      · simp [hv, Ne.symm hv, atView]
    | _ => rfl

variable {effects' : List (Effect D Sig Cert)}

/-- A section after a record at most, which is the one an operation writes. -/
theorem sec_writes (hp : effects' <+: effects)
    (hw : recorded effects = [] ∨ ∃ a, recorded effects = [a] ∧ Writes cfg m op a) (v : ℕ) :
    (n.applyAll effects').journal.sec v = n.journal.sec v ∨ ∃ a, a.view = v ∧ Writes cfg m op a ∧
        (n.applyAll effects').journal.sec v = n.journal.sec v ++ [a] := by
  have hs : recorded effects' <+: recorded effects := hp.filterMap _
  rw [sec_applyAll]
  rcases hw with hw | ⟨a, hw, ha⟩
  · rw [hw, prefix_nil] at hs
    rw [hs]
    exact .inl (append_nil _)
  · rw [hw, ← nil_append [a]] at hs
    rcases prefix_concat_iff.1 hs with he | he
    · rw [he]
      by_cases hv : a.view = v
      · exact .inr ⟨a, hv, ha, by simp [atView, hv]⟩
      · exact .inl (by simp [atView, hv])
    · rw [prefix_nil.1 he]
      exact .inl (append_nil _)

/-- The record that an operation writes fits its section. -/
theorem Meets.fits (h : Meets cfg n) (hi : Inv cfg n) (hm : n.memory = some m)
    (hen : Enabled cfg m op) (hw : Writes cfg m op a) :
    Fits cfg.scheme.me (n.journal.sec a.view) a := by
  cases hw with
  | vote vote hs =>
    refine ⟨fun x hx => ?_, fun rnd b he => ?_, fun rnd b he => ?_⟩
    · obtain rfl : vote = x := by
        cases vote <;> cases x <;> simp_all [Vote.artifact]
      exact hs
    · cases vote <;> cases he
    · cases vote <;> cases he
  | certificate hv hc =>
    exact ⟨fun x hx => absurd hx (hv x), fun rnd b he => absurd he (hc rnd b),
      fun rnd b he => absurd he (hc rnd b)⟩
  | verdict v b =>
    have ha : m.state.minActive cfg ≤ v := isInteresting_active hen.1
    obtain ⟨hn, hcr⟩ := (h.ready m hm).asked v hen.2
    refine ⟨fun x hx => ?_, fun rnd b' he => ?_, fun rnd b' _ rnd' b'' hr _ => ?_⟩
    · cases x <;> cases hx
    · cases he
      obtain ⟨c, hc⟩ := ((hi.live m hm).follows v ha).notarization.1 hn
      exact ⟨c, hc, hi.disk.keyed v _ hc⟩
    · -- a result on record would be known to the round
      rw [h.recorded m hm v rnd' b'' ha hr] at hcr
      cases hcr

variable [DecidableEq D]

theorem Meets.orderly_of_prefix (h : Meets cfg n) (hi : Inv cfg n) (hm : n.memory = some m)
    (hen : Enabled cfg m op) (hex : exec cfg m op = .ok (m', effects))
    (hp : effects' <+: effects) (v : ℕ) :
    Orderly cfg.scheme.me ((n.applyAll effects').journal.sec v) := by
  rcases sec_writes (n := n) hp (exec_writes hex) v with hs | ⟨a, rfl, hw, hs⟩
  · rw [hs]
    exact h.orderly v
  · rw [hs]
    exact (h.orderly _).snoc (h.fits hi hm hen hw)

/-- The certification results on record stay known to the rounds of active views. -/
theorem Meets.recorded_op (h : Meets cfg n) (hm : n.memory = some m) (hen : Enabled cfg m op)
    (hex : exec cfg m op = .ok (m', effects)) (hac : m.state.minActive cfg ≤ m'.state.minActive cfg)
    {v : ℕ} {rnd : Rnd} {b : Bool} (hv : m'.state.minActive cfg ≤ v)
    (hr : .certification rnd b ∈ (n.applyAll effects).journal.sec v) :
    (m'.state.roundAt cfg v).certified = some b := by
  have hol : .certification rnd b ∈ n.journal.sec v → (m'.state.roundAt cfg v).certified = some b := by
    intro hr
    have hcr := h.recorded m hm v rnd b (hac.trans hv) hr
    rcases exec_call hex with ⟨-, hst⟩ | ⟨c, hc, hst⟩
    · rwa [hst]
    · rw [(call_moves hst v).certified (fun _ => hac.trans hv) ?_ (call_of_op hc).1]
      · exact hcr
      · -- the round of a view that has a result is not asked again
        rintro b' rfl
        obtain rfl := (call_of_op hc).2 v b' rfl
        rw [((h.ready m hm).asked v hen.2).2] at hcr
        cases hcr
  rcases sec_writes (n := n) (prefix_refl effects) (exec_writes hex) v with
    hs | ⟨a, rfl, hw, hs⟩
  · exact hol (hs ▸ hr)
  · rw [hs] at hr
    rcases mem_append.1 hr with hr | hr
    · exact hol hr
    · obtain rfl := mem_singleton.1 hr
      generalize ha : (Artifact.certification rnd b : Artifact D Sig Cert) = a at hw
      cases hw with
      | vote vote => cases vote <;> cases ha
      | certificate _ hc => exact absurd ha.symm (hc rnd b)
      | verdict u b' hu =>
        cases ha
        rcases exec_call hex with ⟨hc, -⟩ | ⟨c, hc, hst⟩
        · cases hc
        · cases hc
          obtain ⟨x, hx, hxs⟩ := map_eq_ok.1 hst
          rcases certified_ok hx with ⟨⟨hr, -⟩, -⟩ | ⟨r, hr, -, -, hst'⟩
          · exact absurd hr hu
          · rw [← hxs, roundAt_certified hst']
            change (if u = u then _ else _ : Round D Cert PK).certified = some b
            rw [if_pos rfl]
            rfl

theorem Meets.step (h : Meets cfg n) (hi : Inv cfg n) {label : Option (Op D Cert)}
    (hs : n.Step cfg label n') : Meets cfg n' := by
  cases hs with
  | @op m m' op effects hm hen hex =>
    have hrd : m'.state.Ready cfg (m.state.minActive cfg) ∧
        m.state.minActive cfg ≤ m'.state.minActive cfg := by
      rcases exec_call hex with ⟨-, hst⟩ | ⟨c, hc, hst⟩
      · rw [hst]
        exact ⟨h.ready m hm, le_rfl⟩
      · refine ⟨(h.ready m hm).call (guards_of_enabled hen hc) hst, minActive_mono _ ?_⟩
        rw [(call_frame hst).2.1]
        exact le_max_left _ _
    refine ⟨h.orderly_of_prefix hi hm hen hex (prefix_refl _), ?_, ?_⟩
    · rintro _ ⟨⟩
      exact hrd.1.mono hrd.2
    · rintro _ ⟨⟩ v rnd b hv hr
      exact h.recorded_op hm hen hex hrd.2 hv hr
  | @cut m m' op effects k hm hen hex =>
    exact ⟨h.orderly_of_prefix hi hm hen hex ( take_prefix k effects), by simp, by simp⟩
  | crash => exact ⟨h.orderly, by simp, by simp⟩
  | @restart m j hm hj hrc =>
    have hk : ∀ v, ∀ a ∈ j.sec v, a.view = v := fun v a ha =>
      hi.disk.keyed v a ((hj.isPrefix v).subset ha)
    have ho : ∀ v, Orderly cfg.scheme.me (j.sec v) := fun v l a hl =>
      h.orderly v l a (hl.trans (hj.isPrefix v))
    obtain ⟨m₁, h₁, hr₁⟩ := recover_ready hk ho
    obtain rfl := Except.ok.inj (h₁.symm.trans hrc)
    refine ⟨ho, ?_, ?_⟩
    · rintro _ ⟨⟩
      exact hr₁.toReady.mono (Nat.zero_le _)
    · rintro _ ⟨⟩ v rnd b - hr
      obtain rfl : rnd.view = v := hk v _ hr
      refine hr₁.recorded rnd b ?_
      rw [← atView_records j hk] at hr
      exact mem_of_mem_filter hr

theorem meets_of_reachable (h : n.Reachable cfg) : Meets cfg n := by
  induction h with
  | init =>
    refine ⟨fun v l a hl => ?_, by simp [Node.init], by simp [Node.init]⟩
    simp [Node.init] at hl
  | step hr hs ih => exact ih.step (inv_of_reachable hr) hs

/-- **No expectation of the voter fails.**  Whatever the actor has done, its state is ahead of the
last finalized view, has a round with a leader for the current view, proposals in finalized and
certified rounds and notarizations in those with a certification result; no operation that the actor
may issue fails; and the journal that any crash leaves is replayed to its end. -/
theorem expects_unreachable (h : n.Reachable cfg) : (∀ m, n.memory = some m →
      m.state.lastFinalized < m.state.view ∧
      (∃ r, m.state.views.get? m.state.view = some r ∧ r.leader.isSome = true) ∧
      (m.state.leaderIndex m.state.view).isSome = true ∧ (∀ v r, m.state.views.get? v = some r →
        (r.finalization.isSome = true ∨ r.certified = some true →
          r.proposal.proposal.isSome = true) ∧
        (r.certified.isSome = true → r.notarization.isSome = true)) ∧
      ∀ op : Op D Cert, Enabled cfg m op → ∃ m' effects, exec cfg m op = .ok (m', effects)) ∧
    ∀ j, n.Survives j → ∃ m, recover cfg j = .ok m := by
  have hmt := meets_of_reachable h
  refine ⟨fun m hm => ?_, fun j hj => ?_⟩
  · have hr := hmt.ready m hm
    refine ⟨hr.behind, hr.exists_current, hr.leaderIndex, fun v r hv => ?_, fun op hen => ?_⟩
    · have hs := roundAt_of_get? cfg hv ▸ hr.sound v
      refine ⟨fun hc => isSome_iff_ne_none.2 (hs.proposal ?_), hs.certified⟩
      rcases hc with hf | hc
      · exact .inr hf
      · exact .inl (hs.certified (by rw [hc]; rfl))
    · obtain ⟨⟨m', effects⟩, hx⟩ := hr.exists_exec hen
      exact ⟨m', effects, hx⟩
  · have hi := inv_of_reachable h
    obtain ⟨m, hm, -⟩ := recover_ready (j := j)
      (fun v a ha => hi.disk.keyed v a ((hj.isPrefix v).subset ha))
      (fun v l a hl => hmt.orderly v l a (hl.trans (hj.isPrefix v)))
    exact ⟨m, hm⟩

end

theorem expects_unreachable_solo : soloRestarted.Reachable solo ∧
      (∃ m, soloRestarted.memory = some m ∧ m.state.view = 2 ∧
        (m.state.leaderIndex m.state.view).isSome = true) ∧
      ∃ m, recover solo soloRestarted.journal = .ok m := by
  obtain ⟨hlv, hr⟩ := expects_unreachable soloRestarted_reachable
  refine ⟨soloRestarted_reachable, ⟨_, rfl, by decide, (hlv _ rfl).2.2.1⟩,
    hr _ (inv_of_reachable soloRestarted_reachable).disk.survives⟩

end Commonware.Simplex.Voter
