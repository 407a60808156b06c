/-
**The votes of one voter, across crashes.**

A voter that starts from a journal replays its records, section by section.  The rounds it rebuilds
know what the sections say, so the invariant of a running voter holds again, whatever the crash left
of the journal.  With that, every run of a voter is disciplined.

Main definitions:

* `atView` — the records of a view among the records replayed so far;
* `Restored` — the rounds know what the records replayed so far say.

Main results:

* `replayRecord_restored`, `recover_spec` — **recovery rebuilds what the journal says**;
* `vote_discipline` — **the votes of a voter are disciplined in every run**.
-/

import Commonware.VoterMemory

set_option autoImplicit false

namespace Commonware.Simplex.Voter

open List

variable {D Sig Cert PK : Type}

/-! ### Recovery -/

section

variable {cfg : Config D Sig Cert PK} {final : ℕ → Prop}

/-- The records of a view among those replayed so far. -/
def atView (l : List (Artifact D Sig Cert)) (v : ℕ) : List (Artifact D Sig Cert) :=
  l.filter fun a => decide (a.view = v)

theorem atView_snoc (l : List (Artifact D Sig Cert)) (a : Artifact D Sig Cert) (v : ℕ) :
    atView (l ++ [a]) v = if v = a.view then atView l v ++ [a] else atView l v := by
  by_cases h : a.view = v
  · simp [atView, h]
  · simp [atView, h, Ne.symm h]

/-- Among the records of a list of sections, those of one view are the section of that view. -/
theorem filter_flatMap_sections (l : List (ℕ × List (Artifact D Sig Cert)))
    (hs : (l.map Prod.fst).Pairwise (· < ·)) (hk : ∀ e ∈ l, ∀ a ∈ e.2, a.view = e.1) (v : ℕ) :
    atView (l.flatMap Prod.snd) v =
      ((l.find? fun e => decide (e.1 = v)).map Prod.snd).getD [] := by
  induction l with
  | nil => rfl
  | cons e l ih =>
    obtain ⟨hlt, hl⟩ := pairwise_cons.1 hs
    have ih := ih hl fun x hx => hk x (mem_cons_of_mem _ hx)
    have he := hk e mem_cons_self
    rw [flatMap_cons, atView, filter_append]
    by_cases hv : e.1 = v
    · have h₁ : e.2.filter (fun a => decide (a.view = v)) = e.2 :=
        filter_eq_self.2 fun a ha => by simp [he a ha, hv]
      have h₂ : (l.flatMap Prod.snd).filter (fun a => decide (a.view = v)) = [] := by
        refine filter_eq_nil_iff.2 fun a ha => ?_
        obtain ⟨x, hx, hax⟩ := mem_flatMap.1 ha
        have := hlt x.1 (mem_map_of_mem hx)
        have := hk x (mem_cons_of_mem _ hx) a hax
        simp only [decide_eq_true_eq]
        omega
      simp [h₁, h₂, hv]
    · have h₁ : e.2.filter (fun a => decide (a.view = v)) = [] :=
        filter_eq_nil_iff.2 fun a ha => by simp [he a ha, hv]
      rw [h₁, nil_append, List.find?_cons_of_neg (by simpa using hv)]
      exact ih

/-- Replaying a journal goes through every section in the order of its records. -/
theorem atView_records (j : Journal D Sig Cert) (hk : ∀ v, ∀ a ∈ j.sec v, a.view = v) (v : ℕ) :
    atView j.records v = j.sec v := by
  refine filter_flatMap_sections j.entries j.sorted (fun e he a ha => hk e.1 a ?_) v
  rw [Journal.sec, j.mem_entries_iff.1 he]
  exact ha

variable {l : List (Artifact D Sig Cert)} {a : Artifact D Sig Cert} {j : Journal D Sig Cert}

/-- The records of its view that are replayed before a record are those before it in its section. -/
theorem prefix_sec (hk : ∀ v, ∀ a ∈ j.sec v, a.view = v)
    (hl : l ++ [a] <+: j.records) : atView l a.view ++ [a] <+: j.sec a.view := by
  rw [← atView_records j hk a.view]
  have h := hl.filter fun b => decide (b.view = a.view)
  rwa [show (l ++ [a]).filter (fun b => decide (b.view = a.view)) = atView l a.view ++ [a] by
    simp [atView]] at h

/-- The rounds know what the records `l` say, and nothing else is in their slots. -/
structure Restored (cfg : Config D Sig Cert PK) (final : ℕ → Prop) (l : List (Artifact D Sig Cert))
    (st : State D Cert PK) : Prop where
  follows : Follows cfg (atView l) final 0 st
  fresh : ∀ v, Fresh (atView l v) (st.roundAt cfg v)

variable {st st' : State D Cert PK}

section

variable (h : Restored cfg final l st)
include h

theorem Restored.agree (ha : st.Agree cfg st') : Restored cfg final l st' := by
  refine ⟨h.follows.agree ha, fun v => ?_⟩
  obtain ⟨x, hx⟩ := ha v
  rw [hx]
  exact h.fresh v

variable {r : Round D Cert PK}

/-- A change of one round that its records say nothing about. -/
theorem Restored.setRound {v : ℕ}
    (ht : Tracks cfg.scheme.me v (final v) (atView l v) r) (hr : Fresh (atView l v) r) :
    Restored cfg final l (st.setRound v r) := by
  refine ⟨h.follows.setRound fun _ => ht, fun u => ?_⟩
  rw [State.roundAt_setRound]
  split_ifs with hu
  · subst hu
    exact hr
  · exact h.fresh u

/-- A record changes the round of its view only. -/
theorem Restored.record (ht : Tracks cfg.scheme.me a.view (final a.view) (atView l a.view ++ [a]) r)
    (hr : Fresh (atView l a.view ++ [a]) r) :
    Restored cfg final (l ++ [a]) (st.setRound a.view r) := by
  refine ⟨fun u _ => ?_, fun u => ?_⟩
  · rw [State.roundAt_setRound, atView_snoc]
    split_ifs with hu
    · subst hu
      exact ht
    · exact h.follows u (Nat.zero_le _)
  · rw [State.roundAt_setRound, atView_snoc]
    split_ifs with hu
    · subst hu
      exact hr
    · exact h.fresh u

/-- The replay of a certificate only sets a flag before its handler runs. -/
theorem Restored.replayFlag {v : ℕ} (hp : r.proposal = (st.roundAt cfg v).proposal)
    (ht : Tracks cfg.scheme.me v (final v) (atView l v) r) :
    Restored cfg final l (st.setRound v r) :=
  h.setRound ht fun hr => h.fresh v (hp ▸ hr)

/-- The handler of a replayed notarization adds it, since its section holds no other one. -/
theorem Restored.addNotarization [DecidableEq D] {c : Notarization D Cert}
    (ha : Allowed (atView l c.proposal.view) (.notarization c : Artifact D Sig Cert)) :
    Restored cfg final (l ++ [.notarization c]) (st.addNotarization cfg c).2 := by
  have h' := h.agree (State.agree_setLeader cfg st (c.proposal.view + 1) (some c.certificate))
  have ht := h'.follows c.proposal.view (Nat.zero_le _)
  have had : (((st.setLeader cfg (c.proposal.view + 1) (some c.certificate)).roundAt cfg
      c.proposal.view).addNotarization c).1.1 = true := by
    unfold Round.addNotarization
    split_ifs with hs
    · obtain ⟨x, hx⟩ := ht.notarization.1 hs
      exact absurd hx (ha x)
    · rfl
  refine h'.record (a := .notarization c) (ht.addNotarization rfl had).2 ?_
  exact (h'.fresh _).snoc _ (.inr (by simp [endorsed]))

theorem Restored.addFinalization [DecidableEq D] {c : Finalization D Cert}
    (ha : Allowed (atView l c.proposal.view) (.finalization c : Artifact D Sig Cert)) :
    Restored cfg final (l ++ [.finalization c]) (st.addFinalization cfg c).2 := by
  let v := c.proposal.view
  let st₀ := if v > st.lastFinalized then { st with lastFinalized := v } else st
  let st₁ := (st₀.enterView cfg (v + 1)).setLeader cfg (v + 1) (some c.certificate)
  have h₀ : st.Agree cfg st₀ := by
    refine State.agree_of_roundAt_eq fun u => ?_
    simp only [st₀]
    split_ifs <;> rfl
  have h' : Restored cfg final l st₁ := ((h.agree h₀).agree (State.agree_enterView cfg _ _)).agree
    (State.agree_setLeader cfg _ _ _)
  have ht := h'.follows v (Nat.zero_le _)
  have had : ((st₁.roundAt cfg v).addFinalization c).1.1 = true := by
    unfold Round.addFinalization
    split_ifs with hs
    · obtain ⟨x, hx⟩ := ht.finalization.1 hs
      exact absurd hx (ha x)
    · rfl
  refine h'.record (a := .finalization c) (ht.addFinalization rfl had).2 ?_
  exact (h'.fresh _).snoc _ (.inr (by simp [endorsed]))

theorem Restored.addNullification (c : Nullification Cert) :
    Restored cfg final (l ++ [.nullification c]) (st.addNullification cfg c).2 := by
  have h' := (h.agree (State.agree_enterView cfg st (c.round.view + 1))).agree
    (State.agree_setLeader cfg _ (c.round.view + 1) (some c.certificate))
  have ht := h'.follows c.round.view (Nat.zero_le _)
  refine h'.record (a := .nullification c) (ht.addNullification c).2 ?_
  exact (h'.fresh _).snoc _ (.inl (Round.proposal_addNullification _ _))

/-- The flag and the handler record a certification result twice, with the same outcome. -/
theorem Restored.certification {rnd : Rnd} {success : Bool} {x : Option (Notarization D Cert)}
    (hc : (st.setRound rnd.view ((st.roundAt cfg rnd.view).decided success)).certified cfg rnd.view
      success = .ok (x, st')) : Restored cfg final (l ++ [.certification rnd success]) st' := by
  have ht := (h.follows rnd.view (Nat.zero_le _)).decided rnd success
  have hf : Fresh (atView l rnd.view ++ [.certification rnd success])
      ((st.roundAt cfg rnd.view).decided success) := (h.fresh rnd.view).snoc _ (.inl rfl)
  have h' := h.record (a := .certification rnd success) ht hf
  refine h'.agree (State.agree_of_roundAt_eq fun u => ?_)
  rcases State.certified_ok hc with ⟨-, rfl⟩ | ⟨r, hr, -, -, hst⟩
  · rfl
  · cases (OrdMap.get?_insert_self st.views rnd.view _).symm.trans hr
    rw [State.roundAt_certified hst]
    change _ = (st.setRound rnd.view _).roundAt cfg u
    rw [State.roundAt_setRound]
    split_ifs <;> rfl

/-- **The replay of a record rebuilds what it says.** -/
theorem replayRecord_restored [DecidableEq D]
    (ha : Allowed (atView l a.view) a) (hf : ∀ c, a = .finalization c → final a.view)
    (hr : replayRecord cfg st a = .ok st') : Restored cfg final (l ++ [a]) st' := by
  obtain ⟨st₁, h₁, hst⟩ := replayRecord_calls hr
  obtain ⟨r, hrr, rfl⟩ := State.replay_ok h₁
  have ht := h.follows a.view (Nat.zero_le _)
  rcases hst with ⟨hno, rfl⟩ | ⟨c, hc, hst⟩
  · obtain ⟨vote, rfl⟩ : ∃ vote : Vote D Sig, a = vote.artifact := by
      cases a with
      | notarize x => exact ⟨.notarize x, rfl⟩
      | nullify x => exact ⟨.nullify x, rfl⟩
      | finalize x => exact ⟨.finalize x, rfl⟩
      | _ => cases hno
    obtain ⟨ht', hf'⟩ := ht.replayVote (h.fresh _) ha (Vote.view_artifact vote).symm hrr
    exact h.record ht' hf'
  · cases a with
    | notarize x | nullify x | finalize x => cases hc
    | notarization c =>
      cases hc
      cases hrr
      cases hst
      refine Restored.addNotarization ?_ ha
      exact h.replayFlag rfl { ht with }
    | nullification c =>
      cases hc
      cases hrr
      cases hst
      refine Restored.addNullification ?_ c
      exact h.replayFlag rfl { ht with }
    | finalization c =>
      cases hc
      cases hrr
      cases hst
      refine Restored.addFinalization ?_ ha
      exact h.replayFlag rfl { ht with broadcast := fun _ => hf c rfl }
    | certification rnd success =>
      cases hc
      obtain ⟨x, hx, rfl⟩ := map_eq_ok.1 hst
      obtain rfl := Round.setCertified_ok hrr
      exact h.certification hx

end

theorem replayRecord_views [DecidableEq D] (hb : st.lastFinalized < st.view)
    (hr : replayRecord cfg st a = .ok st') :
    st'.lastFinalized < st'.view ∧ st.lastFinalized ≤ st'.lastFinalized ∧
      ∀ c, a = .finalization c → c.proposal.view ≤ st'.lastFinalized := by
  obtain ⟨st₁, h₁, hst⟩ := replayRecord_calls hr
  obtain ⟨r, -, rfl⟩ := State.replay_ok h₁
  rcases hst with ⟨hno, rfl⟩ | ⟨c, hc, hst⟩
  · exact ⟨hb, le_rfl, by rintro c rfl; cases hno⟩
  · obtain ⟨-, hlf, hvw⟩ := State.call_frame hst
    simp only [State.lastFinalized_setRound, State.view_setRound] at hlf hvw
    have hah := State.finalized_lt_entered (st.setRound a.view r) c
    refine ⟨by omega, by omega, ?_⟩
    rintro n rfl
    cases hc
    rw [hlf]
    exact le_max_right _ _

/-- Replaying records one after the other, each of them allowed where it stands. -/
theorem replayRecords_restored [DecidableEq D] :
    ∀ {l₀ : List (Artifact D Sig Cert)} {st st' : State D Cert PK}, Restored cfg final l₀ st →
      st.lastFinalized < st.view → (∀ c, .finalization c ∈ l₀ → c.proposal.view ≤ st.lastFinalized) →
      (∀ l' a, l' ++ [a] <+: l → Allowed (atView (l₀ ++ l') a.view) a) →
      (∀ c, .finalization c ∈ l → final c.proposal.view) → replayRecords cfg st l = .ok st' →
      Restored cfg final (l₀ ++ l) st' ∧ st'.lastFinalized < st'.view ∧
        ∀ c, .finalization c ∈ l₀ ++ l → c.proposal.view ≤ st'.lastFinalized := by
  induction l with
  | nil =>
    intro l₀ st st' h hb hc _ _ hr
    cases hr
    simpa using ⟨h, hb, hc⟩
  | cons a l ih =>
    intro l₀ st st' h hb hc ha hf hr
    rw [replayRecords] at hr
    cases hst : replayRecord cfg st a with
    | error e => rw [hst] at hr; cases hr
    | ok st₁ =>
      rw [hst] at hr
      have ha₀ : Allowed (atView l₀ a.view) a := by
        simpa using ha [] a ⟨l, rfl⟩
      have hf₀ : ∀ c, a = .finalization c → final a.view := by
        rintro c rfl
        exact hf c mem_cons_self
      obtain ⟨hb', hmn, hfn⟩ := replayRecord_views hb hst
      have hc' : ∀ c, .finalization c ∈ l₀ ++ [a] →
          c.proposal.view ≤ st₁.lastFinalized := by
        intro c hcm
        rcases mem_append.1 hcm with hcm | hcm
        · exact le_trans (hc c hcm) hmn
        · exact hfn c (mem_singleton.1 hcm).symm
      have hrs := ih (replayRecord_restored h ha₀ hf₀ hst) hb' hc' ?_
        (fun c hcm => hf c (mem_cons_of_mem _ hcm)) hr
      · simpa using hrs
      · intro l' b hl
        have := ha (a :: l') b (by simpa using hl)
        simpa using this

theorem restored_setGenesis (genesis : D) :
    Restored cfg final ([] : List (Artifact D Sig Cert)) (State.new.setGenesis cfg genesis) := by
  have h : Restored cfg final ([] : List (Artifact D Sig Cert)) State.new :=
    ⟨fun v _ => tracks_new _, fun v => fresh_new _⟩
  exact h.agree (State.agree_setGenesis cfg _ _)

/-- **Recovery rebuilds what the journal says.** -/
theorem recover_spec [DecidableEq D] {m : Memory D Cert PK}
    (hk : ∀ v, ∀ a ∈ j.sec v, a.view = v) (hw : ∀ v, WellLogged (j.sec v))
    (hr : recover cfg j = .ok m) :
    Follows cfg j.sec (fun v => ∃ c, .finalization c ∈ j.sec v) 0 m.state ∧ m.state.lastFinalized < m.state.view ∧
      ∀ c : Finalization D Cert, .finalization c ∈ j.sec c.proposal.view →
        c.proposal.view ≤ m.state.lastFinalized := by
  have hs := atView_records j hk
  have hal : ∀ l a, l ++ [a] <+: j.records → Allowed (atView l a.view) a := fun l a hl =>
    hw a.view (atView l a.view) a (prefix_sec hk hl)
  unfold recover at hr
  cases hst : replayRecords cfg (State.new.setGenesis cfg cfg.genesis) j.records with
  | error e => rw [hst] at hr; cases hr
  | ok st =>
    rw [hst] at hr
    dsimp only at hr
    split_ifs at hr
    cases hr
    let final (v : ℕ) : Prop := ∃ c : Finalization D Cert, .finalization c ∈ j.sec v
    have hf : ∀ c, .finalization c ∈ j.records → final c.proposal.view := by
      intro c hc
      refine ⟨c, ?_⟩
      rw [← hs]
      exact mem_filter.2 ⟨hc, by simp [Artifact.view]⟩
    have h₀ : Restored cfg final [] (State.new.setGenesis cfg cfg.genesis) :=
      restored_setGenesis cfg.genesis
    obtain ⟨h, hb, hfn⟩ := replayRecords_restored h₀
      (by simp [State.setGenesis, State.new]) (by simp) (by simpa using hal) hf hst
    rw [nil_append] at h hfn
    have h' := h.agree (State.agree_expireRound cfg st st.view)
    refine ⟨fun v hv => hs v ▸ h'.follows v hv, hb, fun c hc => hfn c ?_⟩
    rw [← hs] at hc
    exact mem_of_mem_filter hc

end

/-! ### Runs -/

/-- The invariant of a node: of its journal and history always, of its memory while it is up. -/
structure Inv (cfg : Config D Sig Cert PK) (n : Node D Sig Cert PK) : Prop where
  disk : Disk cfg n
  live : ∀ m, n.memory = some m → Live cfg n m

section

variable {cfg : Config D Sig Cert PK} {n : Node D Sig Cert PK} {j : Journal D Sig Cert}

/-- A journal that survives a crash is in order: it has all votes that count, and the finalization
that allowed other sections to be given up. -/
theorem Disk.restart (h : Disk cfg n) (hj : n.Survives j)
    (m : Option (Memory D Cert PK)) : Disk cfg { n with memory := m, journal := j, synced := j } := by
  have hs : ∀ v a, a ∈ j.sec v → a ∈ n.journal.sec v := fun v a ha =>
    (hj.isPrefix v).subset ha
  refine ⟨fun v a ha => h.keyed v a (hs v a ha), fun v => (h.logged v).isPrefix (hj.isPrefix v),
    fun v => prefix_refl _, fun vote hv hp => (hj.synced _ hp).subset (h.sent vote hv hp), ?_,
    fun v x hx => h.signed v x (hs v _ hx), fun v r hr => h.certified v r (hs v _ hr),
    fun v x hx => h.nullify v x (hs v _ hx), h.discipline⟩
  refine h.pruned.imp id fun ⟨c, hc, hle⟩ => ⟨c, (hj.synced _ ?_).subset hc, hle⟩
  exact le_trans hle (minActive_le _ _)

variable {n' : Node D Sig Cert PK}

theorem Inv.step [DecidableEq D] (h : Inv cfg n) {label : Option (Op D Cert)}
    (hs : n.Step cfg label n') : Inv cfg n' := by
  cases hs with
  | @op _ _ _ effects hm hen hex =>
    obtain ⟨hp, hl⟩ := exec_spec h.disk (h.live _ hm) hen hex
    have hd := h.disk.applyAll hp effects.length
    rw [take_length] at hd
    refine ⟨{ hd with }, ?_⟩
    intro m hm'
    cases hm'
    exact { hl with }
  | cut k hm hen hex =>
    obtain ⟨hp, -⟩ := exec_spec h.disk (h.live _ hm) hen hex
    exact ⟨{ h.disk.applyAll hp k with }, by simp⟩
  | crash => exact ⟨{ h.disk with }, by simp⟩
  | @restart m _ hm hj hr =>
    have hd := h.disk.restart hj (some m)
    obtain ⟨hf, hb, hfn⟩ := recover_spec hd.keyed hd.logged hr
    refine ⟨hd, ?_⟩
    rintro _ ⟨⟩
    refine ⟨hf.mono (Nat.zero_le _), hb, ?_, fun v x hx => hx⟩
    rcases hd.pruned with h₀ | ⟨c, hc, hle⟩
    · exact h₀ ▸ Nat.zero_le _
    · exact le_trans hle (minActive_mono _ (hfn c hc))

theorem inv_of_reachable [DecidableEq D] (h : n.Reachable cfg) : Inv cfg n := by
  induction h with
  | init => exact ⟨disk_init, by simp [Node.init]⟩
  | step _ hs ih => exact ih.step hs

/-- The whole journal is one that a crash may leave behind. -/
theorem Disk.survives (h : Disk cfg n) : n.Survives n.journal :=
  ⟨fun _ => prefix_refl _, fun v _ => h.isPrefix v⟩

/-- A node that is down may start from its whole journal. -/
theorem Node.Step.of_restart? [DecidableEq D] (hm : n.memory = none) (hd : Disk cfg n)
    (hr : n.restart? cfg = some n') : n.Step cfg none n' := by
  unfold Node.restart? at hr
  cases hrc : recover cfg n.journal with
  | error e => rw [hrc] at hr; cases hr
  | ok m =>
    rw [hrc] at hr
    cases hr
    exact .restart hm hd.survives hrc

/-- A node may crash and start again from its whole journal. -/
theorem Node.Reachable.restart? [DecidableEq D] (h : n.Reachable cfg)
    (hr : n.restart? cfg = some n') : n'.Reachable cfg :=
  (h.step .crash).step (.of_restart? rfl { (inv_of_reachable h).disk with } hr)

/-- **The votes of a voter are disciplined in every run.**  Whatever operations are issued, wherever
the voter crashes and from whichever surviving journal it restarts, the history of what it signed
and sent is disciplined. -/
theorem vote_discipline [DecidableEq D] (h : n.Reachable cfg) : Discipline n.history :=
  (inv_of_reachable h).disk.discipline

/-- **No vote that was sent is forgotten** in a crash, unless the journal that is left has a
finalization after which its view is not active. -/
theorem sent_survives [DecidableEq D] (h : n.Reachable cfg) {v : Vote D Sig}
    (hv : .sent v ∈ n.history) (hj : n.Survives j) :
    v.artifact ∈ j.sec v.view ∨ ∃ c : Finalization D Cert, .finalization c ∈ j.sec c.proposal.view ∧
      v.view < minActive cfg.activityTimeout c.proposal.view := by
  have hd := (inv_of_reachable h).disk
  rcases Nat.lt_or_ge v.view n.pruned with hlt | hge
  · obtain h₀ | ⟨c, hc, hle⟩ := hd.pruned
    · exact absurd (h₀ ▸ hlt) (Nat.not_lt_zero _)
    · have hs := hj.synced _ (hle.trans (minActive_le _ _))
      exact .inr ⟨c, hs.subset hc, hlt.trans_le hle⟩
  · exact .inl ((hj.synced _ hge).subset (hd.sent v hv hge))

end

/-! ### A run of a single participant -/

/-- The scheme of a committee of one. -/
def soloScheme : Scheme (Subject ℕ) Unit Unit Unit where
  signer := some (0, fun _ _ => ())
  participants := [()]
  verifyAttestation := fun _ _ a => decide (a.signer = 0)
  verifyAttestations := fun _ _ l => ⟨l.filter fun a => decide (a.signer = 0), []⟩
  assemble := fun l => if l.isEmpty then none else some ()
  verifyCertificate := fun _ _ _ => true
  verifyCertificates := fun _ _ => true

def solo : Config ℕ Unit Unit Unit where
  scheme := soloScheme
  elect := fun _ _ => ⟨0, by decide⟩
  ns := []
  epoch := 0
  activityTimeout := 10
  genesis := 0

def soloProposal : Proposal ℕ := ⟨⟨0, 1⟩, 0, 7⟩

/-- The node proposes in view 1, notarizes, certifies and finalizes its proposal. -/
def soloOps : List (Op ℕ Unit) :=
  [.tryPropose, .proposed 7, .constructNotarize 1, .notarization ⟨soloProposal, ()⟩,
    .broadcastNotarization 1, .tryCertify 1, .certified 1 true, .constructFinalize 1]

def soloStarted : Node ℕ Unit Unit Unit := (Node.init.restart? solo).get (by decide)

def soloFinalized : Node ℕ Unit Unit Unit := (soloStarted.run? solo soloOps).get (by decide)

def soloRestarted : Node ℕ Unit Unit Unit := (soloFinalized.restart? solo).get (by decide)

theorem soloRestarted_reachable : soloRestarted.Reachable solo := by
  have h₁ : soloStarted.Reachable solo :=
    Node.Reachable.init.restart? (Option.some_get _).symm
  have h₂ : soloFinalized.Reachable solo := h₁.run? (Option.some_get _).symm
  exact h₂.restart? (Option.some_get _).symm

theorem vote_discipline_solo : soloRestarted.Reachable solo ∧
      .sent (.finalize ⟨soloProposal, 0, ()⟩) ∈ soloRestarted.history ∧
      Discipline soloRestarted.history :=
  ⟨soloRestarted_reachable, by decide, vote_discipline soloRestarted_reachable⟩

theorem sent_survives_solo : .finalize ⟨soloProposal, 0, ()⟩ ∈ soloRestarted.journal.sec 1 ∨
    ∃ c : Finalization ℕ Unit, .finalization c ∈ soloRestarted.journal.sec c.proposal.view ∧
      1 < minActive 10 c.proposal.view :=
  sent_survives (v := .finalize _) soloRestarted_reachable (by decide)
    (inv_of_reachable soloRestarted_reachable).disk.survives

end Commonware.Simplex.Voter
