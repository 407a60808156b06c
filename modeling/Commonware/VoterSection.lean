/-
**What a journal section says about its round.**

A voter that restarts knows of a view only what the journal section of that view says.  This module
states what the records of a section may look like, one after the other, and what a round has in
common with its section while the voter runs; every operation of a round keeps the two in step, and
so does the replay of a record.

Main definitions:

* `Allowed`, `WellLogged` — the records that may follow a given section, and the sections built
  from such records;
* `Tracks` — the round knows at least what its section says.

Main results:

* `WellLogged.notarize_unique`, `WellLogged.finalize_unique`, `WellLogged.not_nullify_finalize`,
  `WellLogged.finalize_backed` — the votes of a well-logged section are disciplined;
* `Tracks.constructNotarize`, `Tracks.constructFinalize`, `Tracks.constructNullify` — a vote that a
  round casts may be recorded, and the round tracks the longer section;
* `Tracks.replay` — the replay of a record tracks it.
-/

import Commonware.VoterRound

set_option autoImplicit false

namespace Commonware.Simplex.Voter

open List

variable {D Sig Cert PK : Type}

/-! ### Well-logged sections -/

/-- The proposal a record puts into the slot of its round. -/
def endorsed : Artifact D Sig Cert → Option (Proposal D)
  | .notarize vote => some vote.proposal
  | .notarization c => some c.proposal
  | .finalization c => some c.proposal
  | .certification _ _ | .nullify _ | .nullification _ | .finalize _ => none

/-- The records that may follow the records `l` of a section. -/
def Allowed (l : List (Artifact D Sig Cert)) : Artifact D Sig Cert → Prop
  | .notarize vote =>
    (∀ x, .notarize x ∉ l) ∧ (∀ x, .nullify x ∉ l) ∧
      ∀ a ∈ l, ∀ p, endorsed a = some p → p = vote.proposal
  | .finalize vote =>
    (∀ x, .finalize x ∉ l) ∧ (∀ x, .nullify x ∉ l) ∧
      (∃ x, .notarize x ∈ l ∧ x.proposal = vote.proposal) ∧ ∃ r, .certification r true ∈ l
  | .nullify _ => ∀ x, .finalize x ∉ l
  | .notarization _ => ∀ x, .notarization x ∉ l
  | .finalization _ => ∀ x, .finalization x ∉ l
  | .certification _ _ | .nullification _ => True

/-- Every record of the section was allowed where it stands. -/
def WellLogged (j : List (Artifact D Sig Cert)) : Prop :=
  ∀ l a, l ++ [a] <+: j → Allowed l a

theorem wellLogged_nil : WellLogged ([] : List (Artifact D Sig Cert)) := by
  intro l a h
  simp at h

theorem WellLogged.isPrefix {j j' : List (Artifact D Sig Cert)} (h : WellLogged j)
    (hj : j' <+: j) : WellLogged j' := fun l a hl => h l a (hl.trans hj)

variable {a : Artifact D Sig Cert}

theorem wellLogged_snoc {j : List (Artifact D Sig Cert)} :
    WellLogged (j ++ [a]) ↔ WellLogged j ∧ Allowed j a := by
  constructor
  · intro h
    exact ⟨h.isPrefix (prefix_append _ _), h j a (prefix_refl _)⟩
  · rintro ⟨hj, ha⟩ l b hl
    rcases prefix_concat_iff.1 hl with h | h
    · obtain ⟨rfl, rfl⟩ := append_singleton_inj.1 h
      exact ha
    · exact hj l b h

/-- Of two members of a list, one stands before the other. -/
theorem mem_before {α : Type*} {l : List α} {a b : α} (ha : a ∈ l) (hb : b ∈ l) :
    a = b ∨ (∃ l', l' ++ [a] <+: l ∧ b ∈ l') ∨ ∃ l', l' ++ [b] <+: l ∧ a ∈ l' := by
  -- by induction from the end of the list: the last member stands after every other one
  induction l using List.reverseRecOn with
  | nil => simp at ha
  | append_singleton l c ih =>
    rcases mem_append.1 ha with ha | ha <;> rcases mem_append.1 hb with hb | hb
    · rcases ih ha hb with h | ⟨l', hl, h⟩ | ⟨l', hl, h⟩
      · exact .inl h
      · exact .inr (.inl ⟨l', hl.trans (prefix_append _ _), h⟩)
      · exact .inr (.inr ⟨l', hl.trans (prefix_append _ _), h⟩)
    · exact .inr (.inr ⟨l, by rw [mem_singleton.1 hb], ha⟩)
    · exact .inr (.inl ⟨l, by rw [mem_singleton.1 ha], hb⟩)
    · exact .inl ((mem_singleton.1 ha).trans (mem_singleton.1 hb).symm)

section

variable {j : List (Artifact D Sig Cert)}

/-- Of two records of a section, one was allowed after the other. -/
theorem WellLogged.pair (h : WellLogged j) {b : Artifact D Sig Cert} (ha : a ∈ j) (hb : b ∈ j) :
    a = b ∨ (∃ l, Allowed l a ∧ b ∈ l) ∨ ∃ l, Allowed l b ∧ a ∈ l := by
  rcases mem_before ha hb with h' | ⟨l, hl, hm⟩ | ⟨l, hl, hm⟩
  · exact .inl h'
  · exact .inr (.inl ⟨l, h l a hl, hm⟩)
  · exact .inr (.inr ⟨l, h l b hl, hm⟩)

theorem WellLogged.notarize_unique (h : WellLogged j) {x y : Notarize D Sig}
    (hx : .notarize x ∈ j) (hy : .notarize y ∈ j) : x = y := by
  rcases h.pair hx hy with h | ⟨l, hl, hm⟩ | ⟨l, hl, hm⟩
  · exact Artifact.notarize.inj h
  · exact absurd hm (hl.1 y)
  · exact absurd hm (hl.1 x)

variable {y : Finalize D Sig}

theorem WellLogged.finalize_unique (h : WellLogged j) {x : Finalize D Sig}
    (hx : .finalize x ∈ j) (hy : .finalize y ∈ j) : x = y := by
  rcases h.pair hx hy with h | ⟨l, hl, hm⟩ | ⟨l, hl, hm⟩
  · exact Artifact.finalize.inj h
  · exact absurd hm (hl.1 y)
  · exact absurd hm (hl.1 x)

theorem WellLogged.not_nullify_finalize (h : WellLogged j) {x : Nullify Sig}
    (hx : .nullify x ∈ j) : .finalize y ∉ j := by
  intro hy
  rcases h.pair hx hy with h | ⟨l, hl, hm⟩ | ⟨l, hl, hm⟩
  · cases h
  · exact hl y hm
  · exact hl.2.1 x hm

/-- A finalize vote follows the notarize vote for its proposal and a successful certification. -/
theorem WellLogged.finalize_backed (h : WellLogged j) (hy : .finalize y ∈ j) :
    (∃ x, .notarize x ∈ j ∧ x.proposal = y.proposal) ∧ ∃ r, .certification r true ∈ j := by
  obtain ⟨l, t, rfl⟩ := append_of_mem hy
  obtain ⟨-, -, ⟨x, hx, hp⟩, r, hr⟩ := h l (.finalize y) ⟨t, by simp⟩
  exact ⟨⟨x, mem_append_left _ hx, hp⟩, r, mem_append_left _ hr⟩

end

/-! ### A round and its section -/

/-- The round of view `v` knows what its section `j` says, for a node whose index is `me`.  A node
without an index signs nothing, so its flags stand for no record.  A finalization is broadcast only
once the view is `final`, which stands for its finalization being durable. -/
structure Tracks (me : Option ℕ) (v : ℕ) (final : Prop) (j : List (Artifact D Sig Cert))
    (r : Round D Cert PK) : Prop where
  holds : r.proposal.Holds (·.view = v)
  settled : ∀ a ∈ j, ∀ p, endorsed a = some p → r.proposal.Settled p
  notarize : ∀ x, .notarize x ∈ j → r.broadcastNotarize = true
  notarized : r.broadcastNotarize = true → me = none ∨ ∃ x, .notarize x ∈ j
  nullify : ∀ x, .nullify x ∈ j → r.broadcastNullify = true
  nullified : r.broadcastNullify = true → me = none ∨ ∃ x, .nullify x ∈ j
  finalize : ∀ x, .finalize x ∈ j → r.broadcastFinalize = true
  notarization : r.notarization.isSome = true ↔ ∃ x, .notarization x ∈ j
  finalization : r.finalization.isSome = true ↔ ∃ x, .finalization x ∈ j
  certified : r.certified = some true → ∃ rnd, .certification rnd true ∈ j
  broadcast : r.broadcastFinalization = true → final

section

variable {me : Option ℕ} {v : ℕ} {final : Prop} {j : List (Artifact D Sig Cert)} {r r' : Round D Cert PK}

theorem tracks_new (rnd : Rnd) : Tracks me v final ([] : List (Artifact D Sig Cert))
    (Round.new rnd : Round D Cert PK) := by
  constructor <;> simp [Round.new, Slot.new, Slot.Holds]

section

variable (h : Tracks me v final j r)
include h

theorem Tracks.mono {final' : Prop} (hf : final → final') : Tracks me v final' j r :=
  { h with broadcast := fun hb => hf (h.broadcast hb) }

/-- The slot may change as long as it stays settled. -/
theorem Tracks.withSlot {s : Slot D} (hs : s.Holds (·.view = v))
    (hst : ∀ p, r.proposal.Settled p → s.Settled p) :
    Tracks me v final j { r with proposal := s } :=
  { h with
    holds := hs
    settled := fun a ha p hp => hst p (h.settled a ha p hp) }

/-- Adding a record to the section, with the matching change of the round. -/
theorem Tracks.snoc
    (hh : r'.proposal.Holds (·.view = v)) (hs : ∀ p, r.proposal.Settled p → r'.proposal.Settled p)
    (ha : ∀ p, endorsed a = some p → r'.proposal.Settled p)
    (hN : r'.broadcastNotarize = true ↔ r.broadcastNotarize = true ∨ ∃ x, a = .notarize x)
    (hU : r'.broadcastNullify = true ↔ r.broadcastNullify = true ∨ ∃ x, a = .nullify x)
    (hF : r'.broadcastFinalize = true ↔ r.broadcastFinalize = true ∨ ∃ x, a = .finalize x)
    (hn : r'.notarization.isSome = true ↔ r.notarization.isSome = true ∨ ∃ x, a = .notarization x)
    (hf : r'.finalization.isSome = true ↔ r.finalization.isSome = true ∨ ∃ x, a = .finalization x)
    (hc : r'.certified = some true → r.certified = some true ∨ ∃ rnd, a = .certification rnd true)
    (hb : r'.broadcastFinalization = r.broadcastFinalization) :
    Tracks me v final (j ++ [a]) r' := by
  have hmem : ∀ b, b ∈ j ++ [a] ↔ b ∈ j ∨ a = b := by simp [eq_comm]
  refine ⟨hh, ?_, ?_, ?_, ?_, ?_, ?_, ?_, ?_, ?_, hb ▸ h.broadcast⟩
  · intro b hb p hp
    rcases (hmem b).1 hb with hb | rfl
    · exact hs p (h.settled b hb p hp)
    · exact ha p hp
  · intro x hx
    exact hN.2 (((hmem _).1 hx).imp (h.notarize x) fun e => ⟨x, e⟩)
  · intro hb
    rcases hN.1 hb with hb | ⟨x, hx⟩
    · exact (h.notarized hb).imp id fun ⟨x, hx⟩ => ⟨x, (hmem _).2 (.inl hx)⟩
    · exact .inr ⟨x, (hmem _).2 (.inr hx)⟩
  · intro x hx
    exact hU.2 (((hmem _).1 hx).imp (h.nullify x) fun e => ⟨x, e⟩)
  · intro hb
    rcases hU.1 hb with hb | ⟨x, hx⟩
    · exact (h.nullified hb).imp id fun ⟨x, hx⟩ => ⟨x, (hmem _).2 (.inl hx)⟩
    · exact .inr ⟨x, (hmem _).2 (.inr hx)⟩
  · intro x hx
    exact hF.2 (((hmem _).1 hx).imp (h.finalize x) fun e => ⟨x, e⟩)
  · rw [hn, h.notarization, ← exists_or]
    exact exists_congr fun x => (hmem _).symm
  · rw [hf, h.finalization, ← exists_or]
    exact exists_congr fun x => (hmem _).symm
  · intro hb
    rcases hc hb with hb | ⟨rnd, hr⟩
    · obtain ⟨rnd, hr⟩ := h.certified hb
      exact ⟨rnd, (hmem _).2 (.inl hr)⟩
    · exact ⟨rnd, (hmem _).2 (.inr hr)⟩

/-! ### Operations that leave the section alone -/

theorem Tracks.tryPropose : Tracks me v final j (r.tryPropose me).2 := by
  unfold Round.tryPropose
  split
  · exact h
  · exact h.withSlot h.holds fun p hp => hp.setBuilding

theorem Tracks.tryVerify : Tracks me v final j (r.tryVerify me).2 := by
  unfold Round.tryVerify
  split_ifs
  · exact h
  · exact h.withSlot h.holds.requestVerify fun p hp => hp.requestVerify

theorem Tracks.verified : Tracks me v final j r.verified.2 := by
  unfold Round.verified
  split_ifs
  · exact h
  · exact h.withSlot h.holds.markVerified fun p hp => hp.markVerified

variable {p : Proposal D}

theorem Tracks.proposed (hp : p.view = v) :
    Tracks me v final j (r.proposed p).2 := by
  unfold Round.proposed
  split_ifs
  · exact h
  · exact h.withSlot (h.holds.built hp) fun q hq => hq.built p

theorem Tracks.setProposal [DecidableEq D]
    (hp : p.view = v) : Tracks me v final j (r.setProposal p).2 := by
  unfold Round.setProposal
  split_ifs
  · exact h
  · exact h.withSlot (h.holds.update hp false) fun q hq => hq.update p false

theorem Tracks.broadcastNotarizationOnce : Tracks me v final j r.broadcastNotarizationOnce.2 := by
  unfold Round.broadcastNotarizationOnce
  split_ifs
  · exact h
  · split
    · exact h
    · exact { h with }

theorem Tracks.broadcastNullificationOnce : Tracks me v final j r.broadcastNullificationOnce.2 := by
  unfold Round.broadcastNullificationOnce
  split_ifs
  · exact h
  · split
    · exact h
    · exact { h with }

/-- A view is final when its finalization is broadcast. -/
theorem Tracks.broadcastFinalizationOnce
    (hf : r.broadcastFinalizationOnce.1.isSome = true → final) :
    Tracks me v final j r.broadcastFinalizationOnce.2 := by
  unfold Round.broadcastFinalizationOnce at hf ⊢
  split_ifs at hf ⊢
  · exact h
  · revert hf
    split
    · exact fun _ => h
    · exact fun hf => { h with broadcast := fun _ => hf rfl }

/-! ### Certificates and certification results -/

/-- A nullification leaves everything else alone, whether it is new or not. -/
theorem Tracks.addNullification (c : Nullification Cert) :
    Tracks me v final j (r.addNullification c).2 ∧
      Tracks me v final (j ++ [.nullification c]) (r.addNullification c).2 := by
  have h' : Tracks me v final j (r.addNullification c).2 := by
    unfold Round.addNullification
    split_ifs
    · exact h
    · exact { h with }
  exact ⟨h', h'.snoc h'.holds (fun _ hp => hp) (by simp [endorsed]) (by simp) (by simp) (by simp)
    (by simp) (by simp) .inl rfl⟩

/-- A notarization that was added may be recorded. -/
theorem Tracks.addNotarization [DecidableEq D] {c : Notarization D Cert}
    (hc : c.proposal.view = v) (ha : (r.addNotarization c).1.1 = true) :
    Allowed j (.notarization c) ∧
      Tracks me v final (j ++ [.notarization c]) (r.addNotarization c).2 := by
  unfold Round.addNotarization at ha ⊢
  split_ifs at ha ⊢ with hs
  refine ⟨fun x hx => hs (h.notarization.2 ⟨x, hx⟩), ?_⟩
  exact h.snoc (h.holds.update hc true) (fun p hp => hp.update _ true)
    (by simpa [endorsed, Round.addRecoveredProposal] using Slot.settled_update_recovered _ _)
    (by simp [Round.addRecoveredProposal]) (by simp [Round.addRecoveredProposal])
    (by simp [Round.addRecoveredProposal]) (by simp) (by simp [Round.addRecoveredProposal]) .inl rfl

theorem Tracks.addFinalization [DecidableEq D] {c : Finalization D Cert}
    (hc : c.proposal.view = v) (ha : (r.addFinalization c).1.1 = true) :
    Allowed j (.finalization c) ∧
      Tracks me v final (j ++ [.finalization c]) (r.addFinalization c).2 := by
  unfold Round.addFinalization at ha ⊢
  split_ifs at ha ⊢ with hs
  refine ⟨fun x hx => hs (h.finalization.2 ⟨x, hx⟩), ?_⟩
  exact h.snoc (h.holds.update hc true) (fun p hp => hp.update _ true)
    (by simpa [endorsed, Round.addRecoveredProposal] using Slot.settled_update_recovered _ _)
    (by simp [Round.addRecoveredProposal]) (by simp [Round.addRecoveredProposal])
    (by simp [Round.addRecoveredProposal]) (by simp [Round.addRecoveredProposal]) (by simp) .inl rfl

theorem Tracks.decided (rnd : Rnd) (isSuccess : Bool) :
    Tracks me v final (j ++ [.certification rnd isSuccess]) (r.decided isSuccess) :=
  h.snoc h.holds (fun _ hp => hp) (by simp [endorsed]) (by simp [Round.decided])
    (by simp [Round.decided]) (by simp [Round.decided]) (by simp [Round.decided])
    (by simp [Round.decided]) (fun hc => .inr ⟨rnd, by simp_all [Round.decided]⟩) rfl

/-! ### Votes -/

/-- A proposal that the round votes to notarize is the only one its section endorses. -/
theorem Tracks.constructNotarize
    (hp : r.constructNotarize.1 = some p) {vote : Notarize D Sig} (hv : vote.proposal = p) :
    Allowed j (.notarize vote) ∧ p.view = v ∧
      Tracks me v final (j ++ [.notarize vote]) r.constructNotarize.2 := by
  unfold Round.constructNotarize at hp ⊢
  split_ifs at hp ⊢ with h₁ h₂
  · simp only [Bool.or_eq_true, not_or, Bool.not_eq_true] at h₁
    have hst : r.proposal.status = .verified := not_not.1 h₂
    have hs : r.proposal.Settled p := .inr ⟨hst, hp⟩
    refine ⟨⟨?_, ?_, ?_⟩, h.holds p hp, ?_⟩
    · intro x hx
      exact absurd (h.notarize x hx) (by simp [h₁.1])
    · intro x hx
      exact absurd (h.nullify x hx) (by simp [h₁.2])
    · intro a ha q hq
      rw [hv]
      exact ((h.settled a ha q hq).eq_of_verified hst hp).symm
    · exact h.snoc h.holds (fun _ hq => hq)
        (fun q hq => by
          have : p = q := by simpa [endorsed, hv] using hq
          exact this ▸ hs)
        (by simp) (by simp) (by simp) (by simp) (by simp) .inl rfl

/-- A node without an index signs nothing, and its section stays as it is. -/
theorem Tracks.constructNotarize_verifier (hme : me = none) :
    Tracks me v final j r.constructNotarize.2 := by
  unfold Round.constructNotarize
  split_ifs
  · exact h
  · exact h
  · exact { h with
      notarize := fun _ _ => rfl
      notarized := fun _ => .inl hme }

theorem Tracks.constructNotarize_none (hp : r.constructNotarize.1 = none) :
    Tracks me v final j r.constructNotarize.2 := by
  unfold Round.constructNotarize at hp ⊢
  split_ifs at hp ⊢ with h₁ h₂
  · exact h
  · exact h
  · have := r.proposal.status_none_iff.2 hp
    simp_all

theorem Tracks.constructFinalize (hme : me ≠ none)
    (hp : r.constructFinalize.1 = some p) {vote : Finalize D Sig} (hv : vote.proposal = p) :
    Allowed j (.finalize vote) ∧ p.view = v ∧
      Tracks me v final (j ++ [.finalize vote]) r.constructFinalize.2 := by
  unfold Round.constructFinalize at hp ⊢
  split_ifs at hp ⊢ with h₁ h₂ h₃ h₄
  · simp only [Bool.or_eq_true, not_or, Bool.not_eq_true] at h₁
    simp only [Bool.or_eq_true, not_or, Bool.not_eq_true, Bool.not_eq_false'] at h₂
    have hst : r.proposal.status = .verified := not_not.1 h₃
    refine ⟨⟨?_, ?_, ?_, ?_⟩, h.holds p hp, ?_⟩
    · intro x hx
      exact absurd (h.finalize x hx) (by simp [h₁.1])
    · intro x hx
      exact absurd (h.nullify x hx) (by simp [h₁.2])
    · obtain ⟨x, hx⟩ := (h.notarized h₂.1).resolve_left hme
      refine ⟨x, hx, ?_⟩
      rw [hv]
      exact ((h.settled _ hx x.proposal rfl).eq_of_verified hst hp).symm
    · exact h.certified (by simpa [Round.isCertified] using h₄)
    · exact h.snoc h.holds (fun _ hq => hq) (by simp [endorsed]) (by simp) (by simp) (by simp)
        (by simp) (by simp) .inl rfl

/-- Setting the finalize flag alone keeps the round in step. -/
theorem Tracks.constructFinalize_flag : Tracks me v final j r.constructFinalize.2 := by
  unfold Round.constructFinalize
  split_ifs
  · exact h
  · exact h
  · exact h
  · exact h
  · exact { h with finalize := fun _ _ => rfl }

/-- A first nullify vote may be recorded. -/
theorem Tracks.constructNullify (hp : r.constructNullify.1 = some false) (vote : Nullify Sig) :
    Allowed j (.nullify vote) ∧ Tracks me v final (j ++ [.nullify vote]) r.constructNullify.2 := by
  unfold Round.constructNullify at hp ⊢
  split_ifs at hp ⊢ with h₁
  · refine ⟨fun x hx => absurd (h.finalize x hx) h₁, ?_⟩
    exact h.snoc h.holds (fun _ hq => hq) (by simp [endorsed]) (by simp) (by simp) (by simp)
      (by simp) (by simp) .inl rfl

/-- A retry, or the timeout of a node that has finalized the view or cannot sign, changes nothing
that is tracked. -/
theorem Tracks.constructNullify_quiet (hp : r.constructNullify.1 ≠ some false ∨ me = none) :
    Tracks me v final j r.constructNullify.2 := by
  unfold Round.constructNullify at hp ⊢
  split_ifs at hp ⊢ with h₁
  · exact h
  · refine { h with nullify := fun _ _ => rfl, nullified := fun _ => ?_ }
    rcases hp with hp | hp
    · exact h.nullified (by simpa using hp)
    · exact .inl hp

end

/-! ### Replay -/

/-- During replay a slot is populated by records only. -/
def Fresh (j : List (Artifact D Sig Cert)) (r : Round D Cert PK) : Prop :=
  r.proposal.proposal ≠ none → ∃ a ∈ j, endorsed a ≠ none

theorem fresh_new (rnd : Rnd) : Fresh ([] : List (Artifact D Sig Cert))
    (Round.new rnd : Round D Cert PK) := by
  intro h
  exact absurd rfl h

theorem Fresh.snoc (h : Fresh j r) (a : Artifact D Sig Cert)
    (hr : r'.proposal = r.proposal ∨ endorsed a ≠ none) : Fresh (j ++ [a]) r' := by
  intro hp
  rcases hr with hr | hr
  · obtain ⟨b, hb, he⟩ := h (hr ▸ hp)
    exact ⟨b, mem_append_left _ hb, he⟩
  · exact ⟨a, by simp, hr⟩

/-- The replay of a vote of this node tracks it.  For a notarize vote the slot is empty, or settled
on the proposal of the vote, since the section endorses no other one. -/
theorem Tracks.replayVote (h : Tracks me v final j r) (hf : Fresh j r) {vote : Vote D Sig}
    (ha : Allowed j vote.artifact) (hv : vote.view = v)
    (hr : r.replay me (vote.artifact : Artifact D Sig Cert) = .ok r') :
    Tracks me v final (j ++ [vote.artifact]) r' ∧ Fresh (j ++ [vote.artifact]) r' := by
  cases vote with
  | notarize x =>
    simp only [Vote.artifact, Round.replay] at hr ha ⊢
    split_ifs at hr
    obtain rfl := Except.ok.inj hr
    have hs : r.proposal.proposal ≠ none → r.proposal.Settled x.proposal := by
      intro hp
      obtain ⟨b, hb, he⟩ := hf hp
      obtain ⟨q, hq⟩ := Option.ne_none_iff_exists'.1 he
      exact ha.2.2 b hb q hq ▸ h.settled b hb q hq
    refine ⟨?_, hf.snoc _ (.inr (by simp [endorsed]))⟩
    exact h.snoc (h.holds.built hv) (fun p hp => hp.built _)
      (by simpa [endorsed] using Slot.settled_built hs) (by simp) (by simp) (by simp)
      (by simp) (by simp) .inl rfl
  | nullify x | finalize x =>
    simp only [Vote.artifact, Round.replay] at hr ⊢
    split_ifs at hr
    obtain rfl := Except.ok.inj hr
    refine ⟨?_, hf.snoc _ (.inl rfl)⟩
    exact h.snoc h.holds (fun _ hp => hp) (by simp [endorsed]) (by simp) (by simp) (by simp)
      (by simp) (by simp) .inl rfl

end

end Commonware.Simplex.Voter
