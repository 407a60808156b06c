/-
**The proposal slot of a round.**

`consensus/src/simplex/actors/voter/slot.rs`: a round holds at most one proposal, together with what
is known about it.  A proposal heard from the leader is unverified until the application has
verified it; a proposal built here, or carried by a certificate, counts as verified; two different
proposals in one round make the slot equivocated for good.

What the rest of the voter relies on is stated once for all operations of the slot:

* a proposal that a vote or a certificate stands for is *settled*, `Slot.Settled`, and stays so:
  the slot either holds it, verified, or is equivocated;
* every proposal the slot vouches for meets a given condition, `Slot.Vouches`.
-/

import Commonware.SimplexTypes

set_option autoImplicit false

namespace Commonware.Simplex.Voter

open Option

variable {D : Type}

/-- What is known about the proposal of a slot. -/
inductive Status
  | none
  | unverified
  | verified
  | equivocated
  deriving DecidableEq

/-- How an update changed a slot. -/
inductive Change (D : Type)
  | new
  | unchanged
  | equivocated (dropped retained : Proposal D)
  | skipped
  deriving DecidableEq

/-- The proposal of a round, with the requests made for it. -/
structure Slot (D : Type) where
  proposal : Option (Proposal D)
  status : Status
  requestedBuild : Bool
  requestedVerify : Bool
  /-- Only an empty slot has no status. -/
  status_none_iff : status = .none ↔ proposal = none
  deriving DecidableEq

namespace Slot

def new : Slot D := ⟨none, .none, false, false, by simp⟩

def shouldBuild (s : Slot D) : Bool := !s.requestedBuild && s.proposal.isNone

def setBuilding (s : Slot D) : Slot D := { s with requestedBuild := true }

/-- Recording a proposal built here; a slot that is already populated ignores it. -/
def built (s : Slot D) (p : Proposal D) : Slot D :=
  match s.proposal with
  | some _ => s
  | none => ⟨some p, .verified, true, true, by simp⟩

/-- Asking for verification, which happens once. -/
def requestVerify (s : Slot D) : Bool × Slot D :=
  if s.requestedVerify then (false, s) else (true, { s with requestedVerify := true })

/-- Recording that the application has verified the proposal. -/
def markVerified (s : Slot D) : Bool × Slot D :=
  if h : s.status = .unverified then
    (true, ⟨s.proposal, .verified, s.requestedBuild, s.requestedVerify, by
      have := s.status_none_iff
      simp_all⟩)
  else (false, s)

/-- Recording a proposal heard from the leader or, when `recovered`, carried by a certificate. -/
def update [DecidableEq D] (s : Slot D) (p : Proposal D) (recovered : Bool) : Change D × Slot D :=
  if s.status = .equivocated then (.skipped, s)
  else
    match s.proposal with
    | none =>
      (.new, ⟨some p, if recovered then .verified else .unverified, s.requestedBuild,
        s.requestedVerify, by cases recovered <;> simp⟩)
    | some q =>
      if q = p then
        if recovered then
          (.unchanged, ⟨some p, .verified, s.requestedBuild, s.requestedVerify, by simp⟩)
        else (.unchanged, s)
      else if recovered then
        -- the certified proposal replaces the local one
        (.equivocated q p, ⟨some p, .equivocated, true, true, by simp⟩)
      else
        (.equivocated p q, ⟨some q, .equivocated, s.requestedBuild, s.requestedVerify, by simp⟩)

/-! ### Settled proposals -/

/-- The slot is settled on `p`: it holds `p`, verified, or it has seen equivocation. -/
def Settled (s : Slot D) (p : Proposal D) : Prop :=
  s.status = .equivocated ∨ (s.status = .verified ∧ s.proposal = some p)

variable {s : Slot D} {p : Proposal D}

theorem Settled.proposal_ne_none (h : s.Settled p) : s.proposal ≠ none := by
  intro hn
  have hs := s.status_none_iff.2 hn
  rcases h with h | h <;> simp_all

variable {q : Proposal D}

/-- A verified slot that is settled on `p` holds `p`. -/
theorem Settled.eq_of_verified (h : s.Settled p) (hv : s.status = .verified)
    (hq : s.proposal = some q) : q = p := by
  rcases h with h | ⟨-, h⟩
  · rw [hv] at h; cases h
  · rw [hq] at h; exact some_inj.1 h

theorem Settled.built (h : s.Settled p) (q : Proposal D) : (s.built q).Settled p := by
  unfold Slot.built
  split
  · exact h
  · next hn => exact absurd hn h.proposal_ne_none

theorem Settled.setBuilding (h : s.Settled p) : s.setBuilding.Settled p := h

theorem Settled.requestVerify (h : s.Settled p) : s.requestVerify.2.Settled p := by
  unfold Slot.requestVerify
  split <;> exact h

theorem Settled.markVerified (h : s.Settled p) : s.markVerified.2.Settled p := by
  unfold Slot.markVerified
  split
  · next hu => rcases h with h | h <;> simp_all
  · exact h

theorem Settled.update [DecidableEq D] (h : s.Settled p) (q : Proposal D) (recovered : Bool) :
    (s.update q recovered).2.Settled p := by
  unfold Slot.update
  split
  · exact h
  · next he =>
      obtain ⟨hv, hp⟩ := h.resolve_left he
      rw [hp]
      dsimp only
      split_ifs with h₁ h₂ h₂
      · exact .inr ⟨rfl, by rw [h₁]⟩
      · exact h
      · exact .inl rfl
      · exact .inl rfl

/-- A certificate settles the slot on its proposal. -/
theorem settled_update_recovered [DecidableEq D] (s : Slot D) (p : Proposal D) :
    (s.update p true).2.Settled p := by
  simp only [Slot.update, ↓reduceIte]
  split
  · next h => exact .inl h
  · split
    · exact .inr ⟨rfl, rfl⟩
    · split_ifs
      · exact .inr ⟨rfl, rfl⟩
      · exact .inl rfl

/-- Building into an empty slot settles it. -/
theorem settled_built (h : s.proposal ≠ none → s.Settled p) : (s.built p).Settled p := by
  cases hp : s.proposal with
  | none => rw [Slot.built, hp]; exact .inr ⟨rfl, rfl⟩
  | some q =>
    rw [Slot.built, hp]
    exact h (by simp [hp])

/-! ### Proposals the slot vouches for -/

/-- The proposals the slot may come to vote for meet `G`: a verified one, and one whose
verification has been asked for. -/
structure Vouches (G : Proposal D → Prop) (s : Slot D) : Prop where
  verified : s.status = .verified → ∀ p, s.proposal = some p → G p
  requested : s.status = .unverified → s.requestedVerify = true → ∀ p, s.proposal = some p → G p
  populated : s.requestedVerify = true → s.proposal ≠ none

theorem vouches_new (G : Proposal D → Prop) : (Slot.new : Slot D).Vouches G :=
  ⟨by simp [Slot.new], by simp [Slot.new], by simp [Slot.new]⟩

variable {G : Proposal D → Prop}

theorem Vouches.mono {G' : Proposal D → Prop} (h : s.Vouches G) (hG : ∀ p, G p → G' p) :
    s.Vouches G' :=
  ⟨fun hs p hp => hG p (h.verified hs p hp), fun hs hr p hp => hG p (h.requested hs hr p hp),
    h.populated⟩

theorem Vouches.setBuilding (h : s.Vouches G) : s.setBuilding.Vouches G :=
  { h with }

theorem Vouches.built (h : s.Vouches G) (hq : G q) : (s.built q).Vouches G := by
  unfold Slot.built
  split
  · exact h
  · refine ⟨?_, by simp, by simp⟩
    rintro - p hp
    exact some_inj.1 hp ▸ hq

theorem Vouches.requestVerify (h : s.Vouches G) (hs : s.proposal = some p) (hG : G p) :
    s.requestVerify.2.Vouches G := by
  unfold Slot.requestVerify
  split
  · exact h
  · refine ⟨h.verified, ?_, by simp [hs]⟩
    rintro - - q hq
    rw [hs] at hq
    exact some_inj.1 hq ▸ hG

theorem Vouches.markVerified (h : s.Vouches G) (hr : s.requestedVerify = true) :
    s.markVerified.2.Vouches G := by
  unfold Slot.markVerified
  split
  · next hu => exact ⟨fun _ => h.requested hu hr, by simp, h.populated⟩
  · exact h

/-- A proposal that was only heard from the leader is not vouched for. -/
theorem Vouches.update_heard [DecidableEq D] (h : s.Vouches G) (p : Proposal D) :
    (s.update p false).2.Vouches G := by
  simp only [Slot.update, Bool.false_eq_true, ↓reduceIte]
  split
  · exact h
  · split
    · next hn => exact ⟨by simp, fun _ hv => absurd hn (h.populated hv), by simp⟩
    · split_ifs
      · exact h
      · exact ⟨by simp, by simp, by simp⟩

theorem Vouches.update_recovered [DecidableEq D] (h : s.Vouches G) (hp : G p) :
    (s.update p true).2.Vouches G := by
  have hG : ∀ q, some p = some q → G q := fun q hq => some_inj.1 hq ▸ hp
  simp only [Slot.update, ↓reduceIte]
  split
  · exact h
  · split
    · exact ⟨fun _ => hG, by simp, by simp⟩
    · split_ifs
      · exact ⟨fun _ => hG, by simp, by simp⟩
      · exact ⟨by simp, by simp, by simp⟩

/-! ### The proposal a slot holds -/

/-- Whatever the slot holds meets `P`. -/
def Holds (P : Proposal D → Prop) (s : Slot D) : Prop := ∀ p, s.proposal = some p → P p

variable {P : Proposal D → Prop}

theorem Holds.built (h : s.Holds P) (hq : P q) : (s.built q).Holds P := by
  unfold Slot.built
  split
  · exact h
  · exact fun p hp => some_inj.1 hp ▸ hq

theorem Holds.requestVerify (h : s.Holds P) : s.requestVerify.2.Holds P := by
  unfold Slot.requestVerify
  split <;> exact h

theorem Holds.markVerified (h : s.Holds P) : s.markVerified.2.Holds P := by
  unfold Slot.markVerified
  split <;> exact h

theorem Holds.update [DecidableEq D] (h : s.Holds P) (hq : P q) (recovered : Bool) :
    (s.update q recovered).2.Holds P := by
  have hnw : ∀ p, some q = some p → P p := fun p hp => some_inj.1 hp ▸ hq
  unfold Slot.update
  split
  · exact h
  · split
    · exact hnw
    · next r hr =>
        split_ifs
        · exact hnw
        · exact h
        · exact hnw
        · exact fun p hp => h p (hr.trans hp)

end Slot

end Commonware.Simplex.Voter
