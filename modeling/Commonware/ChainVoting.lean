/-
**Agreement from votes and quorums.**

Participants vote, view by view, to notarize a block, to skip the view or to finalize a block.  A
vote is carried when a quorum of participants has cast it, as far as the honest ones among them are
concerned.  This module draws from the discipline of the honest participants what consensus is for:
one block per view, no view both finalized and skipped, and one chain through all finalized blocks.

Blocks are any type with a view and the view of a parent; quorums are any family of sets that
pairwise share an honest member.

Main definitions:

* `QuorumSystem`, `QuorumSystem.Carried` — quorums, and the votes a quorum has cast;
* `Ballots`, `Facts` — the votes of all participants, and what is carried among them;
* `Facts.Extends` — a block extends a confirmed block over skipped views;
* `Ballots.Sound` — the discipline of the honest participants;
* `Facts.Link` — the step from a block to the confirmed block of its parent view.

Main results:

* `Ballots.Sound.confirmed_unique` — a view has one notarized or finalized block;
* `Ballots.Sound.finalized_not_nullified` — a finalized view is not skipped;
* `Ballots.Sound.chain` — **the parent links of a confirmed block lead to every block finalized
  before it**.
-/

import Mathlib.Data.Finset.Defs

set_option autoImplicit false

namespace ChainVoting

variable {I B : Type*}

/-! ### Quorums -/

/-- A family of sets of which any two share an honest member. -/
structure QuorumSystem (I : Type*) where
  isQuorum : Finset I → Prop
  honest : I → Prop
  inter : ∀ {X Y}, isQuorum X → isQuorum Y → ∃ i, i ∈ X ∧ i ∈ Y ∧ honest i

namespace QuorumSystem

variable (Q : QuorumSystem I)

/-- A quorum has voted, as far as its honest members are concerned. -/
def Carried (vote : I → Prop) : Prop := ∃ X, Q.isQuorum X ∧ ∀ i ∈ X, Q.honest i → vote i

variable {Q}

theorem Carried.mono {vote vote' : I → Prop} (h : Q.Carried vote)
    (hv : ∀ i, Q.honest i → vote i → vote' i) : Q.Carried vote' := by
  obtain ⟨X, hX, hvt⟩ := h
  exact ⟨X, hX, fun i hi hh => hv i hh (hvt i hi hh)⟩

theorem Carried.common {vote vote' : I → Prop} (h : Q.Carried vote) (h' : Q.Carried vote') :
    ∃ i, Q.honest i ∧ vote i ∧ vote' i := by
  obtain ⟨X, hX, hvt⟩ := h
  obtain ⟨Y, hY, hvt'⟩ := h'
  obtain ⟨i, hiX, hiY, hi⟩ := Q.inter hX hY
  exact ⟨i, hi, hvt i hiX hi, hvt' i hiY hi⟩

theorem Carried.honest {vote : I → Prop} (h : Q.Carried vote) : ∃ i, Q.honest i ∧ vote i := by
  obtain ⟨i, hi, hv, -⟩ := h.common h
  exact ⟨i, hi, hv⟩

end QuorumSystem

/-! ### Facts and votes -/

/-- What has been notarized, skipped and finalized. -/
structure Facts (B : Type*) where
  notarized : B → Prop
  nullified : ℕ → Prop
  finalized : B → Prop

/-- The votes of all participants. -/
structure Ballots (I B : Type*) where
  notarize : I → B → Prop
  nullify : I → ℕ → Prop
  finalize : I → B → Prop

/-- What is carried among the votes. -/
def Ballots.facts (Q : QuorumSystem I) (v : Ballots I B) : Facts B where
  notarized b := Q.Carried (v.notarize · b)
  nullified u := Q.Carried (v.nullify · u)
  finalized b := Q.Carried (v.finalize · b)

namespace Facts

/-- One collection of facts is contained in another. -/
structure Le (F F' : Facts B) : Prop where
  notarized : ∀ b, F.notarized b → F'.notarized b
  nullified : ∀ u, F.nullified u → F'.nullified u
  finalized : ∀ b, F.finalized b → F'.finalized b

/-- A block that a quorum has notarized or finalized. -/
def Confirmed (F : Facts B) (b : B) : Prop := F.notarized b ∨ F.finalized b

variable (view parent : B → ℕ)

/-- The block extends the origin or a confirmed block, over views that were skipped. -/
structure Extends (F : Facts B) (b : B) : Prop where
  below : parent b < view b
  skipped : ∀ u, parent b < u → u < view b → F.nullified u
  parent : parent b = 0 ∨ ∃ b', view b' = parent b ∧ F.Confirmed b'

/-- The step from a block to the confirmed block of its parent view. -/
def Link (F : Facts B) (b b' : B) : Prop := view b' = parent b ∧ F.Confirmed b'

variable {view parent}

theorem Confirmed.mono {F F' : Facts B} {b : B} (h : F.Confirmed b) (hF : F.Le F') :
    F'.Confirmed b := h.imp (hF.notarized b) (hF.finalized b)

theorem Extends.mono {F F' : Facts B} {b : B} (h : F.Extends view parent b) (hF : F.Le F') :
    F'.Extends view parent b where
  below := h.below
  skipped := fun u h₁ h₂ => hF.nullified u (h.skipped u h₁ h₂)
  parent := h.parent.imp id fun ⟨b', hv, hc⟩ => ⟨b', hv, hc.mono hF⟩

end Facts

/-! ### Agreement -/

namespace Ballots

/-- The discipline of the honest participants. -/
structure Sound (view parent : B → ℕ) (Q : QuorumSystem I) (v : Ballots I B) : Prop where
  notarize_unique : ∀ i, Q.honest i → ∀ b b', v.notarize i b → v.notarize i b' →
    view b = view b' → b = b'
  finalize_unique : ∀ i, Q.honest i → ∀ b b', v.finalize i b → v.finalize i b' →
    view b = view b' → b = b'
  finalize_notarize : ∀ i, Q.honest i → ∀ b b', v.finalize i b → v.notarize i b' →
    view b = view b' → b = b'
  finalize_nullify : ∀ i, Q.honest i → ∀ b, v.finalize i b → ¬ v.nullify i (view b)
  notarize_extends : ∀ i, Q.honest i → ∀ b, v.notarize i b →
    (v.facts Q).Extends view parent b
  finalize_extends : ∀ i, Q.honest i → ∀ b, v.finalize i b →
    (v.facts Q).Extends view parent b

section

variable {view parent : B → ℕ} {Q : QuorumSystem I} {v : Ballots I B} {b : B}

/-- **No view has two notarized blocks.** -/
theorem Sound.notarized_unique (h : v.Sound view parent Q) {b' : B}
    (hb : (v.facts Q).notarized b) (hb' : (v.facts Q).notarized b') (hv : view b = view b') :
    b = b' := by
  obtain ⟨i, hi, h₁, h₂⟩ := hb.common hb'
  exact h.notarize_unique i hi b b' h₁ h₂ hv

theorem Sound.confirmed_unique (h : v.Sound view parent Q) {b' : B}
    (hb : (v.facts Q).Confirmed b) (hb' : (v.facts Q).Confirmed b') (hv : view b = view b') :
    b = b' := by
  rcases hb with hb | hb <;> rcases hb' with hb' | hb'
  · exact h.notarized_unique hb hb' hv
  · obtain ⟨i, hi, h₁, h₂⟩ := hb.common hb'
    exact (h.finalize_notarize i hi b' b h₂ h₁ hv.symm).symm
  · obtain ⟨i, hi, h₁, h₂⟩ := hb.common hb'
    exact h.finalize_notarize i hi b b' h₁ h₂ hv
  · obtain ⟨i, hi, h₁, h₂⟩ := hb.common hb'
    exact h.finalize_unique i hi b b' h₁ h₂ hv

/-- **No view is both finalized and skipped.** -/
theorem Sound.finalized_not_nullified (h : v.Sound view parent Q)
    (hb : (v.facts Q).finalized b) : ¬ (v.facts Q).nullified (view b) := by
  intro hn
  obtain ⟨i, hi, h₁, h₂⟩ := hb.common hn
  exact h.finalize_nullify i hi b h₁ h₂

theorem Sound.confirmed_extends (h : v.Sound view parent Q)
    (hb : (v.facts Q).Confirmed b) : (v.facts Q).Extends view parent b := by
  rcases hb with hb | hb
  · obtain ⟨i, hi, hvt⟩ := hb.honest
    exact h.notarize_extends i hi b hvt
  · obtain ⟨i, hi, hvt⟩ := hb.honest
    exact h.finalize_extends i hi b hvt

/-- **The parent links of a confirmed block lead to every block finalized before it.** -/
theorem Sound.chain (h : v.Sound view parent Q) {c : B} (hc : (v.facts Q).finalized c)
    (hb : (v.facts Q).Confirmed b) (hv : view c ≤ view b) :
    Relation.ReflTransGen ((v.facts Q).Link view parent) b c := by
  -- by strong induction on the view of the later block
  induction hw : view b using Nat.strong_induction_on generalizing b with
  | _ w ih =>
    subst hw
    rcases Nat.eq_or_lt_of_le hv with hv | hv
    · rw [h.confirmed_unique (.inr hc) hb hv]
    · have he := h.confirmed_extends hb
      -- the parent is not below the finalized view: that view would be skipped
      have hle : view c ≤ parent b := by
        by_contra hlt
        exact h.finalized_not_nullified hc (he.skipped _ (Nat.lt_of_not_le hlt) hv)
      have hp : 0 < view c :=
        Nat.lt_of_le_of_lt (Nat.zero_le _) (h.confirmed_extends (.inr hc)).below
      rcases he.parent with h₀ | ⟨b', hv', hb'⟩
      · omega
      · have hr := ih (view b') (hv' ▸ he.below) hb' (hv' ▸ hle) rfl
        exact Relation.ReflTransGen.head ⟨hv', hb'⟩ hr

end

end Ballots

end ChainVoting
