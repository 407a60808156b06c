/-
**High-water marks.**

A register for every key that is only ever replaced by something of a higher rank.  Whoever signs
nothing but the current mark of a key never signs two different things of one key and one rank, no
matter how often the marks are lost and restored, as long as they are restored to where they were.

Main definitions:

* `HighWater.Rises` — marks that stay or become higher;
* `HighWater.Agreed` — what has been signed is at or below the marks, and unique for its rank.

Main results:

* `HighWater.Agreed.rise`, `HighWater.Agreed.signAll` — agreement survives when marks rise and when
  marks are signed.
-/

import Mathlib.Order.Basic

set_option autoImplicit false

namespace HighWater

open List

variable {K A R : Type} [Preorder R] {rank : A → R} {key : A → K}

/-- Something is the mark, or strictly below it. -/
def AtOrBelow (rank : A → R) (a b : A) : Prop := a = b ∨ rank a < rank b

theorem AtOrBelow.trans {a b c : A} (hab : AtOrBelow rank a b) (hbc : AtOrBelow rank b c) :
    AtOrBelow rank a c := by
  rcases hab with rfl | hab
  · exact hbc
  · rcases hbc with rfl | hbc
    · exact .inr hab
    · exact .inr (hab.trans hbc)

/-- Every mark stays, or is replaced by a higher one. -/
def Rises (rank : A → R) (top top' : K → Option A) : Prop :=
  ∀ k a, top k = some a → ∃ b, top' k = some b ∧ AtOrBelow rank a b

theorem Rises.refl (top : K → Option A) : Rises rank top top := by
  intro k a h
  exact ⟨a, h, .inl rfl⟩

theorem Rises.trans {top₁ top₂ top₃ : K → Option A} (h₁₂ : Rises rank top₁ top₂)
    (h₂₃ : Rises rank top₂ top₃) : Rises rank top₁ top₃ := by
  intro k a ha
  obtain ⟨b, hb, hab⟩ := h₁₂ k a ha
  obtain ⟨c, hc, hbc⟩ := h₂₃ k b hb
  exact ⟨c, hc, hab.trans hbc⟩

/-- What has been signed is at or below the mark of its key, and there is one thing for each rank. -/
structure Agreed (rank : A → R) (key : A → K) (top : K → Option A) (signed : List A) : Prop where
  covered : ∀ a ∈ signed, ∃ b, top (key a) = some b ∧ AtOrBelow rank a b
  unique : ∀ a ∈ signed, ∀ b ∈ signed, key a = key b → rank a = rank b → a = b

theorem Agreed.nil (top : K → Option A) : Agreed rank key top [] := ⟨by simp, by simp⟩

variable {top : K → Option A} {signed : List A}

theorem Agreed.rise {top' : K → Option A}
    (h : Agreed rank key top signed) (hr : Rises rank top top') : Agreed rank key top' signed := by
  refine ⟨?_, h.unique⟩
  intro a ha
  obtain ⟨b, hb, hab⟩ := h.covered a ha
  obtain ⟨c, hc, hbc⟩ := hr _ b hb
  exact ⟨c, hc, hab.trans hbc⟩

theorem Agreed.sign {a : A}
    (h : Agreed rank key top signed) (ha : top (key a) = some a) :
    Agreed rank key top (signed ++ [a]) := by
  -- what was signed before is at the mark or strictly below it
  have hol : ∀ b ∈ signed, key b = key a → rank b = rank a → b = a := by
    intro b hb hky hrn
    obtain ⟨c, hc, hbc⟩ := h.covered b hb
    rw [hky, ha, Option.some_inj] at hc
    rcases hbc with rfl | hlt
    · exact hc.symm
    · rw [← hc, hrn] at hlt
      exact absurd hlt (lt_irrefl _)
  constructor
  · intro b hb
    rcases mem_append.1 hb with hb | hb
    · exact h.covered b hb
    · rw [mem_singleton.1 hb]
      exact ⟨a, ha, .inl rfl⟩
  · intro b hb c hc hky hrn
    rcases mem_append.1 hb with hb | hb <;> rcases mem_append.1 hc with hc | hc
    · exact h.unique b hb c hc hky hrn
    · rw [mem_singleton.1 hc] at hky hrn ⊢
      exact hol b hb hky hrn
    · rw [mem_singleton.1 hb] at hky hrn ⊢
      exact (hol c hc hky.symm hrn.symm).symm
    · rw [mem_singleton.1 hb, mem_singleton.1 hc]

theorem Agreed.signAll {new : List A}
    (h : Agreed rank key top signed) (hnw : ∀ a ∈ new, top (key a) = some a) :
    Agreed rank key top (signed ++ new) := by
  induction new generalizing signed with
  | nil => rwa [append_nil]
  | cons a new ih =>
    rw [append_cons]
    exact ih (h.sign (hnw a mem_cons_self)) fun b hb => hnw b (mem_cons_of_mem a hb)

end HighWater
