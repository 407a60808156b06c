/-
**Calls that may fail.**

Main results:

* `bind_eq_ok` — a sequence of two calls returns a value exactly if both of them do;
* `mapM_eq_ok_iff` — so does a call for every value of a list;
* `foldlM_keeps` — what every call keeps, a run of calls keeps.
-/

import Mathlib.Data.List.Forall2

set_option autoImplicit false

namespace Commonware

open List

variable {E α β : Type} {f : α → Except E β} {x : Except E α}

theorem bind_eq_ok {b : β} : x >>= f = .ok b ↔ ∃ a, x = .ok a ∧ f a = .ok b := by
  cases x with
  | error | ok => simp [bind, Except.bind]

theorem map_eq_ok {f : α → β} {b : β} :
    x.map f = .ok b ↔ ∃ a, x = .ok a ∧ f a = b := by
  cases x with
  | error | ok => simp [Except.map]

variable {l : List α} {r : List β}

theorem mapM_eq_ok_iff :
    l.mapM f = .ok r ↔ List.Forall₂ (fun a b => f a = .ok b) l r := by
  induction l generalizing r with
  | nil =>
    rw [mapM_nil, forall₂_nil_left_iff]
    exact ⟨fun h => (Except.ok.inj h).symm, fun h => congrArg Except.ok h.symm⟩
  | cons a l ih =>
    rw [mapM_cons, bind_eq_ok, forall₂_cons_left_iff]
    constructor
    · rintro ⟨b, hb, hrs⟩
      obtain ⟨bs, hbs, hr⟩ := bind_eq_ok.1 hrs
      exact ⟨b, bs, hb, ih.1 hbs, (Except.ok.inj hr).symm⟩
    · rintro ⟨b, bs, hb, hbs, rfl⟩
      exact ⟨b, hb, bind_eq_ok.2 ⟨bs, ih.2 hbs, rfl⟩⟩

/-- If a call for every value of a list returns, then so does the call for one of them. -/
theorem exists_of_mapM_eq_ok (h : l.mapM f = .ok r) {a : α} (ha : a ∈ l) :
    ∃ b, f a = .ok b := by
  rw [mapM_eq_ok_iff] at h
  induction h with
  | nil => cases ha
  | @cons a' b l r hab hr ih =>
    rcases mem_cons.1 ha with rfl | ha
    · exact ⟨b, hab⟩
    · exact ih ha

theorem mapM_eq_ok {g : α → β} (hf : ∀ x ∈ l, f x = .ok (g x)) :
    l.mapM f = .ok (l.map g) := by
  induction l with
  | nil => rfl
  | cons x l ih =>
    rw [mapM_cons, hf x mem_cons_self, ih fun y hy => hf y (mem_cons_of_mem x hy)]
    rfl

variable {S : Type} {l : List α}

/-- **What every call keeps, a run of calls keeps.** -/
theorem foldlM_keeps {step : S → α → Except E S} {P : S → Prop} {s s' : S}
    (hst : ∀ {s s' a}, a ∈ l → P s → step s a = .ok s' → P s') (hs : P s)
    (h : l.foldlM step s = .ok s') : P s' := by
  induction l generalizing s with
  | nil =>
    cases h
    exact hs
  | cons a l ih =>
    obtain ⟨s₁, h₁, h⟩ := bind_eq_ok.1 h
    exact ih (fun ha => hst (mem_cons_of_mem _ ha)) (hst mem_cons_self hs h₁) h

/-- A run of calls none of which fails. -/
theorem foldlM_eq_pure {M : Type → Type} [Monad M] [LawfulMonad M] {step : S → α → M S}
    {g : S → α → S} {s : S} (h : ∀ s, ∀ a ∈ l, step s a = pure (g s a)) :
    l.foldlM step s = pure (l.foldl g s) := by
  induction l generalizing s with
  | nil => rfl
  | cons a l ih =>
    rw [foldlM_cons, h s a mem_cons_self, pure_bind, ih fun s b hb => h s b (mem_cons_of_mem _ hb)]
    rfl

end Commonware
