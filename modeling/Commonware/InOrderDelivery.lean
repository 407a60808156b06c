/-
**Delivery in order.**

What a consumer of a chain of blocks may rely on: blocks are reported one at a time, each one above
the height that has been processed and on top of the block that was processed last; the processed
height is raised by an acknowledgement of the block that was reported, or moved to a floor that is
not below it; after a restart the block that was not acknowledged may be reported again.

The requirement is an automaton that reads what happens and stops at the first violation.

Main definitions:

* `Delivery.Notice`, `Delivery.step`, `Delivery.run` — what happens, and the automaton.

Main results:

* `Delivery.reported_spec` — what is known of a block that may be reported;
* `Delivery.height_le_run` — **the processed height never falls**.
-/

import Commonware.BlockTree
import Mathlib.Data.List.Infix

set_option autoImplicit false

namespace Delivery

variable {B C : Type}

/-- What happens between a producer of blocks and their consumer. -/
inductive Notice (B C : Type)
  | reported (block : B)
  /-- The consumer has acknowledged the block. -/
  | processed (height : ℕ) (commitment : C)
  /-- The processed height is set from outside. -/
  | floor (height : ℕ)
  | restarted
  deriving DecidableEq

/-- The processed height, the commitment of the block that was processed last unless the floor has
been set since, and the block that waits for its acknowledgement. -/
structure State (B C : Type) where
  height : ℕ
  last : Option C
  pending : Option B

variable [DecidableEq C] (T : BlockTree B C)

def step (s : State B C) : Notice B C → Option (State B C)
  | .reported b =>
    if s.pending.isNone ∧ T.height b = s.height + 1 ∧
        s.last.all (fun c => decide (T.parent b = c)) then some { s with pending := some b }
    else none
  | .processed height commitment =>
    match s.pending with
    | none => none
    | some b =>
      if T.height b = height ∧ T.commitment b = commitment then
        some ⟨height, some commitment, none⟩
      else none
  | .floor height => if s.height ≤ height then some ⟨height, none, none⟩ else none
  | .restarted => some { s with pending := none }

/-- The state after all notices, if none of them is a violation. -/
def run (notices : List (Notice B C)) : Option (State B C) :=
  notices.foldlM (step T) ⟨0, none, none⟩

theorem run_append (l l' : List (Notice B C)) :
    run T (l ++ l') = (run T l).bind fun s => l'.foldlM (step T) s := by
  rw [run, List.foldlM_append]
  rfl

theorem run_snoc (l : List (Notice B C)) (n : Notice B C) :
    run T (l ++ [n]) = (run T l).bind fun s => step T s n := by
  rw [run_append]
  simp

variable {T} {s s' : State B C} {n : Notice B C}

/-- **What is known of a block that may be reported.** -/
theorem reported_spec {b : B} (h : step T s (.reported b) = some s') :
    s.pending = none ∧ T.height b = s.height + 1 ∧ (∀ c, s.last = some c → T.parent b = c) ∧
      s' = { s with pending := some b } := by
  rw [step] at h
  split_ifs at h with hok
  cases h
  obtain ⟨hpn, hh, hls⟩ := hok
  refine ⟨Option.isNone_iff_eq_none.1 hpn, hh, fun c hc => ?_, rfl⟩
  rw [hc] at hls
  exact of_decide_eq_true hls

theorem processed_spec {height : ℕ} {commitment : C}
    (h : step T s (.processed height commitment) = some s') :
    ∃ b, s.pending = some b ∧ T.height b = height ∧ T.commitment b = commitment ∧
      s' = ⟨height, some commitment, none⟩ := by
  rw [step] at h
  cases hpn : s.pending with
  | none => simp [hpn] at h
  | some b =>
    simp only [hpn] at h
    split_ifs at h with hok
    cases h
    exact ⟨b, rfl, hok.1, hok.2, rfl⟩

variable (T) in
/-- The block that waits is the next one. -/
def Next (s : State B C) : Prop := ∀ b, s.pending = some b → T.height b = s.height + 1

omit [DecidableEq C] in
theorem next_idle (height : ℕ) (last : Option C) : Next T (⟨height, last, none⟩ : State B C) := by
  intro b hb
  cases hb

theorem Next.step (hs : Next T s) (h : step T s n = some s') :
    Next T s' ∧ s.height ≤ s'.height := by
  cases n with
  | reported b =>
    obtain ⟨-, hh, -, rfl⟩ := reported_spec h
    refine ⟨fun b' hb' => ?_, le_rfl⟩
    cases hb'
    exact hh
  | processed height commitment =>
    obtain ⟨b, hb, hh, -, rfl⟩ := processed_spec h
    refine ⟨next_idle _ _, ?_⟩
    have := hs b hb
    change s.height ≤ height
    omega
  | floor height =>
    rw [Delivery.step] at h
    split_ifs at h with hle
    cases h
    exact ⟨next_idle _ _, hle⟩
  | restarted =>
    cases h
    exact ⟨next_idle _ _, le_rfl⟩

variable {l : List (Notice B C)}

theorem Next.foldlM (hs : Next T s)
    (h : l.foldlM (Delivery.step T) s = some s') : Next T s' ∧ s.height ≤ s'.height := by
  induction l generalizing s with
  | nil =>
    cases h
    exact ⟨hs, le_rfl⟩
  | cons n l ih =>
    rw [List.foldlM_cons] at h
    obtain ⟨s₁, hst, hr⟩ := Option.bind_eq_some_iff.1 h
    obtain ⟨hs₁, hle⟩ := hs.step hst
    obtain ⟨hs', hle'⟩ := ih hs₁ hr
    exact ⟨hs', hle.trans hle'⟩

theorem Next.run (h : run T l = some s) : Next T s :=
  ((next_idle 0 none).foldlM h).1

/-- **The processed height never falls**, and what happened before was in order. -/
theorem height_le_run {l' : List (Notice B C)} (hl : l <+: l') (h : run T l' = some s') :
    ∃ s, run T l = some s ∧ s.height ≤ s'.height := by
  obtain ⟨rest, rfl⟩ := hl
  rw [run_append] at h
  obtain ⟨s, hs, hr⟩ := Option.bind_eq_some_iff.1 h
  exact ⟨s, hs, ((Next.run hs).foldlM hr).2⟩

end Delivery
