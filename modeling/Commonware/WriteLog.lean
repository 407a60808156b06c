/-
**Handlers that write a log.**

A process appends to a log while it handles an event.  It may stop in the middle of an event, by a
failed assertion or a crash, and what remains is the log up to that point.  So a handler has to keep
two promises: the state after the event satisfies the invariant of the process, and every log on the
way can be recovered from.

Main definitions:

* `WriteLog.Throughout` — a property of all logs on the way from one to another;
* `WriteLog.Halt` — a process that has stopped;
* `WriteLog.Promise`, `WriteLog.Promise.Keeps` — the two promises, and the handlers that keep them.

Main results:

* `WriteLog.Promise.Keeps.bind` — **handlers that keep the promises compose**.
-/

import Mathlib.Data.List.Infix

set_option autoImplicit false

namespace WriteLog

variable {α : Type}

/-! ### All logs on the way -/

section

variable {P : List α → Prop} {u v w : List α}

/-- The log `v` extends `u`, and every log from `u` to `v` has the property. -/
structure Throughout (P : List α → Prop) (u v : List α) : Prop where
  le : u <+: v
  holds : ∀ w, u <+: w → w <+: v → P w

theorem Throughout.refl (h : P u) : Throughout P u u := by
  refine ⟨List.prefix_refl u, fun w huw hwu => ?_⟩
  rw [List.IsPrefix.eq_of_length_le huw hwu.length_le] at h
  exact h

theorem Throughout.snoc {x : α} (h : Throughout P u v) (hx : P (v ++ [x])) :
    Throughout P u (v ++ [x]) := by
  refine ⟨h.le.trans (List.prefix_append v [x]), fun w huw hwx => ?_⟩
  rcases List.prefix_concat_iff.1 hwx with rfl | hwv
  · exact hx
  · exact h.holds w huw hwv

theorem Throughout.trans (h : Throughout P u v) (h' : Throughout P v w) : Throughout P u w := by
  refine ⟨h.le.trans h'.le, fun x hux hxw => ?_⟩
  -- two prefixes of `w` are comparable
  rcases List.prefix_or_prefix_of_prefix hxw h'.le with hxv | hvx
  · exact h.holds x hux hxv
  · exact h'.holds x hvx hxw

end

/-! ### Handlers -/

/-- A process that has stopped, with what it has written. -/
structure Halt (F α : Type) where
  fault : F
  log : List α

/-- The invariant of a process with a log, and the logs that can be recovered from. -/
structure Promise (S α : Type) where
  log : S → List α
  Inv : S → Prop
  Safe : List α → Prop
  safe : ∀ s, Inv s → Safe (log s)

namespace Promise

variable {S F β γ : Type} (p : Promise S α)

/-- The handler ends in a state with the invariant, and every log on the way is safe. -/
def Keeps (state : β → S) (s : S) : Except (Halt F α) β → Prop
  | .ok r => p.Inv (state r) ∧ Throughout p.Safe (p.log s) (p.log (state r))
  | .error halt => Throughout p.Safe (p.log s) halt.log

/-- The log after a handler that is over, or that has stopped the process. -/
def written (log : S → List α) : Except (Halt F α) S → List α
  | .ok s => log s
  | .error halt => halt.log

variable {p} {state : β → S} {state' : γ → S} {s s' : S}

/-- Nothing is written. -/
theorem Keeps.of_inv {r : β} (h : p.Inv (state r)) (hl : p.log (state r) = p.log s) :
    p.Keeps (F := F) state s (.ok r) := by
  refine ⟨h, ?_⟩
  rw [hl]
  exact .refl (hl ▸ p.safe _ h)

theorem Keeps.halt (h : p.Inv s) {halt : Halt F α} (hl : halt.log = p.log s) :
    p.Keeps state s (.error halt) := by
  change Throughout _ _ halt.log
  rw [hl]
  exact .refl (p.safe s h)

variable {r : Except (Halt F α) β}

/-- The handler starts from a state with the same log. -/
theorem Keeps.of_eq (h : p.Keeps state s' r) (hl : p.log s' = p.log s) : p.Keeps state s r := by
  cases r with
  | error halt =>
    change Throughout _ _ _ at h ⊢
    exact hl ▸ h
  | ok r => exact ⟨h.1, hl ▸ h.2⟩

/-- What was written before. -/
theorem Keeps.after (h : p.Keeps state s' r) (hbf : Throughout p.Safe (p.log s) (p.log s')) :
    p.Keeps state s r := by
  cases r with
  | error halt => exact hbf.trans h
  | ok r => exact ⟨h.1, hbf.trans h.2⟩

variable {f : β → Except (Halt F α) γ}

theorem Keeps.bind_eq (h : p.Keeps state s r)
    (hf : ∀ b, r = .ok b → p.Inv (state b) → p.Keeps state' (state b) (f b)) :
    p.Keeps state' s (r >>= f) := by
  cases r with
  | error halt => exact h
  | ok b => exact (hf b rfl h.1).after h.2

/-- **Handlers that keep the promises compose.** -/
theorem Keeps.bind (h : p.Keeps state s r)
    (hf : ∀ b, p.Inv (state b) → p.Keeps state' (state b) (f b)) :
    p.Keeps state' s (r >>= f) := h.bind_eq fun b _ => hf b

theorem Keeps.fst {r : Except (Halt F α) (S × β)} (h : p.Keeps Prod.fst s r) :
    p.Keeps id s (r.map Prod.fst) := by
  cases r with
  | error | ok => exact h

/-- All logs on the way are safe, also if the process stops. -/
theorem Keeps.throughout {r : Except (Halt F α) S} (h : p.Keeps id s r) :
    Throughout p.Safe (p.log s) (written p.log r) := by
  cases r with
  | error halt => exact h
  | ok s' => exact h.2

end Promise

end WriteLog
