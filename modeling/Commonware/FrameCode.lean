/-
**Messages with their lengths behind them.**

A message is framed by writing a code of its length *after* it.  A code is a string of symbols that
say that the code goes on, and one symbol that says that it ends.  Read from the end, a string of
frames does not always determine the messages: symbols at the end of a message may be taken for the
beginning of the code of a longer one.

Main definitions:

* `FrameCode.LengthCode` — codes of lengths;
* `FrameCode.frames` — the string of some messages;
* `FrameCode.Apart` — the two lists of messages cannot be confused.

Main results:

* `FrameCode.last_frame` — **what two last frames have in common**;
* `FrameCode.frames_inj` — **the messages of two strings are the same** if they are apart.
-/

import Mathlib.Data.List.Basic
import Mathlib.Data.List.Induction
import Mathlib.Algebra.Order.Group.Nat

set_option autoImplicit false

namespace FrameCode

open List

variable {α : Type}

/-- Codes of lengths: all symbols but the last one say that there are more. -/
structure LengthCode (more : α → Prop) where
  code : ℕ → List α
  split : ∀ n, ∃ start stop, code n = start ++ [stop] ∧ (∀ x ∈ start, more x) ∧ ¬ more stop
  injective : Function.Injective code

variable {more : α → Prop} (c : LengthCode more)

def frame (m : List α) : List α := m ++ c.code m.length

/-- The string of some messages. -/
def frames (ms : List (List α)) : List α := ms.flatMap (frame c)

/-- The message ends with a symbol that could belong to a code. -/
def EndsMore (more : α → Prop) (m : List α) : Prop := ∃ x ∈ m.getLast?, more x

/-- The code of the length of the message has more than one symbol. -/
def Long (m : List α) : Prop := 1 < (c.code m.length).length

/-- No message of the one list can be taken for a part of a message of the other one. -/
def Apart (ms ms' : List (List α)) : Prop :=
  (∀ m ∈ ms, ∀ m' ∈ ms', ¬ (EndsMore more m ∧ Long c m')) ∧
    ∀ m ∈ ms, ∀ m' ∈ ms', ¬ (EndsMore more m' ∧ Long c m)

variable {c}

theorem Apart.mono {ms ms' ns ns' : List (List α)} (h : Apart c ns ns') (hs : ms ⊆ ns)
    (hs' : ms' ⊆ ns') : Apart c ms ms' :=
  ⟨fun m hm m' hm' => h.1 m (hs hm) m' (hs' hm'),
    fun m hm m' hm' => h.2 m (hs hm) m' (hs' hm')⟩

@[simp] theorem frames_nil : frames c [] = [] := rfl

theorem frames_append (ms ms' : List (List α)) :
    frames c (ms ++ ms') = frames c ms ++ frames c ms' := flatMap_append

theorem frames_snoc (ms : List (List α)) (m : List α) :
    frames c (ms ++ [m]) = frames c ms ++ m ++ c.code m.length := by
  rw [frames_append, append_assoc]
  simp [frames, frame]

/-- A string that ends with a symbol of the end of a code, or is such a symbol. -/
def Stops (more : α → Prop) (s : List α) : Prop := ∃ x ∈ s.getLast?, ¬ more x

variable {s : List α}

theorem stops_append {t : List α} (ht : Stops more t) : Stops more (s ++ t) := by
  obtain ⟨x, hx, hmr⟩ := ht
  refine ⟨x, ?_, hmr⟩
  rw [List.getLast?_append]
  simp only [Option.mem_def] at hx ⊢
  rw [hx]
  rfl

theorem stops_code (n : ℕ) : Stops more (c.code n) := by
  obtain ⟨start, stop, hcd, -, hst⟩ := c.split n
  exact ⟨stop, by simp [hcd], hst⟩

theorem stops_frames (hs : Stops more s) (ms : List (List α)) :
    Stops more (s ++ frames c ms) := by
  induction ms using List.reverseRecOn with
  | nil => simpa using hs
  | append_singleton ms m _ =>
    rw [frames_snoc, ← append_assoc]
    exact stops_append (stops_code m.length)

/-- A longer code ends with a shorter one, and goes on before that. -/
theorem more_of_code {n : ℕ} {w rest : List α} (h : c.code n = w ++ rest) (hr : rest ≠ []) :
    ∀ x ∈ w, more x := by
  intro x hx
  obtain ⟨start, stop, hcd, hst, -⟩ := c.split n
  obtain ⟨rest', y, rfl⟩ := (eq_nil_or_concat' rest).resolve_left hr
  rw [hcd, ← append_assoc] at h
  obtain ⟨rfl, -⟩ := append_inj' h rfl
  exact hst x (mem_append_left _ hx)

/-- What is before the code of a shorter length ends like a message, unless the codes are the same. -/
theorem endsMore_of_suffix {m s' : List α} {n n' : ℕ} (hs : Stops more s)
    (h : s ++ m ++ c.code n = s' ++ c.code n') (hlt : (c.code n).length < (c.code n').length) :
    EndsMore more m := by
  obtain ⟨w, hw⟩ : ∃ w, c.code n' = w ++ c.code n := by
    have hsf : c.code n <:+ s' ++ c.code n' := by
      rw [← h]
      exact suffix_append _ _
    obtain ⟨w, hw⟩ := suffix_of_suffix_length_le hsf (suffix_append _ _) hlt.le
    exact ⟨w, hw.symm⟩
  have hne : c.code n ≠ [] := by
    obtain ⟨start, stop, hcd, -, -⟩ := c.split n
    rw [hcd]
    simp
  have hmr := more_of_code hw hne
  have hps : w ≠ [] := by
    rintro rfl
    rw [hw, nil_append] at hlt
    exact hlt.false
  rw [hw, ← append_assoc] at h
  have hp : s ++ m = s' ++ w := append_cancel_right h
  obtain ⟨w', x, rfl⟩ := (eq_nil_or_concat' w).resolve_left hps
  have hls : (s ++ m).getLast? = some x := by
    rw [hp, ← append_assoc]
    simp
  rcases eq_nil_or_concat' m with rfl | ⟨m', y, rfl⟩
  · -- the string before the frame would end like a message
    obtain ⟨y, hy, hst⟩ := hs
    rw [append_nil, Option.mem_def.1 hy] at hls
    cases hls
    exact absurd (hmr x (by simp)) hst
  · rw [← append_assoc, List.getLast?_append] at hls
    simp only [List.getLast?_singleton, Option.or, Option.some.injEq] at hls
    exact ⟨y, by simp, hls ▸ hmr x (by simp)⟩

/-- **The last frames of a string.**  They are the same, or one message ends like the code of the
other one. -/
theorem last_frame {s' m m' : List α} (hs : Stops more s) (hs' : Stops more s')
    (h : s ++ m ++ c.code m.length = s' ++ m' ++ c.code m'.length) :
    (s = s' ∧ m = m') ∨ (EndsMore more m ∧ Long c m') ∨ (EndsMore more m' ∧ Long c m) := by
  have hps : ∀ n, 1 ≤ (c.code n).length := by
    intro n
    obtain ⟨start, stop, hcd, -, -⟩ := c.split n
    rw [hcd]
    simp
  rcases Nat.lt_trichotomy (c.code m.length).length (c.code m'.length).length with hlt | heq | hgt
  · exact .inr (.inl ⟨endsMore_of_suffix hs h hlt, (hps _).trans_lt hlt⟩)
  · obtain ⟨hp, hcd⟩ := append_inj' h heq
    have hlen : m.length = m'.length := c.injective hcd
    exact .inl (append_inj' hp hlen)
  · exact .inr (.inr ⟨endsMore_of_suffix hs' h.symm hgt, (hps _).trans_lt hgt⟩)

theorem frame_ne_nil (m : List α) : frame c m ≠ [] := by
  obtain ⟨start, stop, hcd, -, -⟩ := c.split m.length
  simp [frame, hcd]

/-- **Strings of frames are apart if their messages are.** -/
theorem frames_inj (hs : Stops more s) {ms ms' : List (List α)} (ha : Apart c ms ms')
    (h : s ++ frames c ms = s ++ frames c ms') : ms = ms' := by
  -- from the last message on
  induction ms using List.reverseRecOn generalizing ms' with
  | nil =>
    rw [frames_nil, append_nil] at h
    have hnl : frames c ms' = [] := by simpa using h
    cases ms' with
    | nil => rfl
    | cons m ms' =>
      rw [frames, flatMap_cons, append_eq_nil_iff] at hnl
      exact absurd hnl.1 (frame_ne_nil m)
  | append_singleton ms m ih =>
    rcases eq_nil_or_concat' ms' with rfl | ⟨ms', m', rfl⟩
    · have hnl : frames c (ms ++ [m]) = [] := by simpa using h
      rw [frames_append, append_eq_nil_iff] at hnl
      have : frame c m = [] := by simpa [frames] using hnl.2
      exact absurd this (frame_ne_nil m)
    · rw [frames_snoc, frames_snoc, ← append_assoc, ← append_assoc,
        ← append_assoc, ← append_assoc] at h
      have hm : m ∈ ms ++ [m] := by simp
      have hm' : m' ∈ ms' ++ [m'] := by simp
      rcases last_frame (stops_frames hs ms) (stops_frames hs ms') h with ⟨hp, rfl⟩ | hbad | hbad
      · have hr := ih (ha.mono (subset_append_left _ _) (subset_append_left _ _)) hp
        rw [hr]
      · exact absurd hbad (ha.1 m hm m' hm')
      · exact absurd hbad (ha.2 m hm m' hm')

end FrameCode
