/-
**The channel that tracks delivery** (`utils/src/channels/tracked.rs`).

A message carries an `Arc` of a guard, and the destructor of the guard marks the message as
delivered, moves the watermark over the delivered messages that follow it and takes the message
off the count of its batch.  Where a reference to a guard is kept does not matter to the tracker:
in the channel, in a send that waits or was cancelled, in the error of a failed `try_send` or with
the receiver.  A run is therefore a list of the steps that create and destroy references.

Cloning the `Guard` and not its `Arc` makes a second value with the same destructor.  The first
of the two to go reports a message that is still held, and the second fails on an entry that is
gone (`guard_clone_reports_twice`).  Without such clones the reports are exact
(`deliveries_exact`).
-/

import Mathlib.Algebra.Order.Group.Nat
import Mathlib.Data.List.Dedup
import Mathlib.Data.List.Perm.Basic
import Mathlib.Order.Bounds.Basic

set_option autoImplicit false

namespace Commonware.Tracked

open Function List

variable {B : Type}

/-! ### The tracker -/

structure State (B : Type) where
  next : ℕ := 1
  watermark : ℕ := 0
  batches : B → Option ℕ := fun _ => none
  pending : ℕ → Option Bool := fun _ => none

structure Guard (B : Type) where
  sequence : ℕ
  batch : Option B

/-- The loop of `Guard::drop`.  Every round removes an entry, and the entries are below `next`,
which is therefore enough fuel. -/
def State.advance : ℕ → State B → State B
  | 0, s => s
  | fuel + 1, s =>
    if s.pending (s.watermark + 1) = some true then
      advance fuel
        { s with
          pending := update s.pending (s.watermark + 1) none
          watermark := s.watermark + 1 }
    else s

variable [DecidableEq B]

/-- One more message of a batch. -/
def count (batches : B → Option ℕ) : Option B → B → Option ℕ
  | none => batches
  | some b => update batches b (some ((batches b).getD 0 + 1))

/-- One message less; `none` is the failed `unwrap` of a batch without an entry. -/
def uncount (batches : B → Option ℕ) : Option B → Option (B → Option ℕ)
  | none => some batches
  | some b => (batches b).map fun count =>
    update batches b (if 1 < count then some (count - 1) else none)

/-- `Tracker::guard`; `none` is the overflow of the sequence number, which poisons the lock. -/
def State.guard (s : State B) (batch : Option B) : Option (State B × Guard B) :=
  if s.next + 1 < 2 ^ 64 then
    some
      ({ s with
          next := s.next + 1
          pending := update s.pending s.next (some false)
          batches := count s.batches batch },
        ⟨s.next, batch⟩)
  else none

/-- `Guard::drop`; `none` is a failed `unwrap`. -/
def Guard.drop (g : Guard B) (s : State B) : Option (State B) := do
  let _ ← s.pending g.sequence
  let s := State.advance s.next
    { s with pending := update s.pending g.sequence (some true) }
  let batches ← uncount s.batches g.batch
  some { s with batches }

/-! ### Runs -/

/-- A guard value and the number of references to it beyond the first. -/
structure Handle (B : Type) where
  guard : Guard B
  others : ℕ

/-- The tracker and the guard values that have not been destroyed. -/
structure System (B : Type) where
  state : State B := {}
  handles : List (Handle B) := []

/-- What a program does with guards; a number is the position of a guard value that is alive. -/
inductive Op (B : Type)
  /-- `send` or `try_send`, whatever becomes of the message. -/
  | send (batch : Option B)
  /-- A clone of the `Arc`. -/
  | cloneArc (i : ℕ)
  /-- A clone of the `Guard` behind the `Arc`. -/
  | cloneGuard (i : ℕ)
  /-- A reference goes out of scope. -/
  | drop (i : ℕ)

def Op.isSend : Op B → Bool
  | .send _ => true
  | _ => false

namespace System

def step (s : System B) : Op B → Option (System B)
  | .send batch => do
    let (state, guard) ← s.state.guard batch
    some ⟨state, ⟨guard, 0⟩ :: s.handles⟩
  | .cloneArc i =>
    some { s with handles := s.handles.modify i fun h => { h with others := h.others + 1 } }
  | .cloneGuard i =>
    match s.handles[i]? with
    | some h => some { s with handles := ⟨h.guard, 0⟩ :: s.handles }
    | none => some s
  | .drop i =>
    match s.handles[i]? with
    | some ⟨guard, 0⟩ => do
      let state ← guard.drop s.state
      some ⟨state, s.handles.eraseIdx i⟩
    | some ⟨_, _ + 1⟩ =>
      some { s with handles := s.handles.modify i fun h => { h with others := h.others - 1 } }
    | none => some s

def run (ops : List (Op B)) : Option (System B) := ops.foldlM step {}

def live (s : System B) : List (Guard B) := s.handles.map Handle.guard

/-- `Sender::watermark`. -/
def watermark (s : System B) : ℕ := s.state.watermark

/-- `Sender::pending`. -/
def pending (s : System B) (b : B) : ℕ := (s.state.batches b).getD 0

/-- The messages of a batch that some guard value still holds. -/
def held (s : System B) (b : B) : List ℕ :=
  ((s.live.filter (·.batch = some b)).map Guard.sequence).dedup

/-- The watermark is the largest number up to which no message is held, and the count of a batch
is the number of its messages that are. -/
def Exact (s : System B) : Prop :=
  IsGreatest {w | w < s.state.next ∧ ∀ g ∈ s.live, w < g.sequence} s.watermark ∧
    ∀ b, s.pending b = (s.held b).length

end System

/-! ### The tracker follows the guards -/

/-- The entries of the tracker belong to the messages after the watermark, and an entry says
whether a guard is left; each message has at most one guard value. -/
structure Follows (s : State B) (live : List (Guard B)) : Prop where
  nodup : (live.map Guard.sequence).Nodup
  lt : s.watermark < s.next
  mem : ∀ g ∈ live, s.watermark < g.sequence ∧ g.sequence < s.next
  pending : ∀ q, s.pending q =
    if s.watermark < q ∧ q < s.next then some (decide (q ∉ live.map Guard.sequence)) else none

/-- The count of every batch, where an entry is never zero. -/
def Counts (batches : B → Option ℕ) (live : List (Guard B)) : Prop :=
  ∀ b, (batches b).getD 0 = live.countP (·.batch = some b) ∧ batches b ≠ some 0

omit [DecidableEq B] in
theorem advance_frame (fuel : ℕ) (s : State B) :
    (s.advance fuel).next = s.next ∧ (s.advance fuel).batches = s.batches := by
  induction fuel generalizing s with
  | zero => exact ⟨rfl, rfl⟩
  | succ fuel ih =>
    rw [State.advance]
    split
    · exact ih _
    · exact ⟨rfl, rfl⟩

variable {live : List (Guard B)} {s : State B}

omit [DecidableEq B] in
/-- The loop keeps the entries right and ends before a message that is not delivered. -/
theorem Follows.advance (fuel : ℕ) (h : Follows s live)
    (hf : s.next ≤ s.watermark + 1 + fuel) : Follows (s.advance fuel) live ∧
      (s.advance fuel).pending ((s.advance fuel).watermark + 1) ≠ some true := by
  induction fuel generalizing s with
  | zero =>
    refine ⟨h, ?_⟩
    rw [State.advance, h.pending, if_neg (by omega)]
    exact nofun
  | succ fuel ih =>
    rw [State.advance]
    split
    next hp =>
      rw [h.pending] at hp
      have hw : s.watermark + 1 < s.next := by grind
      refine ih ⟨h.nodup, hw, fun g hg => ?_, fun q => ?_⟩ (by simp only; omega)
      · grind [h.mem g hg]
      · grind [h.pending q, update_apply]
    next hp => exact ⟨h, hp⟩

variable {batches : B → Option ℕ}

theorem Counts.count (h : Counts batches live)
    (g : Guard B) : Counts (count batches g.batch) (g :: live) := by
  intro b
  cases hg : g.batch with
  | none => simpa [Tracked.count, hg] using h b
  | some c =>
    rw [Tracked.count]
    grind [h b, update_apply]

variable {g : Guard B}

theorem Counts.uncount
    (h : Counts batches (g :: live)) :
    ∃ batches', uncount batches g.batch = some batches' ∧ Counts batches' live := by
  cases hg : g.batch with
  | none => exact ⟨batches, rfl, fun b => by simpa [hg] using h b⟩
  | some c =>
    have hc := (h c).1
    cases hn : batches c with
    | none => simp [hn, hg] at hc
    | some n =>
      refine ⟨_, by rw [Tracked.uncount, hn]; rfl, fun b => ?_⟩
      grind [h b, update_apply]

/-- What holds after every step of a run without clones of guard values. -/
structure Tracks (s : State B) (live : List (Guard B)) : Prop extends Follows s live where
  stop : s.pending (s.watermark + 1) ≠ some true
  counts : Counts s.batches live

theorem Tracks.perm {live' : List (Guard B)} (h : Tracks s live)
    (hp : live.Perm live') : Tracks s live' where
  nodup := (hp.map _).nodup_iff.mp h.nodup
  lt := h.lt
  mem g hg := h.mem g (hp.mem_iff.mpr hg)
  pending q := by simpa only [(hp.map Guard.sequence).mem_iff] using h.pending q
  stop := h.stop
  counts b := by simpa only [hp.countP_eq] using h.counts b

theorem Tracks.guard {s' : State B} (h : Tracks s live)
    {batch : Option B} (hg : s.guard batch = some (s', g)) :
    Tracks s' (g :: live) := by
  rw [State.guard] at hg
  split at hg
  · obtain ⟨rfl, rfl⟩ := Prod.mk.inj (Option.some.inj hg)
    have hmem := h.mem
    have hlt := h.lt
    have hnw : s.next ∉ live.map Guard.sequence := by grind
    refine ⟨⟨nodup_cons.mpr ⟨hnw, h.nodup⟩, by simp only; omega, ?_, fun q => ?_⟩, ?_,
      h.counts.count ⟨s.next, batch⟩⟩
    · grind
    · grind [h.pending q, update_apply]
    · grind [h.stop, update_apply]
  · cases hg

/-- The destructor succeeds on a guard value that is the only one of its message. -/
theorem Tracks.drop (h : Tracks s (g :: live)) :
    ∃ s', g.drop s = some s' ∧ Tracks s' live ∧ s'.next = s.next := by
  have hnd := nodup_cons.mp h.nodup
  have hmem := h.mem g mem_cons_self
  have hmr : Follows
      { s with pending := update s.pending g.sequence (some true) } live := by
    refine ⟨hnd.2, h.lt, fun g' hg => h.mem g' (.tail _ hg), fun q => ?_⟩
    grind [h.pending q, update_apply]
  obtain ⟨hf, hst⟩ := hmr.advance s.next (by simp only; omega)
  obtain ⟨batches, hbt, hcn⟩ := h.counts.uncount
  refine ⟨{ State.advance s.next _ with batches }, ?_,
    { hf with stop := hst, counts := hcn }, (advance_frame s.next _).1⟩
  rw [Guard.drop, h.pending, if_pos hmem]
  simp only [Option.bind_eq_bind, Option.bind_some, (advance_frame s.next _).2, hbt]

omit [DecidableEq B] in
/-- The number of references to a guard value is not what the tracker follows. -/
theorem map_guard_modify (handles : List (Handle B)) (i : ℕ) (f : ℕ → ℕ) :
    handles.map Handle.guard =
      (handles.modify i fun h => { h with others := f h.others }).map Handle.guard := by
  induction handles generalizing i with
  | nil => cases i <;> rfl
  | cons h handles ih =>
    cases i with
    | zero => rfl
    | succ i => exact congrArg (h.guard :: ·) (ih i)

theorem Tracks.step {s : System B} (h : Tracks s.state s.live) (op : Op B)
    (hop : ∀ i, op ≠ .cloneGuard i) (hlt : s.state.next + (if op.isSend then 1 else 0) < 2 ^ 64) :
    ∃ s', s.step op = some s' ∧ Tracks s'.state s'.live ∧
      s'.state.next = s.state.next + if op.isSend then 1 else 0 := by
  cases op with
  | send batch =>
    have hg : s.state.guard batch = some (_, _) := if_pos hlt
    exact ⟨_, by rw [System.step, hg]; rfl, h.guard hg, rfl⟩
  | cloneArc i => exact ⟨_, rfl, h.perm (.of_eq (map_guard_modify _ i (· + 1))), rfl⟩
  | cloneGuard i => exact absurd rfl (hop i)
  | drop i =>
    rw [System.step]
    split
    next guard hi =>
      obtain ⟨hlt, he⟩ := List.getElem?_eq_some_iff.mp hi
      have hp := (List.getElem_cons_eraseIdx_perm hlt).symm.map Handle.guard
      rw [he] at hp
      obtain ⟨state, hdr, ht, hnx⟩ := (h.perm hp).drop
      exact ⟨_, by rw [hdr]; rfl, ht, hnx⟩
    · exact ⟨_, rfl, h.perm (.of_eq (map_guard_modify _ i (· - 1))), rfl⟩
    · exact ⟨s, rfl, h, rfl⟩

theorem Tracks.run (ops : List (Op B)) {s : System B} (h : Tracks s.state s.live)
    (hcl : ∀ i, .cloneGuard i ∉ ops) (hlt : s.state.next + ops.countP Op.isSend < 2 ^ 64) :
    ∃ s', ops.foldlM System.step s = some s' ∧ Tracks s'.state s'.live := by
  induction ops generalizing s with
  | nil => exact ⟨s, rfl, h⟩
  | cons op ops ih =>
    rw [countP_cons] at hlt
    obtain ⟨s', hst, ht, hnx⟩ := h.step op
      (fun i he => hcl i (he ▸ mem_cons_self)) (by omega)
    obtain ⟨s'', hr, ht⟩ := ih ht (fun i hi => hcl i (.tail _ hi)) (by omega)
    exact ⟨s'', by rw [foldlM_cons, hst]; exact hr, ht⟩

theorem Tracks.exact {s : System B} (h : Tracks s.state s.live) : s.Exact := by
  refine ⟨⟨⟨h.lt, fun g hg => (h.mem g hg).1⟩, fun w hw => ?_⟩, fun b => ?_⟩
  · by_contra hlt
    have hst := h.stop
    rw [h.pending] at hst
    grind [hw.1, hw.2, System.watermark]
  · have hnd := h.nodup.sublist
      ((s.live.filter_sublist (p := (·.batch = some b))).map Guard.sequence)
    rw [System.pending, (h.counts b).1, System.held, hnd.dedup, length_map,
      countP_eq_length_filter]

/-- Reports are exact as long as no guard value is cloned and the sequence numbers last. -/
theorem deliveries_exact (ops : List (Op B)) (hcl : ∀ i, .cloneGuard i ∉ ops)
    (hsn : ops.countP Op.isSend + 2 ≤ 2 ^ 64) : ∃ s, System.run ops = some s ∧ s.Exact := by
  have hin : Tracks (B := B) {} [] :=
    ⟨⟨nodup_nil, Nat.one_pos, nofun, fun q => (if_neg (by simp only; omega)).symm⟩, nofun,
      fun b => ⟨rfl, nofun⟩⟩
  obtain ⟨s, hr, ht⟩ := Tracks.run ops (s := {}) hin hcl (by simp only; omega)
  exact ⟨s, hr, ht.exact⟩

theorem deliveries_exact_out_of_order :
    ∃ s, System.run [.send (some 7), .send none, .cloneArc 1, .drop 0, .drop 0] = some s ∧
      s.Exact :=
  deliveries_exact _ (by simp) (by decide)

/-- The first of two guard values reports a message that the second still holds, and the second
fails. -/
theorem guard_clone_reports_twice :
    (∃ s : System ℕ, System.run [.send (some 7), .cloneGuard 0, .drop 0] = some s ∧ ¬ s.Exact) ∧
      System.run [.send (some 7), .cloneGuard 0, .drop 0, .drop 0] = none := by
  refine ⟨⟨_, rfl, fun h => ?_⟩, rfl⟩
  exact absurd (h.1.1.2 _ mem_cons_self) (by decide)

end Commonware.Tracked
