/-
**A window of sets over counted records.**

Records are kept under keys, and every record counts the sets that its key is in.  Only the last sets
are kept: when there are too many, the oldest one goes, the records of its keys are counted down, and
those that may go are removed.  The count of a record is the number of sets with its key, so nothing
is missing when a set goes.

Main definitions:

* `Counted` — records with a count;
* `CountedWindow`, `CountedWindow.addSet`, `CountedWindow.deleteIfNeeded`;
* `CountedWindow.Balanced` — **the counts are right**;
* `CountedWindow.Only` — what the record of a key is like, if there is one.

Main results:

* `CountedWindow.Balanced.addSet` — **a set can always be added**, and the counts stay right;
* `CountedWindow.Only.addSet` — a property of the record of a key is kept when a set is added;
* `CountedWindow.Balanced.get?_of_last` — the keys of the last set have records;
* `CountedWindow.run_iff` — a property holds in all states of a run exactly if the run does none of the
  steps that break it.
-/

import Commonware.OrdMap
import Mathlib.Data.List.Infix

set_option autoImplicit false

namespace Commonware

open List Option OrdMap

/-- Records that count something.  A record that may be removed counts nothing. -/
class Counted (R : Type) where
  count : R → ℕ
  increment : R → R
  decrement : R → Option R
  deletable : R → Bool
  count_increment : ∀ r, count (increment r) = count r + 1
  exists_decrement : ∀ r, 0 < count r → ∃ r', decrement r = some r'
  count_decrement : ∀ r r', decrement r = some r' → count r = count r' + 1
  count_of_deletable : ∀ r, deletable r = true → count r = 0

/-- The records, and the sets by their index. -/
structure CountedWindow (K R : Type) [LinearOrder K] where
  maxSets : ℕ
  records : OrdMap K R
  sets : OrdMap ℕ (List K)

namespace CountedWindow

variable {K R B : Type} [LinearOrder K] [Counted R]

open Counted

/-! ### Operations -/

/-- Removes a record that may be removed. -/
def deleteIfNeeded (w : CountedWindow K R) (k : K) : CountedWindow K R × Bool :=
  match w.records.get? k with
  | none => (w, false)
  | some r => if deletable r then ({ w with records := w.records.erase k }, true) else (w, false)

/-- The key is in one set less. -/
def leave (w : CountedWindow K R) (k : K) : Option (CountedWindow K R × Bool) := do
  let r ← w.records.get? k
  let r ← decrement r
  pure (deleteIfNeeded { w with records := w.records.insert k r } k)

/-- The keys are in one set less, and those whose records were removed. -/
def leaveAll (w : CountedWindow K R) : List K → Option (CountedWindow K R × List K)
  | [] => some (w, [])
  | k :: ks => do
      let (w, deleted) ← w.leave k
      let (w, others) ← leaveAll w ks
      pure (w, if deleted then k :: others else others)

/-- Removes the oldest sets while there are too many. -/
def evict : ℕ → CountedWindow K R → Option (CountedWindow K R × List K)
  | 0, w => some (w, [])
  | n + 1, w =>
    if w.sets.size ≤ w.maxSets then some (w, [])
    else do
      let (index, ks) ← w.sets.first?
      let (w, deleted) ← leaveAll { w with sets := w.sets.erase index } ks
      let (w, others) ← evict n w
      pure (w, deleted ++ others)

def accepts (w : CountedWindow K R) (index : ℕ) : Bool :=
  !w.sets.contains index &&
    match w.sets.last? with
    | none => true
    | some (last, _) => decide (last < index)

variable (enroll : B → Option R → R) (records : OrdMap K R)

/-- The records with those of a new set, which are made or changed by `enroll` and counted. -/
def enter (peers : OrdMap K B) : OrdMap K R :=
  peers.entries.foldl (fun records e =>
    records.insert e.1 (increment (enroll e.2 (records.get? e.1)))) records

/-- Adds a set.  The keys whose records were removed, or nothing if the index is too low. -/
def addSet (w : CountedWindow K R) (index : ℕ) (peers : OrdMap K B) :
    Option (Option (List K) × CountedWindow K R) :=
  if w.accepts index = false then some (none, w)
  else do
    let sets := w.sets.insert index peers.keys
    let (w, deleted) ← evict sets.size
      { w with records := enter enroll w.records peers, sets := sets }
    pure (some deleted, w)

/-! ### Counts -/

def occurrences (sets : OrdMap ℕ (List K)) (k : K) : ℕ := sets.values.countP fun keys => decide (k ∈ keys)

def countOf (k : K) : ℕ := (records.get? k).elim 0 count

/-- **The counts are right.** -/
structure Balanced (w : CountedWindow K R) : Prop where
  nodup : ∀ keys ∈ w.sets.values, keys.Nodup
  counts : ∀ k, countOf w.records k = occurrences w.sets k

/-- What the record of a key is like, if there is one. -/
def Only (P : R → Prop) (w : CountedWindow K R) (k : K) : Prop :=
  ∀ r, w.records.get? k = some r → P r

variable {w w' : CountedWindow K R} {k : K}

theorem countOf_insert (k : K) (r : R) (a : K) :
    countOf (records.insert k r) a = if a = k then count r else countOf records a := by
  rw [countOf, get?_insert]
  split_ifs
  · rfl
  · rfl

theorem deleteIfNeeded_sets (w : CountedWindow K R) (k : K) :
    (w.deleteIfNeeded k).1.sets = w.sets ∧ (w.deleteIfNeeded k).1.maxSets = w.maxSets := by
  rw [deleteIfNeeded]
  split
  · exact ⟨rfl, rfl⟩
  · split
    · exact ⟨rfl, rfl⟩
    · exact ⟨rfl, rfl⟩

theorem get?_deleteIfNeeded (w : CountedWindow K R) (k a : K) :
    (w.deleteIfNeeded k).1.records.get? a = w.records.get? a ∨
      a = k ∧ (w.deleteIfNeeded k).1.records.get? a = none ∧
        ∃ r, w.records.get? a = some r ∧ deletable r = true := by
  rw [deleteIfNeeded]
  cases hr : w.records.get? k with
  | none => exact .inl rfl
  | some r =>
    dsimp only
    split_ifs with hdl
    · dsimp only
      rw [get?_erase]
      split_ifs with hk
      · exact .inr ⟨hk, rfl, r, hk ▸ hr, hdl⟩
      · exact .inl rfl
    · exact .inl rfl

theorem countOf_deleteIfNeeded (w : CountedWindow K R) (k a : K) :
    countOf (w.deleteIfNeeded k).1.records a = countOf w.records a := by
  rcases get?_deleteIfNeeded w k a with h | ⟨-, hnn, r, hr, hdl⟩
  · rw [countOf, h, countOf]
  · rw [countOf, hnn, countOf, hr]
    exact (count_of_deletable r hdl).symm

theorem Balanced.deleteIfNeeded (h : w.Balanced) (k : K) : (w.deleteIfNeeded k).1.Balanced := by
  obtain ⟨hst, -⟩ := deleteIfNeeded_sets w k
  refine ⟨by rw [hst]; exact h.nodup, fun a => ?_⟩
  rw [countOf_deleteIfNeeded, hst]
  exact h.counts a

theorem Only.deleteIfNeeded {P : R → Prop} (h : Only P w k) (a : K) :
    Only P (w.deleteIfNeeded a).1 k := by
  intro r hr
  rcases get?_deleteIfNeeded w a k with hsm | ⟨-, hnn, -⟩
  · rw [hsm] at hr
    exact h r hr
  · rw [hnn] at hr
    cases hr

/-! ### Sets that go -/

variable {deleted : Bool}

theorem leave_eq_some (h : w.leave k = some (w', deleted)) :
    ∃ r r', w.records.get? k = some r ∧ decrement r = some r' ∧
      w' = (CountedWindow.deleteIfNeeded { w with records := w.records.insert k r' } k).1 := by
  obtain ⟨r, hr, h⟩ := bind_eq_some_iff.1 h
  obtain ⟨r', hr', h⟩ := bind_eq_some_iff.1 h
  exact ⟨r, r', hr, hr', (congrArg Prod.fst (Option.some.inj h)).symm⟩

theorem exists_leave (h : 0 < countOf w.records k) :
    ∃ w' deleted, w.leave k = some (w', deleted) ∧ w'.sets = w.sets ∧ w'.maxSets = w.maxSets ∧
      ∀ a, countOf w.records a = countOf w'.records a + if a = k then 1 else 0 := by
  obtain ⟨r, hr⟩ : ∃ r, w.records.get? k = some r := by
    cases hr : w.records.get? k with
    | none =>
      rw [countOf, hr] at h
      exact absurd h (Nat.lt_irrefl 0)
    | some r => exact ⟨r, rfl⟩
  have hcn : countOf w.records k = count r := by
    rw [countOf, hr]
    rfl
  obtain ⟨r', hr'⟩ := exists_decrement r (hcn ▸ h)
  obtain ⟨hst, hm⟩ := deleteIfNeeded_sets { w with records := w.records.insert k r' } k
  refine ⟨(CountedWindow.deleteIfNeeded { w with records := w.records.insert k r' } k).1,
    (CountedWindow.deleteIfNeeded { w with records := w.records.insert k r' } k).2, ?_, hst, hm, ?_⟩
  · rw [leave, hr]
    refine bind_eq_some_iff.2 ⟨r, rfl, ?_⟩
    exact bind_eq_some_iff.2 ⟨r', hr', rfl⟩
  · intro a
    rw [countOf_deleteIfNeeded, countOf_insert]
    split_ifs with ha
    · rw [ha, hcn]
      exact count_decrement r r' hr'
    · rfl

variable {keys : List K}

theorem exists_leaveAll (hnd : keys.Nodup)
    (h : ∀ k ∈ keys, 0 < countOf w.records k) :
    ∃ w' deleted, w.leaveAll keys = some (w', deleted) ∧ w'.sets = w.sets ∧ w'.maxSets = w.maxSets ∧
      ∀ a, countOf w.records a = countOf w'.records a + if a ∈ keys then 1 else 0 := by
  induction keys generalizing w with
  | nil => exact ⟨w, [], rfl, rfl, rfl, fun a => by simp⟩
  | cons k keys ih =>
    obtain ⟨hk, hnd⟩ := nodup_cons.1 hnd
    obtain ⟨w₁, deleted, hlv, hst, hm, hcn⟩ := exists_leave (h k mem_cons_self)
    obtain ⟨w₂, others, hr, hst₂, hm₂, hcn₂⟩ := ih hnd (w := w₁) fun a ha => by
      have hp := h a (mem_cons_of_mem k ha)
      have hne : a ≠ k := fun heq => hk (heq ▸ ha)
      rw [hcn a, if_neg hne] at hp
      exact hp
    refine ⟨w₂, if deleted then k :: others else others, ?_, hst₂.trans hst, hm₂.trans hm,
      fun a => ?_⟩
    · rw [leaveAll, hlv]
      refine bind_eq_some_iff.2 ⟨_, rfl, ?_⟩
      exact bind_eq_some_iff.2 ⟨_, hr, rfl⟩
    · rw [hcn a, hcn₂ a]
      by_cases hak : a = k
      · subst hak
        simp [hk]
      · simp [hak]

theorem Balanced.pos (h : w.Balanced) (hky : keys ∈ w.sets.values) (hk : k ∈ keys) :
    0 < countOf w.records k := by
  rw [h.counts, occurrences, countP_pos_iff]
  exact ⟨keys, hky, decide_eq_true hk⟩

/-- The oldest sets can go, until there are not too many; the last set does not go. -/
theorem Balanced.evict (h : w.Balanced) {n : ℕ} (hn : w.sets.size ≤ n + w.maxSets) :
    ∃ w' deleted, CountedWindow.evict n w = some (w', deleted) ∧ w'.Balanced ∧
      w'.maxSets = w.maxSets ∧ w'.sets.size ≤ w.maxSets ∧
      (0 < w.maxSets → w'.sets.last? = w.sets.last?) := by
  induction n generalizing w with
  | zero => exact ⟨w, [], rfl, h, rfl, by omega, fun _ => rfl⟩
  | succ n ih =>
    by_cases hsize : w.sets.size ≤ w.maxSets
    · exact ⟨w, [], if_pos hsize, h, rfl, hsize, fun _ => rfl⟩
    obtain ⟨⟨index, keys⟩, rest, het⟩ : ∃ e rest, w.sets.entries = e :: rest := by
      cases het : w.sets.entries with
      | nil =>
        rw [size, het] at hsize
        exact absurd (Nat.zero_le _) hsize
      | cons e rest => exact ⟨e, rest, rfl⟩
    have hf : w.sets.first? = some (index, keys) := by
      rw [first?, het]
      rfl
    have hvl : w.sets.values = keys :: (w.sets.erase index).values := by
      rw [values, values, entries_erase_first _ het, het]
      rfl
    have hmem : keys ∈ w.sets.values := by
      rw [hvl]
      exact mem_cons_self
    obtain ⟨w₁, deleted, hlv, hst, hm, hcn⟩ := exists_leaveAll
      (w := { w with sets := w.sets.erase index }) (h.nodup keys hmem) fun a ha => h.pos hmem ha
    have hbl : w₁.Balanced := by
      refine ⟨fun keys' hky' => h.nodup keys' ?_, fun a => ?_⟩
      · rw [hvl]
        rw [hst] at hky'
        exact mem_cons_of_mem keys hky'
      · have hol := h.counts a
        have hnw := hcn a
        rw [occurrences, hvl, countP_cons] at hol
        rw [hst, occurrences]
        dsimp only at hnw ⊢
        simp only [decide_eq_true_eq] at hol
        omega
    have hln : w.sets.size = (w.sets.erase index).size + 1 := by
      rw [size, size, entries_erase_first _ het, het]
      rfl
    obtain ⟨w₂, others, hev, hbl₂, hm₂, hsize₂, hls₂⟩ := ih hbl (by
      rw [hst, hm]
      dsimp only
      omega)
    refine ⟨w₂, deleted ++ others, ?_, hbl₂, hm₂.trans hm, ?_, fun hp => ?_⟩
    · rw [CountedWindow.evict, if_neg hsize, hf]
      refine bind_eq_some_iff.2 ⟨_, rfl, ?_⟩
      refine bind_eq_some_iff.2 ⟨_, hlv, ?_⟩
      exact bind_eq_some_iff.2 ⟨_, hev, rfl⟩
    · rw [hm] at hsize₂
      exact hsize₂
    · rw [hls₂ (by rw [hm]; exact hp), hst, last?, last?,
        entries_erase_first _ het, het]
      -- there is another set behind the first one
      cases rest with
      | nil =>
        rw [size, het] at hsize
        simp only [length_singleton] at hsize
        omega
      | cons e rest => rw [List.getLast?_cons_cons]

/-! ### Sets that come -/

theorem get?_foldl_enter {l : List (K × B)} (hk : k ∉ l.map Prod.fst) (records : OrdMap K R) :
    (l.foldl (fun records e =>
      records.insert e.1 (increment (enroll e.2 (records.get? e.1)))) records).get? k =
      records.get? k := by
  induction l generalizing records with
  | nil => rfl
  | cons e l ih =>
    rw [map_cons, mem_cons, not_or] at hk
    rw [foldl_cons, ih hk.2, get?_insert_of_ne _ _ hk.1]

theorem get?_enter (peers : OrdMap K B) (k : K) : (enter enroll records peers).get? k =
      match peers.get? k with
      | none => records.get? k
      | some b => some (increment (enroll b (records.get? k))) := by
  have hnd := peers.nodup_keys
  rw [enter]
  cases hg : peers.get? k with
  | none =>
    refine get?_foldl_enter enroll (fun hmem => ?_) records
    have := (peers.mem_keys_iff).1 hmem
    rw [hg] at this
    cases this
  | some b =>
    have hmem := (peers.mem_entries_iff).2 hg
    rw [OrdMap.keys] at hnd
    clear hg
    generalize peers.entries = l at hmem hnd
    -- after its own entry the key does not come again
    induction l generalizing records with
    | nil => cases hmem
    | cons e l ih =>
      rw [map_cons, nodup_cons] at hnd
      rw [foldl_cons]
      rcases mem_cons.1 hmem with rfl | hmem
      · rw [get?_foldl_enter enroll hnd.1, get?_insert_self]
      · have hne : k ≠ e.1 := by
          intro hke
          exact hnd.1 (hke ▸ mem_map_of_mem (f := Prod.fst) hmem)
        rw [ih _ hmem hnd.2, get?_insert_of_ne _ _ hne]

theorem countOf_enter {enroll : B → Option R → R} (henroll : ∀ b o, count (enroll b o) = o.elim 0 count)
    (records : OrdMap K R) (peers : OrdMap K B) (k : K) : countOf (enter enroll records peers) k =
      countOf records k + if k ∈ peers.keys then 1 else 0 := by
  have hmem := peers.mem_keys_iff (k := k)
  rw [countOf, get?_enter]
  cases hg : peers.get? k with
  | none =>
    rw [hg] at hmem
    rw [if_neg (mt hmem.1 (by simp))]
    rfl
  | some b =>
    rw [hg] at hmem
    dsimp only [elim_some]
    rw [count_increment, henroll, if_pos (hmem.2 rfl), countOf]

variable {index : ℕ}

omit [Counted R] in
theorem lt_of_accepts (h : w.accepts index = true) {e : ℕ × List K}
    (he : e ∈ w.sets.entries) : e.1 < index := by
  rw [accepts, Bool.and_eq_true] at h
  obtain ⟨-, h⟩ := h
  cases hls : w.sets.last? with
  | none =>
    rw [last?, List.getLast?_eq_none_iff] at hls
    rw [hls] at he
    cases he
  | some last =>
    rw [hls] at h
    have hsm : (w.sets.get? e.1).isSome :=
      isSome_iff_exists.2 ⟨e.2, (w.sets.mem_entries_iff).1 he⟩
    exact (w.sets.le_of_last? hls hsm).trans_lt (of_decide_eq_true h)

/-- **A set can always be added**, and the counts stay right. -/
theorem Balanced.addSet {enroll : B → Option R → R} (h : w.Balanced)
    (henroll : ∀ b o, count (enroll b o) = o.elim 0 count) (index : ℕ) (peers : OrdMap K B) :
    ∃ deleted w', w.addSet enroll index peers = some (deleted, w') ∧ w'.Balanced ∧
      w'.maxSets = w.maxSets ∧ (w.accepts index = true → w'.sets.size ≤ w.maxSets ∧
        (0 < w.maxSets → w'.sets.last? = some (index, peers.keys))) := by
  by_cases ha : w.accepts index = false
  · exact ⟨none, w, if_pos ha, h, rfl, fun ht => by rw [ha] at ht; cases ht⟩
  have ht : w.accepts index = true := Bool.not_eq_false _ ▸ ha
  have het := w.sets.entries_insert_of_last peers.keys fun e he => lt_of_accepts ht he
  have hvl : (w.sets.insert index peers.keys).values = w.sets.values ++ [peers.keys] := by
    rw [values, het, map_append]
    rfl
  have hbl : Balanced { w with
      records := enter enroll w.records peers, sets := w.sets.insert index peers.keys } := by
    constructor
    · intro keys hky
      rw [hvl] at hky
      rcases mem_append.1 hky with hky | hky
      · exact h.nodup keys hky
      · rw [mem_singleton.1 hky]
        exact peers.nodup_keys
    · intro k
      dsimp only
      rw [countOf_enter henroll, h.counts, occurrences, occurrences, hvl, countP_append,
        countP_singleton]
      simp only [decide_eq_true_eq]
  obtain ⟨w', deleted, hev, hbl', hm, hsize, hls⟩ :=
    hbl.evict (n := (w.sets.insert index peers.keys).size) (Nat.le_add_right _ _)
  refine ⟨some deleted, w', ?_, hbl', hm, fun _ => ⟨hsize, fun hp => ?_⟩⟩
  · rw [CountedWindow.addSet, if_neg ha]
    exact bind_eq_some_iff.2 ⟨_, hev, rfl⟩
  · rw [hls hp, last?, het, List.getLast?_concat]

theorem Balanced.get?_of_last (h : w.Balanced)
    (hls : w.sets.last? = some (index, keys)) (hk : k ∈ keys) :
    ∃ r, w.records.get? k = some r ∧ 0 < count r := by
  have hmem : keys ∈ w.sets.values := (w.sets.mem_values_iff).2 ⟨index, w.sets.get?_of_last? hls⟩
  have hp := h.pos hmem hk
  cases hr : w.records.get? k with
  | none =>
    rw [countOf, hr] at hp
    exact absurd hp (Nat.lt_irrefl 0)
  | some r =>
    rw [countOf, hr] at hp
    exact ⟨r, rfl, hp⟩

/-! ### What a record is like -/

section Only

variable {P : R → Prop}
  (hstable : ∀ r r', P r → decrement r = some r' → deletable r' = false → P r')
include hstable

theorem Only.leave (h : Only P w k) {a : K}
    (hlv : w.leave a = some (w', deleted)) : Only P w' k := by
  obtain ⟨r, r', hr, hr', rfl⟩ := leave_eq_some hlv
  intro s hs
  rcases get?_deleteIfNeeded { w with records := w.records.insert a r' } a k with hsm | ⟨-, hnn, -⟩
  · rw [hsm] at hs
    by_cases hka : k = a
    · subst hka
      rw [get?_insert_self, Option.some.injEq] at hs
      subst hs
      refine hstable r r' (h r hr) hr' ?_
      -- a record that may be removed is gone
      by_contra hdl
      rw [Bool.not_eq_false] at hdl
      rw [CountedWindow.deleteIfNeeded, get?_insert_self] at hsm
      dsimp only at hsm
      rw [if_pos hdl, get?_erase, if_pos rfl] at hsm
      cases hsm
    · rw [get?_insert_of_ne _ _ hka] at hs
      exact h s hs
  · rw [hnn] at hs
    cases hs

variable {deleted : List K}

theorem Only.leaveAll (h : Only P w k)
    (hlv : w.leaveAll keys = some (w', deleted)) : Only P w' k := by
  induction keys generalizing w deleted with
  | nil =>
    cases hlv
    exact h
  | cons a keys ih =>
    obtain ⟨⟨w₁, d⟩, hf, hr⟩ := bind_eq_some_iff.1 hlv
    obtain ⟨⟨w₂, others⟩, hot, hls⟩ := bind_eq_some_iff.1 hr
    cases hls
    exact ih (h.leave hstable hf) hot

theorem Only.evict (h : Only P w k) {n : ℕ}
    (hev : CountedWindow.evict n w = some (w', deleted)) : Only P w' k := by
  induction n generalizing w deleted with
  | zero =>
    cases hev
    exact h
  | succ n ih =>
    rw [CountedWindow.evict] at hev
    split_ifs at hev
    · cases hev
      exact h
    obtain ⟨⟨index, keys⟩, -, hev⟩ := bind_eq_some_iff.1 hev
    obtain ⟨⟨w₁, d⟩, hlv, hev⟩ := bind_eq_some_iff.1 hev
    obtain ⟨⟨w₂, others⟩, hr, hls⟩ := bind_eq_some_iff.1 hev
    cases hls
    have hlf : Only P { w with sets := w.sets.erase index } k := h
    exact ih (hlf.leaveAll hstable hlv) hr

/-- A property of the record of a key is kept when a set is added, if the record has it after it is
made or changed for the set. -/
theorem Only.addSet {enroll : B → Option R → R} (h : Only P w k) {peers : OrdMap K B}
    (henroll : w.accepts index = true → ∀ b, peers.get? k = some b →
      P (increment (enroll b (w.records.get? k)))) {deleted : Option (List K)}
    (ha : w.addSet enroll index peers = some (deleted, w')) : Only P w' k := by
  rw [CountedWindow.addSet] at ha
  split_ifs at ha with hac
  · cases ha
    exact h
  obtain ⟨⟨w₁, d⟩, hev, hls⟩ := bind_eq_some_iff.1 ha
  cases hls
  refine Only.evict hstable (fun r hr => ?_) hev
  dsimp only at hr
  rw [get?_enter] at hr
  cases hg : peers.get? k with
  | none =>
    rw [hg] at hr
    exact h r hr
  | some b =>
    rw [hg] at hr
    rw [← Option.some.inj hr]
    exact henroll (Bool.not_eq_false _ ▸ hac) b hg

end Only

/-- Without room for a set, a key that has no record gets none. -/
theorem Balanced.get?_addSet_of_maxSets {enroll : B → Option R → R} (h : w.Balanced)
    (henroll : ∀ b o, count (enroll b o) = o.elim 0 count) (hm : w.maxSets = 0) {Q : R → Prop}
    (hstable : ∀ r r', Q r → decrement r = some r' → Q r')
    (hdl : ∀ r, Q r → count r = 0 → deletable r = true)
    (hf : ∀ b, Q (increment (enroll b none))) (hk : w.records.get? k = none)
    {peers : OrdMap K B} {deleted : Option (List K)}
    (ha : w.addSet enroll index peers = some (deleted, w')) : w'.records.get? k = none := by
  -- a new record has the property and counts something; if it counts nothing any more it goes
  have hon : Only (fun r => Q r ∧ 0 < count r) w' k := by
    refine Only.addSet (fun r r' hr hdc hde => ?_) (fun r hr => ?_) (fun _ b _ => ?_) ha
    · have hq := hstable r r' hr.1 hdc
      refine ⟨hq, Nat.pos_of_ne_zero fun hz => ?_⟩
      rw [hdl r' hq hz] at hde
      cases hde
    · rw [hk] at hr
      cases hr
    · rw [hk, count_increment]
      exact ⟨hf b, Nat.succ_pos _⟩
  by_cases hac : w.accepts index = true
  · obtain ⟨deleted', w₁, ha', hbl, -, hsize⟩ := h.addSet henroll index peers
    rw [ha] at ha'
    cases ha'
    have hem : w'.sets.entries = [] := by
      have := (hsize hac).1
      rw [hm, Nat.le_zero, size] at this
      exact eq_nil_of_length_eq_zero this
    cases hr : w'.records.get? k with
    | none => rfl
    | some r =>
      have hcn := hbl.counts k
      rw [countOf, hr, occurrences, values, hem] at hcn
      exact absurd hcn (hon r hr).2.ne'
  · rw [CountedWindow.addSet, if_pos (Bool.not_eq_true _ ▸ hac)] at ha
    cases ha
    exact hk

/-! ### Runs -/

/-- **A property holds in all states of a run exactly if the run does none of the steps that break
it.** -/
theorem run_iff {S E : Type} (step : S → E → Option S) (Good Inv Shut : S → Prop) (Bad : S → E → Prop)
    (hin : ∀ s e s', Inv s → step s e = some s' → Inv s')
    (hsh : ∀ s e s', Inv s → Shut s → step s e = some s' → ¬ Bad s e → Shut s')
    (hg : ∀ s, Shut s → Good s)
    (hbad : ∀ s e, Inv s → Bad s e → ∃ s', step s e = some s' ∧ ¬ Good s') {s : S} (hs : Inv s)
    (hs' : Shut s) (es : List E) : (∀ es₁ s', es₁ <+: es → es₁.foldlM step s = some s' → Good s') ↔
      ∀ es₁ e s', es₁ ++ [e] <+: es → es₁.foldlM step s = some s' → ¬ Bad s' e := by
  have hrn : ∀ (es₁ : List E) (s s' : S), Inv s → es₁.foldlM step s = some s' → Inv s' := by
    intro es₁
    induction es₁ with
    | nil =>
      intro s s' hs h
      cases h
      exact hs
    | cons e es₁ ih =>
      intro s s' hs h
      rw [foldlM_cons] at h
      obtain ⟨s₁, hf, hr⟩ := bind_eq_some_iff.1 h
      exact ih s₁ s' (hin s e s₁ hs hf) hr
  constructor
  · intro ha es₁ e s₁ hes hrn₁ hb
    obtain ⟨s₂, hst, hnt⟩ := hbad s₁ e (hrn es₁ s s₁ hs hrn₁) hb
    refine hnt (ha (es₁ ++ [e]) s₂ hes ?_)
    rw [foldlM_append, hrn₁]
    change [e].foldlM step s₁ = some s₂
    rw [foldlM_cons, hst]
    rfl
  · intro hnn es₁ s₁ hes hrn₁
    refine hg s₁ ?_
    -- by induction on the run, from its end
    induction es₁ using List.reverseRecOn generalizing s₁ with
    | nil =>
      cases hrn₁
      exact hs'
    | append_singleton es₁ e ih =>
      rw [foldlM_append] at hrn₁
      obtain ⟨s₂, hrn₂, hls⟩ := bind_eq_some_iff.1 hrn₁
      rw [foldlM_cons] at hls
      obtain ⟨s₃, hst, he⟩ := bind_eq_some_iff.1 hls
      cases he
      exact hsh s₂ e s₁ (hrn es₁ s s₂ hs hrn₂)
        (ih s₂ ((prefix_append es₁ [e]).trans hes) hrn₂) hst (hnn es₁ e s₂ hes hrn₂)

end CountedWindow

end Commonware
