/-
**Votes by signer.**

`AttributableMap` of `consensus/src/simplex/types.rs` has one slot for every participant and keeps
the first item that each of them signs.  That an item sits in the slot of its signer, and that the
counter is the number of filled slots, is part of the type.  A `VoteTracker` has one such map for
each kind of vote.

Main definitions:

* `Commonware.AttributableMap` — items in the slots of their signers;
* `Commonware.Simplex.VoteTracker` — the votes of a view, by kind and signer.

Main results:

* `Commonware.AttributableMap.get_insert` — what a map holds after an insertion;
* `Commonware.AttributableMap.mem_iter` — a map is iterated over the items it holds;
* `Commonware.AttributableMap.nodup_signers` — **no two items of a map have the same signer**.
-/

import Commonware.SimplexTypes

set_option autoImplicit false

namespace Commonware

open List Option

/-- Items that name their signer. -/
class Attributable (T : Type) where
  signer : T → ℕ

open Attributable (signer)

/-- Slots for the items of each signer. -/
structure AttributableMap (T : Type) [Attributable T] where
  data : List (Option T)
  added : ℕ
  /-- The counter is the number of items. -/
  added_eq : added = (data.filterMap id).length
  /-- Every item is in the slot of its signer. -/
  signer_eq : ∀ i x, data[i]? = some (some x) → signer x = i

theorem length_filterMap_set {T : Type} {l : List (Option T)} {i : ℕ} {x : T}
    (h : l[i]? = some none) :
    ((l.set i (some x)).filterMap id).length = (l.filterMap id).length + 1 := by
  induction l generalizing i with
  | nil => simp at h
  | cons y l ih =>
    cases i with
    | zero =>
      obtain rfl : y = none := by simpa using h
      simp
    | succ i =>
      have := ih (by simpa using h)
      cases y <;> simpa using this

namespace AttributableMap

variable {T : Type} [Attributable T]

/-- The map of `participants` empty slots. -/
def new (participants : ℕ) : AttributableMap T where
  data := replicate participants none
  added := 0
  added_eq := by simp
  signer_eq i x h := by simp [getElem?_replicate] at h

/-- There is a slot and it is empty. -/
def isVacant (m : AttributableMap T) (i : ℕ) : Bool :=
  match m.data[i]? with
  | some none => true
  | _ => false

variable {m : AttributableMap T}

theorem isVacant_iff {i : ℕ} : m.isVacant i = true ↔ m.data[i]? = some none := by
  unfold isVacant
  split <;> simp_all

def insert (m : AttributableMap T) (item : T) : AttributableMap T × Bool :=
  if h : m.isVacant (signer item) = true then
    ({ data := m.data.set (signer item) (some item)
       added := m.added + 1
       added_eq := by rw [length_filterMap_set (isVacant_iff.1 h), m.added_eq]
       signer_eq := by
        intro i x hx
        rw [getElem?_set] at hx
        split_ifs at hx with hi hlt
        · obtain rfl : item = x := by simpa using hx
          exact hi
        · exact m.signer_eq i x hx }, true)
  else (m, false)

def len (m : AttributableMap T) : ℕ := m.added

def get (m : AttributableMap T) (i : ℕ) : Option T := m.data[i]?.join

def iter (m : AttributableMap T) : List T := m.data.filterMap id

@[simp] theorem get_new (n i : ℕ) : (new n : AttributableMap T).get i = none := by
  simp only [get, new, getElem?_replicate]
  split <;> rfl

@[simp] theorem length_data_new (n : ℕ) : (new n : AttributableMap T).data.length = n := by
  simp [new]

theorem length_iter (m : AttributableMap T) : m.iter.length = m.len := m.added_eq.symm

theorem signer_of_get {i : ℕ} {x : T} (h : m.get i = some x) : signer x = i :=
  m.signer_eq i x (join_eq_some_iff.1 h)

/-- An insertion succeeds when the signer has a slot and nothing in it. -/
theorem insert_snd {x : T} :
    (m.insert x).2 = true ↔ signer x < m.data.length ∧ m.get (signer x) = none := by
  have hsl : m.isVacant (signer x) = true ↔
      signer x < m.data.length ∧ m.get (signer x) = none := by
    rw [isVacant_iff, get]
    rcases Nat.lt_or_ge (signer x) m.data.length with h | h
    · rw [getElem?_eq_getElem h]
      simp [h]
    · rw [getElem?_eq_none h]
      simp [Nat.not_lt.2 h]
  rw [← hsl]
  unfold insert
  split_ifs with h <;> simp [h]

theorem get_insert (m : AttributableMap T) (x : T) (i : ℕ) : (m.insert x).1.get i =
      if (m.insert x).2 = true ∧ i = signer x then some x else m.get i := by
  unfold insert
  split_ifs with h hi hi
  · obtain ⟨-, rfl⟩ := hi
    have hlt : signer x < m.data.length := (List.getElem?_eq_some_iff.1 (isVacant_iff.1 h)).1
    simp [get, hlt]
  · have hne : signer x ≠ i := fun he => hi ⟨rfl, he.symm⟩
    simp [get, hne]
  · simp at hi
  · rfl

@[simp] theorem length_data_insert (m : AttributableMap T) (x : T) :
    (m.insert x).1.data.length = m.data.length := by
  unfold insert
  split_ifs <;> simp

theorem mem_iter {x : T} : x ∈ m.iter ↔ m.get (signer x) = some x := by
  constructor
  · intro h
    obtain ⟨o, ho, rfl⟩ := mem_filterMap.1 h
    obtain ⟨i, hi⟩ := getElem?_of_mem ho
    rw [m.signer_eq i x hi]
    exact join_eq_some_iff.2 hi
  · intro h
    exact mem_filterMap.2
      ⟨some x, mem_of_getElem? (join_eq_some_iff.1 h), rfl⟩

theorem eq_of_signer {x y : T} (hx : x ∈ m.iter) (hy : y ∈ m.iter) (h : signer x = signer y) :
    x = y := by
  have hx' := mem_iter.1 hx
  rw [h, mem_iter.1 hy] at hx'
  exact (some_inj.1 hx').symm

/-- What is in a map after an insertion was there before, or is what was inserted. -/
theorem mem_iter_insert {x y : T} (h : y ∈ (m.insert x).1.iter) : y ∈ m.iter ∨ y = x := by
  rw [mem_iter, get_insert] at h
  split_ifs at h with hc
  · exact .inr (some_inj.1 h).symm
  · exact .inl (mem_iter.2 h)

/-- **No two items of a map have the same signer.** -/
theorem nodup_signers (m : AttributableMap T) : (m.iter.map signer).Nodup := by
  rw [List.Nodup, pairwise_map, iter, pairwise_filterMap, pairwise_iff_getElem]
  intro i j hi hj hij x hx y hy
  have hxi : signer x = i := m.signer_eq i x (by rw [getElem?_eq_getElem hi]; simpa using hx)
  have hyj : signer y = j := m.signer_eq j y (by rw [getElem?_eq_getElem hj]; simpa using hy)
  omega

end AttributableMap

open AttributableMap

namespace Simplex

variable {D Sig : Type}

instance : Attributable (Notarize D Sig) := ⟨fun v => v.attestation.signer⟩

instance : Attributable (Nullify Sig) := ⟨fun v => v.attestation.signer⟩

instance : Attributable (Finalize D Sig) := ⟨fun v => v.attestation.signer⟩

/-- The votes of a view. -/
structure VoteTracker (D Sig : Type) where
  notarizes : AttributableMap (Notarize D Sig)
  nullifies : AttributableMap (Nullify Sig)
  finalizes : AttributableMap (Finalize D Sig)

namespace VoteTracker

def new (participants : ℕ) : VoteTracker D Sig :=
  ⟨.new participants, .new participants, .new participants⟩

def insertNotarize (t : VoteTracker D Sig) (vote : Notarize D Sig) : VoteTracker D Sig × Bool :=
  ({ t with notarizes := (t.notarizes.insert vote).1 }, (t.notarizes.insert vote).2)

def insertNullify (t : VoteTracker D Sig) (vote : Nullify Sig) : VoteTracker D Sig × Bool :=
  ({ t with nullifies := (t.nullifies.insert vote).1 }, (t.nullifies.insert vote).2)

def insertFinalize (t : VoteTracker D Sig) (vote : Finalize D Sig) : VoteTracker D Sig × Bool :=
  ({ t with finalizes := (t.finalizes.insert vote).1 }, (t.finalizes.insert vote).2)

/-- Put a vote into the map of its kind. -/
def insert (t : VoteTracker D Sig) : Vote D Sig → VoteTracker D Sig × Bool
  | .notarize v => t.insertNotarize v
  | .nullify v => t.insertNullify v
  | .finalize v => t.insertFinalize v

/-- The tracker holds a vote. -/
def Holds (t : VoteTracker D Sig) : Vote D Sig → Prop
  | .notarize v => v ∈ t.notarizes.iter
  | .nullify v => v ∈ t.nullifies.iter
  | .finalize v => v ∈ t.finalizes.iter

def hasVoted (t : VoteTracker D Sig) (signer : ℕ) : Bool :=
  (t.notarizes.get signer).isSome || (t.nullifies.get signer).isSome ||
    (t.finalizes.get signer).isSome

theorem not_holds_new (n : ℕ) (v : Vote D Sig) : ¬ (new n : VoteTracker D Sig).Holds v := by
  cases v <;> simp [Holds, new, mem_iter]

variable {t : VoteTracker D Sig}

theorem holds_insert {v w : Vote D Sig} (h : (t.insert v).1.Holds w) : t.Holds w ∨ w = v := by
  cases v <;> cases w <;>
    simp only [insert, insertNotarize, insertNullify, insertFinalize, Holds] at h ⊢
  case notarize.notarize => exact (mem_iter_insert h).imp_right (congrArg _)
  case nullify.nullify => exact (mem_iter_insert h).imp_right (congrArg _)
  case finalize.finalize => exact (mem_iter_insert h).imp_right (congrArg _)
  all_goals exact .inl h

/-- All maps have `n` slots. -/
structure Sized (t : VoteTracker D Sig) (n : ℕ) : Prop where
  notarizes : t.notarizes.data.length = n
  nullifies : t.nullifies.data.length = n
  finalizes : t.finalizes.data.length = n

theorem sized_new (n : ℕ) : (new n : VoteTracker D Sig).Sized n :=
  ⟨length_data_new n, length_data_new n,
    length_data_new n⟩

theorem Sized.insert {n : ℕ} (h : t.Sized n) (v : Vote D Sig) : (t.insert v).1.Sized n := by
  obtain ⟨h₁, h₂, h₃⟩ := h
  cases v <;> constructor <;>
    simpa [VoteTracker.insert, insertNotarize, insertNullify, insertFinalize]

/-- No vote of this kind and signer is there yet. -/
def vacant (t : VoteTracker D Sig) : Vote D Sig → Bool
  | .notarize v => (t.notarizes.get v.attestation.signer).isNone
  | .nullify v => (t.nullifies.get v.attestation.signer).isNone
  | .finalize v => (t.finalizes.get v.attestation.signer).isNone

/-- A vote goes in if its signer has a slot and has not cast a vote of this kind. -/
theorem Sized.insert_snd {n : ℕ} (h : t.Sized n) {v : Vote D Sig} (hn : v.signer < n)
    (hv : t.vacant v = true) : (t.insert v).2 = true := by
  cases v with
  | notarize v =>
    exact AttributableMap.insert_snd.2 ⟨h.notarizes.symm ▸ hn, isNone_iff_eq_none.1 hv⟩
  | nullify v =>
    exact AttributableMap.insert_snd.2 ⟨h.nullifies.symm ▸ hn, isNone_iff_eq_none.1 hv⟩
  | finalize v =>
    exact AttributableMap.insert_snd.2 ⟨h.finalizes.symm ▸ hn, isNone_iff_eq_none.1 hv⟩

end VoteTracker

end Simplex

end Commonware
