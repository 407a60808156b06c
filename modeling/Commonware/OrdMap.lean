/-
**Finite maps in key order.**

A map from a linearly ordered key type is a list of entries whose keys increase strictly.  The
order is a field of the structure, so that a list with a repeated or misplaced key cannot be
built, and iteration over a map is iteration in key order.  All operations are structurally
recursive on the entries, so that a concrete map evaluates in the kernel.

Main definitions:

* `OrdMap` — the maps; `OrdMap.get?`, `OrdMap.insert`, `OrdMap.erase`, `OrdMap.filter`,
  `OrdMap.modify`, `OrdMap.getOrInsert` — the operations;
* `OrdMap.first?`, `OrdMap.last?` — the entries of least and greatest key.

Main results:

* `OrdMap.mem_entries_iff` — an entry of the list is what a lookup returns;
* `OrdMap.get?_insert`, `OrdMap.get?_erase`, `OrdMap.get?_filter`, `OrdMap.get?_modify`,
  `OrdMap.get?_getOrInsert` — what each operation does to a lookup;
* `OrdMap.le_of_last?`, `OrdMap.le_of_first?` — the extreme keys bound all others.
-/

import Mathlib.Data.Finset.Sort

set_option autoImplicit false

/-- A finite map, as the list of its entries in strictly increasing key order. -/
@[ext] structure OrdMap (K V : Type*) [LinearOrder K] where
  /-- The entries. -/
  entries : List (K × V)
  /-- The keys increase strictly. -/
  sorted : (entries.map Prod.fst).Pairwise (· < ·)

namespace OrdMap

open List Option

variable {K V W : Type*} [LinearOrder K]

instance [DecidableEq V] : DecidableEq (OrdMap K V) := fun m m' =>
  decidable_of_iff (m.entries = m'.entries) OrdMap.ext_iff.symm

/-! ### Operations -/

def empty : OrdMap K V := ⟨[], List.Pairwise.nil⟩

instance : Inhabited (OrdMap K V) := ⟨empty⟩

variable (m : OrdMap K V)

def get? (k : K) : Option V :=
  (m.entries.find? fun e => decide (e.1 = k)).map Prod.snd

def contains (k : K) : Bool := (m.get? k).isSome

def keys : List K := m.entries.map Prod.fst

def values : List V := m.entries.map Prod.snd

def size : ℕ := m.entries.length

/-- Placing an entry in a list of entries, replacing one of the same key. -/
def insertEntry (k : K) (v : V) : List (K × V) → List (K × V)
  | [] => [(k, v)]
  | e :: l =>
    if k < e.1 then (k, v) :: e :: l
    else if k = e.1 then (k, v) :: l
    else e :: insertEntry k v l

variable {k : K} {v : V} {l : List (K × V)}

theorem mem_insertEntry_imp {e : K × V} (h : e ∈ insertEntry k v l) : e = (k, v) ∨ e ∈ l := by
  induction l with
  | nil => simpa [insertEntry] using h
  | cons a l ih =>
    simp only [insertEntry] at h
    split_ifs at h
    · simpa using h
    · rcases mem_cons.1 h with h | h
      · exact .inl h
      · exact .inr (mem_cons_of_mem _ h)
    · rcases mem_cons.1 h with h | h
      · exact .inr (h ▸ mem_cons_self)
      · exact (ih h).imp id (mem_cons_of_mem _)

theorem sorted_insertEntry (k : K) (v : V) (h : (l.map Prod.fst).Pairwise (· < ·)) :
    ((insertEntry k v l).map Prod.fst).Pairwise (· < ·) := by
  induction l with
  | nil => simp [insertEntry]
  | cons e l ih =>
    obtain ⟨hlt, hl⟩ := pairwise_cons.1 h
    have hlt' : ∀ x ∈ l, e.1 < x.1 := fun x hx => hlt x.1 (mem_map_of_mem hx)
    simp only [insertEntry]
    split_ifs with h₁ h₂
    · refine pairwise_cons.2 ⟨?_, h⟩
      intro a ha
      rcases mem_cons.1 ha with rfl | ha
      · exact h₁
      · exact lt_trans h₁ (hlt a ha)
    · exact pairwise_cons.2 ⟨fun a ha => h₂ ▸ hlt a ha, hl⟩
    · refine pairwise_cons.2 ⟨?_, ih hl⟩
      intro a ha
      obtain ⟨x, hx, rfl⟩ := mem_map.1 ha
      rcases mem_insertEntry_imp hx with rfl | hx
      · exact lt_of_le_of_ne (not_lt.1 h₁) (Ne.symm h₂)
      · exact hlt' x hx

def insert (k : K) (v : V) : OrdMap K V :=
  ⟨insertEntry k v m.entries, sorted_insertEntry k v m.sorted⟩

def filter (m : OrdMap K V) (p : K → V → Bool) : OrdMap K V :=
  ⟨m.entries.filter fun e => p e.1 e.2, m.sorted.sublist (filter_sublist.map _)⟩

def erase (k : K) : OrdMap K V := m.filter fun a _ => decide (a ≠ k)

/-- The map with the value of one key changed, if the key is present. -/
def modify (k : K) (f : V → V) : OrdMap K V :=
  match m.get? k with
  | none => m
  | some v => m.insert k (f v)

/-- The map with a default stored under a key that was absent. -/
def getOrInsert (k : K) (d : V) : OrdMap K V :=
  match m.get? k with
  | none => m.insert k d
  | some _ => m

/-- The map without its `k` least keys. -/
def drop (m : OrdMap K V) (k : ℕ) : OrdMap K V :=
  ⟨m.entries.drop k, m.sorted.sublist ((drop_sublist k _).map _)⟩

/-- The entries of the `k` least keys. -/
def take (m : OrdMap K V) (k : ℕ) : OrdMap K V :=
  ⟨m.entries.take k, m.sorted.sublist ((take_sublist k _).map _)⟩

def first? : Option (K × V) := m.entries.head?

def last? : Option (K × V) := m.entries.getLast?

/-! ### Lookups -/

@[simp] theorem get?_empty (k : K) : (empty : OrdMap K V).get? k = none := rfl

theorem key_unique {w : V} (hv : (k, v) ∈ m.entries) (hw : (k, w) ∈ m.entries) : v = w := by
  obtain ⟨l, hl⟩ := m
  dsimp only at hv hw
  induction l with
  | nil => cases hv
  | cons e l ih =>
    obtain ⟨hlt, hl'⟩ := pairwise_cons.1 hl
    have hne : ∀ x, (k, x) ∈ l → e.1 ≠ k := fun x hx => (hlt k (mem_map_of_mem hx)).ne
    rcases mem_cons.1 hv with rfl | hv' <;> rcases mem_cons.1 hw with hw' | hw'
    · exact (Prod.mk.inj hw').2.symm
    · exact absurd rfl (hne w hw')
    · exact absurd (congrArg Prod.fst hw').symm (hne v hv')
    · exact ih hl' hv' hw'

/-- The entries are exactly what lookups return. -/
theorem mem_entries_iff : (k, v) ∈ m.entries ↔ m.get? k = some v := by
  constructor
  · intro h
    cases hf : m.entries.find? fun e => decide (e.1 = k) with
    | none => exact absurd (decide_eq_true rfl) (find?_eq_none.1 hf _ h)
    | some e =>
      have hk : e.1 = k := by simpa using find?_some hf
      have he : (k, e.2) ∈ m.entries := hk ▸ mem_of_find?_eq_some hf
      rw [get?, hf, map_some, m.key_unique he h]
  · intro h
    obtain ⟨e, he, rfl⟩ := map_eq_some_iff.1 h
    have hk : e.1 = k := by simpa using find?_some he
    exact hk ▸ mem_of_find?_eq_some he

theorem mem_keys_iff : k ∈ m.keys ↔ (m.get? k).isSome := by
  rw [isSome_iff_exists]
  constructor
  · intro h
    obtain ⟨e, he, rfl⟩ := mem_map.1 h
    exact ⟨e.2, m.mem_entries_iff.1 he⟩
  · rintro ⟨v, hv⟩
    exact mem_map.2 ⟨(k, v), m.mem_entries_iff.2 hv, rfl⟩

theorem mem_values_iff : v ∈ m.values ↔ ∃ k, m.get? k = some v := by
  constructor
  · intro h
    obtain ⟨e, he, rfl⟩ := mem_map.1 h
    exact ⟨e.1, m.mem_entries_iff.1 he⟩
  · rintro ⟨k, hk⟩
    exact mem_map.2 ⟨(k, v), m.mem_entries_iff.2 hk, rfl⟩

theorem find?_insertEntry (k a : K) (v : V) (l : List (K × V)) :
    ((insertEntry k v l).find? fun e => decide (e.1 = a)).map Prod.snd =
      if a = k then some v else (l.find? fun e => decide (e.1 = a)).map Prod.snd := by
  induction l with
  | nil =>
    by_cases h : k = a
    · simp [insertEntry, h]
    · simp [insertEntry, h, Ne.symm h]
  | cons e l ih =>
    simp only [insertEntry]
    split_ifs with h₁ h₂ h₃ h₄ h₅
    · simp [h₂]
    · simp [find?_cons, Ne.symm h₂]
    · simp [h₄]
    · have hea : e.1 ≠ a := fun h => h₄ (by rw [h₃, h])
      simp [Ne.symm h₄, hea]
    · have hea : e.1 ≠ a := fun h => h₃ (by rw [← h₅, h])
      rw [find?_cons_of_neg (by simpa using hea), ih, if_pos h₅]
    · by_cases hea : e.1 = a
      · simp [hea]
      · rw [find?_cons_of_neg (by simpa using hea),
          find?_cons_of_neg (by simpa using hea), ih, if_neg h₅]

/-- The entries from a key on start with the entry of the key. -/
theorem filter_le_entries (h : m.get? k = some v) :
    ∃ rest, (m.entries.filter fun e => decide (k ≤ e.1)) = (k, v) :: rest ∧ ∀ e ∈ rest, k < e.1 := by
  rw [← mem_entries_iff] at h
  obtain ⟨l, hl⟩ := m
  dsimp only at h ⊢
  induction l with
  | nil => cases h
  | cons e l ih =>
    rw [map_cons, pairwise_cons] at hl
    have hlr : ∀ e' ∈ l, e.1 < e'.1 := fun e' he' => hl.1 _ (mem_map_of_mem he')
    rcases mem_cons.1 h with rfl | hmem
    · refine ⟨l, ?_, hlr⟩
      rw [filter_cons_of_pos (by simp), filter_eq_self.2]
      intro e' he'
      exact decide_eq_true (hlr e' he').le
    · have hlt : e.1 < k := hlr _ hmem
      rw [filter_cons_of_neg (by simpa using hlt)]
      exact ih hl.2 hmem

theorem get?_insert (k : K) (v : V) (a : K) :
    (m.insert k v).get? a = if a = k then some v else m.get? a :=
  find?_insertEntry k a v m.entries

@[simp] theorem get?_insert_self (k : K) (v : V) :
    (m.insert k v).get? k = some v := by rw [get?_insert, if_pos rfl]

variable {a : K}

theorem get?_insert_of_ne (v : V) (h : a ≠ k) :
    (m.insert k v).get? a = m.get? a := by rw [get?_insert, if_neg h]

theorem get?_filter (p : K → V → Bool) (a : K) : (m.filter p).get? a = (m.get? a).filter (p a) := by
  ext v
  rw [← mem_entries_iff, filter_eq_some_iff, ← mem_entries_iff]
  exact mem_filter

theorem contains_insert (k : K) (v : V) (a : K) :
    (m.insert k v).contains a = true ↔ a = k ∨ m.contains a = true := by
  rw [contains, contains, get?_insert]
  split_ifs with h <;> simp [h]

theorem contains_filter_key (p : K → Prop) [DecidablePred p] (a : K) :
    (m.filter fun k _ => decide (p k)).contains a = true ↔ p a ∧ m.contains a = true := by
  rw [contains, contains, get?_filter]
  cases hm : m.get? a <;> by_cases h : p a <;> simp [h]

/-- A lookup after removing a key. -/
theorem get?_of_get?_drop {k : ℕ} (h : (m.drop k).get? a = some v) : m.get? a = some v :=
  m.mem_entries_iff.1 (mem_of_mem_drop ((m.drop k).mem_entries_iff.2 h))

theorem get?_erase (k a : K) : (m.erase k).get? a = if a = k then none else m.get? a := by
  rw [erase, get?_filter]
  by_cases h : a = k
  · cases hm : m.get? a <;> simp [h]
  · cases hm : m.get? a <;> simp [h]

theorem get?_modify (k : K) (f : V → V) (a : K) :
    (m.modify k f).get? a = if a = k then (m.get? k).map f else m.get? a := by
  cases hk : m.get? k with
  | none =>
    rw [modify, hk]
    split_ifs with h
    · rw [h, hk, map_none]
    · rfl
  | some v =>
    rw [modify, hk]
    exact m.get?_insert k (f v) a

/-- A lookup after storing a default. -/
theorem get?_getOrInsert (k : K) (d : V) (a : K) :
    (m.getOrInsert k d).get? a = if a = k then some ((m.get? k).getD d) else m.get? a := by
  cases hk : m.get? k with
  | none =>
    rw [getOrInsert, hk]
    exact m.get?_insert k d a
  | some v =>
    rw [getOrInsert, hk]
    split_ifs with h
    · rw [h, hk, getD_some]
    · rfl

/-! ### Extreme keys -/

/-- No key lies below the key of the first entry. -/
theorem le_of_first? (h : m.first? = some (k, v)) (ha : (m.get? a).isSome) : k ≤ a := by
  obtain ⟨l, hl⟩ := m
  obtain ⟨w, hw⟩ := isSome_iff_exists.1 ha
  have ha' := (mem_entries_iff _).2 hw
  cases l with
  | nil => cases ha'
  | cons e l =>
    obtain ⟨hlt, -⟩ := pairwise_cons.1 hl
    obtain rfl : e = (k, v) := by simpa [first?] using h
    rcases mem_cons.1 ha' with h' | h'
    · exact le_of_eq (congrArg Prod.fst h').symm
    · exact (hlt a (mem_map_of_mem h')).le

/-- No key lies above the key of the last entry. -/
theorem le_of_last? (h : m.last? = some (k, v)) (ha : (m.get? a).isSome) : a ≤ k := by
  obtain ⟨l, hl⟩ := m
  obtain ⟨w, hw⟩ := isSome_iff_exists.1 ha
  have ha' := (mem_entries_iff _).2 hw
  obtain ⟨l', rfl⟩ := getLast?_eq_some_iff.1 (show l.getLast? = some (k, v) from h)
  rw [map_append, pairwise_append] at hl
  rcases mem_append.1 ha' with h' | h'
  · exact (hl.2.2 a (mem_map_of_mem h') k (by simp)).le
  · exact le_of_eq (congrArg Prod.fst (mem_singleton.1 h'))

/-- A key behind all others comes last. -/
theorem entries_insert_of_last (v : V) (h : ∀ e ∈ m.entries, e.1 < k) :
    (m.insert k v).entries = m.entries ++ [(k, v)] := by
  change insertEntry k v m.entries = _
  generalize m.entries = l at h
  induction l with
  | nil => rfl
  | cons e l ih =>
    have he := h e mem_cons_self
    rw [insertEntry, if_neg he.not_gt, if_neg he.ne', ih fun e he => h e (mem_cons_of_mem _ he)]
    rfl

/-- Without its first entry. -/
theorem entries_erase_first (h : m.entries = (k, v) :: l) : (m.erase k).entries = l := by
  have hsr := m.sorted
  rw [h, map_cons, pairwise_cons] at hsr
  change m.entries.filter _ = l
  rw [h, filter_cons_of_neg (by simp), filter_eq_self]
  intro e he
  exact decide_eq_true (hsr.1 e.1 (mem_map_of_mem he)).ne'

theorem get?_of_first? (h : m.first? = some (k, v)) : m.get? k = some v :=
  m.mem_entries_iff.1 (mem_of_head? h)

theorem get?_of_last? (h : m.last? = some (k, v)) : m.get? k = some v :=
  m.mem_entries_iff.1 (mem_of_getLast? h)

/-! ### Maps from lists -/

/-- The map of a list of entries, with the first value for a key. -/
def ofListDedup (l : List (K × V)) : OrdMap K V :=
  l.foldl (fun m e => m.getOrInsert e.1 e.2) empty

theorem get?_foldl_getOrInsert (l : List (K × V)) (m : OrdMap K V)
    (h : (l.foldl (fun m e => m.getOrInsert e.1 e.2) m).get? k = some v) :
    m.get? k = some v ∨ (k, v) ∈ l := by
  induction l generalizing m with
  | nil => exact .inl h
  | cons e l ih =>
    rcases ih _ h with h' | h'
    · rw [get?_getOrInsert] at h'
      split_ifs at h' with hk
      · subst hk
        cases hm : m.get? e.1 with
        | none =>
          obtain rfl : e.2 = v := by simpa [hm] using h'
          exact .inr mem_cons_self
        | some w => exact .inl (by simpa [hm] using h')
      · exact .inl h'
    · exact .inr (mem_cons_of_mem _ h')

theorem get?_ofListDedup (h : (ofListDedup l).get? k = some v) : (k, v) ∈ l := by
  rcases get?_foldl_getOrInsert l _ h with h | h
  · simp at h
  · exact h

theorem mem_keys_foldl_getOrInsert (l : List (K × V)) (m : OrdMap K V) :
    k ∈ (l.foldl (fun m e => m.getOrInsert e.1 e.2) m).keys ↔ k ∈ m.keys ∨ k ∈ l.map Prod.fst := by
  induction l generalizing m with
  | nil => simp
  | cons e l ih =>
    rw [foldl_cons, ih, mem_keys_iff, mem_keys_iff, get?_getOrInsert, map_cons, mem_cons]
    split_ifs with hk
    · simp [hk]
    · simp [hk]

theorem nodup_keys : m.keys.Nodup := m.sorted.imp fun h => ne_of_lt h

/-- The keys of a map from a list are those of the list, each once and in order. -/
theorem keys_ofListDedup (l : List (K × V)) :
    (ofListDedup l).keys = (l.map Prod.fst).toFinset.sort := by
  refine List.Perm.eq_of_pairwise (fun a b _ _ hab hba => absurd hba (lt_asymm hab))
    (ofListDedup l).sorted (Finset.sortedLT_sort _).pairwise ?_
  refine (perm_ext_iff_of_nodup (nodup_keys _) (Finset.sort_nodup _ _)).2 fun k => ?_
  rw [ofListDedup, mem_keys_foldl_getOrInsert, Finset.mem_sort, List.mem_toFinset]
  simp [OrdMap.keys, empty]

/-- Maps with the same keys list them in the same order. -/
theorem keys_congr {m : OrdMap K V} {m' : OrdMap K W} (h : ∀ k, k ∈ m.keys ↔ k ∈ m'.keys) :
    m.keys = m'.keys := by
  refine List.Perm.eq_of_pairwise (fun a b _ _ hab hba => absurd hba (lt_asymm hab))
    m.sorted m'.sorted ?_
  exact (perm_ext_iff_of_nodup (nodup_keys m) (nodup_keys m')).2 h

/-- Maps with the same lookups are the same. -/
theorem ext_get? {m m' : OrdMap K V} (h : ∀ k, m.get? k = m'.get? k) : m = m' := by
  have hnd : ∀ m : OrdMap K V, m.entries.Nodup := fun m => List.Nodup.of_map _ m.nodup_keys
  refine OrdMap.ext (List.Perm.eq_of_pairwise (fun a b _ _ hab hba => absurd hba (lt_asymm hab))
    (pairwise_map.1 m.sorted) (pairwise_map.1 m'.sorted) ?_)
  refine (perm_ext_iff_of_nodup (hnd m) (hnd m')).2 fun e => ?_
  rw [mem_entries_iff, mem_entries_iff, h]

theorem mem_keys_foldl_insert (l : List K) (v : V) (m : OrdMap K V) (k : K) :
    k ∈ (l.foldl (fun m a => m.insert a v) m).keys ↔ k ∈ m.keys ∨ k ∈ l := by
  induction l generalizing m with
  | nil => simp
  | cons a l ih =>
    rw [foldl_cons, ih, mem_keys_iff, mem_keys_iff, get?_insert, mem_cons]
    split_ifs with hk
    · simp [hk]
    · simp [hk]

/-- Inserting entries that agree at a key. -/
theorem get?_foldl_insert_of_mem {m : OrdMap K V} (ha : ∀ e ∈ l, e.1 = k → e.2 = v)
    (h : (k, v) ∈ l ∨ m.get? k = some v) :
    (l.foldl (fun m e => m.insert e.1 e.2) m).get? k = some v := by
  induction l generalizing m with
  | nil => exact h.resolve_left not_mem_nil
  | cons e l ih =>
    refine ih (fun e' he' => ha e' (mem_cons_of_mem e he')) ?_
    rw [get?_insert]
    split_ifs with hk
    · rw [ha e mem_cons_self hk.symm]
      exact .inr rfl
    · refine h.imp_left fun hmem => (mem_cons.1 hmem).resolve_left ?_
      rintro rfl
      exact hk rfl

/-- Inserting the values of a function. -/
theorem get?_foldl_insert (g : K → V) (l : List K) (m : OrdMap K V) (k : K) :
    ((l.map fun a => (a, g a)).foldl (fun m e => m.insert e.1 e.2) m).get? k =
      if k ∈ l then some (g k) else m.get? k := by
  induction l generalizing m with
  | nil => simp
  | cons a l ih =>
    rw [map_cons, foldl_cons, ih, get?_insert]
    by_cases hin : k ∈ l
    · simp [hin]
    · by_cases heq : k = a
      · simp [heq]
      · simp [hin, heq]

theorem get?_foldl_insert_or {m : OrdMap K V}
    (h : (l.foldl (fun m e => m.insert e.1 e.2) m).get? k = some v) :
    (k, v) ∈ l ∨ m.get? k = some v := by
  induction l generalizing m with
  | nil => exact .inr h
  | cons e l ih =>
    rcases ih h with hmem | hg
    · exact .inl (mem_cons_of_mem e hmem)
    · rw [get?_insert] at hg
      split_ifs at hg with hk
      · rw [hk, ← Option.some.inj hg]
        exact .inl mem_cons_self
      · exact .inr hg

theorem exists_get?_foldl_insert (h : (m.get? k).isSome ∨ k ∈ l.map Prod.fst) :
    ((l.foldl (fun m e => m.insert e.1 e.2) m).get? k).isSome := by
  induction l generalizing m with
  | nil => simpa using h
  | cons e l ih =>
    refine ih _ ?_
    rw [get?_insert]
    split_ifs with hk
    · exact .inl rfl
    · rcases h with h | h
      · exact .inl h
      · rw [map_cons, mem_cons] at h
        exact .inr (h.resolve_left hk)

end OrdMap
