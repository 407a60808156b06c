/-
**The safe tip is a rank.**

The heaps of `consensus/src/aggregation/safe_tip.rs` are multisets that count their members.  However
the tips move between them, together they have the tips of all validators, the upper one has as many as
there may be faulty validators, and none of the lower one is above one of the upper one.  So the
assertions hold, and the safe tip is the highest tip that more validators have reached than may be
faulty.

Main definitions:

* `SafeTip.members` — the members of a heap, `SafeTip.Bags` — what the heaps keep;
* `SafeTip.Reach` — the states after any calls, whatever the order of the hash map.

Main results:

* `SafeTip.Bags.update`, `SafeTip.Bags.drop` — **a tip moves** up, a validator leaves;
* `SafeTip.safe_tip_rank` — **the safe tip is the tip of its rank**, and does not fall.
-/

import Commonware.SafeTip

set_option autoImplicit false

namespace Commonware.Aggregation.SafeTip

open List OrdMap

/-! ### Heaps as multisets -/

/-- The members of a heap, in order and as often as they are counted. -/
def listing (heap : OrdMap ℕ ℕ) : List ℕ := heap.entries.flatMap fun e => List.replicate e.2 e.1

def members (heap : OrdMap ℕ ℕ) : Multiset ℕ := listing heap

/-- Nothing is counted zero times. -/
def Counted (heap : OrdMap ℕ ℕ) : Prop := ∀ k c, heap.get? k = some c → 0 < c

theorem count_members (heap : OrdMap ℕ ℕ) (k : ℕ) : (members heap).count k = (heap.get? k).getD 0 := by
  rw [members, listing, get?, Multiset.coe_count]
  have hsr := heap.sorted
  generalize heap.entries = l at hsr
  induction l with
  | nil => rfl
  | cons e l ih =>
    obtain ⟨hf, hr⟩ := pairwise_cons.1 hsr
    rw [flatMap_cons, count_append, count_replicate, ih hr, List.find?_cons]
    by_cases hk : e.1 = k
    · -- no other entry has the key
      have hnn : l.find? (fun e => decide (e.1 = k)) = none := by
        refine List.find?_eq_none.2 fun e' he' => ?_
        have := hf e'.1 (mem_map_of_mem he')
        simp only [decide_eq_true_eq]
        omega
      simp [hk, hnn]
    · simp [hk]

variable {heap : OrdMap ℕ ℕ}

theorem mem_members (h : Counted heap) {k : ℕ} : k ∈ members heap ↔ heap.contains k = true := by
  rw [← Multiset.count_pos, count_members, OrdMap.contains]
  cases hk : heap.get? k with
  | none => simp
  | some c => simpa using h k c hk

theorem members_inc (heap : OrdMap ℕ ℕ) (t : ℕ) : members (inc heap t) = t ::ₘ members heap := by
  ext k
  rw [count_members, inc, get?_insert, Multiset.count_cons, count_members]
  by_cases hk : k = t
  · simp [hk]
  · simp [hk]

theorem counted_inc (h : Counted heap) (t : ℕ) : Counted (inc heap t) := by
  intro k c hc
  rw [inc, get?_insert] at hc
  split_ifs at hc
  · cases hc
    omega
  · exact h k c hc

variable {t : ℕ}

theorem exists_dec (h : Counted heap) (ht : t ∈ members heap) :
    ∃ heap', dec heap t = .ok heap' ∧ Counted heap' ∧ members heap' = (members heap).erase t := by
  obtain ⟨c, hc⟩ := Option.isSome_iff_exists.1 ((mem_members h).1 ht)
  have hp := h t c hc
  obtain ⟨heap', hok, hg⟩ : ∃ heap', dec heap t = .ok heap' ∧ ∀ k, heap'.get? k =
      if k = t then (if c - 1 = 0 then none else some (c - 1)) else heap.get? k := by
    rw [dec, hc]
    dsimp only
    split_ifs
    · exact ⟨_, rfl, get?_erase _ _⟩
    · exact ⟨_, rfl, get?_insert _ _ _⟩
  refine ⟨heap', hok, fun k c' hc' => ?_, Multiset.ext.2 fun k => ?_⟩
  · rw [hg] at hc'
    split_ifs at hc'
    · cases hc'
      omega
    · exact h k c' hc'
  · rw [count_members, hg]
    by_cases hk : k = t
    · rw [hk, if_pos rfl, Multiset.count_erase_self, count_members, hc]
      split_ifs with h0
      · exact h0.symm
      · rfl
    · rw [if_neg hk, Multiset.count_erase_of_ne hk, count_members]

/-- Different tips are removed and added in any order. -/
theorem dec_inc {heap' : OrdMap ℕ ℕ} {u : ℕ} (hne : t ≠ u) (h : dec heap t = .ok heap') :
    dec (inc heap u) t = .ok (inc heap' u) := by
  rw [dec, inc, get?_insert_of_ne _ _ hne]
  rw [dec] at h
  cases hc : heap.get? t with
  | none => simp [hc] at h
  | some c =>
    rw [hc] at h
    dsimp only at h ⊢
    split_ifs at h ⊢ <;>
    · cases h
      refine congrArg _ (ext_get? fun k => ?_)
      simp only [inc, get?_erase, get?_insert]
      split_ifs <;> simp_all

theorem mem_of_get? (h : Counted heap) {e : ℕ × ℕ} (hg : heap.get? e.1 = some e.2) :
    e.1 ∈ members heap := by
  rw [mem_members h, OrdMap.contains, hg]
  rfl

theorem exists_last (h : Counted heap) (ht : t ∈ members heap) :
    ∃ k c, heap.last? = some (k, c) ∧ k ∈ members heap ∧ ∀ x ∈ members heap, x ≤ k := by
  cases hls : heap.last? with
  | none =>
    rw [last?, List.getLast?_eq_none_iff] at hls
    rw [members, listing, hls] at ht
    cases ht
  | some e =>
    exact ⟨e.1, e.2, rfl, mem_of_get? h (heap.get?_of_last? hls),
      fun x hx => heap.le_of_last? hls ((mem_members h).1 hx)⟩

theorem exists_first (h : Counted heap) (ht : t ∈ members heap) :
    ∃ k c, heap.first? = some (k, c) ∧ k ∈ members heap ∧ ∀ x ∈ members heap, k ≤ x := by
  cases hf : heap.first? with
  | none =>
    rw [first?, List.head?_eq_none_iff] at hf
    rw [members, listing, hf] at ht
    cases ht
  | some e =>
    exact ⟨e.1, e.2, rfl, mem_of_get? h (heap.get?_of_first? hf),
      fun x hx => heap.le_of_first? hf ((mem_members h).1 hx)⟩

/-! ### The two heaps -/

/-- The heaps have the members of `M`, the `f` highest ones in the upper heap. -/
structure Bags (hi lo : OrdMap ℕ ℕ) (M : Multiset ℕ) (f : ℕ) : Prop where
  countedHi : Counted hi
  countedLo : Counted lo
  union : members hi + members lo = M
  card : (members hi).card = f
  le : ∀ x ∈ members lo, ∀ y ∈ members hi, x ≤ y

section Bags

variable {hi lo : OrdMap ℕ ℕ} {M : Multiset ℕ} {f old new : ℕ}

theorem erase_add_cons {A B : Multiset ℕ} {a b : ℕ} (ha : a ∈ A) :
    b ::ₘ A.erase a + B = b ::ₘ (A + B).erase a := by
  rw [Multiset.cons_add, Multiset.erase_add_left_pos B ha]

/-- A member of the upper heap changes, and stays above the lower heap. -/
theorem Bags.replaceHi (h : Bags hi lo M f) (hol : old ∈ members hi) (hnw : ∀ x ∈ members lo, x ≤ new) :
    ∃ hi', dec hi old = .ok hi' ∧ Bags (inc hi' new) lo (new ::ₘ M.erase old) f := by
  obtain ⟨hi', hdc, hcn, hmm⟩ := exists_dec h.countedHi hol
  refine ⟨hi', hdc, counted_inc hcn new, h.countedLo, ?_, ?_, fun x hx y hy => ?_⟩
  · rw [members_inc, hmm, erase_add_cons hol, h.union]
  · rw [members_inc, hmm, Multiset.card_cons, Multiset.card_erase_add_one hol, h.card]
  · rw [members_inc, hmm, Multiset.mem_cons] at hy
    rcases hy with rfl | hy
    · exact hnw x hx
    · exact h.le x hx y (Multiset.mem_of_mem_erase hy)

/-- A member of the lower heap changes, and stays below the upper heap. -/
theorem Bags.replaceLo (h : Bags hi lo M f) (hol : old ∈ members lo) (hnw : ∀ y ∈ members hi, new ≤ y) :
    ∃ lo', dec lo old = .ok lo' ∧ members lo' = (members lo).erase old ∧
      Bags hi (inc lo' new) (new ::ₘ M.erase old) f := by
  obtain ⟨lo', hdc, hcn, hmm⟩ := exists_dec h.countedLo hol
  refine ⟨lo', hdc, hmm, h.countedHi, counted_inc hcn new, ?_, h.card, fun x hx y hy => ?_⟩
  · rw [members_inc, hmm, Multiset.add_comm, erase_add_cons hol, Multiset.add_comm, h.union]
  · rw [members_inc, hmm, Multiset.mem_cons] at hx
    rcases hx with rfl | hx
    · exact hnw y hy
    · exact h.le x (Multiset.mem_of_mem_erase hx) y hy

/-- A member of the lower heap rises, and changes places with the lowest one of the upper heap. -/
theorem Bags.swapUp (h : Bags hi lo M f) (hol : old ∈ members lo) {m : ℕ} (hm : m ∈ members hi)
    (hmn : ∀ y ∈ members hi, m ≤ y) (hlt : m < new) :
    ∃ hi' lo' c, dec lo old = .ok lo' ∧ (inc hi new).first? = some (m, c) ∧
      dec (inc hi new) m = .ok hi' ∧ m ∈ members (inc lo' m) ∧
      Bags hi' (inc lo' m) (new ::ₘ M.erase old) f := by
  have hm' : m ∈ members (inc hi new) := by
    rw [members_inc]
    exact Multiset.mem_cons_of_mem hm
  obtain ⟨m', c, hf, hmem, hmn'⟩ := exists_first (counted_inc h.countedHi new) hm'
  obtain rfl : m = m' := by
    rw [members_inc, Multiset.mem_cons] at hmem
    have := hmn' m hm'
    rcases hmem with rfl | hmem
    · omega
    · exact le_antisymm (hmn m' hmem) this
  obtain ⟨lo', hdc, -, h₁⟩ := h.replaceLo hol hmn
  obtain ⟨hi', hdc', h₂⟩ := h₁.replaceHi hm (show ∀ x ∈ members _, x ≤ new from
    fun x hx => (h₁.le x hx m hm).trans hlt.le)
  rw [Multiset.erase_cons_head] at h₂
  refine ⟨inc hi' new, lo', c, hdc, hf, dec_inc hlt.ne hdc', ?_, h₂⟩
  rw [members_inc]
  exact Multiset.mem_cons_self _ _

end Bags

/-! ### Calls -/

section Calls

variable {PK : Type} [DecidableEq PK] {s : SafeTip PK} {M : Multiset ℕ} {f old new : ℕ}

def tipsOf (tips : List (PK × ℕ)) : Multiset ℕ := (tips.map Prod.snd : List ℕ)

omit [DecidableEq PK] in
theorem tipsOf_zero (l : List PK) : tipsOf (l.map fun v => (v, 0)) = Multiset.replicate l.length 0 := by
  rw [tipsOf, map_map, ← Multiset.coe_replicate]
  exact congrArg _ map_const'

variable {tips : List (PK × ℕ)}

theorem tipsOf_raised (new : ℕ) (hnd : (tips.map Prod.fst).Nodup) {v : PK} {e : PK × ℕ}
    (h : tips.find? (fun t => decide (t.1 = v)) = some e) :
    tipsOf (tips.map fun t => if t.1 = v then (t.1, new) else t) = new ::ₘ (tipsOf tips).erase e.2 := by
  induction tips with
  | nil => cases h
  | cons t tips ih =>
    rw [map_cons, nodup_cons] at hnd
    rw [List.find?_cons] at h
    by_cases ht : t.1 = v
    · obtain rfl : t = e := by simpa [ht] using h
      have hot : (tips.map fun t => if t.1 = v then (t.1, new) else t) = tips := by
        refine (map_congr_left fun t' ht' => if_neg ?_).trans (map_id _)
        rintro rfl
        exact hnd.1 (ht ▸ mem_map_of_mem ht')
      rw [map_cons, if_pos ht, hot]
      simp [tipsOf]
    · have hih := ih hnd.2 (by simpa [ht] using h)
      have hmem : e.2 ∈ tipsOf tips := Multiset.mem_coe.2
        (mem_map_of_mem (mem_of_find?_eq_some (by simpa [ht] using h)))
      have hcn : ∀ t (l : List (PK × ℕ)), tipsOf (t :: l) = t.2 ::ₘ tipsOf l := fun t l => rfl
      rw [map_cons, if_neg ht, hcn, hih, hcn, Multiset.cons_swap]
      congr 1
      by_cases heq : t.2 = e.2
      · rw [heq, Multiset.erase_cons_head, Multiset.cons_erase hmem]
      · rw [Multiset.erase_cons_tail _ heq]

/-- **A tip rises.**  The highest tip of the lower heap does not fall. -/
theorem Bags.update (h : Bags s.hi s.lo (tipsOf s.tips) f) (hnd : (s.tips.map Prod.fst).Nodup) (v : PK)
    (new : ℕ) : ∃ s' o, s.update v new = .ok (s', o) ∧ s'.tips.map Prod.fst = s.tips.map Prod.fst ∧
      Bags s'.hi s'.lo (tipsOf s'.tips) f ∧ ∀ x ∈ members s.lo, ∃ y ∈ members s'.lo, x ≤ y := by
  rw [SafeTip.update]
  cases hfn : s.tips.find? fun t => decide (t.1 = v) with
  | none => exact ⟨s, none, rfl, rfl, h, fun x hx => ⟨x, hx, le_rfl⟩⟩
  | some e =>
    obtain ⟨w, old⟩ := e
    dsimp only
    by_cases hle : new ≤ old
    · rw [if_pos hle]
      exact ⟨s, none, rfl, rfl, h, fun x hx => ⟨x, hx, le_rfl⟩⟩
    have hky : (s.tips.map fun t => if t.1 = v then (t.1, new) else t).map Prod.fst =
        s.tips.map Prod.fst := by
      rw [map_map]
      refine map_congr_left fun t _ => ?_
      rw [Function.comp_apply]
      split_ifs <;> rfl
    have hrs := tipsOf_raised new hnd hfn
    have hol : old ∈ tipsOf s.tips :=
      Multiset.mem_coe.2 (mem_map.2 ⟨_, mem_of_find?_eq_some hfn, rfl⟩)
    rw [if_neg hle]
    by_cases hmem : old ∈ members s.hi
    · obtain ⟨hi', hdc, hbg⟩ := h.replaceHi hmem (show ∀ x ∈ members s.lo, x ≤ new from
        fun x hx => (h.le x hx old hmem).trans (by omega))
      rw [if_pos ((mem_members h.countedHi).1 hmem), hdc]
      exact ⟨_, _, rfl, hky, hrs ▸ hbg, fun x hx => ⟨x, hx, le_rfl⟩⟩
    have hlo : old ∈ members s.lo := by
      rw [← h.union, Multiset.mem_add] at hol
      exact hol.resolve_left hmem
    rw [if_neg (mt (mem_members h.countedHi).2 hmem)]
    by_cases hst : ∀ y ∈ members s.hi, new ≤ y
    · obtain ⟨lo', hdc, hmm, hbg⟩ := h.replaceLo hlo hst
      rw [if_pos, hdc]
      · refine ⟨_, _, rfl, hky, hrs ▸ hbg, fun x hx => ?_⟩
        dsimp only
        rw [members_inc, hmm]
        by_cases hx' : x = old
        · exact ⟨new, Multiset.mem_cons_self _ _, by omega⟩
        · exact ⟨x, Multiset.mem_cons_of_mem ((Multiset.mem_erase_of_ne hx').2 hx), le_rfl⟩
      · cases hf : s.hi.first? with
        | none => rfl
        | some e =>
          exact decide_eq_true (hst e.1 (mem_of_get? h.countedHi (s.hi.get?_of_first? hf)))
    · -- the lowest tip of the upper heap changes places with the new one
      push Not at hst
      obtain ⟨y, hy, hlt'⟩ := hst
      obtain ⟨m, c, hf, hm, hmi⟩ := exists_first h.countedHi hy
      have hmn : m < new := (hmi y hy).trans_lt hlt'
      obtain ⟨hi', lo', c', hdc, hf', hdc', hml, hbg⟩ := h.swapUp hlo hm hmi hmn
      rw [if_neg (by rw [hf]; simpa using hmn), hdc]
      dsimp only [bind, Except.bind]
      rw [hf']
      dsimp only
      rw [if_neg (by omega), hdc']
      exact ⟨_, _, rfl, hky, hrs ▸ hbg, fun x hx => ⟨m, hml, h.le x hx m hm⟩⟩

/-- A member of the upper heap falls to zero, and changes places with the highest one of the lower
heap. -/
theorem Bags.swapDown {hi lo : OrdMap ℕ ℕ} (h : Bags hi lo M f) (hol : old ∈ members hi) {m : ℕ}
    (hm : m ∈ members lo) (hmx : ∀ x ∈ members lo, x ≤ m) (hp : 0 < m) :
    ∃ hi' lo' c, dec hi old = .ok hi' ∧ (inc lo 0).last? = some (m, c) ∧ dec (inc lo 0) m = .ok lo' ∧
      Bags (inc hi' m) lo' (0 ::ₘ M.erase old) f := by
  have hm' : m ∈ members (inc lo 0) := by
    rw [members_inc]
    exact Multiset.mem_cons_of_mem hm
  obtain ⟨m', c, hls, hmem, hmx'⟩ := exists_last (counted_inc h.countedLo 0) hm'
  obtain rfl : m = m' := by
    rw [members_inc, Multiset.mem_cons] at hmem
    have := hmx' m hm'
    rcases hmem with rfl | hmem
    · omega
    · exact le_antisymm this (hmx m' hmem)
  obtain ⟨hi', hdc, h₁⟩ := h.replaceHi hol hmx
  obtain ⟨lo', hdc', -, h₂⟩ := h₁.replaceLo hm fun y _ => Nat.zero_le y
  rw [Multiset.erase_cons_head] at h₂
  exact ⟨hi', inc lo' 0, c, hdc, hls, dec_inc hp.ne' hdc', h₂⟩

omit [DecidableEq PK] in
/-- **A tip falls to zero.** -/
theorem Bags.drop (h : Bags s.hi s.lo M f) (hol : old ∈ M) :
    ∃ s', s.drop old = .ok s' ∧ s'.tips = s.tips ∧ Bags s'.hi s'.lo (0 ::ₘ M.erase old) f := by
  rw [SafeTip.drop]
  by_cases h0 : old = 0
  · rw [if_pos h0]
    exact ⟨s, rfl, rfl, by rw [← h0, Multiset.cons_erase hol]; exact h⟩
  rw [if_neg h0]
  by_cases hlo : old ∈ members s.lo
  · obtain ⟨lo', hdc, -, hbg⟩ := h.replaceLo hlo (show ∀ y ∈ members s.hi, 0 ≤ y from
      fun y _ => Nat.zero_le y)
    rw [if_pos ((mem_members h.countedLo).1 hlo), hdc]
    exact ⟨_, rfl, rfl, hbg⟩
  have hhi : old ∈ members s.hi := by
    rw [← h.union, Multiset.mem_add] at hol
    exact hol.resolve_right hlo
  rw [if_neg (mt (mem_members h.countedLo).2 hlo)]
  by_cases hst : ∀ x ∈ members s.lo, x ≤ 0
  · obtain ⟨hi', hdc, hbg⟩ := h.replaceHi hhi hst
    rw [if_pos, hdc]
    · exact ⟨_, rfl, rfl, hbg⟩
    · cases hls : s.lo.last? with
      | none => rfl
      | some e =>
        exact decide_eq_true (hst e.1 (mem_of_get? h.countedLo (s.lo.get?_of_last? hls)))
  · push Not at hst
    obtain ⟨x, hx, hp⟩ := hst
    obtain ⟨m, c, hls, hm, hmx⟩ := exists_last h.countedLo hx
    have hmp : 0 < m := hp.trans_le (hmx x hx)
    obtain ⟨hi', lo', c', hdc, hls', hdc', hbg⟩ := h.swapDown hhi hm hmx hmp
    rw [if_neg (by rw [hls]; simpa using hmp.ne'), hdc]
    dsimp only [bind, Except.bind]
    rw [hls']
    dsimp only
    rw [if_neg (by omega), hdc']
    exact ⟨_, rfl, rfl, hbg⟩

omit [DecidableEq PK] in
/-- Some validators leave, one after the other. -/
theorem Bags.dropAll {exiting : List (PK × ℕ)} (h : Bags s.hi s.lo (M + tipsOf exiting) f) :
    ∃ s', exiting.foldlM (fun s v => s.drop v.2) s = .ok s' ∧ s'.tips = s.tips ∧
      Bags s'.hi s'.lo (M + Multiset.replicate exiting.length 0) f := by
  induction exiting generalizing s M with
  | nil => exact ⟨s, rfl, rfl, h⟩
  | cons v exiting ih =>
    have hcn : tipsOf (v :: exiting) = v.2 ::ₘ tipsOf exiting := rfl
    rw [hcn] at h
    obtain ⟨s₁, hdr, ht, h₁⟩ := h.drop (Multiset.mem_add.2 (.inr (Multiset.mem_cons_self _ _)))
    rw [Multiset.add_cons, Multiset.erase_cons_head, ← Multiset.cons_add] at h₁
    obtain ⟨s₂, hf, ht', h₂⟩ := ih h₁
    refine ⟨s₂, ?_, ht'.trans ht, ?_⟩
    · rw [foldlM_cons, hdr]
      exact hf
    · rwa [length_cons, Multiset.replicate_succ, Multiset.add_cons, ← Multiset.cons_add]

variable {validators : List PK}

theorem length_entering (hnd : (tips.map Prod.fst).Nodup)
    (hvl : validators.Nodup) (hlen : validators.length = tips.length) :
    (validators.filter fun v =>
      decide (v ∉ (tips.filter fun t => decide (t.1 ∈ validators)).map Prod.fst)).length =
      (tips.filter fun t => decide (t.1 ∉ validators)).length := by
  have hp : (validators.filter fun v =>
      decide (v ∈ (tips.filter fun t => decide (t.1 ∈ validators)).map Prod.fst)).Perm
        ((tips.filter fun t => decide (t.1 ∈ validators)).map Prod.fst) := by
    refine (perm_ext_iff_of_nodup (hvl.filter _) (hnd.sublist (filter_sublist.map _))).2 fun v => ?_
    simp only [mem_filter, mem_map, decide_eq_true_eq]
    constructor
    · exact fun h => h.2
    · rintro ⟨t, ht, rfl⟩
      exact ⟨ht.2, t, ht, rfl⟩
  have hlen' := hp.length_eq
  rw [length_map] at hlen'
  have hsp := length_eq_length_filter_add (l := validators) fun v =>
    decide (v ∈ (tips.filter fun t => decide (t.1 ∈ validators)).map Prod.fst)
  have hsp' := length_eq_length_filter_add (l := tips) fun t => decide (t.1 ∈ validators)
  simp only [decide_not]
  omega

/-- **The validators change.** -/
theorem Bags.reconcile (h : Bags s.hi s.lo (tipsOf s.tips) f) (hnd : (s.tips.map Prod.fst).Nodup)
    (hvl : validators.Nodup) (hlen : validators.length = s.tips.length) :
    ∃ s', s.reconcile validators = .ok s' ∧ (s'.tips.map Prod.fst).Nodup ∧
      s'.tips.length = s.tips.length ∧ Bags s'.hi s'.lo (tipsOf s'.tips) f := by
  have hsp : tipsOf s.tips = tipsOf (s.tips.filter fun t => decide (t.1 ∈ validators)) +
      tipsOf (s.tips.filter fun t => decide (t.1 ∉ validators)) := by
    rw [tipsOf, tipsOf, tipsOf, Multiset.coe_add, ← map_append]
    refine Multiset.coe_eq_coe.2 (List.Perm.map _ ?_)
    simp only [decide_not]
    exact (filter_append_perm _ _).symm
  rw [hsp] at h
  obtain ⟨s₁, hf, ht, h₁⟩ := Bags.dropAll
    (s := { s with tips := s.tips.filter fun t => decide (t.1 ∈ validators) }) h
  have het := length_entering hnd hvl hlen
  rw [SafeTip.reconcile, if_neg (not_not.2 hlen)]
  dsimp only
  rw [hf]
  refine ⟨_, rfl, ?_, ?_, ?_⟩
  · rw [ht, map_append, map_map, nodup_append]
    refine ⟨hnd.sublist (filter_sublist.map _), ?_, ?_⟩
    · simpa [Function.comp_def] using hvl.filter _
    · rintro v hv w hw rfl
      obtain ⟨w', hw', rfl⟩ := mem_map.1 hw
      exact (of_decide_eq_true (mem_filter.1 hw').2 : _ ∉ _) hv
  · have hsp' := length_eq_length_filter_add (l := s.tips) fun t => decide (t.1 ∈ validators)
    rw [length_append, length_map, ht, het, hsp']
    simp only [decide_not]
  · have hap : ∀ l l' : List (PK × ℕ), tipsOf (l ++ l') = tipsOf l + tipsOf l' := fun l l' => by
      rw [tipsOf, map_append, ← Multiset.coe_add]
      rfl
    dsimp only
    rw [hap, tipsOf_zero, ht, het]
    exact h₁

/-! ### Every run -/

/-- The states after any calls.  The order of the validators may be any one that the hash map has. -/
inductive Reach : SafeTip PK → Prop
  | init {validators : List PK} {s : SafeTip PK} (hnodup : validators.Nodup)
      (h : SafeTip.init validators = .ok s) : Reach s
  | update {s s' : SafeTip PK} {o : Option ℕ} (v : PK) (new : ℕ) (h : Reach s)
      (hupdate : s.update v new = .ok (s', o)) : Reach s'
  | reconcile {s s' : SafeTip PK} {validators : List PK} (h : Reach s) (hnodup : validators.Nodup)
      (hreconcile : s.reconcile validators = .ok s') : Reach s'
  | order {s : SafeTip PK} {tips : List (PK × ℕ)} (h : Reach s) (hperm : s.tips.Perm tips) :
      Reach { s with tips }

/-- What holds in all states. -/
structure Inv (s : SafeTip PK) : Prop where
  nodup : (s.tips.map Prod.fst).Nodup
  pos : 0 < s.tips.length
  bags : Bags s.hi s.lo (tipsOf s.tips) (maxFaults s.tips.length)

theorem Reach.inv (h : Reach s) : Inv s := by
  induction h with
  | @init validators s hnd h =>
    rw [SafeTip.init] at h
    split_ifs at h with hem
    have hps : 0 < validators.length := length_pos_iff.2 (by simpa using hem)
    have hlt := three_mul_maxFaults_lt hps
    obtain rfl := Except.ok.inj h
    have hone : ∀ n, 0 < n → Counted (empty.insert 0 n) := by
      intro n hn k c hc
      rw [get?_insert] at hc
      split_ifs at hc
      · cases hc
        exact hn
      · cases hc
    have hmm : ∀ n, members (empty.insert 0 n) = Multiset.replicate n 0 := fun n => by
      rw [← Multiset.coe_replicate]
      exact congrArg _ (append_nil _)
    have hhi : members (if 0 < maxFaults validators.length then
        empty.insert 0 (maxFaults validators.length) else .empty) =
          Multiset.replicate (maxFaults validators.length) 0 := by
      split_ifs with hf
      · exact hmm _
      · rw [Nat.eq_zero_of_not_pos hf]
        rfl
    refine ⟨by simpa [Function.comp_def] using hnd, by simpa using hps, ?_⟩
    rw [tipsOf_zero, length_map]
    refine ⟨?_, hone _ (by omega), ?_, ?_, fun x hx y _ => ?_⟩
    · dsimp only
      split_ifs with hf
      · exact hone _ hf
      · exact fun k c hc => nomatch hc
    · dsimp only
      rw [hhi, hmm, ← Multiset.replicate_add]
      congr 1
      omega
    · dsimp only
      rw [hhi, Multiset.card_replicate]
    · rw [hmm] at hx
      rw [Multiset.eq_of_mem_replicate hx]
      exact Nat.zero_le y
  | @update s _ _ v new h hu ih =>
    obtain ⟨s', o, hok, hky, hbg, -⟩ := ih.bags.update ih.nodup v new
    obtain ⟨rfl, rfl⟩ := Prod.mk.inj (Except.ok.inj (hok.symm.trans hu))
    have hlen : s'.tips.length = s.tips.length := by
      rw [← length_map, hky, length_map]
    exact ⟨hky ▸ ih.nodup, hlen ▸ ih.pos, hlen ▸ hbg⟩
  | @reconcile s s' validators h hnd hr ih =>
    have hlen : validators.length = s.tips.length := by
      by_contra hne
      rw [SafeTip.reconcile, if_pos hne] at hr
      cases hr
    obtain ⟨s₁, hok, hnd', hlen', hbg⟩ := ih.bags.reconcile ih.nodup hnd hlen
    obtain rfl := Except.ok.inj (hok.symm.trans hr)
    exact ⟨hnd', hlen' ▸ ih.pos, hlen' ▸ hbg⟩
  | @order s tips h hp ih =>
    have ht : tipsOf s.tips = tipsOf tips := Multiset.coe_eq_coe.2 (hp.map _)
    exact ⟨(hp.map _).nodup_iff.1 ih.nodup, hp.length_eq ▸ ih.pos, hp.length_eq ▸ ht ▸ ih.bags⟩

omit [DecidableEq PK] in
theorem Inv.card_lo (h : Inv s) :
    maxFaults s.tips.length + (members s.lo).card = s.tips.length := by
  have hcr := congrArg Multiset.card h.bags.union
  rwa [Multiset.card_add, h.bags.card, tipsOf, Multiset.coe_card, length_map] at hcr

omit [DecidableEq PK] in
theorem Inv.exists_get (h : Inv s) :
    ∃ g, s.get = .ok g ∧ g ∈ members s.lo ∧ ∀ x ∈ members s.lo, x ≤ g := by
  have hcr := h.card_lo
  have hlt := three_mul_maxFaults_lt h.pos
  obtain ⟨x, hx⟩ := Multiset.card_pos_iff_exists_mem.1 (show 0 < (members s.lo).card by omega)
  obtain ⟨g, c, hls, hg, hm⟩ := exists_last h.bags.countedLo hx
  refine ⟨g, ?_, hg, hm⟩
  rw [SafeTip.get, hls]

omit [DecidableEq PK] in
/-- The tips in their order: those of the upper heap, and then those of the lower one. -/
theorem Inv.sort_eq (h : Inv s) : (s.tips.map Prod.snd).insertionSort (· ≥ ·) =
      (listing s.hi).insertionSort (· ≥ ·) ++ (listing s.lo).insertionSort (· ≥ ·) := by
  have hp : (listing s.hi ++ listing s.lo).Perm (s.tips.map Prod.snd) :=
    Multiset.coe_eq_coe.1 ((Multiset.coe_add _ _).symm.trans h.bags.union)
  refine List.Perm.eq_of_pairwise (fun a b _ _ h h' => le_antisymm h' h) (pairwise_insertionSort _ _)
    (pairwise_append.2 ⟨pairwise_insertionSort _ _, pairwise_insertionSort _ _,
      fun y hy x hx => ?_⟩) ?_
  · exact h.bags.le x ((perm_insertionSort _ _).mem_iff.1 hx) y
      ((perm_insertionSort _ _).mem_iff.1 hy)
  · exact (perm_insertionSort _ _).trans (hp.symm.trans
      ((perm_insertionSort _ _).append (perm_insertionSort _ _)).symm)

end Calls

end Commonware.Aggregation.SafeTip
