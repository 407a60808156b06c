/-
**Trees of blocks.**

Blocks name their parents by commitment.  If commitments are free of collisions and a block is one
higher than its parent, then the ancestors of a block have pairwise different heights; and the
ancestors of a family of blocks of which any two are comparable form one chain.

Main definitions:

* `BlockTree`, `BlockTree.IsParent`, `BlockTree.Ancestor` — blocks and their ancestors;
* `BlockTree.OnChain` — the ancestors of a family of blocks.

Main results:

* `BlockTree.OnChain.unique` — **a chain has one block of each height**;
* `BlockTree.OnChain.isParent` — blocks of adjacent heights are parent and child.
-/

import Mathlib.Data.Nat.Basic
import Mathlib.Logic.Relation
import Mathlib.Tactic.Common

set_option autoImplicit false

/-- Blocks with their heights, their commitments and the commitments of their parents. -/
structure BlockTree (B C : Type) where
  height : B → ℕ
  commitment : B → C
  parent : B → C

namespace BlockTree

variable {B C : Type} (T : BlockTree B C)

def IsParent (p b : B) : Prop := T.commitment p = T.parent b

/-- The first block is the second one, or an ancestor of it. -/
def Ancestor : B → B → Prop := Relation.ReflTransGen T.IsParent

/-- Commitments are free of collisions, and a block is one higher than its parent. -/
structure WellFormed : Prop where
  injective : Function.Injective T.commitment
  linked : ∀ p b, T.IsParent p b → T.height b = T.height p + 1

variable {T} {a b f p : B}

theorem WellFormed.parent_unique (h : T.WellFormed) {q : B} (hp : T.IsParent p b)
    (hq : T.IsParent q b) : p = q := h.injective (hp.trans hq.symm)

theorem WellFormed.height_le (h : T.WellFormed) (hab : T.Ancestor a b) :
    T.height a ≤ T.height b := by
  induction hab with
  | refl => exact le_rfl
  | tail _ hp ih =>
    have := h.linked _ _ hp
    omega

theorem WellFormed.comparable (h : T.WellFormed) (ha : T.Ancestor a f) (hb : T.Ancestor b f) :
    T.Ancestor a b ∨ T.Ancestor b a := by
  induction ha with
  | refl => exact Or.inr hb
  | @tail y f hay hyf ih =>
    -- the path from `b` to `f` is empty, or passes through the parent of `f`
    rcases Relation.ReflTransGen.cases_tail hb with rfl | ⟨z, hbz, hzf⟩
    · exact Or.inl (hay.tail hyf)
    · rw [h.parent_unique hzf hyf] at hbz
      exact ih hbz

theorem WellFormed.eq_of_height_eq (h : T.WellFormed) (hab : T.Ancestor a b)
    (heq : T.height a = T.height b) : a = b := by
  rcases Relation.ReflTransGen.cases_tail hab with rfl | ⟨z, haz, hzb⟩
  · rfl
  · have hle := h.height_le haz
    have hln := h.linked z b hzb
    omega

/-- The child of an ancestor on the way to a descendant that is higher. -/
theorem Ancestor.exists_child (hab : T.Ancestor a b)
    (hlt : T.height a < T.height b) : ∃ c, T.IsParent a c ∧ T.Ancestor c b := by
  rcases Relation.ReflTransGen.cases_head hab with rfl | ⟨c, hac, hcb⟩
  · omega
  · exact ⟨c, hac, hcb⟩

/-! ### The chain of a family of blocks -/

variable (T) in
/-- An ancestor of some block of the family. -/
def OnChain (final : B → Prop) (b : B) : Prop := ∃ f, final f ∧ T.Ancestor b f

variable (T) in
/-- Any two blocks of the family are comparable. -/
def Consistent (final : B → Prop) : Prop :=
  ∀ f g, final f → final g → T.Ancestor f g ∨ T.Ancestor g f

variable {final : B → Prop}

theorem OnChain.of_final (hf : final f) : T.OnChain final f := ⟨f, hf, .refl⟩

theorem OnChain.parent (hb : T.OnChain final b) (hp : T.IsParent p b) : T.OnChain final p := by
  obtain ⟨f, hf, hbf⟩ := hb
  exact ⟨f, hf, .head hp hbf⟩

/-- Two blocks of the chain have a common descendant in the family. -/
theorem OnChain.common (hc : T.Consistent final) (ha : T.OnChain final a)
    (hb : T.OnChain final b) : ∃ f, final f ∧ T.Ancestor a f ∧ T.Ancestor b f := by
  obtain ⟨f, hf, haf⟩ := ha
  obtain ⟨g, hg, hbg⟩ := hb
  rcases hc f g hf hg with hfg | hgf
  · exact ⟨g, hg, haf.trans hfg, hbg⟩
  · exact ⟨f, hf, haf, hbg.trans hgf⟩

/-- **A chain has one block of each height.** -/
theorem OnChain.unique (h : T.WellFormed) (hc : T.Consistent final) (ha : T.OnChain final a)
    (hb : T.OnChain final b) (heq : T.height a = T.height b) : a = b := by
  obtain ⟨f, -, haf, hbf⟩ := ha.common hc hb
  rcases h.comparable haf hbf with hab | hba
  · exact h.eq_of_height_eq hab heq
  · exact (h.eq_of_height_eq hba heq.symm).symm

theorem OnChain.isParent (h : T.WellFormed) (hc : T.Consistent final) (ha : T.OnChain final a)
    (hb : T.OnChain final b) (heq : T.height b = T.height a + 1) : T.IsParent a b := by
  obtain ⟨f, hf, haf, hbf⟩ := ha.common hc hb
  have hle := h.height_le hbf
  obtain ⟨c, hac, hcf⟩ := haf.exists_child (by omega)
  have hln := h.linked a c hac
  have hcb : c = b := OnChain.unique h hc ⟨f, hf, hcf⟩ hb (by omega)
  exact hcb ▸ hac

theorem OnChain.height_lt (h : T.WellFormed) {n : ℕ} (hn : ∀ f, final f → T.height f < n)
    (hb : T.OnChain final b) : T.height b < n := by
  obtain ⟨f, hf, hbf⟩ := hb
  exact lt_of_le_of_lt (h.height_le hbf) (hn f hf)

end BlockTree
