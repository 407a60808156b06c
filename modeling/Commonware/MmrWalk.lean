/-
**What the verifier of a mountain range computes.**

The digests of the nodes of a mountain range are given as a labelling.  If the verifier arrives at
the label of a node then everything it has used on the way is as the labelling says, provided that
the hasher binds: a node has the digest it has for one pair of children only.  Conversely the
verifier arrives at the label of a node if it is given what the labelling says.

Main definitions:

* `Binding` — a label is the digest of the labels of the children only;
* `Progress` — what was used between two states of the verifier.

Main results:

* `walk_sound`, `walk_complete` — one mountain;
* `peakLoop_sound`, `peakLoop_complete`, `peakLoop_collected` — **all mountains**.
-/

import Commonware.Outcome
import Commonware.MmrProof
import Commonware.MountainWalk

set_option autoImplicit false

namespace Commonware.Mmr

open MountainRange List

variable {Sym D : Type}

/-! ### Steps of the walk -/

namespace Feed

variable {s s' : Feed Sym D} {o : Option D}

theorem enterIf_eq_ok {c : Prop} [Decidable c]
    {walk : Feed Sym D → Except ReconstructionError (D × Feed Sym D)} :
    s.enterIf c walk = .ok (o, s') ↔
      c ∧ (∃ d, walk s = .ok (d, s') ∧ o = some d) ∨ ¬ c ∧ o = none ∧ s' = s := by
  rw [enterIf]
  split_ifs with hc
  · rw [bind_eq_ok]
    constructor
    · rintro ⟨⟨d, s₁⟩, hw, hpr⟩
      cases hpr
      exact Or.inl ⟨hc, d, hw, rfl⟩
    · rintro (⟨-, d, hw, rfl⟩ | ⟨hnc, -⟩)
      · exact ⟨(d, s'), hw, rfl⟩
      · exact absurd hc hnc
  · constructor
    · intro h
      cases h
      exact Or.inr ⟨hc, rfl, rfl⟩
    · rintro (⟨hc', -⟩ | ⟨-, rfl, rfl⟩)
      · exact absurd hc' hc
      · rfl

theorem orSibling_eq_ok {d : D} : s.orSibling o = .ok (d, s') ↔ o = some d ∧ s' = s ∨
        o = none ∧ ∃ rest, s.siblings = d :: rest ∧ s' = { s with siblings := rest } := by
  cases o with
  | some d' =>
    rw [orSibling]
    simp [eq_comm]
  | none =>
    rw [orSibling, nextSibling]
    cases hs : s.siblings with
    | nil => simp
    | cons d' rest =>
      simp only [Except.ok.injEq, Prod.mk.injEq, reduceCtorEq, false_and, true_and,
        List.cons.injEq, false_or]
      constructor
      · rintro ⟨rfl, rfl⟩
        exact ⟨rest, ⟨rfl, rfl⟩, rfl⟩
      · rintro ⟨rest', ⟨rfl, rfl⟩, rfl⟩
        exact ⟨rfl, rfl⟩

end Feed

variable {hasher : Hasher Sym D} {label : ℕ → ℕ → D} {n s e h q : ℕ} {st st' st'' : Feed Sym D}

/-- The walk from a node that is not a leaf, by leaves and not by positions. -/
theorem peakDigestFromRange_succ :
    peakDigestFromRange hasher (size s) (size e) (h + 1) (pos (h + 1) q) st = (do
      let (left, st) ← st.enterIf (s < (2 * q + 1) * 2 ^ h)
        (peakDigestFromRange hasher (size s) (size e) h (pos h (2 * q)))
      let (right, st) ← st.enterIf ((2 * q + 1) * 2 ^ h ≤ e)
        (peakDigestFromRange hasher (size s) (size e) h (pos h (2 * q + 1)))
      let (left, st) ← st.orSibling left
      let (right, st) ← st.orSibling right
      pure (hasher.nodeDigest (pos (h + 1) q) left right,
        st.collect [(pos h (2 * q), left), (pos h (2 * q + 1), right)])) := by
  rw [peakDigestFromRange]
  simp only [pos_sub_left, pos_sibling, size_le_pos_iff, pos_lt_size_iff]

/-! ### Soundness -/

variable (hasher label n) in
/-- In a range of `n` leaves, a label that is the digest of two children is that of their labels. -/
def Binding : Prop :=
  ∀ h q left right, (q + 1) * 2 ^ (h + 1) ≤ n →
    hasher.nodeDigest (pos (h + 1) q) left right = label (h + 1) q →
      left = label h (2 * q) ∧ right = label h (2 * q + 1)

variable (hasher label n) in
/-- Between two states of the verifier the elements of some leaves and the labels of some siblings
were used, the labels of some nodes were computed, and only labels were collected. -/
structure Progress (st st' : Feed Sym D) (leaves : List ℕ) (siblings entered : List (ℕ × ℕ)) :
    Prop where
  elements : ∃ es, st.elements = es ++ st'.elements ∧
    List.Forall₂ (fun element a => hasher.leafDigest (size a) element = label 0 a) es leaves
  siblings : st.siblings = siblings.map (fun node => label node.1 node.2) ++ st'.siblings
  entered : ∀ node ∈ entered, hasher.nodeDigest (pos (node.1 + 1) node.2) (label node.1 (2 * node.2))
    (label node.1 (2 * node.2 + 1)) = label (node.1 + 1) node.2
  collected : ∃ items, st'.collected = st.collected ++ items ∧
    ∀ item ∈ items, ∃ h q, (q + 1) * 2 ^ h ≤ n ∧ item = (pos h q, label h q)

theorem Progress.refl : Progress hasher label n st st [] [] [] where
  elements := ⟨[], rfl, .nil⟩
  siblings := rfl
  entered := fun _ hnd => by cases hnd
  collected := ⟨[], (append_nil _).symm, fun _ hit => by cases hit⟩

variable {l : List ℕ} {b nodes : List (ℕ × ℕ)} {l' : List ℕ}

theorem Progress.trans {b' i i' : List (ℕ × ℕ)}
    (h₁ : Progress hasher label n st st' l b i) (h₂ : Progress hasher label n st' st'' l' b' i') :
    Progress hasher label n st st'' (l ++ l') (b ++ b') (i ++ i') where
  elements := by
    obtain ⟨es, hes, ha⟩ := h₁.elements
    obtain ⟨es', hes', ha'⟩ := h₂.elements
    exact ⟨es ++ es', by rw [hes, hes', append_assoc], rel_append ha ha'⟩
  siblings := by rw [h₁.siblings, h₂.siblings, map_append, append_assoc]
  entered := by
    intro node hnd
    rcases mem_append.1 hnd with hnd | hnd
    · exact h₁.entered node hnd
    · exact h₂.entered node hnd
  collected := by
    obtain ⟨c, hc, ha⟩ := h₁.collected
    obtain ⟨c', hc', ha'⟩ := h₂.collected
    refine ⟨c ++ c', by rw [hc', hc, append_assoc], fun item hit => ?_⟩
    rcases mem_append.1 hit with hit | hit
    · exact ha item hit
    · exact ha' item hit

theorem Progress.collect {items : List (ℕ × D)}
    (hit : ∀ item ∈ items, ∃ h q, (q + 1) * 2 ^ h ≤ n ∧ item = (pos h q, label h q)) :
    Progress hasher label n st (st.collect items) [] [] [] where
  elements := ⟨[], rfl, .nil⟩
  siblings := rfl
  entered := fun _ hnd => by cases hnd
  collected := ⟨items, rfl, hit⟩

variable {walk : Feed Sym D → Except ReconstructionError (D × Feed Sym D)} {c : Prop} {o : Option D}

theorem Progress.enterIf [Decidable c] {i : List (ℕ × ℕ)} {d : D}
    (h : st.enterIf c walk = .ok (o, st')) (hd : ∀ d', o = some d' → d' = d)
    (hw : c → walk st = .ok (d, st') → Progress hasher label n st st' l b i) :
    Progress hasher label n st st' (if c then l else []) (if c then b else [])
      (if c then i else []) := by
  rcases Feed.enterIf_eq_ok.1 h with ⟨hc, d', hok, ho⟩ | ⟨hc, -, rfl⟩
  · obtain rfl := hd d' ho
    simpa only [if_pos hc] using hw hc hok
  · simpa only [if_neg hc] using Progress.refl

theorem Progress.orSibling {h' q' : ℕ}
    (h : st.orSibling o = .ok (label h' q', st')) [Decidable c] (ho : o.isSome ↔ c) :
    Progress hasher label n st st' [] (if c then [] else [(h', q')]) [] := by
  rcases Feed.orSibling_eq_ok.1 h with ⟨rfl, rfl⟩ | ⟨rfl, rest, hr, rfl⟩
  · rw [if_pos (ho.1 rfl)]
    exact Progress.refl
  · rw [if_neg (fun hc => by simpa using ho.2 hc)]
    exact { Progress.refl with siblings := hr }

/-- **A walk that arrives at the label of its node has used what the labelling says.** -/
theorem walk_sound (binding : Binding hasher label n) (hn : (q + 1) * 2 ^ h ≤ n)
    (hm : Meets s e h q)
    (hw : peakDigestFromRange hasher (size s) (size e) h (pos h q) st = .ok (label h q, st')) :
    Progress hasher label n st st' (leaves s e h q) (siblings s e h q) (entered s e h q) := by
  induction h generalizing q st st' with
  | zero =>
    rw [peakDigestFromRange] at hw
    cases hel : st.elements with
    | nil => simp [hel] at hw
    | cons element rest =>
      simp only [hel, Except.ok.injEq, Prod.mk.injEq, pos_zero_left] at hw
      obtain ⟨hlf, rfl⟩ := hw
      exact { Progress.refl with elements := ⟨[element], hel, .cons hlf .nil⟩ }
  | succ h ih =>
    rw [peakDigestFromRange_succ] at hw
    obtain ⟨⟨left?, st₁⟩, hl, hw⟩ := bind_eq_ok.1 hw
    obtain ⟨⟨right?, st₂⟩, hr, hw⟩ := bind_eq_ok.1 hw
    obtain ⟨⟨left, st₃⟩, hl', hw⟩ := bind_eq_ok.1 hw
    obtain ⟨⟨right, st₄⟩, hr', hw⟩ := bind_eq_ok.1 hw
    simp only [pure, Except.pure, Except.ok.injEq, Prod.mk.injEq] at hw
    obtain ⟨hdg, rfl⟩ := hw
    -- the hasher binds, so both children have their labels
    obtain ⟨rfl, rfl⟩ := binding h q left right hn hdg
    have hnl : (2 * q + 1) * 2 ^ h ≤ n := by
      refine le_trans ?_ hn
      rw [pow_succ, mul_comm (2 ^ h) 2, ← mul_assoc]
      exact Nat.mul_le_mul_right _ (by omega)
    have hnr : (2 * q + 1 + 1) * 2 ^ h ≤ n := by
      refine le_trans (le_of_eq ?_) hn
      ring
    have his : left?.isSome ↔ s < (2 * q + 1) * 2 ^ h := by
      rcases Feed.enterIf_eq_ok.1 hl with ⟨hc, d, -, rfl⟩ | ⟨hc, rfl, -⟩ <;> simp [hc]
    have hir : right?.isSome ↔ (2 * q + 1) * 2 ^ h ≤ e := by
      rcases Feed.enterIf_eq_ok.1 hr with ⟨hc, d, -, rfl⟩ | ⟨hc, rfl, -⟩ <;> simp [hc]
    have hg : ∀ d, left? = some d → d = label h (2 * q) := by
      rintro d rfl
      rcases Feed.orSibling_eq_ok.1 hl' with ⟨heq, -⟩ | ⟨heq, -⟩
      · exact Option.some.inj heq
      · cases heq
    have hgt : ∀ d, right? = some d → d = label h (2 * q + 1) := by
      rintro d rfl
      rcases Feed.orSibling_eq_ok.1 hr' with ⟨heq, -⟩ | ⟨heq, -⟩
      · exact Option.some.inj heq
      · cases heq
    have p₁ := Progress.enterIf hl hg fun hc => ih hnl (hm.left hc)
    have p₂ := Progress.enterIf hr hgt fun hc => ih hnr (hm.right hc)
    have p₃ : Progress hasher label n st₂ st₃ [] _ [] := Progress.orSibling hl' his
    have p₄ : Progress hasher label n st₃ st₄ [] _ [] := Progress.orSibling hr' hir
    have p₅ : Progress hasher label n st₄ (st₄.collect
        [(pos h (2 * q), label h (2 * q)), (pos h (2 * q + 1), label h (2 * q + 1))]) [] [] [] := by
      refine Progress.collect fun item hit => ?_
      rcases mem_pair.1 hit with rfl | rfl
      · exact ⟨h, 2 * q, hnl, rfl⟩
      · exact ⟨h, 2 * q + 1, hnr, rfl⟩
    have p := (((p₁.trans p₂).trans p₃).trans p₄).trans p₅
    simp only [append_nil] at p
    refine ⟨p.elements, p.siblings, fun node hnd => ?_, p.collected⟩
    rw [entered, mem_append] at hnd
    rcases hnd with hnd | hnd
    · exact p.entered node hnd
    · rw [mem_singleton.1 hnd]
      exact hdg

/-! ### Completeness -/

variable (label) in
/-- Some nodes with their labels. -/
def labelled (nodes : List (ℕ × ℕ)) : List (ℕ × D) :=
  nodes.map fun node => (pos node.1 node.2, label node.1 node.2)

variable (hasher label) in
/-- The elements of some leaves and the labels of some siblings are at hand, and what a second state
has comes after them. -/
def Given (st st' : Feed Sym D) (leaves : List ℕ) (siblings : List (ℕ × ℕ)) : Prop :=
  (∃ es, st.elements = es ++ st'.elements ∧
    List.Forall₂ (fun element a => hasher.leafDigest (size a) element = label 0 a) es leaves) ∧
  st.siblings = siblings.map (fun node => label node.1 node.2) ++ st'.siblings

def Feed.Same (st st' : Feed Sym D) : Prop :=
  st.elements = st'.elements ∧ st.siblings = st'.siblings

theorem Given.of_same (hsm : Feed.Same st st') (h : Given hasher label st' st'' l b) :
    Given hasher label st st'' l b := by
  rw [Given, hsm.1, hsm.2]
  exact h

theorem Given.nil (h : Given hasher label st st' [] []) : Feed.Same st st' := by
  obtain ⟨⟨es, hes, ha⟩, hs⟩ := h
  cases ha
  exact ⟨hes, hs⟩

theorem Given.split {b' : List (ℕ × ℕ)}
    (h : Given hasher label st st'' (l ++ l') (b ++ b')) :
    ∃ st', Given hasher label st st' l b ∧ Given hasher label st' st'' l' b' := by
  obtain ⟨⟨es, hes, ha⟩, hs⟩ := h
  rw [map_append, append_assoc] at hs
  refine ⟨⟨es.drop l.length ++ st''.elements,
    b'.map (fun node => label node.1 node.2) ++ st''.siblings, []⟩, ⟨⟨es.take l.length, ?_, ?_⟩,
      hs⟩, ⟨es.drop l.length, rfl, ?_⟩, rfl⟩
  · rw [← append_assoc, take_append_drop]
    exact hes
  · exact forall₂_take_append es l l' ha
  · exact forall₂_drop_append es l l' ha

theorem Given.enterIf [Decidable c] {d : D}
    (h : Given hasher label st st' (if c then l else []) (if c then b else []))
    (hw : c → Given hasher label st st' l b → ∃ st₁, walk st = .ok (d, st₁) ∧
      Feed.Same st₁ st' ∧ st₁.collected = st.collected ++ labelled label nodes) :
    ∃ st₁, st.enterIf c walk = .ok (if c then some d else none, st₁) ∧ Feed.Same st₁ st' ∧
      st₁.collected = st.collected ++ labelled label (if c then nodes else []) := by
  split_ifs at h ⊢ with hc
  · obtain ⟨st₁, hok, hsm⟩ := hw hc h
    exact ⟨st₁, Feed.enterIf_eq_ok.2 (Or.inl ⟨hc, d, hok, rfl⟩), hsm⟩
  · exact ⟨st, Feed.enterIf_eq_ok.2 (Or.inr ⟨hc, rfl, rfl⟩), h.nil, (append_nil _).symm⟩

theorem Given.orSibling [Decidable c] {h' q' : ℕ}
    (h : Given hasher label st st' [] (if c then [] else [(h', q')])) :
    ∃ st₁, st.orSibling (if c then some (label h' q') else none) = .ok (label h' q', st₁) ∧
      Feed.Same st₁ st' ∧ st₁.collected = st.collected := by
  split_ifs at h ⊢ with hc
  · exact ⟨st, rfl, h.nil, rfl⟩
  · obtain ⟨⟨es, hes, ha⟩, hs⟩ := h
    cases ha
    exact ⟨_, Feed.orSibling_eq_ok.2 (Or.inr ⟨rfl, st'.siblings, hs, rfl⟩), ⟨hes, rfl⟩, rfl⟩

/-- **A walk that is given what the labelling says arrives at the label of its node**, and has
collected the labels of the nodes that it has met. -/
theorem walk_complete (hin : ∀ node ∈ entered s e h q, hasher.nodeDigest (pos (node.1 + 1) node.2)
      (label node.1 (2 * node.2)) (label node.1 (2 * node.2 + 1)) = label (node.1 + 1) node.2)
    (hgv : Given hasher label st st' (leaves s e h q) (siblings s e h q)) :
    ∃ st₁, peakDigestFromRange hasher (size s) (size e) h (pos h q) st = .ok (label h q, st₁) ∧
      Feed.Same st₁ st' ∧ st₁.collected = st.collected ++ labelled label (met s e h q) := by
  induction h generalizing q st st' with
  | zero =>
    obtain ⟨⟨es, hes, ha⟩, hsb⟩ := hgv
    rw [leaves] at ha
    obtain _ | ⟨hlf, ht⟩ := ha
    cases ht
    rw [singleton_append] at hes
    refine ⟨{ st with elements := st'.elements }, ?_, ⟨rfl, hsb⟩, (append_nil _).symm⟩
    rw [peakDigestFromRange, pos_zero_left]
    simp only [hes, hlf]
  | succ h ih =>
    rw [leaves, siblings, ← append_nil (_ ++ _), ← append_nil (_ ++ [])] at hgv
    obtain ⟨m₃, hgv, h₄⟩ := hgv.split
    obtain ⟨m₂, hgv, h₃⟩ := hgv.split
    obtain ⟨m₁, h₁, h₂⟩ := hgv.split
    have hs : ∀ {b : List (ℕ × ℕ)} {c : Prop} [Decidable c] {node : ℕ × ℕ}, c → node ∈ b →
        node ∈ if c then b else [] := by
      intro b c _ node hc hnd
      rwa [if_pos hc]
    obtain ⟨s₁, hl, same₁, hcl₁⟩ := h₁.enterIf fun hc hg => ih (fun node hnd => hin node <| by
      rw [entered]
      exact mem_append_left _ (mem_append_left _ (hs hc hnd))) hg
    obtain ⟨s₂, hr, same₂, hcl₂⟩ := (h₂.of_same same₁).enterIf fun hc hg =>
      ih (fun node hnd => hin node <| by
        rw [entered]
        exact mem_append_left _ (mem_append_right _ (hs hc hnd))) hg
    obtain ⟨s₃, hl', same₃, hcl₃⟩ := (h₃.of_same same₂).orSibling
    obtain ⟨s₄, hr', same₄, hcl₄⟩ := (h₄.of_same same₃).orSibling
    refine ⟨s₄.collect [(pos h (2 * q), label h (2 * q)), (pos h (2 * q + 1),
      label h (2 * q + 1))], ?_, same₄, ?_⟩
    · rw [peakDigestFromRange_succ]
      refine bind_eq_ok.2 ⟨_, hl, bind_eq_ok.2 ⟨_, hr, bind_eq_ok.2 ⟨_, hl', bind_eq_ok.2
        ⟨_, hr', ?_⟩⟩⟩⟩
      have hdg := hin (h, q) (by rw [entered]; exact mem_append_right _ (by simp))
      simp only [hdg, pure, Except.pure]
    · rw [Feed.collect, hcl₄, hcl₃, hcl₂, hcl₁, met]
      simp only [labelled, map_append, map_cons, map_nil, append_assoc]

/-! ### All mountains -/

/-- The nodes of a list that are not over leaves of the range. -/
def others (s e : ℕ) (nodes : List (ℕ × ℕ)) : List (ℕ × ℕ) :=
  nodes.filter fun node => decide (¬ Meets s e node.1 node.2)

variable {front front' : List D}

theorem peakLoop_cond : (size s ≤ pos h q ∧ pos h q + 2 - 2 ^ (h + 1) ≤ size e) ↔ Meets s e h q := by
  have hf : pos h q + 2 - 2 ^ (h + 1) = size (q * 2 ^ h) := by
    have := size_mul_pow_add h q
    omega
  rw [hf, size_le_pos_iff, size_le_size_iff, Meets]

theorem peakLoop_cons :
    Proof.peakLoop hasher (size s) (size e) (((h, q) :: nodes).map peakItem) front st =
      (if Meets s e h q then do
        let (hash, st) ← peakDigestFromRange hasher (size s) (size e) h (pos h q) st
        let (digests, front, st) ← Proof.peakLoop hasher (size s) (size e) (nodes.map peakItem) front
          (st.collect [(pos h q, hash)])
        pure (hash :: digests, front, st)
      else
        match front with
        | [] => .error .missingDigests
        | hash :: front => do
            let (digests, front, st) ← Proof.peakLoop hasher (size s) (size e) (nodes.map peakItem) front
              (st.collect [(pos h q, hash)])
            pure (hash :: digests, front, st)) := by
  rw [map_cons, peakItem, Proof.peakLoop.eq_def]
  exact if_congr peakLoop_cond rfl rfl

/-- **If the loop arrives at the labels of the peaks then it has used what the labelling says.** -/
theorem peakLoop_sound (binding : Binding hasher label n)
    (hnd : ∀ node ∈ nodes, (node.2 + 1) * 2 ^ node.1 ≤ n)
    (hlp : Proof.peakLoop hasher (size s) (size e) (nodes.map peakItem) front st =
      .ok (nodes.map (fun node => label node.1 node.2), front', st')) :
    front = (others s e nodes).map (fun node => label node.1 node.2) ++ front' ∧
      Progress hasher label n st st' (leavesBelow s e nodes) (along s e (siblings s e) nodes)
        (along s e (entered s e) nodes) := by
  induction nodes generalizing front st with
  | nil =>
    cases hlp
    exact ⟨rfl, Progress.refl⟩
  | cons node nodes ih =>
    obtain ⟨h, q⟩ := node
    have hn := hnd (h, q) mem_cons_self
    have hr := fun node hno => hnd node (mem_cons_of_mem _ hno)
    have hcl : ∀ st₁ : Feed Sym D,
        Progress hasher label n st₁ (st₁.collect [(pos h q, label h q)]) [] [] [] := by
      intro st₁
      refine Progress.collect fun item hit => ?_
      exact ⟨h, q, hn, mem_singleton.1 hit⟩
    rw [peakLoop_cons] at hlp
    by_cases hm : Meets s e h q
    · rw [if_pos hm] at hlp
      obtain ⟨⟨hash, st₁⟩, hw, hlp⟩ := bind_eq_ok.1 hlp
      obtain ⟨⟨ds, front₁, st₂⟩, ht, hlp⟩ := bind_eq_ok.1 hlp
      simp only [pure, Except.pure, Except.ok.injEq, Prod.mk.injEq, map_cons,
        List.cons.injEq] at hlp
      obtain ⟨⟨rfl, rfl⟩, rfl, rfl⟩ := hlp
      obtain ⟨hf, hpr⟩ := ih hr ht
      have hot : others s e ((h, q) :: nodes) = others s e nodes :=
        filter_cons_of_neg (by simpa using hm)
      refine ⟨by rw [hot, hf], ?_⟩
      have p := ((walk_sound binding hn hm hw).trans (hcl st₁)).trans hpr
      simp only [append_nil] at p
      simpa only [leavesBelow, along, flatMap_cons, if_pos hm] using p
    · rw [if_neg hm] at hlp
      cases front with
      | nil => simp at hlp
      | cons hash front =>
        obtain ⟨⟨ds, front₁, st₂⟩, ht, hlp⟩ := bind_eq_ok.1 hlp
        simp only [pure, Except.pure, Except.ok.injEq, Prod.mk.injEq, map_cons,
          List.cons.injEq] at hlp
        obtain ⟨⟨rfl, rfl⟩, rfl, rfl⟩ := hlp
        obtain ⟨hf, hpr⟩ := ih hr ht
        have hot : others s e ((h, q) :: nodes) = (h, q) :: others s e nodes :=
          filter_cons_of_pos (by simpa using hm)
        refine ⟨by rw [hot, hf]; rfl, ?_⟩
        have p := (hcl st).trans hpr
        simp only [nil_append] at p
        simpa only [leavesBelow, along, flatMap_cons, if_neg hm, nil_append] using p

/-- **If the loop is given what the labelling says then it arrives at the labels of the peaks**, and
has collected the labels of the nodes that it has met. -/
theorem peakLoop_complete (front : List D)
    (hin : ∀ node ∈ along s e (entered s e) nodes, hasher.nodeDigest (pos (node.1 + 1) node.2)
      (label node.1 (2 * node.2)) (label node.1 (2 * node.2 + 1)) = label (node.1 + 1) node.2)
    (hg : Given hasher label st st' (leavesBelow s e nodes) (along s e (siblings s e) nodes)) :
    ∃ st₁, Proof.peakLoop hasher (size s) (size e) (nodes.map peakItem)
      ((others s e nodes).map (fun node => label node.1 node.2) ++ front) st =
        .ok (nodes.map (fun node => label node.1 node.2), front, st₁) ∧ Feed.Same st₁ st' ∧
      st₁.collected = st.collected ++ labelled label (metBelow s e nodes) := by
  induction nodes generalizing st with
  | nil => exact ⟨st, rfl, hg.nil, (append_nil _).symm⟩
  | cons node nodes ih =>
    obtain ⟨h, q⟩ := node
    simp only [leavesBelow, along, flatMap_cons] at hg hin
    obtain ⟨m, h₁, h₂⟩ := hg.split
    have hr := fun node hnd => hin node (mem_append_right _ hnd)
    rw [peakLoop_cons, metBelow, flatMap_cons, ← metBelow]
    by_cases hm : Meets s e h q
    · simp only [if_pos hm] at h₁ hin ⊢
      obtain ⟨s₁, hw, same₁, hc₁⟩ := walk_complete
        (fun node hnd => hin node (mem_append_left _ hnd)) h₁
      have hnx : Given hasher label (s₁.collect [(pos h q, label h q)]) st'
          (leavesBelow s e nodes) (along s e (siblings s e) nodes) := h₂.of_same same₁
      obtain ⟨s₂, ht, same₂, hc₂⟩ := ih hr hnx
      have hot : others s e ((h, q) :: nodes) = others s e nodes :=
        filter_cons_of_neg (by simpa using hm)
      refine ⟨s₂, ?_, same₂, ?_⟩
      · rw [hot]
        exact bind_eq_ok.2 ⟨_, hw, bind_eq_ok.2 ⟨_, ht, rfl⟩⟩
      · rw [hc₂, Feed.collect, hc₁]
        simp only [labelled, map_append, map_cons, map_nil, append_assoc]
    · simp only [if_neg hm] at h₁ ⊢
      have hnx : Given hasher label (st.collect [(pos h q, label h q)]) st'
          (leavesBelow s e nodes) (along s e (siblings s e) nodes) := h₂.of_same h₁.nil
      obtain ⟨s₂, ht, same₂, hc₂⟩ := ih hr hnx
      have hot : others s e ((h, q) :: nodes) = (h, q) :: others s e nodes :=
        filter_cons_of_pos (by simpa using hm)
      refine ⟨s₂, ?_, same₂, ?_⟩
      · rw [hot]
        exact bind_eq_ok.2 ⟨_, ht, rfl⟩
      · rw [hc₂, Feed.collect, append_assoc]
        rfl

/-- A loop that arrives at the labels of the peaks has collected labels. -/
theorem peakLoop_collected (binding : Binding hasher label n)
    (hnd : ∀ node ∈ nodes, (node.2 + 1) * 2 ^ node.1 ≤ n)
    (hlp : Proof.peakLoop hasher (size s) (size e) (nodes.map peakItem) front st =
      .ok (nodes.map (fun node => label node.1 node.2), front', st')) :
    st'.collected = st.collected ++ labelled label (metBelow s e nodes) := by
  obtain ⟨rfl, progress⟩ := peakLoop_sound binding hnd hlp
  obtain ⟨st₁, hlp', -, hc⟩ :=
    peakLoop_complete front' progress.entered ⟨progress.elements, progress.siblings⟩
  cases hlp.symm.trans hlp'
  exact hc

end Commonware.Mmr
