/-
**Pruning does not change what a mountain range computes.**

A clean range is given by its elements and by its pruning boundary: every call of the range returns
what these give, and pruning moves the boundary only.  A range that is pruned thus has the same root
and size as one that is not, under the same calls, as long as no call asks for what is before the
boundary.  The pinned nodes are all that is needed of the nodes before it: a call panics at the end
of the range of positions, or if a boundary is asked for that is before the boundary or after the
nodes, and never because a node is missing.

Main definitions:

* `Call`, `Call.run`, `runAll` — the calls of a clean range;
* `Content`, `Call.spec` — the calls by elements and boundary.

Main results:

* `Call.run_refines` — a call of a range is the call of its content;
* `prune_transparent` — **a range that is pruned** computes the same as before.
-/

import Commonware.MmrInclusion

set_option autoImplicit false

namespace Commonware.Mmr

open MountainRange List

variable {Sym D : Type}

/-! ### Calls -/

/-- A call of a clean range. -/
inductive Call (Sym : Type)
  | add (element : List Sym)
  | updateLeaf (loc : ℕ) (element : List Sym)
  | pop
  | pruneToPos (x : ℕ)

def errorOf {α : Type} : Except Error α → Option Error
  | .ok _ => none
  | .error e => some e

/-- The error that a call returns, if any, and the range after it. -/
def Call.run (hasher : Hasher Sym D) (m : CleanMmr D) :
    Call Sym → Except Failure (Option Error × CleanMmr D)
  | .add element => (m.addClean hasher element).map fun y => (errorOf y.1, y.2)
  | .updateLeaf loc element =>
    (m.updateLeafClean hasher loc element).map fun y => (errorOf y.1, y.2)
  | .pop => (m.popClean hasher).map fun y => (errorOf y.1, y.2)
  | .pruneToPos x => (m.pruneToPos x).map fun m => (none, m)

def runAll (hasher : Hasher Sym D) :
    List (Call Sym) → CleanMmr D → Except Failure (List (Option Error) × CleanMmr D)
  | [], m => .ok ([], m)
  | op :: ops, m => do
      let (r, m) ← op.run hasher m
      let (rs, m) ← runAll hasher ops m
      pure (r :: rs, m)

/-! ### Elements and boundary -/

/-- What a clean range is for: its elements, of which those before the boundary are not read. -/
structure Content (Sym : Type) where
  elements : List (List Sym)
  boundary : ℕ

/-- A call by elements and boundary.  There is no value where the call panics. -/
def Call.spec (c : Content Sym) : Call Sym → Option (Option Error × Content Sym)
  | .add element =>
    if maxLocation < c.elements.length then none
    else some (none, { c with elements := c.elements ++ [element] })
  | .updateLeaf loc element =>
    if maxLocation < c.elements.length then none
    else if c.elements.length ≤ loc then some (some (.leafOutOfBounds loc), c)
    else if size loc < c.boundary then some (some (.elementPruned (size loc)), c)
    else some (none, { c with elements := c.elements.set loc element })
  | .pop =>
    if c.elements = [] then some (some .empty, c)
    else if size (c.elements.length - 1) < c.boundary then
      some (some (.elementPruned (c.boundary - 1)), c)
    else some (none, { c with elements := c.elements.dropLast })
  | .pruneToPos x =>
    if c.boundary ≤ x ∧ x ≤ size c.elements.length ∧ x ≤ maxPosition then
      some (none, { c with boundary := x })
    else none

/-- A range has a content. -/
structure Represents (hasher : Hasher Sym D) (c : Content Sym) (m : CleanMmr D) : Prop where
  holds : HoldsClean hasher c.elements m
  boundary : m.prunedToPos = c.boundary

/-- The outcome of a call is that of its content. -/
def Refines (hasher : Hasher Sym D) (outcome : Except Failure (Option Error × CleanMmr D)) :
    Option (Option Error × Content Sym) → Prop
  | some (r, c) => ∃ m, outcome = .ok (r, m) ∧ Represents hasher c m
  | none => ∀ y, outcome ≠ .ok y

variable {hasher : Hasher Sym D} {c c' : Content Sym} {m m' : CleanMmr D}

theorem Represents.size_eq (h : Represents hasher c m) : m.size = size c.elements.length := by
  obtain ⟨pin, st⟩ := h.holds.stored
  exact st.size_eq

theorem change_ok {α : Type} {f : DirtyMmr D → Except Failure (α × DirtyMmr D)} {a : α}
    {dirty : DirtyMmr D} (hf : f m.intoDirty = .ok (a, dirty)) (hh : Holds hasher c.elements dirty)
    (hlen : c.elements.length ≤ 2 ^ 62) (hbn : dirty.prunedToPos = c.boundary) :
    Refines hasher ((m.change hasher f).map fun y => (errorOf y.1, y.2)) (some (none, c)) := by
  obtain ⟨m', hok, hcl, hpr⟩ := merkleize_holds hh hlen
  refine ⟨m', ?_, hcl, hpr.trans hbn⟩
  rw [MemMmr.change, hf]
  dsimp only
  rw [hok]
  rfl

theorem change_error {α : Type} {f : DirtyMmr D → Except Failure (α × DirtyMmr D)} {e : Error}
    (h : Represents hasher c m) (hf : f m.intoDirty = .error (.error e)) :
    Refines hasher ((m.change hasher f).map fun y => (errorOf y.1, y.2)) (some (some e, c)) := by
  obtain ⟨m', hok, hcl, hpr⟩ := merkleize_holds (intoDirty_holds h.holds) h.holds.length_le
  refine ⟨m', ?_, hcl, hpr.trans h.boundary⟩
  rw [MemMmr.change, hf]
  dsimp only
  rw [hok]
  rfl

section

variable (h : Represents hasher c m)
include h

theorem add_refines (element : List Sym) :
    Refines hasher ((Call.add element).run hasher m) ((Call.add element).spec c) := by
  have hdr := intoDirty_holds h.holds
  obtain ⟨x, dirty, ha⟩ := exists_add hdr h.holds.length_le element
  obtain ⟨hh, -, hpr⟩ := add_holds hdr ha
  rw [Call.spec, Call.run, MemMmr.addClean]
  unfold maxLocation
  split_ifs with hlt
  swap
  · refine change_ok ha hh ?_ (hpr.trans h.boundary)
    rw [length_append, length_singleton]
    omega
  · -- the root of a range with one leaf more cannot be computed
    intro y hy
    obtain ⟨y', hch, -⟩ := map_eq_ok.1 hy
    rw [MemMmr.change, ha] at hch
    obtain ⟨m', hmr, -⟩ := bind_eq_ok.1 hch
    have han := ((AnyHolds.intoDirty h.holds).add ha).1.merkleize hmr
    have hle := HoldsClean.length_le han.1
    rw [length_append, length_singleton] at hle
    omega

theorem updateLeaf_refines (loc : ℕ) (element : List Sym) :
    Refines hasher ((Call.updateLeaf loc element).run hasher m) ((Call.updateLeaf loc element).spec c) := by
  have hdr := intoDirty_holds h.holds
  have hsize : m.intoDirty.size = size c.elements.length := h.size_eq
  have hbn : m.intoDirty.prunedToPos = c.boundary := h.boundary
  rw [Call.spec, Call.run, MemMmr.updateLeafClean]
  by_cases hm : maxLocation < c.elements.length
  · rw [if_pos hm]
    intro y hy
    obtain ⟨y', hch, -⟩ := map_eq_ok.1 hy
    have hpn : m.intoDirty.updateLeaf hasher loc element = .error .panic := by
      have hlr : maxPosition < size c.elements.length :=
        Nat.not_le.1 (mt size_le_maxPosition_iff.1 (Nat.not_le.2 hm))
      rw [MemMmr.updateLeaf, MemMmr.updateLeafBatched, if_neg (cons_ne_nil _ _), MemMmr.leaves,
        hsize, Location.tryFrom, if_pos hlr]
      rfl
    rw [MemMmr.change, hpn] at hch
    cases hch
  rw [if_neg hm]
  have hlv : m.intoDirty.leaves = .ok c.elements.length := by
    rw [MemMmr.leaves, orPanic_eq_ok, hsize, Location.tryFrom_size (Nat.not_lt.1 hm)]
  -- the first check of the location that fails
  have her : ∀ e, m.intoDirty.updatePosition c.elements.length loc = .error (.error e) →
      (m.intoDirty.updateLeaf hasher loc element).map (fun dirty => ((), dirty)) =
        .error (.error e) := by
    intro e he
    rw [MemMmr.updateLeaf, MemMmr.updateLeafBatched, if_neg (cons_ne_nil _ _), hlv]
    simp only [bind, Except.bind, mapM_cons, he, Except.map]
  split_ifs with hot hpr
  · refine change_error h (her _ ?_)
    rw [MemMmr.updatePosition, if_pos hot]
  · refine change_error h (her _ ?_)
    rw [MemMmr.updatePosition, if_neg hot, Position.tryFrom_eq (by omega), hbn]
    exact if_pos hpr
  · obtain ⟨dirty, hok, hkp⟩ := exists_updateLeaf hdr (Nat.not_lt.1 hm) (Nat.not_le.1 hot)
      (hbn ▸ Nat.not_lt.1 hpr) element
    obtain ⟨hh, -⟩ := updateLeafBatched_holds hdr hok
    refine change_ok (by rw [hok]; rfl) hh ?_ (hkp.trans hbn)
    exact (length_setElements c.elements [(loc, element)]).trans_le h.holds.length_le

theorem pop_refines : Refines hasher (Call.pop.run hasher m) (Call.pop.spec c) := by
  have hdr := intoDirty_holds h.holds
  have hlen : c.elements.length ≤ 2 ^ 62 + 1 := h.holds.length_le.trans (Nat.le_succ _)
  have hsize : m.intoDirty.size = size c.elements.length := h.size_eq
  have hbn : m.intoDirty.prunedToPos = c.boundary := h.boundary
  rw [Call.spec, Call.run, MemMmr.popClean]
  split_ifs with hnl hpr
  · refine change_error h ?_
    rw [MemMmr.pop, if_pos (by rw [hsize, hnl]; exact size_zero)]
  · obtain ⟨hz, hsr⟩ := popLoop_holds hdr hlen hnl
    refine change_error h ?_
    rw [MemMmr.pop, if_neg hz, hsr, hbn, if_neg (Nat.not_le.2 hpr)]
    rfl
  · obtain ⟨hz, hsr⟩ := popLoop_holds hdr hlen hnl
    obtain ⟨y, hp⟩ : ∃ y, m.intoDirty.pop = .ok y := by
      rw [MemMmr.pop, if_neg hz, hsr, hbn, if_pos (Nat.not_lt.1 hpr)]
      exact ⟨_, rfl⟩
    obtain ⟨hh, -, hkp⟩ := pop_holds hdr hlen hp
    refine change_ok hp hh ?_ (hkp.trans hbn)
    rw [length_dropLast]
    have := h.holds.length_le
    omega

theorem pruneToPos_refines (x : ℕ) :
    Refines hasher ((Call.pruneToPos x).run hasher m) ((Call.pruneToPos x).spec c) := by
  rw [Call.spec, Call.run]
  split_ifs with hbn
  · obtain ⟨hlo, hx, hm⟩ := hbn
    obtain ⟨m', hprune, hh, hpr, -⟩ := exists_pruneToPos h.holds (h.boundary ▸ hlo) hx hm
    exact ⟨m', by rw [hprune]; rfl, hh, hpr⟩
  · intro y hy
    obtain ⟨m', hprune, -⟩ := map_eq_ok.1 hy
    obtain ⟨hlo, hx, hm⟩ := pruneToPos_bounds hprune
    exact hbn ⟨h.boundary ▸ hlo, h.size_eq ▸ hx, hm⟩

/-- **A call of a range is the call of its content.** -/
theorem Call.run_refines (op : Call Sym) : Refines hasher (op.run hasher m) (op.spec c) := by
  cases op with
  | add element => exact add_refines h element
  | updateLeaf loc element => exact updateLeaf_refines h loc element
  | pop => exact pop_refines h
  | pruneToPos x => exact pruneToPos_refines h x

theorem Call.run_ok {op : Call Sym} {r : Option Error}
    (hr : op.run hasher m = .ok (r, m')) : ∃ c', op.spec c = some (r, c') ∧ Represents hasher c' m' := by
  have hrf := op.run_refines h
  cases hsp : op.spec c with
  | none =>
    rw [hsp] at hrf
    exact absurd hr (hrf _)
  | some y =>
    obtain ⟨r', c'⟩ := y
    rw [hsp] at hrf
    obtain ⟨m'', hr', hrp⟩ := hrf
    cases hr.symm.trans hr'
    exact ⟨c', rfl, hrp⟩

def Call.Returns (m : CleanMmr D) : Call Sym → Prop
  | .add _ | .updateLeaf _ _ => m.size ≤ maxPosition
  | .pop => True
  | .pruneToPos x => m.prunedToPos ≤ x ∧ x ≤ m.size ∧ x ≤ maxPosition

theorem Call.exists_run_iff (op : Call Sym) : (∃ y, op.run hasher m = .ok y) ↔ op.Returns m := by
  have hsp : (∃ y, op.run hasher m = .ok y) ↔ ∃ y, op.spec c = some y := by
    have hrf := op.run_refines h
    cases hsp : op.spec c with
    | none =>
      rw [hsp] at hrf
      exact ⟨fun ⟨y, hy⟩ => absurd hy (hrf y), fun ⟨y, hy⟩ => nomatch hy⟩
    | some y =>
      rw [hsp] at hrf
      obtain ⟨m', hr, -⟩ := hrf
      exact ⟨fun _ => ⟨y, rfl⟩, fun _ => ⟨_, hr⟩⟩
  rw [hsp]
  cases op with
  | add element | updateLeaf loc element =>
    rw [Call.Returns, h.size_eq, size_le_maxPosition_iff, Call.spec]
    split_ifs with hm <;> simp [hm, Nat.not_lt.1]
  | pop =>
    rw [Call.Returns, Call.spec]
    split_ifs <;> simp
  | pruneToPos x =>
    rw [Call.Returns, h.size_eq, h.boundary, Call.spec]
    split_ifs with hbn <;> simp [hbn]

end

/-! ### Two boundaries -/

/-- Two contents with the same elements.  The boundaries are the same as soon as another one than the
first is set. -/
structure Twin (p : ℕ) (c' c : Content Sym) : Prop where
  elements : c'.elements = c.elements
  le : c.boundary ≤ c'.boundary
  first : c'.boundary = p ∨ c.boundary = c'.boundary

variable {p : ℕ}

theorem Twin.spec (h : Twin p c' c) {op : Call Sym} {r : Option Error} {d' : Content Sym}
    (hu : ∀ loc element, op = .updateLeaf loc element → p ≤ size loc)
    (hp : op = .pop → r = none) (hsp : op.spec c' = some (r, d')) :
    ∃ d, op.spec c = some (r, d) ∧ Twin p d' d := by
  obtain ⟨es, b'⟩ := c'
  obtain ⟨es, b⟩ := c
  obtain ⟨rfl, hle, hf⟩ := h
  dsimp only at hle hf
  cases op with
  | add element =>
    rw [Call.spec] at hsp ⊢
    split_ifs at hsp ⊢ with hm
    cases hsp
    exact ⟨_, rfl, rfl, hle, hf⟩
  | updateLeaf loc element =>
    have hl := hu loc element rfl
    rw [Call.spec] at hsp ⊢
    dsimp only at hsp ⊢
    -- a leaf that is not before the first boundary
    have hsm : size loc < b' ↔ size loc < b := by omega
    simp only [hsm] at hsp
    split_ifs at hsp ⊢
    all_goals
      cases hsp
      exact ⟨_, rfl, rfl, hle, hf⟩
  | pop =>
    obtain rfl := hp rfl
    rw [Call.spec] at hsp ⊢
    dsimp only at hsp ⊢
    split_ifs at hsp with hnl hpr
    · cases hsp
    · cases hsp
    · cases hsp
      rw [if_neg hnl, if_neg (by omega)]
      exact ⟨_, rfl, rfl, hle, hf⟩
  | pruneToPos x =>
    rw [Call.spec] at hsp ⊢
    dsimp only at hsp ⊢
    split_ifs at hsp with hbn
    cases hsp
    rw [if_pos ⟨hle.trans hbn.1, hbn.2⟩]
    exact ⟨_, rfl, rfl, le_rfl, Or.inr rfl⟩

variable {ops : List (Call Sym)} {rs : List (Option Error)} {n' : CleanMmr D}

theorem runAll_represents (h : Represents hasher c m) (hrn : runAll hasher ops m = .ok (rs, n')) :
    ∃ d, Represents hasher d n' := by
  induction ops generalizing c m rs with
  | nil =>
    cases hrn
    exact ⟨c, h⟩
  | cons op ops ih =>
    obtain ⟨⟨r, m₁⟩, hop, hrn⟩ := bind_eq_ok.1 hrn
    obtain ⟨⟨rs, n⟩, hr, hrn⟩ := bind_eq_ok.1 hrn
    cases hrn
    obtain ⟨c₁, -, h₁⟩ := Call.run_ok h hop
    exact ih h₁ hr

/-- The same calls of two ranges whose contents differ in the boundary. -/
theorem runAll_twin (h' : Represents hasher c' m') (h : Represents hasher c m) (ht : Twin p c' c)
    (hrn : runAll hasher ops m' = .ok (rs, n'))
    (hu : ∀ loc element, .updateLeaf loc element ∈ ops → p ≤ size loc)
    (hpp : ∀ y ∈ ops.zip rs, y.1 = .pop → y.2 = none) :
    ∃ n d' d, runAll hasher ops m = .ok (rs, n) ∧ Represents hasher d' n' ∧ Represents hasher d n ∧
      Twin p d' d := by
  induction ops generalizing c c' m m' rs with
  | nil =>
    cases hrn
    exact ⟨m, c', c, rfl, h', h, ht⟩
  | cons op ops ih =>
    obtain ⟨⟨r, m₁'⟩, hop, hrn⟩ := bind_eq_ok.1 hrn
    obtain ⟨⟨rs, n⟩, hr, hrn⟩ := bind_eq_ok.1 hrn
    cases hrn
    obtain ⟨c₁', hsp', h₁'⟩ := Call.run_ok h' hop
    obtain ⟨c₁, hsp, ht₁⟩ := ht.spec
      (fun loc element heq => hu loc element (heq ▸ mem_cons_self))
      (fun heq => hpp (op, r) mem_cons_self heq) hsp'
    have hrf := op.run_refines h
    rw [hsp] at hrf
    obtain ⟨m₁, hop₁, h₁⟩ := hrf
    obtain ⟨n, d', d, hrn₁, hd', hd, htw⟩ := ih h₁' h₁ ht₁ hr
      (fun loc element hmem => hu loc element (mem_cons_of_mem _ hmem))
      fun y hy => hpp y (mem_cons_of_mem _ hy)
    exact ⟨n, d', d, bind_eq_ok.2 ⟨_, hop₁, bind_eq_ok.2 ⟨_, hrn₁, rfl⟩⟩, hd', hd, htw⟩

theorem Represents.root_eq (h' : Represents hasher c' m') (h : Represents hasher c m)
    (hel : c'.elements = c.elements) : m'.root = m.root ∧ m'.size = m.size := by
  rw [h'.holds.root_eq, h.holds.root_eq, h'.size_eq, h.size_eq, hel]
  exact ⟨rfl, rfl⟩

/-- **A range that is pruned** has the same root and size, pins the peaks of the largest range before
the boundary, and goes on to have the root and size of the range that is not pruned.  No call of it
misses a node, and it refuses to remove a leaf that is pruned. -/
theorem prune_transparent {es : List (List Sym)} (hreach : Reach hasher (.inr m) es)
    (hlo : m.prunedToPos ≤ p) (hsize : p ≤ m.size) (hmax : p ≤ maxPosition) :
    ∃ m', m.pruneToPos p = .ok m' ∧ m'.root = m.root ∧ m'.size = m.size ∧
      (∃ k, size k ≤ p ∧ p < size (k + 1) ∧
        m'.pinnedNodes.map Prod.fst = (peaks k).map fun node => pos node.1 node.2) ∧
      ∀ ops rs n', runAll hasher ops m' = .ok (rs, n') →
        ((∀ loc element, .updateLeaf loc element ∈ ops → p ≤ size loc) →
          (∀ y ∈ ops.zip rs, y.1 = .pop → y.2 = none) →
          ∃ n, runAll hasher ops m = .ok (rs, n) ∧ n'.root = n.root ∧ n'.size = n.size) ∧
        (∀ op : Call Sym, (∃ y, op.run hasher n' = .ok y) ↔ op.Returns n') ∧
        ∀ k, n'.size = size (k + 1) → size k < n'.prunedToPos →
          ∃ n'', Call.pop.run hasher n' = .ok (some (.elementPruned (n'.prunedToPos - 1)), n'') ∧
            n''.root = n'.root ∧ n''.size = n'.size := by
  have h : Represents hasher ⟨es, m.prunedToPos⟩ m := ⟨hreach.holds, rfl⟩
  obtain ⟨m', hprune, hh, hpr, k, hk, hk', hpn⟩ :=
    exists_pruneToPos h.holds hlo (h.size_eq ▸ hsize) hmax
  have h' : Represents hasher ⟨es, p⟩ m' := ⟨hh, hpr⟩
  obtain ⟨hr, hsm⟩ := h'.root_eq h rfl
  refine ⟨m', hprune, hr, hsm, ⟨k, hk, hk', by rw [hpn, map_map]; rfl⟩, ?_⟩
  intro ops rs n' hrn
  obtain ⟨d, hd⟩ := runAll_represents h' hrn
  refine ⟨fun hu hpp => ?_, fun op => op.exists_run_iff hd, fun k hls hbf => ?_⟩
  · obtain ⟨n, d', d, hrn', hd', hd, ht⟩ :=
      runAll_twin h' h ⟨rfl, hlo, Or.inl rfl⟩ hrn hu hpp
    exact ⟨n, hrn', hd'.root_eq hd ht.elements⟩
  · rw [hd.size_eq] at hls
    have hlen : d.elements.length = k + 1 := size_inj.1 hls
    have hsp : (Call.pop : Call Sym).spec d = some (some (.elementPruned (d.boundary - 1)), d) := by
      rw [hd.boundary] at hbf
      rw [Call.spec, if_neg (by rintro hnl; simp [hnl] at hlen), hlen, Nat.add_sub_cancel,
        if_pos hbf]
    have hrf := Call.pop.run_refines hd
    rw [hsp] at hrf
    obtain ⟨n'', hp, hd''⟩ := hrf
    exact ⟨n'', by rw [hp, hd.boundary], hd''.root_eq hd rfl⟩

theorem exists_one : ∃ m : CleanMmr FreeHash, Reach freeHasher.standard (.inr m) [[]] ∧ m.prunedToPos = 0 ∧
    m.size = 1 := by
  obtain ⟨m, hrc, hpr⟩ := exists_range freeHasher.standard
    (show ([[]] : List (List FreeHash.Symbol)).length ≤ 2 ^ 62 by decide)
  obtain ⟨pin, st⟩ := (hrc.holds : HoldsClean _ _ _).stored
  exact ⟨m, hrc, hpr, st.size_eq.trans (by decide)⟩

theorem prune_transparent_one : ∃ m : CleanMmr FreeHash, Reach freeHasher.standard (.inr m) [[]] ∧
    m.prunedToPos ≤ 1 ∧ 1 ≤ m.size ∧ ∃ m', m.pruneToPos 1 = .ok m' ∧ m'.root = m.root := by
  obtain ⟨m, hrc, hpr, hsize⟩ := exists_one
  obtain ⟨m', hprune, hr, -⟩ :=
    prune_transparent hrc (p := 1) (by omega) (by omega) (by decide)
  exact ⟨m, hrc, by omega, by omega, m', hprune, hr⟩

/-- A boundary cannot be moved back, where the range that was not pruned still can be pruned. -/
theorem prune_back : ∃ m m' : CleanMmr FreeHash, Reach freeHasher.standard (.inr m) [[]] ∧
    m.pruneToPos 1 = .ok m' ∧ (∃ y, runAll freeHasher.standard [.pruneToPos 0] m = .ok y) ∧
    ∀ y, runAll freeHasher.standard [.pruneToPos 0] m' ≠ .ok y := by
  obtain ⟨m, hrc, hpr, hsize⟩ := exists_one
  have hh : HoldsClean freeHasher.standard [[]] m := hrc.holds
  obtain ⟨m', hprune, -, hpr', -⟩ := exists_pruneToPos hh (x := 1) (by omega) (by decide) (by decide)
  obtain ⟨m₀, hprune₀, -⟩ := exists_pruneToPos hh (x := 0) (by omega) (by decide) (by decide)
  refine ⟨m, m', hrc, hprune, ⟨([none], m₀), ?_⟩, fun y hy => ?_⟩
  · rw [runAll, Call.run, hprune₀]
    rfl
  · obtain ⟨y', hr, -⟩ := bind_eq_ok.1 hy
    obtain ⟨m₁, hbc, -⟩ := map_eq_ok.1 hr
    have := (pruneToPos_bounds hbc).1
    omega

end Commonware.Mmr
