/-
**Applications that follow epochs.**

`consensus/src/application/marshaled.rs` wraps an application so that consensus in an epoch extends
the chain of that epoch: a proposal is a child of the parent, or the parent again if that is the
last block of the epoch, and `verify` asks the application only about a block that is such a child.
Blocks come from the marshal by their commitments; no answer is `none`, be it that a block does not
arrive, that consensus has lost interest, or that the epoch is not supported.

Epochs are what an epocher says, and the one of fixed length does tile the heights
(`FixedEpocher.tiles`).  The chains of accepted blocks are those of `Chain`, where every block may
have been accepted by another node (`epoch_chain_extends`).
-/

import Commonware.BlockTree
import Commonware.CheckedArith
import Commonware.SimplexTypes

set_option autoImplicit false

namespace Commonware.Marshaled

open Option

open Simplex (Rnd)

/-! ### Epochs -/

structure EpochInfo where
  epoch : ℕ
  height : ℕ
  first : ℕ
  last : ℕ

structure Epocher where
  containing : ℕ → Option EpochInfo
  first : ℕ → Option ℕ
  last : ℕ → Option ℕ

/-- The epochs that are supported follow each other from height zero on. -/
structure Epocher.Tiles (e : Epocher) : Prop where
  bounds : ∀ {n l}, e.last n = some l → ∃ f, e.first n = some f ∧ f ≤ l ∧ l < 2 ^ 64
  zero : ∀ {f}, e.first 0 = some f → f = 0
  succ : ∀ {n f l}, e.first (n + 1) = some f → e.last n = some l → f = l + 1
  containing_iff : ∀ {h n}, (e.containing h).map EpochInfo.epoch = some n ↔
    ∃ f l, e.first n = some f ∧ e.last n = some l ∧ f ≤ h ∧ h ≤ l

namespace FixedEpocher

variable (length : ℕ)

def bounds (epoch : ℕ) : Option (ℕ × ℕ) := do
  let first ← Checked.mul epoch length
  let last ← Checked.add first (length - 1)
  some (first, last)

/-- The epocher whose epochs have a fixed length. -/
def epocher : Epocher where
  containing height := (bounds length (height / length)).map fun b =>
    ⟨height / length, height, b.1, b.2⟩
  first epoch := (bounds length epoch).map Prod.fst
  last epoch := (bounds length epoch).map Prod.snd

variable {length}

theorem bounds_eq (epoch : ℕ) : bounds length epoch =
    if epoch * length + (length - 1) < 2 ^ 64 then
      some (epoch * length, epoch * length + (length - 1)) else none := by
  simp only [bounds, Checked.mul, Checked.add, bind_eq_bind]
  grind

theorem tiles (hp : 0 < length) : (epocher length).Tiles where
  bounds {n l} := by
    simp only [epocher, bounds_eq]
    grind
  zero {f} := by
    simp only [epocher, bounds_eq]
    grind
  succ {n f l} := by
    simp only [epocher, bounds_eq, Nat.succ_mul]
    grind
  containing_iff {h n} := by
    have hdv := Nat.div_eq_iff (x := h) (y := n) hp
    simp only [epocher, bounds_eq]
    grind

end FixedEpocher

/-! ### The wrapped application -/

variable {B C : Type} [DecidableEq C]

structure Context (C : Type) where
  round : Rnd
  parent : ℕ × C

/-- What the nodes have in common. -/
structure Setting (B C : Type) where
  tree : BlockTree B C
  injective : Function.Injective tree.commitment
  epocher : Epocher
  tiles : epocher.Tiles
  /-- The genesis block of the application. -/
  genesis : B
  genesis_height : tree.height genesis = 0

/-- A node: the blocks that its marshal answers with, and its application. -/
structure Node (s : Setting B C) where
  subscribe : C → Option B
  commitment_eq : ∀ {c b}, subscribe c = some b → s.tree.commitment b = c
  getBlock : ℕ → Option B
  height_eq : ∀ {h b}, getBlock h = some b → s.tree.height b = h
  appPropose : Context C → B → Option B
  child : ∀ {ctx p b}, appPropose ctx p = some b →
    s.tree.IsParent p b ∧ s.tree.height b = s.tree.height p + 1
  appVerify : Context C → B → B → Option Bool

namespace Node

variable {s : Setting B C} (node : Node s)

def fetchParent (commitment : C) : Option B :=
  if commitment = s.tree.commitment s.genesis then some s.genesis else node.subscribe commitment

def genesis (epoch : ℕ) : Option C :=
  match epoch with
  | 0 => some (s.tree.commitment s.genesis)
  | prev + 1 => do
    let lastHeight ← s.epocher.last prev
    let block ← node.getBlock lastHeight
    some (s.tree.commitment block)

def propose (ctx : Context C) : Option C := do
  let parent ← node.fetchParent ctx.parent.2
  let lastInEpoch ← s.epocher.last ctx.round.epoch
  if s.tree.height parent = lastInEpoch then some (s.tree.commitment parent)
  else
    let built ← node.appPropose ctx parent
    some (s.tree.commitment built)

def verify (ctx : Context C) (digest : C) : Option Bool := do
  let parent ← node.fetchParent ctx.parent.2
  let block ← node.subscribe digest
  if s.tree.commitment parent = s.tree.commitment block then
    let lastInEpoch ← s.epocher.last ctx.round.epoch
    some (s.tree.height block = lastInEpoch)
  else
    match s.epocher.containing (s.tree.height block) with
    | none => some false
    | some bounds =>
      if bounds.epoch ≠ ctx.round.epoch then some false
      else if s.tree.parent block ≠ s.tree.commitment parent then some false
      else if Checked.add (s.tree.height parent) 1 ≠ some (s.tree.height block) then some false
      else node.appVerify ctx block parent

theorem commitment_fetchParent {c : C} {p : B} (h : node.fetchParent c = some p) :
    s.tree.commitment p = c := by
  rw [fetchParent] at h
  split_ifs at h with hc
  · cases h
    exact hc.symm
  · exact node.commitment_eq h

end Node

/-! ### The chains of an epoch -/

namespace Setting

variable (s : Setting B C)

/-- A height of an epoch. -/
def Within (epoch height : ℕ) : Prop :=
  ∃ f l, s.epocher.first epoch = some f ∧ s.epocher.last epoch = some l ∧ f ≤ height ∧ height ≤ l

/-- A child of a block, one higher and inside the epoch. -/
def Linked (epoch : ℕ) (p b : B) : Prop :=
  s.tree.IsParent p b ∧ s.tree.height b = s.tree.height p + 1 ∧ s.Within epoch (s.tree.height b)

/-- The last block of the epoch again. -/
def Repeated (epoch : ℕ) (p b : B) : Prop :=
  b = p ∧ s.epocher.last epoch = some (s.tree.height b)

def Extends (epoch : ℕ) (p b : B) : Prop := s.Linked epoch p b ∨ s.Repeated epoch p b

/-- The blocks that were accepted in an epoch from its genesis on, the latest one first. -/
inductive Chain (epoch : ℕ) : List B → Prop
  | genesis (node : Node s) {g : B} (h : node.genesis epoch = some (s.tree.commitment g)) :
      Chain epoch [g]
  | accept (node : Node s) {ctx : Context C} {p b : B} {chain : List B}
      (hc : Chain epoch (p :: chain)) (he : ctx.round.epoch = epoch)
      (hp : ctx.parent.2 = s.tree.commitment p)
      (h : node.verify ctx (s.tree.commitment b) = some true) : Chain epoch (b :: p :: chain)

end Setting

variable {s : Setting B C} {node : Node s} {ctx : Context C} {digest : C} {epoch : ℕ} {p b : B}
  {chain : List B}

theorem verify_self (hp : node.fetchParent ctx.parent.2 = some p)
    (hb : node.subscribe digest = some p) :
    node.verify ctx digest = some true ↔ s.Repeated ctx.round.epoch p p := by
  simp only [Node.verify, hp, hb, bind_eq_bind, bind_some, Setting.Repeated]
  cases s.epocher.last ctx.round.epoch with
  | none => simp
  | some l => simp [eq_comm]

/-- **The checks** of a new block: the application is asked if and only if they hold. -/
theorem verify_of_ne (hp : node.fetchParent ctx.parent.2 = some p)
    (hb : node.subscribe digest = some b) (hne : b ≠ p) :
    (s.Linked ctx.round.epoch p b ∧ node.verify ctx digest = node.appVerify ctx b p) ∨
      (¬ s.Linked ctx.round.epoch p b ∧ node.verify ctx digest = some false) := by
  have hcm : s.tree.commitment p ≠ s.tree.commitment b := fun h => hne (s.injective h).symm
  have hw := s.tiles.containing_iff (h := s.tree.height b) (n := ctx.round.epoch)
  have hlt : s.Within ctx.round.epoch (s.tree.height b) → s.tree.height b < 2 ^ 64 := by
    rintro ⟨f, l, -, hl, -, hle⟩
    obtain ⟨-, -, -, hl⟩ := s.tiles.bounds hl
    omega
  simp only [Node.verify, hp, hb, bind_eq_bind, bind_some, if_neg hcm,
    Setting.Linked, BlockTree.IsParent, Checked.add]
  cases hc : s.epocher.containing (s.tree.height b) with
  | none | some => grind [Setting.Within]

theorem extends_of_verify (h : node.verify ctx digest = some true) :
    ∃ p b, s.tree.commitment p = ctx.parent.2 ∧ s.tree.commitment b = digest ∧
      s.Extends ctx.round.epoch p b := by
  obtain ⟨p, hp, h'⟩ := bind_eq_some_iff.mp h
  obtain ⟨b, hb, -⟩ := bind_eq_some_iff.mp h'
  refine ⟨p, b, node.commitment_fetchParent hp, node.commitment_eq hb, ?_⟩
  by_cases hne : b = p
  · subst hne
    exact .inr ((verify_self hp hb).mp h)
  · rcases verify_of_ne hp hb hne with ⟨hl, -⟩ | ⟨-, hf⟩
    · exact .inl hl
    · exact absurd (h.symm.trans hf) (by decide)

namespace Setting.Chain

theorem head (h : s.Chain epoch (b :: p :: chain)) : s.Extends epoch p b := by
  cases h with
  | accept node hc he hpr h =>
    obtain ⟨p', b', hp, hb, hl⟩ := extends_of_verify h
    obtain rfl := s.injective (hp.trans hpr)
    obtain rfl := s.injective hb
    rwa [he] at hl

theorem within_head (h : s.Chain epoch (b :: p :: chain)) : s.Within epoch (s.tree.height b) := by
  rcases h.head with ⟨-, -, h⟩ | ⟨-, h⟩
  · exact h
  · obtain ⟨f, hf, hle, -⟩ := s.tiles.bounds h
    exact ⟨f, _, hf, h, hle, le_rfl⟩

/-- The head of a chain is in the epoch or right before it. -/
theorem height_mem (h : s.Chain epoch (b :: chain)) {f l : ℕ}
    (hf : s.epocher.first epoch = some f) (hl : s.epocher.last epoch = some l) :
    f ≤ s.tree.height b + 1 ∧ s.tree.height b ≤ l := by
  obtain ⟨f', hf', hle, -⟩ := s.tiles.bounds hl
  obtain rfl := some.inj (hf.symm.trans hf')
  cases h with
  | genesis node h =>
    cases epoch with
    | zero =>
      obtain rfl := s.injective (some.inj h)
      have := s.tiles.zero hf
      have := s.genesis_height
      omega
    | succ prev =>
      obtain ⟨l', hl', h⟩ := bind_eq_some_iff.mp h
      obtain ⟨g, hg, h⟩ := bind_eq_some_iff.mp h
      obtain rfl := s.injective (some.inj h)
      have := s.tiles.succ hf hl'
      have := node.height_eq hg
      omega
  | accept node hc he hp h =>
    obtain ⟨f', l', hf', hl', h⟩ := (accept node hc he hp h).within_head
    obtain rfl := some.inj (hf.symm.trans hf')
    obtain rfl := some.inj (hl.symm.trans hl')
    omega

/-- Heights grow along a chain until the last block of the epoch, which can be repeated. -/
theorem pairwise (h : s.Chain epoch chain) :
    chain.Pairwise fun b a => s.tree.height a < s.tree.height b ∨ s.Repeated epoch a b := by
  induction h with
  | genesis => exact List.pairwise_singleton _ _
  | @accept node ctx p b chain hc he hpr h ih =>
    have hh := (accept node hc he hpr h).head
    refine List.pairwise_cons.mpr ⟨fun a ha => ?_, ih⟩
    have hp : a = p ∨ s.tree.height a < s.tree.height p ∨ s.Repeated epoch a p :=
      (List.mem_cons.mp ha).imp_right (List.rel_of_pairwise_cons ih)
    grind [Extends, Linked, Repeated]

/-- Every block after the genesis extends the one before it, inside the epoch. -/
theorem links (h : s.Chain epoch chain) :
    chain.IsChain (fun b a => s.Extends epoch a b) ∧
      ∀ b ∈ chain.dropLast, s.Within epoch (s.tree.height b) := by
  induction h with
  | genesis => exact ⟨.singleton _, nofun⟩
  | accept node hc he hp h ih =>
    have h := accept node hc he hp h
    refine ⟨.cons_cons h.head ih.1, ?_⟩
    rintro b (_ | ⟨_, hb⟩)
    · exact h.within_head
    · exact ih.2 b hb

end Setting.Chain

/-- What a node proposes on a chain passes the checks of every node. -/
theorem verify_of_propose (h : s.Chain ctx.round.epoch (p :: chain))
    (hpr : ctx.parent.2 = s.tree.commitment p) {proposer verifier : Node s} {parent block : B}
    (hd : proposer.propose ctx = some digest) (hp : verifier.fetchParent ctx.parent.2 = some parent)
    (hb : verifier.subscribe digest = some block) : verifier.verify ctx digest =
      if digest = ctx.parent.2 then some true else verifier.appVerify ctx block parent := by
  obtain ⟨q, hq, hd⟩ := bind_eq_some_iff.mp hd
  obtain ⟨l, hl, hd⟩ := bind_eq_some_iff.mp hd
  obtain rfl := s.injective ((proposer.commitment_fetchParent hq).trans hpr)
  obtain rfl := s.injective ((verifier.commitment_fetchParent hp).trans hpr)
  obtain ⟨f, hf, -⟩ := s.tiles.bounds hl
  have hmem := h.height_mem hf hl
  split_ifs at hd with hls
  · cases hd
    obtain rfl := s.injective (verifier.commitment_eq hb)
    rw [if_pos hpr.symm]
    exact (verify_self hp hb).mpr ⟨rfl, hls ▸ hl⟩
  · obtain ⟨b, hbl, hd⟩ := bind_eq_some_iff.mp hd
    cases hd
    obtain rfl := s.injective (verifier.commitment_eq hb)
    obtain ⟨hch, hh⟩ := proposer.child hbl
    have hne : block ≠ parent := by
      rintro rfl
      omega
    rw [hpr, if_neg fun he => hne (s.injective he)]
    rcases verify_of_ne hp hb hne with ⟨-, hv⟩ | ⟨hn, -⟩
    · exact hv
    · exact absurd ⟨hch, hh, f, l, hf, hl, by omega, by omega⟩ hn

/-- **Epochs extend their chain.**  A block that is accepted is a child of the parent inside the
epoch or the last block of the epoch again; so along a chain of accepted blocks the heights are
contiguous, only the last block of the epoch is repeated, and what a node proposes on a chain
reaches the application of every node. -/
theorem epoch_chain_extends (s : Setting B C) :
    (∀ (node : Node s) (ctx : Context C) (digest : C), node.verify ctx digest = some true →
      ∃ p b, s.tree.commitment p = ctx.parent.2 ∧ s.tree.commitment b = digest ∧
        s.Extends ctx.round.epoch p b) ∧ (∀ (epoch : ℕ) (chain : List B), s.Chain epoch chain →
      chain.IsChain (fun b a => s.Extends epoch a b) ∧
      (∀ b ∈ chain.dropLast, s.Within epoch (s.tree.height b)) ∧
      chain.Pairwise fun b a => s.tree.height a < s.tree.height b ∨ s.Repeated epoch a b) ∧
    (∀ (ctx : Context C) (p : B) (chain : List B), s.Chain ctx.round.epoch (p :: chain) →
      ctx.parent.2 = s.tree.commitment p →
      ∀ (proposer verifier : Node s) (digest : C) (parent block : B),
        proposer.propose ctx = some digest →
        verifier.fetchParent ctx.parent.2 = some parent → verifier.subscribe digest = some block →
        verifier.verify ctx digest =
          if digest = ctx.parent.2 then some true else verifier.appVerify ctx block parent) :=
  ⟨fun _ _ _ => extends_of_verify, fun _ _ h => ⟨h.links.1, h.links.2, h.pairwise⟩,
    fun _ _ _ h hp _ _ _ _ _ => verify_of_propose h hp⟩

/-- Blocks that are their own heights, in epochs of three. -/
def Sample.setting : Setting ℕ ℕ :=
  ⟨⟨id, id, (· - 1)⟩, fun _ _ h => h, FixedEpocher.epocher 3,
    FixedEpocher.tiles (by decide), 0, rfl⟩

def Sample.honest : Node Sample.setting :=
  ⟨some, fun h => (some.inj h).symm, some, fun h => (some.inj h).symm,
    fun _ p => some (p + 1), fun h => by cases h; exact ⟨rfl, rfl⟩, fun _ _ _ => some true⟩

/-- The first block of the second epoch. -/
theorem epoch_chain_extends_second : ∃ p b, p = 2 ∧ b = 3 ∧ Sample.setting.Extends 1 p b :=
  (epoch_chain_extends Sample.setting).1 Sample.honest ⟨⟨1, 1⟩, (0, 2)⟩ 3 rfl

end Commonware.Marshaled
