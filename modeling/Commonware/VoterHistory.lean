/-
**What a voter may write and send.**

A voter keeps its promises across crashes by writing its votes down before it sends them.  This
module states when the history of a voter is disciplined, what its journal has to do with that
history, and which effects keep the two in order: permitted effects do, however many of them are
carried out before a crash.

Main definitions:

* `Discipline` — what the history of a voter may look like;
* `Disk` — the invariant of a node's journal and history;
* `Permits`, `PermitsAll` — when an effect keeps the journal and the history in order.

Main results:

* `Disk.send` — **a vote whose record is durable may be sent**;
* `Disk.applyAll` — permitted effects keep the invariant, after any number of them.
-/

import Commonware.VoterNode
import Commonware.VoterSection

set_option autoImplicit false

namespace Commonware.Simplex.Voter

open List

variable {D Sig Cert PK : Type}

/-! ### Discipline -/

/-- A disciplined history: in a view at most one proposal is notarized and at most one finalized,
a view is not both nullified and finalized, nothing is signed for notarization after the view was
nullified, and what is finalized was signed for notarization and certified. -/
structure Discipline (history : List (Event D Sig Cert)) : Prop where
  notarize : ∀ x y, .sent (.notarize x) ∈ history → .sent (.notarize y) ∈ history →
    x.proposal.view = y.proposal.view → x.proposal = y.proposal
  finalize : ∀ x y, .sent (.finalize x) ∈ history → .sent (.finalize y) ∈ history →
    x.proposal.view = y.proposal.view → x.proposal = y.proposal
  nullify_finalize : ∀ x y, .sent (.nullify x) ∈ history → .sent (.finalize y) ∈ history →
    x.round.view ≠ y.proposal.view
  nullify_notarize : history.Pairwise fun e e' => ∀ x y, e = .sent (.nullify x) →
    e' = .signed (.notarize y) → x.round.view ≠ y.proposal.view
  finalize_notarize : ∀ x y, .sent (.finalize x) ∈ history → .sent (.notarize y) ∈ history →
    x.proposal.view = y.proposal.view → x.proposal = y.proposal
  finalize_signed : ∀ x, .sent (.finalize x) ∈ history →
    ∃ y, .signed (.notarize y) ∈ history ∧ y.proposal = x.proposal
  finalize_certified : ∀ x, .sent (.finalize x) ∈ history →
    .certified x.proposal.view true ∈ history

/-! ### The journal and the history -/

/-- The invariant of a node's journal and history.  A nullify vote is signed anew on every retry,
always with the same outcome. -/
structure Disk (cfg : Config D Sig Cert PK) (n : Node D Sig Cert PK) : Prop where
  keyed : ∀ v, ∀ a ∈ n.journal.sec v, a.view = v
  logged : ∀ v, WellLogged (n.journal.sec v)
  isPrefix : ∀ v, n.synced.sec v <+: n.journal.sec v
  sent : ∀ vote, .sent vote ∈ n.history → n.pruned ≤ vote.view →
    vote.artifact ∈ n.synced.sec vote.view
  pruned : n.pruned = 0 ∨ ∃ c : Finalization D Cert,
    .finalization c ∈ n.synced.sec c.proposal.view ∧
      n.pruned ≤ minActive cfg.activityTimeout c.proposal.view
  signed : ∀ v x, .notarize x ∈ n.journal.sec v → .signed (.notarize x) ∈ n.history
  certified : ∀ v r, .certification r true ∈ n.journal.sec v → .certified v true ∈ n.history
  nullify : ∀ v x, .nullify x ∈ n.journal.sec v →
    Nullify.sign cfg.scheme cfg.ns ⟨cfg.epoch, v⟩ = some x
  discipline : Discipline n.history

/-- When an effect keeps the journal and the history in order. -/
def Permits (cfg : Config D Sig Cert PK) (n : Node D Sig Cert PK) : Effect D Sig Cert → Prop
  | .sign (.notarize y) =>
    ∀ x, .sent (.nullify x) ∈ n.history → x.round.view ≠ y.proposal.view
  | .append (.notarize x) =>
    Allowed (n.journal.sec x.proposal.view) (.notarize x) ∧ .signed (.notarize x) ∈ n.history
  | .append (.certification r success) =>
    success = true → .certified r.view true ∈ n.history
  | .append (.nullify x) =>
    Allowed (n.journal.sec x.round.view) (.nullify x) ∧
      Nullify.sign cfg.scheme cfg.ns ⟨cfg.epoch, x.round.view⟩ = some x
  | .append a => Allowed (n.journal.sec a.view) a
  | .send vote => n.pruned ≤ vote.view ∧ vote.artifact ∈ n.synced.sec vote.view
  | .prune min => min = 0 ∨ ∃ c : Finalization D Cert,
      .finalization c ∈ n.synced.sec c.proposal.view ∧
        min ≤ minActive cfg.activityTimeout c.proposal.view
  | .sign _ | .certify _ _ | .sync _ | .sendCertificate _ => True

/-- Every effect of a list is permitted when its turn comes. -/
def PermitsAll (cfg : Config D Sig Cert PK) (n : Node D Sig Cert PK) :
    List (Effect D Sig Cert) → Prop
  | [] => True
  | e :: effects => Permits cfg n e ∧ PermitsAll cfg (n.apply e) effects

section

variable {cfg : Config D Sig Cert PK} {n : Node D Sig Cert PK} {a : Artifact D Sig Cert}

theorem Permits.allowed (h : Permits cfg n (.append a)) :
    Allowed (n.journal.sec a.view) a := by
  cases a with
  | notarize | nullify => exact h.1
  | certification r s => trivial
  | _ => exact h

theorem disk_init : Disk cfg (Node.init : Node D Sig Cert PK) := by
  refine ⟨?_, fun v => wellLogged_nil, fun v => prefix_refl _, ?_, .inl rfl, ?_, ?_, ?_, ?_⟩
  · intro v a ha
    exact absurd ha (by simp [Node.init])
  · intro vote h
    exact absurd h (by simp [Node.init])
  · intro v x h
    exact absurd h (by simp [Node.init])
  · intro v r h
    exact absurd h (by simp [Node.init])
  · intro v x h
    exact absurd h (by simp [Node.init])
  · constructor <;> simp [Node.init]

variable {e : Event D Sig Cert}

/-- An event that is no vote sent and no notarize vote signed leaves the history disciplined. -/
theorem Discipline.snoc {history : List (Event D Sig Cert)} (h : Discipline history)
    (hsn : ∀ vote, e ≠ .sent vote) (hsg : ∀ y, e = .signed (.notarize y) →
      ∀ x, .sent (.nullify x) ∈ history → x.round.view ≠ y.proposal.view) :
    Discipline (history ++ [e]) := by
  have hol : ∀ vote, .sent vote ∈ history ++ [e] → .sent vote ∈ history := by
    intro vote hv
    rcases mem_append.1 hv with hv | hv
    · exact hv
    · exact absurd (mem_singleton.1 hv).symm (hsn vote)
  refine ⟨fun x y hx hy => h.notarize x y (hol _ hx) (hol _ hy),
    fun x y hx hy => h.finalize x y (hol _ hx) (hol _ hy),
    fun x y hx hy => h.nullify_finalize x y (hol _ hx) (hol _ hy), ?_,
    fun x y hx hy => h.finalize_notarize x y (hol _ hx) (hol _ hy), ?_, ?_⟩
  · refine pairwise_append.2 ⟨h.nullify_notarize, pairwise_singleton _ _, ?_⟩
    intro a ha b hb x y hax hby
    rw [mem_singleton.1 hb] at hby
    exact hsg y hby x (hax ▸ ha)
  · intro x hx
    obtain ⟨y, hy, hp⟩ := h.finalize_signed x (hol _ hx)
    exact ⟨y, mem_append_left _ hy, hp⟩
  · intro x hx
    exact mem_append_left _ (h.finalize_certified x (hol _ hx))

theorem Disk.record (h : Disk cfg n)
    (hsn : ∀ vote, e ≠ .sent vote) (hd : Discipline (n.history ++ [e])) :
    Disk cfg { n with history := n.history ++ [e] } := by
  refine ⟨h.keyed, h.logged, h.isPrefix, ?_, h.pruned, ?_, ?_, h.nullify, hd⟩
  · intro vote hv
    rcases mem_append.1 hv with hv | hv
    · exact h.sent vote hv
    · exact absurd (mem_singleton.1 hv).symm (hsn vote)
  · exact fun v x hx => mem_append_left _ (h.signed v x hx)
  · exact fun v r hr => mem_append_left _ (h.certified v r hr)

theorem Disk.append (h : Disk cfg n)
    (ha : Permits cfg n (.append a)) : Disk cfg (n.apply (.append a)) := by
  have hmem : ∀ v b, b ∈ (n.journal.append a).sec v →
      b ∈ n.journal.sec v ∨ (b = a ∧ v = a.view) := by
    intro v b hb
    rw [Journal.sec_append] at hb
    split_ifs at hb with hv
    · rcases mem_append.1 hb with hb | hb
      · exact .inl hb
      · exact .inr ⟨mem_singleton.1 hb, hv⟩
    · exact .inl hb
  refine ⟨?_, ?_, ?_, h.sent, h.pruned, ?_, ?_, ?_, h.discipline⟩
  · intro v b hb
    rcases hmem v b hb with hb | ⟨rfl, rfl⟩
    · exact h.keyed v b hb
    · rfl
  · intro v
    change WellLogged ((n.journal.append a).sec v)
    rw [Journal.sec_append]
    split_ifs with hv
    · exact wellLogged_snoc.2 ⟨h.logged v, hv ▸ ha.allowed⟩
    · exact h.logged v
  · intro v
    change n.synced.sec v <+: (n.journal.append a).sec v
    rw [Journal.sec_append]
    split_ifs
    · exact (h.isPrefix v).trans (prefix_append _ _)
    · exact h.isPrefix v
  · intro v x hx
    rcases hmem v _ hx with hx | ⟨rfl, -⟩
    · exact h.signed v x hx
    · exact ha.2
  · intro v r hr
    rcases hmem v _ hr with hr | ⟨rfl, rfl⟩
    · exact h.certified v r hr
    · exact ha rfl
  · intro v x hx
    rcases hmem v _ hx with hx | ⟨rfl, rfl⟩
    · exact h.nullify v x hx
    · exact ha.2

theorem Disk.mem_sync (h : Disk cfg n) (v : ℕ) {u : ℕ}
    (ha : a ∈ n.synced.sec u) : a ∈ (n.synced.sync n.journal v).sec u := by
  rw [Journal.sec_sync]
  split_ifs
  · exact (h.isPrefix u).subset ha
  · exact ha

theorem Disk.sync (h : Disk cfg n) (v : ℕ) : Disk cfg (n.apply (.sync v)) := by
  have hmem : ∀ u a, a ∈ n.synced.sec u → a ∈ (n.synced.sync n.journal v).sec u :=
    fun u a ha => h.mem_sync v ha
  refine ⟨h.keyed, h.logged, fun u => ?_, fun vote hv hp => hmem _ _ (h.sent vote hv hp),
    h.pruned.imp id fun ⟨c, hc, hle⟩ => ⟨c, hmem _ _ hc, hle⟩, h.signed, h.certified, h.nullify,
    h.discipline⟩
  change (n.synced.sync n.journal v).sec u <+: n.journal.sec u
  rw [Journal.sec_sync]
  split_ifs
  · exact prefix_refl _
  · exact h.isPrefix u

/-- Giving up the sections that a durable finalization makes superfluous. -/
theorem Disk.prune (h : Disk cfg n) {min : ℕ} (hp : Permits cfg n (.prune min)) :
    Disk cfg (n.apply (.prune min)) := by
  refine { h with
    sent := fun vote hv hle => h.sent vote hv (le_trans (le_max_left _ _) hle)
    pruned := ?_ }
  change max n.pruned min = 0 ∨ ∃ c : Finalization D Cert, _ ∧ max n.pruned min ≤ _
  rcases le_total n.pruned min with hle | hle
  · rw [max_eq_right hle]
    exact hp
  · rw [max_eq_left hle]
    exact h.pruned

/-- Sending a vote that is durable keeps the history disciplined.  In a view whose section
is still kept, all votes that were sent are in that section, which is well logged; in a view whose
section was given up, no vote was added. -/
theorem Disk.send (h : Disk cfg n) {vote : Vote D Sig}
    (hp : n.pruned ≤ vote.view) (hv : vote.artifact ∈ n.synced.sec vote.view) :
    Disk cfg (n.apply (.send vote)) := by
  have hmem : ∀ x, Event.sent x ∈ n.history ++ [.sent vote] → .sent x ∈ n.history ∨ x = vote := by
    intro x hx
    rcases mem_append.1 hx with hx | hx
    · exact .inl hx
    · exact .inr (Event.sent.inj (mem_singleton.1 hx))
  have hsy : ∀ x, Event.sent x ∈ n.history ++ [.sent vote] → n.pruned ≤ x.view →
      x.artifact ∈ n.synced.sec x.view := by
    intro x hx hpx
    rcases hmem x hx with hx | rfl
    · exact h.sent x hx hpx
    · exact hv
  have hs : ∀ x, Event.sent x ∈ n.history ++ [.sent vote] → n.pruned ≤ x.view →
      x.artifact ∈ n.journal.sec x.view := fun x hx hpx =>
    (h.isPrefix x.view).subset (hsy x hx hpx)
  have hpair : ∀ x y, Event.sent x ∈ n.history ++ [.sent vote] →
      Event.sent y ∈ n.history ++ [.sent vote] → x.view = y.view →
      (∃ v, x.artifact ∈ n.journal.sec v ∧ y.artifact ∈ n.journal.sec v) ∨
        (.sent x ∈ n.history ∧ .sent y ∈ n.history) := by
    intro x y hx hy hxy
    by_cases hpx : n.pruned ≤ x.view
    · exact .inl ⟨x.view, hs x hx hpx, hxy ▸ hs y hy (hxy ▸ hpx)⟩
    · refine .inr ⟨(hmem x hx).resolve_right ?_, (hmem y hy).resolve_right ?_⟩
      · rintro rfl
        exact hpx hp
      · rintro rfl
        exact hpx (hxy ▸ hp)
  refine ⟨h.keyed, h.logged, h.isPrefix, hsy, h.pruned, ?_, ?_, h.nullify, ?_, ?_, ?_, ?_, ?_, ?_,
    ?_⟩
  · exact fun v x hx => mem_append_left _ (h.signed v x hx)
  · exact fun v r hr => mem_append_left _ (h.certified v r hr)
  · intro x y hx hy hxy
    rcases hpair _ _ hx hy hxy with ⟨v, hx, hy⟩ | ⟨hx, hy⟩
    · rw [(h.logged v).notarize_unique hx hy]
    · exact h.discipline.notarize x y hx hy hxy
  · intro x y hx hy hxy
    rcases hpair _ _ hx hy hxy with ⟨v, hx, hy⟩ | ⟨hx, hy⟩
    · rw [(h.logged v).finalize_unique hx hy]
    · exact h.discipline.finalize x y hx hy hxy
  · intro x y hx hy hxy
    rcases hpair _ _ hx hy hxy with ⟨v, hx, hy⟩ | ⟨hx, hy⟩
    · exact (h.logged v).not_nullify_finalize hx hy
    · exact h.discipline.nullify_finalize x y hx hy hxy
  · refine pairwise_append.2 ⟨h.discipline.nullify_notarize, pairwise_singleton _ _, ?_⟩
    intro a _ b hb x y _ hby
    rw [mem_singleton.1 hb] at hby
    cases hby
  · intro x y hx hy hxy
    rcases hpair _ _ hx hy hxy with ⟨v, hx, hy⟩ | ⟨hx, hy⟩
    · obtain ⟨⟨z, hz, hzp⟩, -⟩ := (h.logged v).finalize_backed hx
      rw [← hzp, (h.logged v).notarize_unique hz hy]
    · exact h.discipline.finalize_notarize x y hx hy hxy
  · intro x hx
    rcases hpair _ _ hx hx rfl with ⟨v, hx, -⟩ | ⟨hx, -⟩
    · obtain ⟨⟨y, hy, hyp⟩, -⟩ := (h.logged v).finalize_backed hx
      exact ⟨y, mem_append_left _ (h.signed v y hy), hyp⟩
    · obtain ⟨y, hy, hyp⟩ := h.discipline.finalize_signed x hx
      exact ⟨y, mem_append_left _ hy, hyp⟩
  · intro x hx
    rcases hpair _ _ hx hx rfl with ⟨v, hx, -⟩ | ⟨hx, -⟩
    · obtain ⟨-, r, hr⟩ := (h.logged v).finalize_backed hx
      have hv : x.proposal.view = v := h.keyed v _ hx
      exact mem_append_left _ (hv ▸ h.certified v r hr)
    · exact mem_append_left _ (h.discipline.finalize_certified x hx)

/-- **A permitted effect keeps the journal and the history in order.** -/
theorem Disk.apply (h : Disk cfg n) {e : Effect D Sig Cert} (he : Permits cfg n e) :
    Disk cfg (n.apply e) := by
  cases e with
  | sign v =>
    refine h.record (by simp) (h.discipline.snoc (by simp) ?_)
    intro y hy
    cases Event.signed.inj hy
    exact he
  | certify v s | sendCertificate c =>
    exact h.record (by simp) (h.discipline.snoc (by simp) (by simp))
  | append a => exact h.append he
  | send v => exact h.send he.1 he.2
  | sync v => exact h.sync v
  | prune min => exact h.prune he

/-- Permitted effects keep the journal and the history in order, wherever they are cut short. -/
theorem Disk.applyAll (h : Disk cfg n) {effects : List (Effect D Sig Cert)}
    (he : PermitsAll cfg n effects) (k : ℕ) : Disk cfg (n.applyAll (effects.take k)) := by
  induction effects generalizing n k with
  | nil => simpa [Node.applyAll] using h
  | cons e effects ih =>
    cases k with
    | zero => simpa [Node.applyAll] using h
    | succ k => exact ih (h.apply he.1) he.2 k

end

end Commonware.Simplex.Voter
