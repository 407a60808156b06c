/-
**Ordered broadcast across restarts.**

A validator writes every new tip of a sequencer to that sequencer's journal before it asks the
application about it, so that after a restart it never acknowledges another payload at the same
height.  But the journal is read only after a node has been validated.  Right after a restart a node
is therefore validated against no tip at all, and if it turns out to be below the tip of the journal,
or to conflict with it, the process stops.

Main definitions:

* `Engine.Inv` — what holds between tips and journals;
* `Stale` — a node that is below a tip or conflicts with it;
* `Engine.Unread` — a node whose sequencer's journal is not open and makes it stale;
* `Engine.TooEarly` — such a node that passes validation.

Main results:

* `restarts_survived` — **in every run a node stops the process if and only if it is accepted before
  a journal that makes it stale is read**; nothing else replaces a tip wrongly, restarts succeed, and
  **no two acknowledgements of one sequencer and height have different payloads**;
* `stale_node_fails` — a run in which a stale node stops the process.
-/

import Commonware.HighWater
import Commonware.OrderedBroadcast

set_option autoImplicit false

namespace Commonware.OrderedBroadcast

open List Option Function

variable {PK D CSig Sig Cert : Type}

/-! ### Journals -/

theorem replayTip_append (l : List (Node PK D CSig Cert)) (n : Node PK D CSig Cert) :
    replayTip (l ++ [n]) = replayRecord (replayTip l) n := by
  rw [replayTip, foldl_append, ← replayTip]
  rfl

variable {l : List (Node PK D CSig Cert)}

theorem replayTip_eq_none_iff : replayTip l = none ↔ l = [] := by
  cases l using List.reverseRecOn with
  | nil => simp [replayTip]
  | append_singleton l n =>
    rw [replayTip_append]
    cases replayTip l with
    | none => simp [replayRecord]
    | some t =>
      simp only [replayRecord]
      split_ifs <;> simp

variable {t : Node PK D CSig Cert}

/-- What comes after the highest node does not change the result. -/
theorem foldl_replayRecord_of_le (h : ∀ n ∈ l, n.chunk.height ≤ t.chunk.height) :
    l.foldl replayRecord (some t) = some t := by
  induction l with
  | nil => rfl
  | cons n l ih =>
    have hn : ¬ t.chunk.height < n.chunk.height := Nat.not_lt.2 (h n mem_cons_self)
    rw [foldl_cons, replayRecord, if_neg hn]
    exact ih fun m hm => h m (mem_cons_of_mem n hm)

/-- A replay finds the first of the highest nodes. -/
theorem split_of_replayTip (h : replayTip l = some t) : ∃ before after, l = before ++ t :: after ∧
      (∀ n ∈ before, n.chunk.height < t.chunk.height) ∧
      ∀ n ∈ after, n.chunk.height ≤ t.chunk.height := by
  induction l using List.reverseRecOn generalizing t with
  | nil => cases h
  | append_singleton l n ih =>
    rw [replayTip_append] at h
    cases hl : replayTip l with
    | none =>
      rw [hl] at h
      cases h
      rw [replayTip_eq_none_iff.1 hl]
      exact ⟨[], [], by simp⟩
    | some t' =>
      obtain ⟨before, after, rfl, hbf, haf⟩ := ih hl
      simp only [hl, replayRecord] at h
      split_ifs at h with hlt
      · cases h
        refine ⟨before ++ t' :: after, [], rfl, ?_, by simp⟩
        intro m hm
        rcases mem_append.1 hm with hm | hm
        · exact (hbf m hm).trans hlt
        · rcases mem_cons.1 hm with rfl | hm
          · exact hlt
          · exact (haf m hm).trans_lt hlt
      · cases h
        refine ⟨before, after ++ [n], by simp, hbf, ?_⟩
        intro m hm
        rcases mem_append.1 hm with hm | hm
        · exact haf m hm
        · rw [mem_singleton.1 hm]
          omega

theorem mem_of_replayTip (h : replayTip l = some t) : t ∈ l := by
  obtain ⟨before, after, rfl, -, -⟩ := split_of_replayTip h
  simp

theorem replayTip_of_split {before after : List (Node PK D CSig Cert)}
    (hbf : ∀ n ∈ before, n.chunk.height < t.chunk.height)
    (haf : ∀ n ∈ after, n.chunk.height ≤ t.chunk.height) :
    replayTip (before ++ t :: after) = some t := by
  have hrc : replayRecord (replayTip before) t = some t := by
    cases ht : replayTip before with
    | none => rfl
    | some t' => exact if_pos (hbf t' (mem_of_replayTip ht))
  rw [replayTip, foldl_append, foldl_cons, ← replayTip, hrc]
  exact foldl_replayRecord_of_le haf

/-- Pruning below the highest node does not change what a replay finds. -/
theorem replayTip_filter {keep : Node PK D CSig Cert → Bool} (h : replayTip l = some t)
    (ht : keep t = true) : replayTip (l.filter keep) = some t := by
  obtain ⟨before, after, rfl, hbf, haf⟩ := split_of_replayTip h
  rw [filter_append, filter_cons_of_pos ht]
  refine replayTip_of_split ?_ ?_
  · intro n hn
    exact hbf n (mem_filter.1 hn).1
  · intro n hn
    exact haf n (mem_filter.1 hn).1

/-! ### The invariant -/

namespace Engine

/-- The journals are sorted by sequencer; an open journal has been read, and its highest node is the
tip; without an open journal there is no tip. -/
structure Inv (e : Engine PK D CSig Sig Cert) : Prop where
  named : ∀ q, ∀ n ∈ e.disk q, n.chunk.sequencer = q
  opened : ∀ q, e.journals q = true → e.tips q = replayTip (e.disk q)
  closed : ∀ q, e.journals q = false → e.tips q = none

/-- The highest chunks of the journals. -/
def marks (e : Engine PK D CSig Sig Cert) (q : PK) : Option (Chunk PK D) :=
  (replayTip (e.disk q)).map Node.chunk

/-- The engine went on: the invariant holds, no mark fell, and no journal was closed. -/
structure Grows (e e' : Engine PK D CSig Sig Cert) : Prop where
  inv : e'.Inv
  rises : HighWater.Rises Chunk.height e.marks e'.marks
  journals : ∀ q, e.journals q = true → e'.journals q = true

theorem Grows.trans {e₁ e₂ e₃ : Engine PK D CSig Sig Cert} (h₁₂ : e₁.Grows e₂)
    (h₂₃ : e₂.Grows e₃) : e₁.Grows e₃ :=
  ⟨h₂₃.inv, h₁₂.rises.trans h₂₃.rises, fun q hq => h₂₃.journals q (h₁₂.journals q hq)⟩

variable {e e' : Engine PK D CSig Sig Cert}

theorem Inv.grows (h : e.Inv) (ht : e'.tips = e.tips) (hjr : e'.journals = e.journals)
    (hds : e'.disk = e.disk) : e.Grows e' := by
  obtain ⟨hnm, hop, hcl⟩ := h
  have hmr : e'.marks = e.marks := by
    funext q
    rw [marks, marks, hds]
  refine ⟨⟨?_, ?_, ?_⟩, ?_, ?_⟩
  · rwa [hds]
  · rwa [hjr, ht, hds]
  · rwa [hjr, ht]
  · rw [hmr]
    exact HighWater.Rises.refl _
  · rw [hjr]
    exact fun _ hq => hq

variable {q : PK}

/-- What touches the tip and the journal of one sequencer only, and leaves the highest node of the
journal as the tip. -/
theorem Inv.grows_at (h : e.Inv)
    (hf : ∀ r, r ≠ q → e'.tips r = e.tips r ∧ e'.journals r = e.journals r ∧
      e'.disk r = e.disk r) (hop : e'.journals q = true)
    (hti : e'.tips q = replayTip (e'.disk q)) (hnm : ∀ n ∈ e'.disk q, n.chunk.sequencer = q)
    (hrs : ∀ t, replayTip (e.disk q) = some t → ∃ t', replayTip (e'.disk q) = some t' ∧
      HighWater.AtOrBelow Chunk.height t.chunk t'.chunk) : e.Grows e' := by
  refine ⟨⟨?_, ?_, ?_⟩, ?_, ?_⟩
  · intro r n hn
    by_cases hr : r = q
    · rw [hr] at hn ⊢
      exact hnm n hn
    · rw [(hf r hr).2.2] at hn
      exact h.named r n hn
  · intro r hop'
    by_cases hr : r = q
    · rw [hr]
      exact hti
    · obtain ⟨htp, hjr, hds⟩ := hf r hr
      rw [htp, hds]
      exact h.opened r (hjr ▸ hop')
  · intro r hcl
    by_cases hr : r = q
    · rw [hr, hop] at hcl
      cases hcl
    · obtain ⟨htp, hjr, -⟩ := hf r hr
      rw [htp]
      exact h.closed r (hjr ▸ hcl)
  · intro r c hc
    obtain ⟨t, ht, rfl⟩ := map_eq_some_iff.1 hc
    by_cases hr : r = q
    · obtain ⟨t', ht', hle⟩ := hrs t (hr ▸ ht)
      exact ⟨t'.chunk, by rw [marks, hr, ht', map_some], hle⟩
    · exact ⟨t.chunk, by rw [marks, (hf r hr).2.2, ht, map_some], .inl rfl⟩
  · intro r hop'
    by_cases hr : r = q
    · rw [hr]
      exact hop
    · rw [(hf r hr).2.1]
      exact hop'

theorem Inv.mem_marks (h : e.Inv) {t : Node PK D CSig Cert} (ht : e.tips q = some t) :
    e.journals q = true ∧ replayTip (e.disk q) = some t ∧ t.chunk.sequencer = q := by
  have hop : e.journals q = true := by
    by_contra hcl
    rw [h.closed q (by simpa using hcl)] at ht
    cases ht
  have htp : replayTip (e.disk q) = some t := by rw [← h.opened q hop, ht]
  exact ⟨hop, htp, h.named q t (mem_of_replayTip htp)⟩

/-! ### What is signed -/

variable {cfg : Config PK D CSig Sig Cert}

def signedChunks (out : List (Output PK D CSig Sig Cert)) : List (Chunk PK D) :=
  out.filterMap fun
    | .signed ack => some ack.chunk
    | _ => none

@[simp] theorem signedChunks_signed (ack : Ack PK D Sig) (out : List (Output PK D CSig Sig Cert)) :
    signedChunks (.signed ack :: out) = ack.chunk :: signedChunks out := rfl

@[simp] theorem signedChunks_tip (chunk : Chunk PK D) (signature : CSig)
    (out : List (Output PK D CSig Sig Cert)) :
    signedChunks (.tip chunk signature :: out) = signedChunks out := rfl

theorem signedChunks_append (out out' : List (Output PK D CSig Sig Cert)) :
    signedChunks (out ++ out') = signedChunks out ++ signedChunks out' :=
  filterMap_append

variable {out : List (Output PK D CSig Sig Cert)}

theorem mem_signedChunks {ack : Ack PK D Sig}
    (h : .signed ack ∈ out) :
    ack.chunk ∈ signedChunks out :=
  mem_filterMap.2 ⟨_, h, rfl⟩

/-- An operation that touches neither tips nor journals, and signs nothing. -/
structure Quiet (e : Engine PK D CSig Sig Cert)
    (result : Engine PK D CSig Sig Cert × List (Output PK D CSig Sig Cert)) : Prop where
  tips : result.1.tips = e.tips
  journals : result.1.journals = e.journals
  disk : result.1.disk = e.disk
  signed : signedChunks result.2 = []

variable {result : Engine PK D CSig Sig Cert × List (Output PK D CSig Sig Cert)}

theorem Quiet.grows (h : e.Quiet result) (hin : e.Inv) : e.Grows result.1 :=
  hin.grows h.tips h.journals h.disk

/-- A step that succeeds: the engine goes on, and has signed nothing but its tips. -/
def Advances (e : Engine PK D CSig Sig Cert)
    (result : Except Fault (Engine PK D CSig Sig Cert × List (Output PK D CSig Sig Cert))) : Prop :=
  ∃ e' out, result = .ok (e', out) ∧ e.Grows e' ∧
    ∀ c ∈ signedChunks out, e'.marks c.sequencer = some c

theorem Grows.advances {e e₁ : Engine PK D CSig Sig Cert}
    {result : Except Fault (Engine PK D CSig Sig Cert × List (Output PK D CSig Sig Cert))}
    (h : e.Grows e₁) (ha : e₁.Advances result) : e.Advances result := by
  obtain ⟨e', out, hok, hg, hsg⟩ := ha
  exact ⟨e', out, hok, h.trans hg, hsg⟩

theorem Quiet.advances (h : e.Quiet result) (hin : e.Inv) : e.Advances (.ok result) :=
  ⟨result.1, result.2, rfl, h.grows hin, by simp [h.signed]⟩

theorem Inv.advances (h : e.Inv)
    (hot : signedChunks out = []) :
    e.Advances (.ok (e, out)) :=
  ⟨e, out, rfl, h.grows rfl rfl rfl, by simp [hot]⟩

variable (cfg) in
theorem signedChunks_broadcast (e : Engine PK D CSig Sig Cert) (node : Node PK D CSig Cert) :
    signedChunks (e.broadcast cfg node) = [] := by
  unfold broadcast
  split_ifs <;> rfl

def OwnOpen (cfg : Config PK D CSig Sig Cert) (e : Engine PK D CSig Sig Cert) : Prop :=
  ∀ me sign, cfg.signer = some (me, sign) → e.journals me = true

theorem lt_of_nextParent {me : PK} {next : {x : ℕ × Option (Parent D Cert) // x.2 = none ↔ x.1 = 0}}
    (h : e.nextParent me = .ok (some next)) {t : Node PK D CSig Cert} (ht : e.tips me = some t) :
    t.chunk.height < next.1.1 := by
  simp only [nextParent, ht] at h
  cases hc : e.acks.getCertificate me t.chunk.height with
  | none =>
    simp only [hc] at h
    cases h
  | some certificate =>
    simp only [hc] at h
    split_ifs at h
    cases h
    exact Nat.lt_succ_self _

variable {fault : Fault}

theorem eq_heightOverflow_of_nextParent {me : PK}
    (h : e.nextParent me = .error fault) : fault = .heightOverflow := by
  unfold nextParent at h
  split at h
  · cases h
  · split at h
    · cases h
    · split_ifs at h
      cases h
      rfl

/-! ### Steps that do not compare payloads -/

variable [DecidableEq PK]

variable (cfg) in
/-- Syncing, and pruning at a height that is not above the highest node, keep tips and marks. -/
theorem journalSync_ok (h : e.Inv) {height : ℕ} (hop : e.journals q = true)
    (htp : ∀ t, replayTip (e.disk q) = some t → height ≤ t.chunk.height) (pruned : Bool) :
    ∃ e', e.journalSync cfg q height pruned = .ok e' ∧ e.Grows e' ∧
      ∀ r, replayTip (e'.disk r) = replayTip (e.disk r) := by
  unfold journalSync
  rw [if_pos hop]
  cases pruned with
  | false => exact ⟨e, rfl, h.grows rfl rfl rfl, fun _ => rfl⟩
  | true =>
    have hprune : replayTip ((e.disk q).filter fun node =>
        decide (getJournalSection cfg height ≤ getJournalSection cfg node.chunk.height)) =
          replayTip (e.disk q) := by
      cases ht : replayTip (e.disk q) with
      | none =>
        rw [replayTip_eq_none_iff.1 ht]
        rfl
      | some t =>
        refine replayTip_filter ht (decide_eq_true ?_)
        exact Nat.div_le_div_right (htp t ht)
    have hds : ∀ r, replayTip (update e.disk q ((e.disk q).filter fun node =>
        decide (getJournalSection cfg height ≤ getJournalSection cfg node.chunk.height)) r) =
          replayTip (e.disk r) := by
      intro r
      by_cases hr : r = q
      · rw [hr, update_self, hprune]
      · rw [update_of_ne hr]
    refine ⟨_, rfl, h.grows_at (fun r hr => ⟨rfl, rfl, update_of_ne hr ..⟩) hop
      ((h.opened q hop).trans (hds q).symm) ?_ ?_, hds⟩
    · intro n hn
      simp only [update_self] at hn
      exact h.named q n (mem_filter.1 hn).1
    · intro t ht
      exact ⟨t, (hds q).trans ht, .inl rfl⟩

theorem handleCertificate_quiet (e : Engine PK D CSig Sig Cert) (chunk : Chunk PK D) (epoch : ℕ)
    (certificate : Cert) : e.Quiet (e.handleCertificate chunk epoch certificate) := by
  refine ⟨rfl, rfl, rfl, ?_⟩
  simp only [handleCertificate]
  split_ifs <;> rfl

theorem handleParent_quiet (e : Engine PK D CSig Sig Cert) (node : Node PK D CSig Cert)
    (result : Option (Chunk PK D)) : e.Quiet (e.handleParent node result) := by
  unfold handleParent
  split
  · exact handleCertificate_quiet ..
  · exact ⟨rfl, rfl, rfl, rfl⟩

variable (cfg) in
theorem signedChunks_rebroadcast (e : Engine PK D CSig Sig Cert) :
    signedChunks (e.rebroadcast cfg) = [] := by
  unfold rebroadcast
  split
  · rfl
  · split_ifs
    · rfl
    · split
      · rfl
      · split_ifs
        · rfl
        · exact signedChunks_broadcast ..

theorem eq_heightOverflow_of_shouldPropose
    (h : e.shouldPropose cfg = .error fault) : fault = .heightOverflow := by
  unfold shouldPropose at h
  split at h
  · cases h
  · split_ifs at h
    split at h
    · cases h
    · split at h
      · cases h
      · unfold nextHeight at h
        split_ifs at h
        · cases h
        · cases h
          rfl

end Engine

/-! ### Tips -/

/-- A node that must not follow a tip: it is lower, or of the same height with another payload. -/
def Stale (tip node : Node PK D CSig Cert) : Prop :=
  node.chunk.height < tip.chunk.height ∨
    node.chunk.height = tip.chunk.height ∧ tip.chunk.payload ≠ node.chunk.payload

/-- The faults of replacing a tip wrongly. -/
def Fault.OfTip : Fault → Prop
  | .lowerTip => True
  | .conflictingTip => True
  | _ => False

variable [DecidableEq PK] [DecidableEq D]
  {tips : PK → Option (Node PK D CSig Cert)} {node : Node PK D CSig Cert}

theorem put_of_stale {tip : Node PK D CSig Cert} (ht : tips node.chunk.sequencer = some tip)
    (h : Stale tip node) : ∃ fault, fault.OfTip ∧ put tips node = .error fault := by
  simp only [put, ht]
  rcases h with hlt | ⟨heq, hne⟩
  · exact ⟨.lowerTip, trivial, if_pos hlt⟩
  · refine ⟨.conflictingTip, trivial, ?_⟩
    rw [if_neg (by omega), if_pos heq.symm, if_neg hne]

/-- A node that is not stale is the tip again, or becomes the tip. -/
theorem put_of_not_stale
    (h : ∀ tip, tips node.chunk.sequencer = some tip → ¬ Stale tip node) :
    (∃ tip, tips node.chunk.sequencer = some tip ∧ tip.chunk.height = node.chunk.height) ∧
        put tips node = .ok (tips, false) ∨
      (∀ tip, tips node.chunk.sequencer = some tip → tip.chunk.height < node.chunk.height) ∧
        put tips node = .ok (update tips node.chunk.sequencer (some node), true) := by
  cases ht : tips node.chunk.sequencer with
  | none =>
    right
    exact ⟨nofun, by simp only [put, ht]⟩
  | some tip =>
    have hns := h tip ht
    rw [Stale, not_or, not_and, not_not] at hns
    simp only [put, ht]
    rw [if_neg hns.1]
    by_cases heq : tip.chunk.height = node.chunk.height
    · left
      refine ⟨⟨tip, rfl, heq⟩, ?_⟩
      rw [if_pos heq, if_pos (hns.2 heq.symm)]
    · right
      refine ⟨?_, if_neg heq⟩
      rintro _ ⟨⟩
      omega

/-! ### Steps -/

namespace Engine

variable {cfg : Config PK D CSig Sig Cert} {e : Engine PK D CSig Sig Cert}

/-- Opening a journal makes its highest node the tip. -/
theorem journalPrepare_ok (h : e.Inv) (q : PK) :
    ∃ e', e.journalPrepare q = .ok e' ∧ e.Grows e' ∧ e'.disk = e.disk ∧ e'.journals q = true := by
  unfold journalPrepare
  split_ifs with hop
  · exact ⟨e, rfl, h.grows rfl rfl rfl, rfl, hop⟩
  · have hnn : e.tips q = none := h.closed q (by simpa using hop)
    cases htp : replayTip (e.disk q) with
    | none =>
      refine ⟨_, rfl, h.grows_at (fun r hr => ⟨rfl, update_of_ne hr .., rfl⟩)
        (update_self ..) (hnn.trans htp.symm) (h.named q) ?_, rfl, update_self ..⟩
      intro t ht
      exact ⟨t, ht, .inl rfl⟩
    | some node =>
      have hs : node.chunk.sequencer = q := h.named q node (mem_of_replayTip htp)
      have hp : put e.tips node = .ok (update e.tips q (some node), true) := by
        rw [put, hs, hnn]
      simp only [hp, if_true]
      refine ⟨_, rfl, h.grows_at (fun r hr => ⟨update_of_ne hr .., update_of_ne hr .., rfl⟩)
        (update_self ..) ((update_self ..).trans htp.symm) (h.named q) ?_, rfl, update_self ..⟩
      intro t ht
      exact ⟨t, ht, .inl rfl⟩

variable (cfg) in
/-- A node that is not stale for the open journal of its sequencer is stored. -/
theorem handleNode_ok (h : e.Inv) (node : Node PK D CSig Cert)
    (hop : e.journals node.chunk.sequencer = true)
    (hns : ∀ t, replayTip (e.disk node.chunk.sequencer) = some t → ¬ Stale t node) (pruned : Bool) :
    ∃ e', e.handleNode cfg node pruned = .ok e' ∧ e.Grows e' ∧
      ∀ t, replayTip (e'.disk node.chunk.sequencer) = some t →
        node.chunk.height ≤ t.chunk.height := by
  have htp := h.opened _ hop
  rw [← htp] at hns
  rcases put_of_not_stale hns with ⟨⟨tip, htp', hh⟩, hp⟩ | ⟨hlt, hp⟩
  · simp only [handleNode, hp, bind, Except.bind, pure, Except.pure, Bool.false_eq_true, if_false]
    refine ⟨_, rfl, h.grows rfl rfl rfl, ?_⟩
    intro t ht
    rw [htp, ht, some_inj] at htp'
    rw [htp', hh]
  · -- the node is appended, and thereby becomes the highest one of its journal
    have hto : replayTip (e.disk node.chunk.sequencer ++ [node]) = some node := by
      rw [replayTip_append, ← htp]
      cases ht : e.tips node.chunk.sequencer with
      | none => rfl
      | some t => exact if_pos (hlt t ht)
    have hg : e.Grows { e with
        tips := update e.tips node.chunk.sequencer (some node)
        disk := update e.disk node.chunk.sequencer
          (e.disk node.chunk.sequencer ++ [node]) } := by
      refine h.grows_at
        (fun r hr => ⟨update_of_ne hr .., rfl, update_of_ne hr ..⟩) hop ?_ ?_ ?_
      · simp only [update_self, hto]
      · intro n hn
        simp only [update_self] at hn
        rcases mem_append.1 hn with hn | hn
        · exact h.named _ n hn
        · rw [mem_singleton.1 hn]
      · intro t ht
        refine ⟨node, by simp only [update_self, hto], .inr ?_⟩
        exact hlt t (htp.trans ht)
    have hh : ∀ t, replayTip (update e.disk node.chunk.sequencer
        (e.disk node.chunk.sequencer ++ [node]) node.chunk.sequencer) = some t →
          node.chunk.height ≤ t.chunk.height := by
      intro t ht
      rw [update_self, hto, some_inj] at ht
      rw [ht]
    obtain ⟨e', hsy, hg', hds⟩ := journalSync_ok cfg hg.inv hop hh pruned
    simp only [handleNode, hp, journalAppend, hop, hsy, bind, Except.bind, pure, Except.pure,
      if_true]
    refine ⟨_, rfl, (hg.trans hg').trans (hg'.inv.grows rfl rfl rfl), ?_⟩
    intro t ht
    exact hh t ((hds _).symm.trans ht)

variable (cfg) in
/-- A node that is stale for the open journal of its sequencer stops the process. -/
theorem handleNode_of_stale (h : e.Inv)
    {t : Node PK D CSig Cert} (hop : e.journals node.chunk.sequencer = true)
    (ht : replayTip (e.disk node.chunk.sequencer) = some t) (hst : Stale t node) (pruned : Bool) :
    ∃ fault, fault.OfTip ∧ e.handleNode cfg node pruned = .error fault := by
  obtain ⟨fault, hf, hp⟩ := put_of_stale ((h.opened _ hop).trans ht) hst
  exact ⟨fault, hf, by simp only [handleNode, hp, bind, Except.bind]⟩

variable (cfg) in
theorem handleAck_quiet (e : Engine PK D CSig Sig Cert) (ack : Ack PK D Sig) :
    e.Quiet (e.handleAck cfg ack) := by
  unfold handleAck
  cases cfg.validators ack.epoch with
  | none => exact ⟨rfl, rfl, rfl, rfl⟩
  | some scheme =>
    simp only
    split
    · exact ⟨rfl, rfl, rfl, rfl⟩
    · next acks certificate _ =>
        exact { handleCertificate_quiet { e with acks } ack.chunk ack.epoch certificate with }

/-- Only the tip is signed, and it is the highest node of its journal. -/
theorem handleAppVerified_advances (h : e.Inv)
    (context : Context PK) (payload : D) (pruned : Bool) :
    e.Advances (e.handleAppVerified cfg context payload pruned) := by
  unfold handleAppVerified
  cases hti : e.tips context.sequencer with
  | none => exact h.advances rfl
  | some tip =>
    simp only
    split_ifs with hh hpy
    · exact h.advances rfl
    · exact h.advances rfl
    · cases cfg.validators e.epoch with
      | none => exact h.advances rfl
      | some scheme =>
        cases hsg : Ack.sign cfg scheme tip.chunk e.epoch with
        | none =>
          simp only [hsg]
          exact h.advances rfl
        | some ack =>
          obtain ⟨hop, htp, hs⟩ := h.mem_marks hti
          have hch : ack.chunk = tip.chunk := by
            obtain ⟨a, -, rfl⟩ := map_eq_some_iff.1 hsg
            rfl
          have hle : ∀ t, replayTip (e.disk context.sequencer) = some t →
              context.height ≤ t.chunk.height := by
            intro t ht
            rw [htp, some_inj] at ht
            rw [← ht, not_not.1 hh]
          obtain ⟨e', hsy, hg, hds⟩ := journalSync_ok cfg h hop hle pruned
          simp only [hsg, hsy, bind, Except.bind, pure, Except.pure]
          have hq := handleAck_quiet cfg e' ack
          refine ⟨_, _, rfl, hg.trans (hq.grows hg.inv), ?_⟩
          intro c hc
          have hc' : c = tip.chunk := by
            rw [signedChunks_tip, signedChunks_signed, hq.signed] at hc
            rw [← hch, mem_singleton.1 hc]
          rw [hc', marks, hq.disk, hds, hs, htp, map_some]

theorem propose_advances (h : e.Inv) (hon : OwnOpen cfg e)
    (context : Context PK) (payload : D) (pruned : Bool) :
    e.Advances (e.propose cfg context payload pruned) ∨
      e.propose cfg context payload pruned = .error .heightOverflow := by
  unfold propose
  cases hsg : cfg.signer with
  | none => exact .inl (h.advances rfl)
  | some signer =>
    obtain ⟨me, sign⟩ := signer
    have hop := hon me sign hsg
    simp only
    split_ifs with hs hmm
    · exact .inl (h.advances rfl)
    · exact .inl (h.advances rfl)
    · cases hnx : e.nextParent me with
      | error fault =>
        right
        rw [eq_heightOverflow_of_nextParent hnx]
      | ok next =>
        cases next with
        | none => exact .inl (h.advances rfl)
        | some next =>
          obtain ⟨⟨height, parent⟩, hp⟩ := next
          simp only
          split_ifs with hh
          · exact .inl (h.advances rfl)
          · left
            have hns : ∀ t (node : Node PK D CSig Cert), node.chunk.height = height →
                replayTip (e.disk me) = some t → ¬ Stale t node := by
              intro t node hnd ht hst
              have hlt : t.chunk.height < height :=
                lt_of_nextParent hnx ((h.opened me hop).trans ht)
              rcases hst with hl | ⟨heq, -⟩ <;> omega
            obtain ⟨e₁, hnd, hg₁, htp⟩ := handleNode_ok cfg h
              ⟨⟨me, height, payload⟩, sign (chunkNamespace cfg.ns) ⟨me, height, payload⟩,
                parent, hp⟩ hop (fun t => hns t _ rfl) pruned
            obtain ⟨e₂, hsy, hg₂, -⟩ :=
              journalSync_ok cfg hg₁.inv (hg₁.journals me hop) htp pruned
            simp only [hnd, hsy, bind, Except.bind, pure, Except.pure]
            refine ⟨e₂, _, rfl, hg₁.trans hg₂, ?_⟩
            rw [signedChunks_broadcast]
            nofun

/-! ### Nodes of the network -/

/-- A node whose sequencer's journal is not open, and makes the node stale. -/
def Unread (e : Engine PK D CSig Sig Cert) (node : Node PK D CSig Cert) : Prop :=
  e.journals node.chunk.sequencer = false ∧
    ∃ t, replayTip (e.disk node.chunk.sequencer) = some t ∧ Stale t node

variable (cfg) in
/-- After its journal is open, a node is stored unless it is stale. -/
theorem storeNode_cases (h : e.Inv)
    {out : List (Output PK D CSig Sig Cert)} (hot : signedChunks out = [])
    (hop : e.journals node.chunk.sequencer = true) (pruned : Bool) :
    (e.Advances (do let e ← e.handleNode cfg node pruned; pure (e, out)) ∧
        ∀ t, replayTip (e.disk node.chunk.sequencer) = some t → ¬ Stale t node) ∨
      (∃ fault, fault.OfTip ∧
        (do let e ← e.handleNode cfg node pruned; pure (e, out)) = .error fault) ∧
        ∃ t, replayTip (e.disk node.chunk.sequencer) = some t ∧ Stale t node := by
  by_cases hsl : ∃ t, replayTip (e.disk node.chunk.sequencer) = some t ∧ Stale t node
  · right
    obtain ⟨t, ht, hst⟩ := hsl
    obtain ⟨fault, hf, her⟩ := handleNode_of_stale cfg h hop ht hst pruned
    refine ⟨⟨fault, hf, ?_⟩, t, ht, hst⟩
    rw [her]
    rfl
  · left
    have hns : ∀ t, replayTip (e.disk node.chunk.sequencer) = some t → ¬ Stale t node :=
      fun t ht hst => hsl ⟨t, ht, hst⟩
    obtain ⟨e', hok, hg, -⟩ := handleNode_ok cfg h node hop hns pruned
    refine ⟨⟨e', out, ?_, hg, by simp [hot]⟩, hns⟩
    rw [hok]
    rfl

variable (cfg) in
/-- An engine starts from any journals that are sorted by sequencer, and keeps them. -/
theorem start_ok {disk : PK → List (Node PK D CSig Cert)}
    (hnm : ∀ q, ∀ n ∈ disk q, n.chunk.sequencer = q) (epoch : ℕ) :
    ∃ e out, start cfg disk epoch = .ok (e, out) ∧ e.Inv ∧ OwnOpen cfg e ∧ e.disk = disk ∧
      signedChunks out = [] := by
  have hin : (new disk epoch : Engine PK D CSig Sig Cert).Inv := ⟨hnm, nofun, fun _ _ => rfl⟩
  unfold start
  cases hsg : cfg.signer with
  | none =>
    refine ⟨_, _, rfl, hin, ?_, rfl, rfl⟩
    intro me sign hme
    rw [hsg] at hme
    cases hme
  | some signer =>
    obtain ⟨me, sign⟩ := signer
    obtain ⟨e, hpr, hg, hds, hop⟩ := journalPrepare_ok hin me
    simp only [hpr, bind, Except.bind, pure, Except.pure]
    refine ⟨e, _, rfl, hg.inv, ?_, hds, signedChunks_rebroadcast ..⟩
    intro me' sign' hme
    rw [hsg] at hme
    cases hme
    exact hop

variable [DecidableEq CSig] [DecidableEq Cert]

/-- A node that passes validation is of its sender, and not stale for the tip. -/
theorem not_stale_of_validateNode
    {sender : PK} {result : Option (Chunk PK D)} (h : e.validateNode cfg node sender = .ok result) :
    node.chunk.sequencer = sender ∧ ∀ t, e.tips node.chunk.sequencer = some t → ¬ Stale t node := by
  unfold validateNode at h
  split_ifs at h with hsn htp
  · refine ⟨not_not.1 hsn, ?_⟩
    intro t ht
    rw [not_not.1 hsn, htp, some_inj] at ht
    rw [← ht, Stale]
    simp
  · refine ⟨not_not.1 hsn, ?_⟩
    intro t ht hst
    cases hch : e.validateChunk cfg node.chunk e.epoch with
    | error error =>
      rw [hch] at h
      cases h
    | ok _ =>
      simp only [validateChunk, ht] at hch
      split_ifs at hch with _ hl hms
      rcases hst with hst | hst
      · exact hl hst
      · exact hms hst

/-- A node is accepted before a journal that makes it stale is read. -/
def TooEarly (cfg : Config PK D CSig Sig Cert) (e : Engine PK D CSig Sig Cert) (sender : PK)
    (node : Node PK D CSig Cert) : Prop :=
  cfg.readStaged node = true ∧ (∃ result, e.validateNode cfg node sender = .ok result) ∧
    e.Unread node

/-- A node stops the process if it is accepted too early, and in no other case. -/
theorem receiveNode_cases (h : e.Inv) (sender : PK) (node : Node PK D CSig Cert) (pruned : Bool) :
    (e.Advances (e.receiveNode cfg sender node pruned) ∧ ¬ TooEarly cfg e sender node) ∨
      (∃ fault, fault.OfTip ∧ e.receiveNode cfg sender node pruned = .error fault) ∧
        TooEarly cfg e sender node := by
  unfold receiveNode TooEarly
  by_cases hrd : cfg.readStaged node = true
  · cases hvl : e.validateNode cfg node sender with
    | error error =>
      left
      simp only [hrd, Bool.not_true, Bool.false_eq_true, if_false]
      refine ⟨h.advances rfl, ?_⟩
      rintro ⟨-, ⟨result, hrs⟩, -⟩
      cases hrs
    | ok result =>
      obtain ⟨rfl, hns⟩ := not_stale_of_validateNode hvl
      obtain ⟨e₁, hpr, hg, hds, hop⟩ :=
        journalPrepare_ok h node.chunk.sequencer
      have hq := e₁.handleParent_quiet node result
      have hg₂ := hg.trans (hq.grows hg.inv)
      have hds₂ : (e₁.handleParent node result).1.disk = e.disk := hq.disk.trans hds
      -- an open journal has been compared with already, a closed one has not
      have her : (∃ t, replayTip ((e₁.handleParent node result).1.disk
          node.chunk.sequencer) = some t ∧ Stale t node) ↔ e.Unread node := by
        rw [hds₂, Unread]
        refine ⟨?_, And.right⟩
        rintro ⟨t, ht, hst⟩
        refine ⟨?_, t, ht, hst⟩
        by_contra hop'
        have hop' : e.journals node.chunk.sequencer = true := by simpa using hop'
        exact hns t ((h.opened _ hop').trans ht) hst
      have hop₂ : (e₁.handleParent node result).1.journals node.chunk.sequencer = true := by
        rw [hq.journals]
        exact hop
      simp only [hrd, Bool.not_true, Bool.false_eq_true, if_false, hpr, bind, Except.bind]
      rcases storeNode_cases cfg hg₂.inv hq.signed hop₂ pruned with
        ⟨ha, hno⟩ | ⟨hf, hy⟩
      · left
        refine ⟨hg₂.advances ha, ?_⟩
        rintro ⟨-, -, hu⟩
        obtain ⟨t, ht, hst⟩ := her.2 hu
        exact hno t ht hst
      · right
        exact ⟨hf, trivial, ⟨result, rfl⟩, her.1 hy⟩
  · left
    simp only [hrd, Bool.not_false, if_true]
    exact ⟨h.advances rfl, fun her => by cases her.1⟩

/-- Every event is handled, or stops the process for a reason that has nothing to do with tips, or
is a node that comes too early. -/
theorem handle_cases (h : e.Inv) (hon : OwnOpen cfg e) (event : Event PK D CSig Sig Cert) :
    e.Advances (e.handle cfg event) ∨ ∃ fault, e.handle cfg event = .error fault ∧ (fault.OfTip →
        ∃ sender node pruned, event = .node sender node pruned ∧ TooEarly cfg e sender node) := by
  cases event with
  | epoch epoch =>
    simp only [handle]
    split_ifs
    · exact .inl ⟨_, _, rfl, h.grows rfl rfl rfl, nofun⟩
    · exact .inr ⟨_, rfl, nofun⟩
  | rebroadcast => exact .inl (h.advances (signedChunks_rebroadcast ..))
  | request =>
    simp only [handle]
    split_ifs
    · exact .inl (h.advances rfl)
    · cases hpr : e.shouldPropose cfg with
      | error fault =>
        rw [eq_heightOverflow_of_shouldPropose hpr]
        exact .inr ⟨_, rfl, nofun⟩
      | ok context => exact .inl ⟨_, _, rfl, h.grows rfl rfl rfl, nofun⟩
  | proposed payload pruned =>
    have hg : e.Grows { e with pending := none } := h.grows rfl rfl rfl
    simp only [handle]
    split
    · rcases propose_advances hg.inv hon _ _ pruned with ha | her
      · exact .inl (hg.advances ha)
      · exact .inr ⟨_, her, nofun⟩
    · exact .inl ⟨_, _, rfl, hg, nofun⟩
  | node sender node pruned =>
    rcases receiveNode_cases h sender node pruned with ⟨ha, -⟩ | ⟨⟨fault, -, her⟩, hel⟩
    · exact .inl ha
    · exact .inr ⟨fault, her, fun _ => ⟨sender, node, pruned, rfl, hel⟩⟩
  | ack sender ack =>
    simp only [handle]
    split
    · exact .inl (h.advances rfl)
    · exact .inl ((handleAck_quiet cfg e ack).advances h)
  | verified index result pruned =>
    simp only [handle]
    split
    · exact .inl (h.advances rfl)
    · next context payload _ =>
        have hg : e.Grows { e with pendingVerifies := e.pendingVerifies.eraseIdx index } :=
          h.grows rfl rfl rfl
        split_ifs
        · exact .inl (hg.advances (handleAppVerified_advances hg.inv context payload pruned))
        · exact .inl ⟨_, _, rfl, hg, nofun⟩

end Engine

open Engine

/-! ### Runs -/

section Runs

variable {cfg : Config PK D CSig Sig Cert} {e : Engine PK D CSig Sig Cert}

/-- What holds along a run. -/
structure Healthy (cfg : Config PK D CSig Sig Cert) (e : Engine PK D CSig Sig Cert)
    (out : List (Output PK D CSig Sig Cert)) : Prop where
  inv : e.Inv
  own : e.OwnOpen cfg
  agreed : HighWater.Agreed Chunk.height Chunk.sequencer e.marks (signedChunks out)

variable {out : List (Output PK D CSig Sig Cert)}

theorem Healthy.restart {disk : PK → List (Node PK D CSig Cert)}
    {out' : List (Output PK D CSig Sig Cert)} {epoch : ℕ}
    (hnm : ∀ q, ∀ n ∈ disk q, n.chunk.sequencer = q)
    (hag : HighWater.Agreed Chunk.height Chunk.sequencer
      (fun q => (replayTip (disk q)).map Node.chunk) (signedChunks out))
    (h : start cfg disk epoch = .ok (e, out')) : Healthy cfg e (out ++ out') := by
  obtain ⟨e₁, out₁, hst, hin, hon, hds, hsg⟩ :=
    start_ok cfg hnm epoch
  rw [hst] at h
  cases h
  refine ⟨hin, hon, ?_⟩
  rw [signedChunks_append, hsg, append_nil]
  subst hds
  exact hag

variable [DecidableEq CSig] [DecidableEq Cert]
  {s : Engine PK D CSig Sig Cert × List (Output PK D CSig Sig Cert)}

theorem Healthy.act {s' : Engine PK D CSig Sig Cert × List (Output PK D CSig Sig Cert)}
    {action : Action PK D CSig Sig Cert} (ih : Healthy cfg s.1 s.2)
    (h : Engine.act cfg s action = .ok s') : Healthy cfg s'.1 s'.2 := by
  cases action with
  | handle event =>
    rcases Engine.handle_cases ih.inv ih.own event with ha | ⟨fault, her, -⟩
    · obtain ⟨e₁, out₁, hok, hg, hsg⟩ := ha
      rw [Engine.act, hok] at h
      cases h
      refine ⟨hg.inv, fun me sign hme => hg.journals me (ih.own me sign hme), ?_⟩
      rw [Engine.signedChunks_append]
      exact (ih.agreed.rise hg.rises).signAll hsg
    · rw [Engine.act, her] at h
      cases h
  | restart epoch =>
    rw [Engine.act] at h
    cases hst : Engine.start cfg s.1.disk epoch with
    | error fault =>
      rw [hst] at h
      cases h
    | ok r =>
      rw [hst] at h
      cases h
      exact Healthy.restart ih.inv.named ih.agreed hst

theorem Run.healthy (h : Run cfg s) : Healthy cfg s.1 s.2 := by
  induction h with
  | @start epoch s h =>
    rw [← nil_append s.2]
    exact Healthy.restart (by simp) (HighWater.Agreed.nil _) h
  | act run h ih => exact ih.act h

/-- **Ordered broadcast across restarts.** In every run, a node stops the process if and only if it
is accepted before a journal that makes it stale is read; no other event replaces a tip wrongly; the
process can be restarted; and no two acknowledgements of one sequencer and height have different
payloads. -/
theorem restarts_survived {e : Engine PK D CSig Sig Cert}
    {out : List (Output PK D CSig Sig Cert)} (h : Run cfg (e, out)) :
    (∀ sender node pruned, (∃ fault, e.handle cfg (.node sender node pruned) = .error fault) ↔
      e.TooEarly cfg sender node) ∧
    (∀ event fault, e.handle cfg event = .error fault → fault.OfTip →
      ∃ sender node pruned, event = .node sender node pruned ∧ e.TooEarly cfg sender node) ∧
    (∀ epoch, ∃ e' out', start cfg e.disk epoch = .ok (e', out')) ∧
    ∀ a b, .signed a ∈ out → .signed b ∈ out → a.chunk.sequencer = b.chunk.sequencer →
      a.chunk.height = b.chunk.height → a.chunk.payload = b.chunk.payload := by
  obtain ⟨hin, hon, hag⟩ := h.healthy
  refine ⟨?_, ?_, ?_, ?_⟩
  · intro sender node pruned
    rcases receiveNode_cases hin sender node pruned with
      ⟨⟨e', out', hok, -⟩, hno⟩ | ⟨⟨fault, -, her⟩, hel⟩
    · refine iff_of_false ?_ hno
      rintro ⟨fault, her⟩
      exact absurd (hok.symm.trans her) nofun
    · exact iff_of_true ⟨fault, her⟩ hel
  · intro event fault her ht
    rcases handle_cases hin hon event with ⟨e', out', hok, -⟩ | ⟨fault', her', hw⟩
    · exact absurd (hok.symm.trans her) nofun
    · rw [her', Except.error.injEq] at her
      exact hw (her ▸ ht)
  · intro epoch
    obtain ⟨e', out', hok, -⟩ := start_ok cfg hin.named epoch
    exact ⟨e', out', hok⟩
  · intro a b ha hb hs hh
    rw [hag.unique _ (mem_signedChunks ha) _ (mem_signedChunks hb) hs hh]

end Runs

/-! ### A stale node after a restart -/

/-- One validator and one sequencer, with signatures and certificates that are always valid. -/
def sampleConfig : Config ℕ ℕ Unit Unit Unit where
  ns := []
  signer := none
  sequencers _ := some [0]
  validators _ := some ⟨some (0, fun _ _ => ()), [1], fun _ _ _ => true, fun _ _ l => ⟨l, []⟩,
    fun _ => some (), fun _ _ _ => true, fun _ _ => true⟩
  verifyChunk _ _ _ _ := true
  epochBounds := (1, 1)
  heightBound := 10
  heightsPerSection := 10
  heightsPerSection_pos := by decide

def firstNode : Node ℕ ℕ Unit Unit := ⟨⟨0, 0, 7⟩, (), none, by simp⟩

def secondNode : Node ℕ ℕ Unit Unit := ⟨⟨0, 1, 8⟩, (), some ⟨7, 0, ()⟩, by simp⟩

/-- Both nodes are stored, in order; then the process is restarted. -/
def sampleRun : Except Fault (Engine ℕ ℕ Unit Unit Unit × List (Output ℕ ℕ Unit Unit Unit)) := do
  let s ← start sampleConfig (fun _ => []) 0
  [.handle (.node 0 firstNode true), .handle (.node 0 secondNode true),
    .handle (.verified 1 (some true) true), .restart 0].foldlM (act sampleConfig) s

/-- Whether the process stops because of a lower tip. -/
def isLowerTip : Except Fault (Engine ℕ ℕ Unit Unit Unit × List (Output ℕ ℕ Unit Unit Unit)) → Bool
  | .error .lowerTip => true
  | _ => false

theorem sampleRun_fails : ∃ s, Run sampleConfig s ∧
    s.1.handle sampleConfig (.node 0 firstNode true) = .error .lowerTip := by
  have h : (match sampleRun with
      | .ok s => isLowerTip (s.1.handle sampleConfig (.node 0 firstNode true))
      | .error _ => false) = true := by decide +kernel
  cases hr : sampleRun with
  | error fault =>
    rw [hr] at h
    cases h
  | ok s =>
    rw [hr] at h
    refine ⟨s, Run.foldlM (Run.start rfl) hr, ?_⟩
    cases hh : s.1.handle sampleConfig (.node 0 firstNode true) with
    | ok r =>
      simp only [hh] at h
      cases h
    | error fault =>
      simp only [hh] at h
      cases fault <;> first | rfl | cases h

/-- The first node comes too early after the restart. -/
theorem restarts_survived_sample : ∃ s, Run sampleConfig s ∧
    s.1.TooEarly sampleConfig 0 firstNode := by
  obtain ⟨s, hr, hf⟩ := sampleRun_fails
  exact ⟨s, hr, ((restarts_survived hr).1 0 firstNode true).1 ⟨_, hf⟩⟩

/-- **A node that is delivered again after a restart stops the process**, although it decodes and its
signature is valid. -/
theorem stale_node_fails : ∃ s, Run sampleConfig s ∧ sampleConfig.readStaged firstNode = true ∧
    firstNode.verify sampleConfig = .ok none ∧
    s.1.handle sampleConfig (.node 0 firstNode true) = .error .lowerTip := by
  obtain ⟨s, hr, hf⟩ := sampleRun_fails
  exact ⟨s, hr, rfl, rfl, hf⟩

end Commonware.OrderedBroadcast
