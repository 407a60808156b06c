/-
**The marshal delivers in order.**

Whatever is stored as a finalized block is an ancestor of a block that consensus has finalized, so
there is one such block for each height.  The actor reports the block above the processed height and
waits for its acknowledgement; the requirement of `Commonware/InOrderDelivery.lean` holds in every
run, with crashes at any point, as long as no block has the last height of the range.  At that height
the next height is the same one again, and the block is reported a second time.

Main definitions:

* `Consensus` — what is assumed of consensus and of blocks;
* `Good` — logs with entries that fit the chain and reports in order;
* `Actor.Inv` — the invariant of the actor.

Main results:

* `Reach.good` — every log that a run leaves is good;
* `delivery_gapless` — **blocks are delivered in order, and the processed height never falls**;
* `last_height_repeats` — a run that reports a block of the last height twice.
-/

import Commonware.Marshal
import Commonware.Outcome

set_option autoImplicit false

namespace Commonware.Marshal

open List Option OrdMap

open Simplex (Rnd Notarization Finalization)
open WriteLog

variable {B C Sig Cert PK : Type}

/-! ### Archives that hold what they should -/

namespace Archive

variable {V : Type} {P : ℕ → C → V → Prop} {a : Archive C V}

/-- Every value has the property, with its index and its key. -/
def Holds (P : ℕ → C → V → Prop) (a : Archive C V) : Prop :=
  ∀ i c v, a.items.get? i = some (c, v) → P i c v

theorem Holds.empty : (Archive.empty : Archive C V).Holds P := by
  intro i c v h
  cases h

variable {v : V}

theorem Holds.put (h : a.Holds P) {i : ℕ} {c : C} (hv : P i c v) :
    ((a.put i c v).getD a).Holds P := by
  rw [Archive.put]
  split_ifs with hol hkn
  · exact h
  · exact h
  · intro j c' v' hg
    rw [getD_some, get?_insert] at hg
    split_ifs at hg with hj
    · cases hg
      exact hj ▸ hv
    · exact h j c' v' hg

theorem Holds.prune (h : a.Holds P) (n bound : ℕ) : (a.prune n bound).Holds P := by
  rw [Archive.prune]
  split_ifs with hbn
  · exact h
  · intro i c v hg
    rw [get?_filter] at hg
    exact h i c v (filter_eq_some_iff.1 hg).1

theorem Holds.pruneArchive (h : a.Holds P) (section? : Option ℕ) (height : ℕ) :
    (pruneArchive section? a height).Holds P := by
  cases section? with
  | none => exact h
  | some n => exact h.prune n height

theorem Holds.get (h : a.Holds P) {i : ℕ} (hg : a.get i = some v) : ∃ c, P i c v := by
  obtain ⟨⟨c, w⟩, hit, rfl⟩ := map_eq_some_iff.1 hg
  exact ⟨c, h i c w hit⟩

theorem Holds.getKey [DecidableEq C] (h : a.Holds P) {c : C}
    (hg : a.getKey c = some v) : ∃ i, P i c v := by
  obtain ⟨⟨c', w⟩, hf, rfl⟩ := map_eq_some_iff.1 hg
  have hky : c' = c := by simpa using List.find?_some hf
  obtain ⟨i, hi⟩ := (mem_values_iff _).1 (mem_of_find?_eq_some hf)
  exact ⟨i, hky ▸ h i c' w hi⟩

end Archive

/-! ### Caches -/

section

variable (T : BlockTree B C) (final : Finalization C Cert → Prop)

/-- The blocks of the cache have the commitments they are stored under, and so do the
finalizations, which are real ones. -/
structure EpochCache.Ok (e : EpochCache B C Cert) : Prop where
  verified : e.verifiedBlocks.Holds fun _ c b => T.commitment b = c
  notarized : e.notarizedBlocks.Holds fun _ c b => T.commitment b = c
  finalizations : e.finalizations.Holds fun _ c f => final f ∧ f.proposal.payload = c

structure Cache.Ok (c : Cache B C Cert) : Prop where
  caches : ∀ epoch e, c.caches.get? epoch = some e → e.Ok T final
  closed : ∀ epoch e, c.closed.get? epoch = some e → e.Ok T final

variable {T final} {c : Cache B C Cert}

theorem EpochCache.Ok.empty : (EpochCache.empty : EpochCache B C Cert).Ok T final :=
  ⟨Archive.Holds.empty, Archive.Holds.empty, Archive.Holds.empty⟩

variable {e : EpochCache B C Cert}

theorem EpochCache.Ok.prune (h : e.Ok T final) (n view : ℕ) : (e.prune n view).Ok T final :=
  ⟨h.verified.prune n view, h.notarized.prune n view, h.finalizations.prune n view⟩

theorem EpochCache.Ok.reopen (h : e.Ok T final) : e.reopen.Ok T final :=
  { h with }

theorem Cache.Ok.getOrInitEpoch (h : c.Ok T final) {epoch : ℕ} {c' : Cache B C Cert}
    (hg : c.getOrInitEpoch epoch = some (e, c')) : e.Ok T final ∧ c'.Ok T final := by
  rw [Cache.getOrInitEpoch] at hg
  cases hop : c.caches.get? epoch with
  | some cache =>
    simp only [hop, Option.some.injEq, Prod.mk.injEq] at hg
    obtain ⟨rfl, rfl⟩ := hg
    exact ⟨h.caches epoch _ hop, h⟩
  | none =>
    simp only [hop] at hg
    split_ifs at hg with hf
    simp only [Option.some.injEq, Prod.mk.injEq] at hg
    obtain ⟨rfl, rfl⟩ := hg
    have hcc : ((c.closed.get? epoch).getD EpochCache.empty).Ok T final := by
      cases hcl : c.closed.get? epoch with
      | none => exact EpochCache.Ok.empty
      | some e => exact h.closed epoch e hcl
    refine ⟨hcc, fun i e hi => ?_, fun i e hi => ?_⟩
    · rw [get?_insert] at hi
      split_ifs at hi
      · cases hi
        exact hcc
      · exact h.caches i e hi
    · rw [get?_erase] at hi
      split_ifs at hi
      exact h.closed i e hi

theorem Cache.Ok.update (h : c.Ok T final) (epoch : ℕ)
    {f : EpochCache B C Cert → EpochCache B C Cert} (hf : ∀ e, e.Ok T final → (f e).Ok T final) :
    (c.update epoch f).Ok T final := by
  rw [Cache.update]
  cases hg : c.getOrInitEpoch epoch with
  | none => exact h
  | some r =>
    obtain ⟨he, hc⟩ := h.getOrInitEpoch hg
    refine ⟨fun i e hi => ?_, hc.closed⟩
    rw [get?_insert] at hi
    split_ifs at hi
    · cases hi
      exact hf _ he
    · exact hc.caches i e hi

theorem Cache.Ok.prune (h : c.Ok T final) (n : ℕ) (round : Rnd) : (c.prune n round).Ok T final := by
  refine ⟨fun i e hi => ?_, h.closed⟩
  have hkp : ∀ j e', (c.caches.filter fun epoch _ => decide (round.epoch ≤ epoch)).get? j =
      some e' → e'.Ok T final := by
    intro j e' hj
    rw [get?_filter] at hj
    exact h.caches j e' (filter_eq_some_iff.1 hj).1
  simp only [Cache.prune, get?_modify] at hi
  split_ifs at hi
  · obtain ⟨old, hol, rfl⟩ := map_eq_some_iff.1 hi
    exact (hkp _ old hol).prune n round.view
  · exact hkp i e hi

theorem Cache.Ok.reopen (h : c.Ok T final) : c.reopen.Ok T final := by
  have hop : ∀ epoch e, c.reopen.caches.get? epoch = some e → e.Ok T final := by
    intro epoch e he
    cases he
  refine ⟨hop, ?_⟩
  rw [Cache.reopen]
  simp only
  have het : ∀ entry ∈ c.caches.entries, entry.2.Ok T final := fun entry her =>
    h.caches entry.1 entry.2 ((mem_entries_iff _).1 her)
  have hcl := h.closed
  -- the open caches are closed one after the other
  generalize c.caches.entries = l at het
  generalize c.closed = m at hcl
  induction l generalizing m with
  | nil => exact hcl
  | cons entry l ih =>
    refine ih (fun e he => het e (mem_cons_of_mem _ he)) _ fun i e hi => ?_
    rw [get?_insert] at hi
    split_ifs at hi
    · cases hi
      exact (het entry mem_cons_self).reopen
    · exact hcl i e hi

section

variable [DecidableEq C] {commitment : C}

theorem Cache.Ok.findBlock (h : c.Ok T final) {b : B}
    (hf : c.findBlock commitment = some b) : T.commitment b = commitment := by
  obtain ⟨e, he, hb⟩ := exists_of_findSome?_eq_some hf
  obtain ⟨epoch, hep⟩ := (mem_values_iff _).1 (mem_reverse.1 he)
  have hok := h.caches epoch e hep
  rcases or_eq_some_iff.1 hb with hv | ⟨-, hn⟩
  · obtain ⟨-, hb'⟩ := hok.verified.getKey hv
    exact hb'
  · obtain ⟨-, hb'⟩ := hok.notarized.getKey hn
    exact hb'

theorem Cache.Ok.getFinalizationFor (h : c.Ok T final)
    {f : Finalization C Cert} (hfn : c.getFinalizationFor commitment = some f) :
    final f ∧ f.proposal.payload = commitment := by
  obtain ⟨e, he, hf⟩ := exists_of_findSome?_eq_some hfn
  obtain ⟨epoch, hep⟩ := (mem_values_iff _).1 (mem_reverse.1 he)
  obtain ⟨-, hf'⟩ := (h.caches epoch e hep).finalizations.getKey hf
  exact hf'

end

end

/-! ### Logs -/

section

variable (cfg : Config B C Sig Cert PK) (final : Finalization C Cert → Prop)

/-- A block with a finalization of its own. -/
def Finalized (b : B) : Prop := ∃ f, final f ∧ f.proposal.payload = cfg.tree.commitment b

/-- A block that is finalized, or an ancestor of one. -/
def Chain (b : B) : Prop := cfg.tree.OnChain (Finalized cfg final) b

/-- What is assumed: commitments are free of collisions, a block is one higher than its parent, no
two finalized blocks are in conflict, and a finalization that verifies is a real one. -/
structure Consensus : Prop where
  wellFormed : cfg.tree.WellFormed
  consistent : cfg.tree.Consistent (Finalized cfg final)
  verified : ∀ epoch scheme f, Actor.getSchemeCertificateVerifier cfg epoch = some scheme →
    (Simplex.Certificate.finalization f).verify scheme cfg.ns = true → final f

/-- Consensus, with no finalized block at the last height. -/
structure Settled : Prop extends Consensus cfg final where
  short : ∀ b, Finalized cfg final b → cfg.tree.height b < u64Max

def EntryOk : Entry B C Cert → Prop
  | .block b => Chain cfg final b
  | .cacheVerified _ c b => cfg.tree.commitment b = c
  | .cacheBlock _ c b => cfg.tree.commitment b = c
  | .cacheFinalization _ c f => final f ∧ f.proposal.payload = c
  | _ => True

structure StorageOk (s : Storage B C Cert) : Prop where
  blocks : s.blocks.Holds fun i _ b => cfg.tree.height b = i ∧ Chain cfg final b
  keys : s.blocks.Holds fun _ c b => cfg.tree.commitment b = c
  cache : s.cache.Ok cfg.tree final

variable {cfg final} {entry : Entry B C Cert}

theorem StorageOk.apply {s : Storage B C Cert} (h : StorageOk cfg final s)
    (he : EntryOk cfg final entry) : StorageOk cfg final (s.apply cfg entry) := by
  cases entry with
  | processed height c | floor height | finalization height c f | pruneFinalizations height =>
    exact { h with }
  | block b => exact ⟨h.blocks.put ⟨rfl, he⟩, h.keys.put rfl, h.cache⟩
  | pruneBlocks height =>
    exact ⟨h.blocks.pruneArchive _ height, h.keys.pruneArchive _ height, h.cache⟩
  | cacheVerified round c b =>
    exact { h with cache := h.cache.update _ fun e hok =>
      { hok with verified := hok.verified.put he } }
  | cacheBlock round c b =>
    exact { h with cache := h.cache.update _ fun e hok =>
      { hok with notarized := hok.notarized.put he } }
  | cacheNotarization round c n =>
    exact { h with cache := h.cache.update _ fun e hok => { hok with } }
  | cacheFinalization round c f =>
    exact { h with cache := h.cache.update _ fun e hok =>
      { hok with finalizations := hok.finalizations.put he } }
  | pruneCache round => exact ⟨h.blocks, h.keys, h.cache.prune _ round⟩
  | reportedBlock | reportedTip => exact h
  | restarted => exact ⟨h.blocks, h.keys, h.cache.reopen⟩

theorem stored_snoc (log : List (Entry B C Cert)) (entry : Entry B C Cert) :
    stored cfg (log ++ [entry]) = (stored cfg log).apply cfg entry := by
  simp [stored]

variable {log : List (Entry B C Cert)}

/-- The stores hold what the entries of the log may write. -/
theorem storageOk_stored (h : ∀ entry ∈ log, EntryOk cfg final entry) :
    StorageOk cfg final (stored cfg log) := by
  induction log using List.reverseRecOn with
  | nil =>
    refine ⟨Archive.Holds.empty, Archive.Holds.empty, ?_, ?_⟩
    · intro epoch e he
      cases he
    · intro epoch e he
      cases he
  | append_singleton log entry ih =>
    rw [stored_snoc]
    exact (ih fun e he => h e (mem_append_left _ he)).apply (h entry (by simp))

theorem notices_append (l l' : List (Entry B C Cert)) :
    notices (l ++ l') = notices l ++ notices l' := filterMap_append

theorem notices_snoc (log : List (Entry B C Cert)) (entry : Entry B C Cert) :
    notices (log ++ [entry]) = notices log ++ entry.notice.toList := by
  cases hn : entry.notice <;> simp [notices, hn]

variable [DecidableEq C] {d : Delivery.State B C}

theorem height_eq_metadata
    (h : Delivery.run cfg.tree (notices log) = some d) :
    d.height = (stored cfg log).metadata.getD 0 := by
  induction log using List.reverseRecOn generalizing d with
  | nil =>
    cases h
    rfl
  | append_singleton log entry ih =>
    rw [notices_snoc, Delivery.run_append] at h
    obtain ⟨d₀, hd₀, h⟩ := bind_eq_some_iff.1 h
    have hol := ih hd₀
    rw [stored_snoc]
    cases entry with
    | processed height c =>
      obtain ⟨_, hst, ⟨⟩⟩ := bind_eq_some_iff.1 h
      obtain ⟨b, -, -, -, rfl⟩ := Delivery.processed_spec hst
      rfl
    | floor height =>
      obtain ⟨_, hst, ⟨⟩⟩ := bind_eq_some_iff.1 h
      rw [Delivery.step] at hst
      split_ifs at hst
      cases hst
      rfl
    | reportedBlock b =>
      obtain ⟨_, hst, ⟨⟩⟩ := bind_eq_some_iff.1 h
      obtain ⟨-, -, -, rfl⟩ := Delivery.reported_spec hst
      exact hol
    | _ =>
      cases h
      exact hol

variable (cfg final) in
/-- What the application has seen is in order, and on the chain. -/
structure Delivered (log : List (Entry B C Cert)) (d : Delivery.State B C) : Prop where
  run : Delivery.run cfg.tree (notices log) = some d
  last : ∀ c, d.last = some c →
    ∃ b, Chain cfg final b ∧ cfg.tree.commitment b = c ∧ cfg.tree.height b = d.height
  pending : ∀ b, d.pending = some b → Chain cfg final b

variable (cfg final) in
def Good (log : List (Entry B C Cert)) : Prop :=
  (∀ entry ∈ log, EntryOk cfg final entry) ∧ ∃ d, Delivered cfg final log d

variable {log : List (Entry B C Cert)}

/-- An entry that the application does not see. -/
theorem Delivered.quiet (h : Delivered cfg final log d)
    (hq : entry.notice = none) : Delivered cfg final (log ++ [entry]) d := by
  refine ⟨?_, h.last, h.pending⟩
  rw [notices_snoc, hq, toList_none, append_nil]
  exact h.run

/-- An entry that the application sees, and accepts. -/
theorem Delivered.snoc {d' : Delivery.State B C} (h : Delivered cfg final log d)
    {notice : Delivery.Notice B C} (hnt : entry.notice = some notice)
    (hst : Delivery.step cfg.tree d notice = some d') (hls : ∀ c, d'.last = some c →
      ∃ b, Chain cfg final b ∧ cfg.tree.commitment b = c ∧ cfg.tree.height b = d'.height)
    (hpn : ∀ b, d'.pending = some b → Chain cfg final b) :
    Delivered cfg final (log ++ [entry]) d' := by
  refine ⟨?_, hls, hpn⟩
  rw [notices_snoc, hnt, toList_some, Delivery.run_snoc, h.run]
  exact hst

omit [DecidableEq C] in
theorem entriesOk_snoc (h : ∀ e ∈ log, EntryOk cfg final e)
    (he : EntryOk cfg final entry) : ∀ e ∈ log ++ [entry], EntryOk cfg final e := by
  intro e hmem
  rcases mem_append.1 hmem with hol | hnw
  · exact h e hol
  · rw [mem_singleton.1 hnw]
    exact he

/-! ### The invariant of the actor -/

namespace Actor

variable (cfg final) in
structure Inv (a : Actor B C Cert) : Prop where
  entries : ∀ entry ∈ a.log, EntryOk cfg final entry
  delivered : ∃ d, Delivered cfg final a.log d ∧ a.lastProcessedHeight = d.height ∧
    a.pendingAck = d.pending.map fun b => (cfg.tree.height b, cfg.tree.commitment b)
  requests : ∀ c, .block c ∈ a.requests → ∀ b, cfg.tree.commitment b = c → Chain cfg final b

variable {a : Actor B C Cert}

theorem Inv.good (h : Inv cfg final a) : Good cfg final a.log := by
  obtain ⟨d, hd, -, -⟩ := h.delivered
  exact ⟨h.entries, d, hd⟩

variable (cfg final) in
def promise : Promise (Actor B C Cert) (Entry B C Cert) where
  log := Actor.log
  Inv := Inv cfg final
  Safe := Good cfg final
  safe := fun _ h => h.good

theorem Inv.storage (h : Inv cfg final a) : StorageOk cfg final (a.storage cfg) :=
  storageOk_stored h.entries

theorem Inv.write (h : Inv cfg final a) (entry : Entry B C Cert) (he : EntryOk cfg final entry)
    (hq : entry.notice = none) : Inv cfg final (a.write entry) := by
  obtain ⟨d, hd, hh, hpn⟩ := h.delivered
  exact ⟨entriesOk_snoc h.entries he, ⟨d, hd.quiet hq, hh, hpn⟩, h.requests⟩

theorem write_keeps (h : Inv cfg final a) (entry : Entry B C Cert) (he : EntryOk cfg final entry)
    (hq : entry.notice = none) :
    (promise cfg final).Keeps (F := Fault) id a (.ok (a.write entry)) :=
  ⟨h.write entry he hq, (Throughout.refl h.good).snoc (h.write entry he hq).good⟩

theorem Inv.request (h : Inv cfg final a) {r : Request C}
    (hr : ∀ c, r = .block c → ∀ b, cfg.tree.commitment b = c → Chain cfg final b) :
    Inv cfg final (a.request r) := by
  refine ⟨h.entries, h.delivered, fun c hc b hb => ?_⟩
  rcases mem_append.1 hc with hol | hnw
  · exact h.requests c hol b hb
  · exact hr c (mem_singleton.1 hnw).symm b hb

/-! ### Reports -/

section

variable (settled : Settled cfg final)

include settled

theorem tryDispatchBlock_keeps (h : Inv cfg final a) :
    (promise cfg final).Keeps id a (a.tryDispatchBlock cfg) := by
  rw [tryDispatchBlock]
  split_ifs with hw
  · exact .of_inv h rfl
  · simp only
    cases hbl : (a.storage cfg).blocks.get (min (a.lastProcessedHeight + 1) u64Max) with
    | none => exact .of_inv h rfl
    | some b =>
      simp only
      obtain ⟨-, hh, hch⟩ := h.storage.blocks.get hbl
      rw [if_neg (not_not.2 hh)]
      obtain ⟨d, hd, hpr, hpn⟩ := h.delivered
      -- the height is not the last one, so that it is the next one
      have hlt := hch.height_lt settled.wellFormed settled.short
      have hnx : cfg.tree.height b = d.height + 1 := by omega
      have hid : d.pending = none := by
        cases hp : d.pending with
        | none => rfl
        | some b' =>
          rw [hpn, hp] at hw
          exact absurd rfl hw
      have hpt : ∀ c, d.last = some c → cfg.tree.parent b = c := by
        intro c hc
        obtain ⟨p, hp, rfl, hph⟩ := hd.last c hc
        exact (BlockTree.OnChain.isParent settled.wellFormed settled.consistent hp hch
          (by omega)).symm
      have hst : Delivery.step cfg.tree d (.reported b) = some { d with pending := some b } := by
        rw [Delivery.step, if_pos]
        refine ⟨by rw [hid]; rfl, hnx, ?_⟩
        cases hl : d.last with
        | none => rfl
        | some c => exact decide_eq_true (hpt c hl)
      have hd' : Delivered cfg final (a.log ++ [.reportedBlock b]) { d with pending := some b } := by
        refine hd.snoc rfl hst hd.last fun b' hb' => ?_
        cases hb'
        exact hch
      have hin : Inv cfg final { a.write (.reportedBlock b) with
          pendingAck := some (cfg.tree.height b, cfg.tree.commitment b) } :=
        ⟨entriesOk_snoc h.entries trivial, ⟨_, hd', hpr, rfl⟩, h.requests⟩
      exact ⟨hin, (Throughout.refl h.good).snoc hin.good⟩

variable {commitment : C}

/-- An acknowledgement raises the processed height to that of the block that waits. -/
theorem ack_keeps (h : Inv cfg final a) {height : ℕ}
    (hw : a.pendingAck = some (height, commitment)) : (promise cfg final).Keeps id a
      (({ a with pendingAck := none }.handleBlockProcessed cfg height commitment).tryDispatchBlock
        cfg) := by
  obtain ⟨d, hd, hpc, hpn⟩ := h.delivered
  rw [hw] at hpn
  obtain ⟨b, hb, hbq⟩ := map_eq_some_iff.1 hpn.symm
  obtain ⟨rfl, rfl⟩ := Prod.mk.injEq .. ▸ hbq
  have hst : Delivery.step cfg.tree d
      (.processed (cfg.tree.height b) (cfg.tree.commitment b)) =
        some ⟨cfg.tree.height b, some (cfg.tree.commitment b), none⟩ := by
    rw [Delivery.step, hb]
    exact if_pos ⟨rfl, rfl⟩
  have hd' : Delivered cfg final
      (a.log ++ [.processed (cfg.tree.height b) (cfg.tree.commitment b)])
      ⟨cfg.tree.height b, some (cfg.tree.commitment b), none⟩ := by
    refine hd.snoc rfl hst (fun c hc => ?_) (fun b' hb' => ?_)
    · cases hc
      exact ⟨b, hd.pending b hb, rfl, rfl⟩
    · cases hb'
  -- the state after the metadata is written
  have hin : Inv cfg final
      { ({ a with pendingAck := none } : Actor B C Cert).write
        (.processed (cfg.tree.height b) (cfg.tree.commitment b)) with
        lastProcessedHeight := cfg.tree.height b } :=
    ⟨entriesOk_snoc h.entries trivial, ⟨_, hd', rfl, rfl⟩, h.requests⟩
  have ht := (Throughout.refl h.good).snoc hin.good
  rw [handleBlockProcessed]
  simp only
  split
  · exact (tryDispatchBlock_keeps settled hin).after ht
  · have hpr := hin.write (.pruneCache ⟨a.lastProcessedRound.epoch,
      a.lastProcessedRound.view - cfg.viewRetentionTimeout⟩) trivial rfl
    refine (tryDispatchBlock_keeps settled ?_).after (ht.snoc hpr.good)
    exact { hpr with }

/-! ### Storing blocks -/

variable {b : B}

omit settled in
theorem putBlock_keeps (h : Inv cfg final a) (hb : Chain cfg final b) :
    (promise cfg final).Keeps id a (a.putBlock cfg b) := by
  rw [putBlock]
  split
  · exact .halt h rfl
  · exact write_keeps h _ hb rfl

omit settled in
theorem putFinalization_keeps (h : Inv cfg final a) (height : ℕ) (commitment : C)
    (f : Option (Finalization C Cert)) :
    (promise cfg final).Keeps id a (a.putFinalization cfg height commitment f) := by
  cases f with
  | none => exact .of_inv h rfl
  | some f =>
    rw [putFinalization]
    split
    · exact .halt h rfl
    · exact write_keeps h _ trivial rfl

theorem report_keeps (h : Inv cfg final a) (height : ℕ) (commitment : C) :
    (promise cfg final).Keeps id a
      ((if a.tip < height then { a.write (.reportedTip height commitment) with tip := height }
        else a).tryDispatchBlock cfg) := by
  split_ifs with ht
  · have hw := h.write (.reportedTip height commitment) trivial rfl
    refine (tryDispatchBlock_keeps settled ?_).after
      ((Throughout.refl h.good).snoc hw.good)
    exact { hw with }
  · exact tryDispatchBlock_keeps settled h

variable (env : Env cfg.tree)

theorem storeFinalization_keeps (h : Inv cfg final a) (height : ℕ) (commitment : C)
    (hb : Chain cfg final b) (f : Option (Finalization C Cert)) :
    (promise cfg final).Keeps id a (a.storeFinalization cfg env height commitment b f) := by
  rw [storeFinalization]
  split_ifs with hf
  · refine (putFinalization_keeps h height commitment f).bind fun a₁ h₁ => ?_
    refine (putBlock_keeps h₁ hb).bind fun a₂ h₂ => ?_
    exact report_keeps settled h₂ height commitment
  · refine (putBlock_keeps h hb).bind fun a₁ h₁ => ?_
    refine (putFinalization_keeps h₁ height commitment f).bind fun a₂ h₂ => ?_
    exact report_keeps settled h₂ height commitment

omit settled in
/-- A block that is found has the commitment that was looked for. -/
theorem Inv.findBlock (h : Inv cfg final a) {env : Env cfg.tree}
    (hf : a.findBlock cfg env commitment = some b) : cfg.tree.commitment b = commitment := by
  rcases or_eq_some_iff.1 hf with hnr | ⟨-, hst⟩
  · rcases or_eq_some_iff.1 hnr with hbf | ⟨-, hcc⟩
    · exact env.buffer_commitment commitment b hbf
    · exact h.storage.cache.findBlock hcc
  · obtain ⟨-, hky⟩ := h.storage.keys.getKey hst
    exact hky

/-- The parents of a block of the chain are stored, or asked for. -/
theorem repairBackwards_keeps (gapStart rounds : ℕ) (h : Inv cfg final a) {cursor : B}
    (hcr : Chain cfg final cursor) :
    (promise cfg final).Keeps Prod.fst a (repairBackwards cfg env gapStart rounds a cursor) := by
  induction rounds generalizing a cursor with
  | zero => exact .of_inv h rfl
  | succ rounds ih =>
    rw [repairBackwards]
    split_ifs with hg
    · simp only
      cases hf : a.findBlock cfg env (cfg.tree.parent cursor) with
      | some b =>
        have hb : Chain cfg final b := hcr.parent (h.findBlock hf)
        have hst := storeFinalization_keeps settled env h (cfg.tree.height b)
          (cfg.tree.parent cursor) hb
          ((a.storage cfg).cache.getFinalizationFor (cfg.tree.parent cursor))
        exact hst.bind fun a' h' => ih h' hb
      | none =>
        refine .of_inv (h.request fun c hc b hb => ?_) rfl
        cases hc
        exact hcr.parent hb
    · exact .of_inv h rfl

theorem repairGaps_keeps (start rounds : ℕ) (h : Inv cfg final a) :
    (promise cfg final).Keeps id a (repairGaps cfg env start rounds a) := by
  induction rounds generalizing a with
  | zero => exact .of_inv h rfl
  | succ rounds ih =>
    rw [repairGaps]
    split
    · exact .of_inv h rfl
    · rename_i gapStart gapEnd hg
      cases hcr : (a.storage cfg).blocks.get gapEnd with
      | none => exact .halt h rfl
      | some cursor =>
        obtain ⟨-, -, hch⟩ := h.storage.blocks.get hcr
        refine (repairBackwards_keeps settled env _ env.rounds h hch).bind
          fun r hr => ?_
        simp only
        split_ifs with hrp
        · exact ih hr
        · refine .of_inv ⟨hr.entries, hr.delivered, fun c hc b hb => ?_⟩ rfl
          -- only finalizations of heights are asked for here
          rcases mem_append.1 hc with hol | hnw
          · exact hr.requests c hol b hb
          · obtain ⟨height, -, heq⟩ := mem_map.1 hnw
            cases heq

theorem finalize_keeps (h : Inv cfg final a) (height : ℕ) (commitment : C) (hb : Chain cfg final b)
    (f : Option (Finalization C Cert)) :
    (promise cfg final).Keeps id a (a.finalize cfg env height commitment b f) :=
  (storeFinalization_keeps settled env h height commitment hb f).bind fun _ h' =>
    repairGaps_keeps settled env _ _ h'

/-! ### Events -/

variable {f : Finalization C Cert}

omit [DecidableEq C] settled in
theorem chain_of_finalized (hf : final f)
    (hb : cfg.tree.commitment b = f.proposal.payload) : Chain cfg final b :=
  BlockTree.OnChain.of_final ⟨f, hf, hb.symm⟩

omit settled in
theorem setFloor_keeps (h : Inv cfg final a) (height : ℕ) :
    (promise cfg final).Keeps (F := Fault) id a (.ok (a.setFloor cfg height)) := by
  rw [setFloor]
  split_ifs with hl
  · exact .of_inv h rfl
  · obtain ⟨d, hd, hpr, -⟩ := h.delivered
    have hle : d.height ≤ height := by
      rw [height_eq_metadata hd.run]
      change ¬ ((stored cfg a.log).metadata.any fun s => decide (height ≤ s)) = true at hl
      cases hm : (stored cfg a.log).metadata with
      | none => exact Nat.zero_le _
      | some s =>
        rw [hm] at hl
        have : ¬ height ≤ s := fun hs => hl (decide_eq_true hs)
        exact Nat.le_of_not_le this
    have hd' : Delivered cfg final (a.log ++ [.floor height]) ⟨height, none, none⟩ := by
      refine hd.snoc rfl (if_pos hle) (fun c hc => ?_) (fun b hb => ?_)
      · cases hc
      · cases hb
    have hin : Inv cfg final { a.write (.floor height) with
        lastProcessedHeight := height
        pendingAck := none } :=
      ⟨entriesOk_snoc h.entries trivial, ⟨_, hd', rfl, rfl⟩, h.requests⟩
    have hbl := hin.write (.pruneBlocks height) trivial rfl
    have ha := hbl.write (.pruneFinalizations height) trivial rfl
    exact ⟨ha, (((Throughout.refl h.good).snoc hin.good).snoc hbl.good).snoc ha.good⟩

omit settled in
theorem handleNotarization_keeps (env : Env cfg.tree) (h : Inv cfg final a)
    (n : Notarization C Cert) :
    (promise cfg final).Keeps (F := Fault) id a (.ok (a.handleNotarization cfg env n)) := by
  have hcc := h.write
    (.cacheNotarization n.proposal.round n.proposal.payload n) trivial rfl
  have ht := (Throughout.refl h.good).snoc hcc.good
  rw [handleNotarization]
  split
  · rename_i b hf
    have hbl := write_keeps hcc
      (.cacheBlock n.proposal.round n.proposal.payload b) (hcc.findBlock hf) rfl
    exact hbl.after ht
  · refine .after (.of_inv (hcc.request fun c hc => ?_) rfl) ht
    cases hc

theorem handleFinalization_keeps (h : Inv cfg final a) (hf : final f) :
    (promise cfg final).Keeps id a (a.handleFinalization cfg env f) := by
  have hcc := h.write
    (.cacheFinalization f.proposal.round f.proposal.payload f) ⟨hf, rfl⟩ rfl
  have ht := (Throughout.refl h.good).snoc hcc.good
  rw [handleFinalization]
  split
  · rename_i b hfn
    have hb := chain_of_finalized hf (hcc.findBlock hfn)
    exact (finalize_keeps settled env hcc _ _ hb _).after ht
  · refine .after (.of_inv (hcc.request fun c hc b hb => ?_) rfl)
      ht
    cases hc
    exact chain_of_finalized hf hb

theorem deliverBlock_keeps (h : Inv cfg final a) (b : B) (hrq : .block commitment ∈ a.requests) :
    (promise cfg final).Keeps id a (a.deliverBlock cfg env commitment b) := by
  rw [deliverBlock]
  split_ifs with hcm
  · exact .of_inv h rfl
  · have hb := h.requests commitment hrq b (not_not.1 hcm)
    exact finalize_keeps settled env h _ _ hb _

theorem deliverFinalized_keeps (h : Inv cfg final a) (height : ℕ) (value : Finalization C Cert × B) :
    (promise cfg final).Keeps id a (a.deliverFinalized cfg env height value) := by
  obtain ⟨f, b⟩ := value
  rw [deliverFinalized]
  cases hsc : (cfg.containing height).bind (getSchemeCertificateVerifier cfg) with
  | none => exact .of_inv h rfl
  | some scheme =>
    obtain ⟨epoch, -, he⟩ := bind_eq_some_iff.1 hsc
    simp only
    split_ifs with hin
    · exact .of_inv h rfl
    · simp only [not_or, not_not, Bool.not_eq_true, Bool.not_eq_false'] at hin
      have hf := settled.verified epoch scheme f he hin.2.2
      have hb := chain_of_finalized hf hin.2.1.symm
      exact finalize_keeps settled env h _ _ hb _

theorem deliverNotarized_keeps (h : Inv cfg final a) (round : Rnd) (value : Notarization C Cert × B) :
    (promise cfg final).Keeps id a (a.deliverNotarized cfg env round value) := by
  obtain ⟨n, b⟩ := value
  rw [deliverNotarized]
  cases getSchemeCertificateVerifier cfg round.epoch with
  | none => exact .of_inv h rfl
  | some scheme =>
    simp only
    split_ifs with hin
    · exact .of_inv h rfl
    · -- the block and its notarization are cached last
      have hcc : ∀ a', Inv cfg final a' → (promise cfg final).Keeps (F := Fault) id a'
          (.ok ((a'.write (.cacheBlock round (cfg.tree.commitment b) b)).write
            (.cacheNotarization round (cfg.tree.commitment b) n))) := by
        intro a' h'
        have hbl := h'.write (.cacheBlock round (cfg.tree.commitment b) b) rfl rfl
        have ha := write_keeps hbl
          (.cacheNotarization round (cfg.tree.commitment b) n) trivial rfl
        exact ha.after ((Throughout.refl h'.good).snoc hbl.good)
      split
      · rename_i f hfn
        obtain ⟨hf, hpy⟩ := h.storage.cache.getFinalizationFor hfn
        have hb := chain_of_finalized hf hpy.symm
        exact (finalize_keeps settled env h _ _ hb _).bind hcc
      · exact hcc a h

end

variable (cfg final) in
/-- Consensus passes on finalizations that are real ones. -/
def Issued : Event B C Cert cfg.tree → Prop
  | .finalization f _ => final f
  | _ => True

theorem handle_keeps (settled : Settled cfg final) (h : Inv cfg final a)
    {event : Event B C Cert cfg.tree} (hev : Issued cfg final event) :
    (promise cfg final).Keeps id a (a.handle cfg event) := by
  cases event with
  | ack ok =>
    rw [handle]
    split
    · exact .of_inv h rfl
    · rename_i height commitment hw
      split_ifs with hok
      · exact ack_keeps settled h hw
      · exact .halt h rfl
  | proposed round b | verified round b => exact write_keeps h _ rfl rfl
  | notarization n env => exact handleNotarization_keeps env h n
  | finalization f env => exact handleFinalization_keeps settled env h hev
  | hintFinalized height =>
    rw [handle, hintFinalized]
    split_ifs with hl
    · exact .of_inv h rfl
    · split
      · exact .of_inv h rfl
      · exact .of_inv (h.request fun c hc => by cases hc) rfl
  | subscribe round commitment env =>
    rw [handle, subscribe.eq_def]
    split
    · exact .of_inv h rfl
    · exact .of_inv h rfl
    · simp only
      split_ifs with hl
      · exact .of_inv h rfl
      · exact .of_inv (h.request fun c hc => by cases hc) rfl
  | setFloor height => exact setFloor_keeps h height
  | deliverBlock commitment value env =>
    cases value with
    | none => exact .of_inv h rfl
    | some b =>
      rw [handle]
      split_ifs with hrq
      · exact deliverBlock_keeps settled env h b hrq
      · exact .of_inv h rfl
  | deliverFinalized height value env =>
    cases value with
    | none => exact .of_inv h rfl
    | some value =>
      rw [handle]
      split_ifs with hrq
      · exact deliverFinalized_keeps settled env h height value
      · exact .of_inv h rfl
  | deliverNotarized round value env =>
    cases value with
    | none => exact .of_inv h rfl
    | some value =>
      rw [handle]
      split_ifs with hrq
      · exact deliverNotarized_keeps settled env h round value
      · exact .of_inv h rfl

/-! ### Starting -/

variable {log : List (Entry B C Cert)}

/-- A good log gives the invariant to the actor that is started on it. -/
theorem init_inv (h : Good cfg final log) : Inv cfg final (init cfg log) := by
  obtain ⟨het, d, hd⟩ := h
  have hd' : Delivered cfg final (log ++ [.restarted]) { d with pending := none } := by
    refine hd.snoc rfl rfl hd.last fun b hb => ?_
    cases hb
  refine ⟨entriesOk_snoc het trivial, ⟨_, hd', ?_, rfl⟩, fun c hc => ?_⟩
  · exact (height_eq_metadata hd'.run).symm
  · cases hc

theorem start_keeps (settled : Settled cfg final) (env : Env cfg.tree) (h : Good cfg final log) :
    (promise cfg final).Keeps id (init cfg log) (start cfg env log) := by
  have hin := init_inv h
  rw [start]
  simp only
  split
  · exact (tryDispatchBlock_keeps settled hin).bind fun a' h' =>
      repairGaps_keeps settled env _ _ h'
  · rename_i height commitment f hls
    have htp := hin.write (.reportedTip height f.proposal.payload) trivial rfl
    have hiv : Inv cfg final { (init cfg log).write (.reportedTip height f.proposal.payload) with
        tip := height } := { htp with }
    have ht : Throughout (promise cfg final).Safe (init cfg log).log _ :=
      (Throughout.refl hin.good).snoc htp.good
    exact .after ((tryDispatchBlock_keeps settled hiv).bind fun a' h' =>
      repairGaps_keeps settled env _ _ h') ht

end Actor

theorem good_nil : Good cfg final [] := by
  refine ⟨fun entry he => ?_, _, rfl, fun c hc => ?_, fun b hb => ?_⟩
  · cases he
  · cases hc
  · cases hb

variable {log : List (Entry B C Cert)}

/-- **Every log that a run leaves is good**, and a running actor has its invariant. -/
theorem Reach.good (settled : Settled cfg final) {actor : Option (Actor B C Cert)}
    (run : Reach cfg (Actor.Issued cfg final) log actor) :
    Good cfg final log ∧ ∀ a, actor = some a → a.log = log ∧ Actor.Inv cfg final a := by
  induction run with
  | empty =>
    refine ⟨good_nil, fun a ha => ?_⟩
    cases ha
  | @start log old env a run h ih =>
    have hkeeps := Actor.start_keeps settled env ih.1
    rw [h] at hkeeps
    refine ⟨hkeeps.1.good, fun a' ha' => ?_⟩
    cases ha'
    exact ⟨rfl, hkeeps.1⟩
  | @startCrash log log' old env run before after ih =>
    have ht := (Actor.start_keeps settled env ih.1).throughout
    exact ⟨ht.holds log' before after, fun a' ha' => by cases ha'⟩
  | @handle log a a' event run allowed h ih =>
    obtain ⟨rfl, hin⟩ := ih.2 a rfl
    have hkeeps := Actor.handle_keeps settled hin allowed
    rw [h] at hkeeps
    refine ⟨hkeeps.1.good, fun a'' ha'' => ?_⟩
    cases ha''
    exact ⟨rfl, hkeeps.1⟩
  | @crash log log' a event run allowed before after ih =>
    obtain ⟨rfl, hin⟩ := ih.2 a rfl
    have ht := (Actor.handle_keeps settled hin allowed).throughout
    exact ⟨ht.holds log' before after, fun a' ha' => by cases ha'⟩

theorem Reach.events {Allowed : Actor.Event B C Cert cfg.tree → Prop} {a a' : Actor B C Cert}
    {events : List (Actor.Event B C Cert cfg.tree)} (run : Reach cfg Allowed log (some a))
    (allowed : ∀ event ∈ events, Allowed event) (h : events.foldlM (Actor.handle cfg) a = .ok a') :
    ∃ log', Reach cfg Allowed log' (some a') := by
  refine foldlM_keeps (P := fun a => ∃ log, Reach cfg Allowed log (some a)) (fun he run hst => ?_)
    ⟨log, run⟩ h
  obtain ⟨log, run⟩ := run
  exact ⟨_, .handle run (allowed _ he) hst⟩

/-- **Blocks are delivered in order, without gaps.**  The notices of the application are accepted by
the specification; every report is of the block after the processed height, whose parent is the
block that was acknowledged last, at a time when no block waits; and the processed height, which is
the same in memory and on disk, never falls. -/
theorem delivery_gapless (consensus : Consensus cfg final)
    (short : ∀ b, Finalized cfg final b → cfg.tree.height b < u64Max)
    {log : List (Entry B C Cert)} {actor : Option (Actor B C Cert)}
    (run : Reach cfg (Actor.Issued cfg final) log actor) :
    (∃ d, Delivery.run cfg.tree (notices log) = some d ∧
      d.height = (stored cfg log).metadata.getD 0 ∧
      ∀ a, actor = some a → a.log = log ∧ a.lastProcessedHeight = d.height ∧
        a.pendingAck = d.pending.map fun b => (cfg.tree.height b, cfg.tree.commitment b)) ∧
    (∀ before b after, log = before ++ .reportedBlock b :: after →
      ∃ d, Delivery.run cfg.tree (notices before) = some d ∧
        d.height = (stored cfg before).metadata.getD 0 ∧ d.pending = none ∧
        cfg.tree.height b = d.height + 1 ∧ ∀ c, d.last = some c → cfg.tree.parent b = c) ∧
    ∀ before, before <+: log →
      (stored cfg before).metadata.getD 0 ≤ (stored cfg log).metadata.getD 0 := by
  obtain ⟨⟨-, d, hd⟩, hac⟩ := run.good ⟨consensus, short⟩
  refine ⟨⟨d, hd.run, height_eq_metadata hd.run, fun a ha => ?_⟩, ?_, ?_⟩
  · obtain ⟨rfl, hin⟩ := hac a ha
    obtain ⟨d', hd', hh, hpn⟩ := hin.delivered
    have heq : d' = d := Option.some.inj (hd'.run.symm.trans hd.run)
    exact ⟨rfl, heq ▸ hh, heq ▸ hpn⟩
  · rintro before b after rfl
    have hrn := hd.run
    rw [notices_append, Delivery.run_append] at hrn
    obtain ⟨d₁, hd₁, hr⟩ := bind_eq_some_iff.1 hrn
    obtain ⟨d₂, hst, -⟩ := bind_eq_some_iff.1 hr
    obtain ⟨hpn, hh, hls, -⟩ := Delivery.reported_spec hst
    exact ⟨d₁, hd₁, height_eq_metadata hd₁, hpn, hh, hls⟩
  · rintro before ⟨after, rfl⟩
    obtain ⟨d₁, hd₁, hle⟩ := Delivery.height_le_run
      (notices_append before after ▸ prefix_append _ _) hd.run
    rw [← height_eq_metadata hd₁, ← height_eq_metadata hd.run]
    exact hle

end

/-! ### Runs on the natural numbers -/

namespace Sample

/-- The block `n` has height `n`; its commitment is `n + 1`. -/
def cfg : Config ℕ ℕ Unit Unit Unit where
  tree := ⟨id, (· + 1), id⟩
  ns := []
  all := none
  scopedTo := fun _ => none
  containing := fun _ => none
  viewRetentionTimeout := 10
  maxRepair := 10
  cacheSection := 10
  blocksSection := none
  finalizationsSection := none

variable (block : ℕ)

/-- The finalization of a block in view one. -/
def finalization : Finalization ℕ Unit := ⟨⟨⟨0, 1⟩, 0, block + 1⟩, ()⟩

def final (f : Finalization ℕ Unit) : Prop := f = finalization block

def env : Env cfg.tree where
  buffer := fun c => if c = block + 1 then some block else none
  buffer_commitment := by
    intro c b hb
    split_ifs at hb with hc
    cases hb
    exact hc.symm
  rounds := 2
  finalizationFirst := false

theorem finalized_iff {block b : ℕ} : Finalized cfg (final block) b ↔ b = block := by
  constructor
  · rintro ⟨f, rfl, hb⟩
    exact (Nat.succ.inj hb).symm
  · rintro rfl
    exact ⟨_, rfl, rfl⟩

theorem consensus : Consensus cfg (final block) where
  wellFormed := ⟨fun a b hab => Nat.succ.inj hab, fun p b hpb => hpb.symm⟩
  consistent := by
    intro f g hf hg
    rw [finalized_iff] at hf hg
    rw [hf, hg]
    exact Or.inl .refl
  verified := by
    intro epoch scheme f hsc
    cases hsc

/-- The floor is set below the block, which is then finalized, reported and acknowledged. -/
def events : List (Actor.Event ℕ ℕ Unit cfg.tree) :=
  [.setFloor (block - 1), .finalization (finalization block) (env block), .ack true]

def runs : Except (Halted ℕ ℕ Unit) (Actor ℕ ℕ Unit) :=
  Actor.start cfg (env block) [] >>= (events block).foldlM (Actor.handle cfg)

theorem reach {block : ℕ} {a : Actor ℕ ℕ Unit} (h : runs block = .ok a) :
    ∃ log, Reach cfg (Actor.Issued cfg (final block)) log (some a) := by
  rw [runs] at h
  cases hst : Actor.start cfg (env block) [] with
  | error halt =>
    rw [hst] at h
    cases h
  | ok a₀ =>
    rw [hst] at h
    refine (Reach.start .empty hst).events (fun event he => ?_) h
    rw [events] at he
    simp only [mem_cons, not_mem_nil, or_false] at he
    rcases he with rfl | rfl | rfl
    · exact trivial
    · exact rfl
    · exact trivial

/-- The notices of the application, unless the actor has stopped. -/
def seen : Option (List (Delivery.Notice ℕ ℕ)) :=
  match runs block with
  | .ok a => some (notices a.log)
  | .error _ => none

theorem seen_spec (l : List (Delivery.Notice ℕ ℕ)) (h : seen block = some l) :
    ∃ a log, Reach cfg (Actor.Issued cfg (final block)) log (some a) ∧ notices a.log = l := by
  rw [seen] at h
  cases hr : runs block with
  | error halt => simp [hr] at h
  | ok a =>
    obtain ⟨log, hrc⟩ := reach hr
    refine ⟨a, log, hrc, ?_⟩
    simpa [hr] using h

end Sample

open Sample

/-- A run in which the block seven is reported after the floor six, and acknowledged. -/
theorem delivery_gapless_seven : ∃ a log,
    Reach cfg (Actor.Issued cfg (final 7)) log (some a) ∧
      notices log = [.restarted, .floor 6, .reported 7, .processed 7 8] ∧
      a.lastProcessedHeight = 7 := by
  obtain ⟨a, log, hrc, hnt⟩ := seen_spec 7
    [.restarted, .floor 6, .reported 7, .processed 7 8] (by decide +kernel)
  have hsh : ∀ b, Finalized cfg (final 7) b →
      cfg.tree.height b < u64Max := by
    intro b hb
    rw [finalized_iff.1 hb]
    decide
  obtain ⟨⟨d, hd, -, hac⟩, -, -⟩ := delivery_gapless (consensus 7) hsh hrc
  obtain ⟨hl, hh, -⟩ := hac a rfl
  rw [hl] at hnt
  refine ⟨a, log, hrc, hnt, ?_⟩
  rw [hnt] at hd
  cases hd
  exact hh

/-- **At the last height the same block is reported again** once it has been acknowledged: the
height after it is the same one. -/
theorem last_height_repeats : Consensus cfg (final u64Max) ∧
    ∃ a log, Reach cfg (Actor.Issued cfg (final u64Max)) log (some a) ∧
      notices a.log = [.restarted, .floor (u64Max - 1), .reported u64Max,
        .processed u64Max (u64Max + 1), .reported u64Max] ∧
      Delivery.run cfg.tree (notices a.log) = none := by
  refine ⟨consensus u64Max, ?_⟩
  obtain ⟨a, log, hrc, hnt⟩ := seen_spec u64Max
    [.restarted, .floor (u64Max - 1), .reported u64Max, .processed u64Max (u64Max + 1),
      .reported u64Max] (by decide +kernel)
  refine ⟨a, log, hrc, hnt, ?_⟩
  rw [hnt]
  decide +kernel

end Commonware.Marshal
