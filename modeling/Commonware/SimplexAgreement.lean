/-
**Agreement of simplex.**

A committee of voters, some of them faulty, runs the protocol: a step of the committee is a step of
one of the voters that are not faulty.  A voter may be given a certificate when a quorum of distinct
participants has signed it, where a faulty participant signs anything and any other participant is
known to have signed what it sent.  Everything else, the order and the delivery of messages, the
answers of the application, timeouts, crashes and restarts, is left open.

The votes of the committee are sound ballots in the sense of `ChainVoting`: the discipline of a
single voter says what it does not sign twice, the grounds of its votes say that they extend the
chain.

Main definitions:

* `Committee`, `Committee.Step`, `Committee.Reachable` — the committee and its runs;
* `Committee.Backed` — the certificates that exist in a state;
* `Committee.facts` — what these certificates establish.

Main results:

* `Committee.Inv.step` — **one step of the committee keeps the votes of its members sound**;
* `Committee.agreement` — **one proposal per view, no view both finalized and nullified, and one
  chain through all finalized proposals**.
-/

import Commonware.VoterGrounds

set_option autoImplicit false

namespace Commonware.Simplex.Voter

open Function

open ChainVoting (Ballots Facts QuorumSystem)

variable {D Sig Cert PK : Type}

/-! ### What a node has sent -/

def Event.vote : Event D Sig Cert → Option (Vote D Sig)
  | .sent v => some v
  | _ => none

def Node.Voted (n : Node D Sig Cert PK) (subject : Subject D) : Prop :=
  ∃ vote, .sent vote ∈ n.history ∧ vote.subject = subject

instance [DecidableEq D] (n : Node D Sig Cert PK) (subject : Subject D) :
    Decidable (n.Voted subject) :=
  decidable_of_iff (∃ e ∈ n.history, e.vote.any fun v => decide (v.subject = subject)) (by
    constructor
    · rintro ⟨e, he, hv⟩
      cases e <;> simp [Event.vote] at hv
      exact ⟨_, he, hv⟩
    · rintro ⟨vote, hv, hs⟩
      exact ⟨_, hv, by simp [Event.vote, hs]⟩)

variable {n : Node D Sig Cert PK} {p : Proposal D}

theorem Node.voted_notarize (h : n.Voted (.notarize p)) :
    ∃ x, .sent (.notarize x) ∈ n.history ∧ x.proposal = p := by
  obtain ⟨vote, hv, hs⟩ := h
  cases vote <;> cases hs
  exact ⟨_, hv, rfl⟩

theorem Node.voted_nullify {r : Rnd} (h : n.Voted (.nullify r)) :
    ∃ x, .sent (.nullify x) ∈ n.history ∧ x.round = r := by
  obtain ⟨vote, hv, hs⟩ := h
  cases vote <;> cases hs
  exact ⟨_, hv, rfl⟩

theorem Node.voted_finalize (h : n.Voted (.finalize p)) :
    ∃ x, .sent (.finalize x) ∈ n.history ∧ x.proposal = p := by
  obtain ⟨vote, hv, hs⟩ := h
  cases vote <;> cases hs
  exact ⟨_, hv, rfl⟩

theorem Node.history_apply (n : Node D Sig Cert PK) (e : Effect D Sig Cert) :
    n.history ⊆ (n.apply e).history := by
  cases e <;> simp [Node.apply]

theorem Node.history_applyAll (effects : List (Effect D Sig Cert)) :
    ∀ n : Node D Sig Cert PK, n.history ⊆ (n.applyAll effects).history := by
  induction effects with
  | nil => exact fun n => List.Subset.refl _
  | cons e l ih => exact fun n => List.Subset.trans (n.history_apply e) (ih _)

variable {label : Option (Op D Cert)} {subject : Subject D}

/-- What was sent is not forgotten. -/
theorem Node.Step.voted [DecidableEq D] {cfg : Config D Sig Cert PK} {n' : Node D Sig Cert PK}
    (hs : n.Step cfg label n')
    (h : n.Voted subject) : n'.Voted subject := by
  obtain ⟨vote, hv, hsb⟩ := h
  refine ⟨vote, ?_, hsb⟩
  cases hs with
  | op hm hen hex | cut k hm hen hex => exact Node.history_applyAll _ n hv
  | crash | restart => exact hv

/-! ### Committees -/

/-- The certificate that an operation brings in. -/
def Op.certificate : Op D Cert → Option (Certificate D Cert)
  | .notarization c => some (.notarization c)
  | .nullification c => some (.nullification c)
  | .finalization c => some (.finalization c)
  | _ => none

/-- A committee of `n` participants, of which at most `maxFaults n` are faulty. -/
structure Committee (D Sig Cert PK : Type) (n : ℕ) where
  cfg : Fin n → Config D Sig Cert PK
  byz : Finset (Fin n)
  pos : 0 < n
  bound : byz.card ≤ maxFaults n

namespace Committee

variable {n : ℕ} (C : Committee D Sig Cert PK n)

/-- The sets of participants that can sign a certificate. -/
def quorums : QuorumSystem (Fin n) where
  isQuorum X := quorum n ≤ X.card
  honest i := i ∉ C.byz
  inter := quorum_inter_honest C.pos C.bound

/-- A certificate on the subject exists: a quorum has signed it, of which the participants that are
not faulty have sent their votes. -/
def Backed (s : Fin n → Node D Sig Cert PK) (subject : Subject D) : Prop :=
  C.quorums.Carried fun i => (s i).Voted subject

/-- One step of the committee: a participant that is not faulty takes a step, and a certificate it
is given is one that exists. -/
inductive Step [DecidableEq D] :
    (Fin n → Node D Sig Cert PK) → (Fin n → Node D Sig Cert PK) → Prop
  | node {s : Fin n → Node D Sig Cert PK} {label : Option (Op D Cert)} {m : Node D Sig Cert PK}
      (i : Fin n) (hi : i ∉ C.byz)
      (hc : ∀ op ∈ label, ∀ c ∈ op.certificate, C.Backed s c.subject)
      (hs : (s i).Step (C.cfg i) label m) : Step s (update s i m)

/-- The states of the committee in any run. -/
inductive Reachable [DecidableEq D] : (Fin n → Node D Sig Cert PK) → Prop
  | init : Reachable fun _ => Node.init
  | step {s s' : Fin n → Node D Sig Cert PK} : Reachable s → C.Step s s' → Reachable s'

/-! ### Votes and facts -/

/-- The votes that the participants have sent. -/
def ballots (s : Fin n → Node D Sig Cert PK) : Ballots (Fin n) (Proposal D) where
  notarize i p := (s i).Voted (.notarize p)
  nullify i v := ∃ r, r.view = v ∧ (s i).Voted (.nullify r)
  finalize i p := (s i).Voted (.finalize p)

/-- What the votes establish. -/
def facts (s : Fin n → Node D Sig Cert PK) : Facts (Proposal D) := (ballots s).facts C.quorums

variable {C} {s s' : Fin n → Node D Sig Cert PK}

theorem Backed.nullified {r : Rnd} (h : C.Backed s (.nullify r)) : (C.facts s).nullified r.view :=
  h.mono fun _ _ hv => ⟨r, rfl, hv⟩

/-- A certificate that is given to a voter is a fact. -/
theorem opFacts_of_backed {op : Op D Cert}
    (h : ∀ c ∈ op.certificate, C.Backed s c.subject) : OpFacts (C.facts s) op := by
  cases op with
  | notarization c => exact h _ rfl
  | nullification c => exact (h _ rfl).nullified
  | finalization c => exact h _ rfl
  | _ => trivial

theorem facts_mono (h : ∀ i subject, (s i).Voted subject → (s' i).Voted subject) :
    (C.facts s).Le (C.facts s') where
  notarized := fun _ hb => hb.mono fun i _ => h i _
  nullified := fun _ hb => hb.mono fun i _ => fun ⟨r, hr, hv⟩ => ⟨r, hr, h i _ hv⟩
  finalized := fun _ hb => hb.mono fun i _ => h i _

/-! ### The invariant -/

variable (C s) in
/-- The participants that are not faulty are disciplined, and their votes are grounded in the
certificates that exist. -/
structure Inv : Prop where
  voter : ∀ i, i ∉ C.byz → Voter.Inv (C.cfg i) (s i)
  grounded : ∀ i, i ∉ C.byz → GroundedNode (C.cfg i) (C.facts s) (s i)

theorem inv_init : C.Inv fun _ => Node.init :=
  ⟨fun _ _ => ⟨disk_init, by simp [Node.init]⟩, fun _ _ => groundedNode_init⟩

/-- The votes of a committee are sound ballots. -/
theorem Inv.sound (h : C.Inv s) : (ballots s).Sound Proposal.view Proposal.parent C.quorums where
  notarize_unique := by
    intro i hi p q hp hq hv
    obtain ⟨x, hx, rfl⟩ := Node.voted_notarize hp
    obtain ⟨y, hy, rfl⟩ := Node.voted_notarize hq
    exact (h.voter i hi).disk.discipline.notarize x y hx hy hv
  finalize_unique := by
    intro i hi p q hp hq hv
    obtain ⟨x, hx, rfl⟩ := Node.voted_finalize hp
    obtain ⟨y, hy, rfl⟩ := Node.voted_finalize hq
    exact (h.voter i hi).disk.discipline.finalize x y hx hy hv
  finalize_notarize := by
    intro i hi p q hp hq hv
    obtain ⟨x, hx, rfl⟩ := Node.voted_finalize hp
    obtain ⟨y, hy, rfl⟩ := Node.voted_notarize hq
    exact (h.voter i hi).disk.discipline.finalize_notarize x y hx hy hv
  finalize_nullify := by
    rintro i hi p hp ⟨r, hr, hn⟩
    obtain ⟨x, hx, rfl⟩ := Node.voted_finalize hp
    obtain ⟨y, hy, rfl⟩ := Node.voted_nullify hn
    exact (h.voter i hi).disk.discipline.nullify_finalize y x hy hx hr
  notarize_extends := by
    intro i hi p hp
    obtain ⟨x, hx, rfl⟩ := Node.voted_notarize hp
    exact (h.grounded i hi).sent x hx
  finalize_extends := by
    -- a voter finalizes what it has signed a notarize vote for
    intro i hi p hp
    obtain ⟨x, hx, rfl⟩ := Node.voted_finalize hp
    obtain ⟨y, hy, hyx⟩ := (h.voter i hi).disk.discipline.finalize_signed x hx
    exact hyx ▸ (h.grounded i hi).signed y hy

/-- **One step of the committee keeps the votes of its members sound.** -/
theorem Inv.step [DecidableEq D] (h : C.Inv s) (hs : C.Step s s') : C.Inv s' := by
  obtain ⟨i, hi, hc, hst⟩ := hs
  rename_i label m
  have hvt : ∀ j subject, (s j).Voted subject → (update s i m j).Voted subject := by
    intro j subject hv
    by_cases hj : j = i
    · subst hj
      rw [update_self]
      exact hst.voted hv
    · rwa [update_of_ne hj]
  have hle := facts_mono (C := C) hvt
  refine ⟨fun j hj => ?_, fun j hj => ?_⟩
  · by_cases hji : j = i
    · subst hji
      rw [update_self]
      exact (h.voter j hj).step hst
    · rw [update_of_ne hji]
      exact h.voter j hj
  · by_cases hji : j = i
    · subst hji
      rw [update_self]
      refine GroundedNode.mono ?_ hle
      exact (h.grounded j hj).step (fun p hp => h.sound.confirmed_extends hp)
        (fun op hop => opFacts_of_backed (hc op hop)) hst
    · rw [update_of_ne hji]
      exact (h.grounded j hj).mono hle

theorem inv_of_reachable [DecidableEq D] (h : C.Reachable s) : C.Inv s := by
  induction h with
  | init => exact inv_init
  | step _ hs ih => exact ih.step hs

/-- **Agreement.**  In every state that the committee can reach, a view has certificates of
notarization or finalization for one proposal only, no view has both a finalization and a
nullification, and the parent links of a finalized proposal, taken through the proposals that were
notarized or finalized in the parent views, lead to every proposal finalized before it. -/
theorem agreement [DecidableEq D] (h : C.Reachable s) :
    (∀ p q, (C.facts s).Confirmed p → (C.facts s).Confirmed q → p.view = q.view → p = q) ∧
      (∀ p r, C.Backed s (.finalize p) → C.Backed s (.nullify r) → p.view ≠ r.view) ∧
      ∀ p q, C.Backed s (.finalize p) → C.Backed s (.finalize q) → p.view ≤ q.view →
        Relation.ReflTransGen ((C.facts s).Link Proposal.view Proposal.parent) q p := by
  have hsn := (inv_of_reachable h).sound
  refine ⟨fun p q hp hq => hsn.confirmed_unique hp hq, fun p r hp hr hv => ?_,
    fun p q hp hq hv => hsn.chain hp (.inr hq) hv⟩
  exact hsn.finalized_not_nullified hp (hv ▸ hr.nullified)

/-! ### Runs of single participants -/

section

variable [DecidableEq D]

variable (C s) in
/-- A step of participant `i` with certificates that exist in the state `s`. -/
def Advance (i : Fin n) (m m' : Node D Sig Cert PK) : Prop :=
  ∃ label, (∀ op ∈ label, ∀ c ∈ op.certificate, C.Backed s c.subject) ∧
    m.Step (C.cfg i) label m'

variable {m : Node D Sig Cert PK} {i : Fin n}

theorem Backed.update
    (h : C.Backed s subject) (hs : (s i).Step (C.cfg i) label m) :
    C.Backed (update s i m) subject := by
  refine h.mono fun j _ hv => ?_
  by_cases hj : j = i
  · subst hj
    rw [update_self]
    exact hs.voted hv
  · rwa [update_of_ne hj]

theorem Reachable.advance (h : C.Reachable s) (hi : i ∉ C.byz)
    (ha : Relation.ReflTransGen (C.Advance s i) (s i) m) :
    C.Reachable (update s i m) ∧
      ∀ subject, C.Backed s subject → C.Backed (update s i m) subject := by
  induction ha with
  | refl =>
    rw [update_eq_self]
    exact ⟨h, fun _ hb => hb⟩
  | @tail m₁ m₂ _ hst ih =>
    obtain ⟨label, hc, hs⟩ := hst
    have hs' : (update s i m₁ i).Step (C.cfg i) label m₂ := by
      rwa [update_self]
    have hnd := Step.node i hi (fun op hop c hcc => ih.2 _ (hc op hop c hcc)) hs'
    have hbc : ∀ subject, C.Backed s subject →
        C.Backed (update (update s i m₁) i m₂) subject :=
      fun subject hb => (ih.2 subject hb).update hs'
    rw [update_idem] at hnd hbc
    exact ⟨ih.1.step hnd, hbc⟩

/-- All participants that are not faulty may take several steps, one participant after the other. -/
theorem Reachable.advanceAll (h : C.Reachable s) {t : Fin n → Node D Sig Cert PK}
    (hf : ∀ i ∈ C.byz, t i = s i)
    (ht : ∀ i, i ∉ C.byz → Relation.ReflTransGen (C.Advance s i) (s i) (t i)) : C.Reachable t := by
  -- one participant at a time; `l` lists those that have moved
  have hls : ∀ l : List (Fin n), C.Reachable (fun i => if i ∈ l then t i else s i) ∧
      ∀ subject, C.Backed s subject → C.Backed (fun i => if i ∈ l then t i else s i) subject := by
    intro l
    induction l with
    | nil => exact ⟨by simpa using h, by simp⟩
    | cons i l ih =>
      by_cases hi : i ∈ l ∨ i ∈ C.byz
      · have heq : (fun j => if j ∈ i :: l then t j else s j) =
            fun j => if j ∈ l then t j else s j := by
          funext j
          by_cases hj : j = i
          · subst hj
            rcases hi with hi | hi
            · simp [hi]
            · simp [hf j hi]
          · simp [hj]
        rw [heq]
        exact ih
      · rw [not_or] at hi
        have heq : (fun j => if j ∈ i :: l then t j else s j) =
            update (fun j => if j ∈ l then t j else s j) i (t i) := by
          funext j
          by_cases hj : j = i
          · subst hj
            simp
          · simp [hj]
        have ha : Relation.ReflTransGen (C.Advance (fun j => if j ∈ l then t j else s j) i)
            (if i ∈ l then t i else s i) (t i) := by
          rw [if_neg hi.1]
          refine Relation.ReflTransGen.mono (fun m m' => ?_) _ _ (ht i hi.2)
          rintro ⟨label, hc, hs⟩
          exact ⟨label, fun op hop c hcc => ih.2 _ (hc op hop c hcc), hs⟩
        obtain ⟨hr, hb⟩ := ih.1.advance hi.2 ha
        rw [heq]
        exact ⟨hr, fun subject hs => hb subject (ih.2 subject hs)⟩
  have hal := (hls (List.finRange n)).1
  simpa using hal

/-- The operations of a run are steps, as long as the certificates in them exist. -/
theorem advance_run {ops : List (Op D Cert)}
    (hc : ∀ op ∈ ops, ∀ c ∈ op.certificate, C.Backed s c.subject) :
    ∀ {m m' : Node D Sig Cert PK}, m.run? (C.cfg i) ops = some m' →
      Relation.ReflTransGen (C.Advance s i) m m' := by
  induction ops with
  | nil =>
    intro m m' hr
    cases hr
    exact .refl
  | cons op ops ih =>
    intro m m' hr
    obtain ⟨m₁, h₁, hr⟩ := Option.bind_eq_some_iff.1 hr
    have hrs := ih (fun x hx => hc x (List.mem_cons_of_mem _ hx)) hr
    refine hrs.head ⟨some op, ?_, Node.Step.of_exec? h₁⟩
    rintro x ⟨⟩
    exact hc op List.mem_cons_self

end

end Committee

/-! ### A run of four participants

The first participant leads, the last is faulty; the others finalize proposals in views 1 and 2. -/

def quartetScheme (i : Fin 4) : Scheme (Subject ℕ) Unit Unit (Fin 4) where
  signer := some (i, fun _ _ => ())
  participants := [0, 1, 2, 3]
  verifyAttestation := fun _ _ _ => true
  verifyAttestations := fun _ _ l => ⟨l, []⟩
  assemble := fun l => if l.length < 3 then none else some ()
  verifyCertificate := fun _ _ _ => true
  verifyCertificates := fun _ _ => true

theorem quartet_pos : 0 < 4 := by decide

def quartet : Committee ℕ Unit Unit (Fin 4) 4 where
  cfg i :=
    { scheme := quartetScheme i
      elect := fun _ _ => (0 : Fin 4)
      ns := []
      epoch := 0
      activityTimeout := 10
      genesis := 0 }
  byz := {3}
  pos := quartet_pos
  bound := by decide

def quartetProposal : ℕ → Proposal ℕ
  | 1 => ⟨⟨0, 1⟩, 0, 7⟩
  | v => ⟨⟨0, v⟩, v - 1, 8⟩

/-- What a participant does up to its notarize vote of a view. -/
def quartetVote (v : ℕ) (i : Fin 4) : List (Op ℕ Unit) :=
  if i = 0 then [.tryPropose, .proposed (quartetProposal v).payload, .constructNotarize v]
  else [.setProposal (quartetProposal v), .tryVerify, .verified v, .constructNotarize v]

/-- What a participant does once the proposal of a view is notarized. -/
def quartetFinalize (v : ℕ) : List (Op ℕ Unit) :=
  [.notarization ⟨quartetProposal v, ()⟩, .broadcastNotarization v, .tryCertify v,
    .certified v true, .constructFinalize v]

/-- The participants take the given operations, the faulty one apart. -/
def quartetRun (s : Fin 4 → Node ℕ Unit Unit (Fin 4)) (ops : Fin 4 → List (Op ℕ Unit))
    (i : Fin 4) : Node ℕ Unit Unit (Fin 4) :=
  if i = 3 then s i else ((s i).run? (quartet.cfg i) (ops i)).getD (s i)

def quartetStarted (i : Fin 4) : Node ℕ Unit Unit (Fin 4) :=
  if i = 3 then Node.init else (Node.init.restart? (quartet.cfg i)).getD Node.init

def quartetVoted : Fin 4 → Node ℕ Unit Unit (Fin 4) := quartetRun quartetStarted (quartetVote 1)

def quartetFirst : Fin 4 → Node ℕ Unit Unit (Fin 4) :=
  quartetRun quartetVoted fun _ => quartetFinalize 1

def quartetVotedAgain : Fin 4 → Node ℕ Unit Unit (Fin 4) := quartetRun quartetFirst (quartetVote 2)

def quartetSecond : Fin 4 → Node ℕ Unit Unit (Fin 4) :=
  quartetRun quartetVotedAgain fun _ => quartetFinalize 2

theorem quartetStarted_reachable : quartet.Reachable quartetStarted := by
  refine Committee.Reachable.init.advanceAll (fun i hi => ?_) fun i hi => ?_
  · obtain rfl := Finset.mem_singleton.1 hi
    rfl
  · have h3 : i ≠ 3 := fun h => hi (Finset.mem_singleton.2 h)
    have hs : (Node.init.restart? (quartet.cfg i)).isSome = true := by
      revert i
      decide
    obtain ⟨m, hm⟩ := Option.isSome_iff_exists.1 hs
    rw [quartetStarted, if_neg h3, hm, Option.getD_some]
    exact .single ⟨none, by simp, Node.Step.of_restart? rfl disk_init hm⟩

variable {s : Fin 4 → Node ℕ Unit Unit (Fin 4)}

/-- The participants that are not faulty have all voted. -/
theorem quartet_backed {subject : Subject ℕ}
    (h : ∀ i ∈ ({0, 1, 2} : Finset (Fin 4)), (s i).Voted subject) : quartet.Backed s subject :=
  ⟨{0, 1, 2}, show quorum 4 ≤ 3 by decide, fun i hi _ => h i hi⟩

theorem quartetRun_reachable {ops : Fin 4 → List (Op ℕ Unit)} (h : quartet.Reachable s)
    (hr : ∀ i, i ≠ 3 → ((s i).run? (quartet.cfg i) (ops i)).isSome = true)
    (hc : ∀ i, ∀ op ∈ ops i, ∀ c ∈ op.certificate, quartet.Backed s c.subject) :
    quartet.Reachable (quartetRun s ops) := by
  refine h.advanceAll (fun i hi => ?_) fun i hi => ?_
  · obtain rfl := Finset.mem_singleton.1 hi
    rfl
  · have h3 : i ≠ 3 := fun h => hi (Finset.mem_singleton.2 h)
    obtain ⟨m, hm⟩ := Option.isSome_iff_exists.1 (hr i h3)
    rw [quartetRun, if_neg h3, hm, Option.getD_some]
    exact Committee.advance_run (hc i) hm

theorem quartetVote_certificate (v : ℕ) (i : Fin 4) :
    ∀ op ∈ quartetVote v i, op.certificate = none := by
  unfold quartetVote
  split_ifs <;> simp [Op.certificate]

theorem quartetFinalize_certificate {v : ℕ} {op : Op ℕ Unit} (h : op ∈ quartetFinalize v)
    {c : Certificate ℕ Unit} (hc : c ∈ op.certificate) :
    c.subject = .notarize (quartetProposal v) := by
  simp only [quartetFinalize, List.mem_cons, List.not_mem_nil, or_false] at h
  rcases h with rfl | rfl | rfl | rfl | rfl <;> cases hc
  rfl

theorem quartetSecond_reachable : quartet.Reachable quartetSecond := by
  have h₁ : quartet.Reachable quartetVoted :=
    quartetRun_reachable quartetStarted_reachable (by decide) fun i op hop c hc => by
      simp [quartetVote_certificate 1 i op hop] at hc
  have h₂ : quartet.Reachable quartetFirst :=
    quartetRun_reachable h₁ (by decide) fun i op hop c hc => by
      rw [quartetFinalize_certificate hop hc]
      exact quartet_backed (by decide)
  have h₃ : quartet.Reachable quartetVotedAgain :=
    quartetRun_reachable h₂ (by decide) fun i op hop c hc => by
      simp [quartetVote_certificate 2 i op hop] at hc
  exact quartetRun_reachable h₃ (by decide) fun i op hop c hc => by
    rw [quartetFinalize_certificate hop hc]
    exact quartet_backed (by decide)

theorem agreement_quartet : quartet.Backed quartetSecond (.finalize (quartetProposal 1)) ∧
      quartet.Backed quartetSecond (.finalize (quartetProposal 2)) ∧
      Relation.ReflTransGen ((quartet.facts quartetSecond).Link Proposal.view Proposal.parent)
        (quartetProposal 2) (quartetProposal 1) := by
  have h₁ : quartet.Backed quartetSecond (.finalize (quartetProposal 1)) :=
    quartet_backed (by decide)
  have h₂ : quartet.Backed quartetSecond (.finalize (quartetProposal 2)) :=
    quartet_backed (by decide)
  exact ⟨h₁, h₂, (Committee.agreement quartetSecond_reachable).2.2 _ _ h₁ h₂ (by decide)⟩

end Commonware.Simplex.Voter
