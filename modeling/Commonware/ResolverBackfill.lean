/-
**Backfilling nullifications.**

The resolver of `consensus/src/simplex/actors/resolver` keeps the certificates from the floor (the
last certified notarization or finalization) to the current view, and requests from its peers the
nullifications that are missing in between.  A request for a view may also be answered by a
notarization of a higher view, which settles the request only if that notarization is certified in
the end.

`State` follows `state.rs`.  Its calls to the fetch service are collected in a list; the service is
the set of the requests that are outstanding, so that a run of the resolver is a sequence of states
together with that set.

Main definitions:

* `State.handle`, `State.handleCertified`, `State.fetch`, `State.prune` — the resolver's state;
* `Call` — the calls to the fetch service, `Call.apply` what they do to the outstanding requests;
* `validate` — which deliveries the actor accepts;
* `Backfill`, `Backfill.Step` — the resolver with the service, and its steps.

Main results:

* `Inv.handle`, `Inv.handleCertified` — **every call keeps track of every gap**;
* `Backfill.gaps_tracked` — **a view below the fetch cursor that is not nullified is requested, or
  answered by a notarization that is still pending**.
-/

import Commonware.OrdMap
import Commonware.SimplexTypes

set_option autoImplicit false

namespace Commonware.Simplex.Resolver

open List OrdMap

variable {D Sig Cert PK : Type}

/-! ### The fetch service -/

/-- A call to the fetch service. -/
inductive Call
  | fetch (view : ℕ)
  | fetchAll (views : List ℕ)
  | cancel (view : ℕ)
  /-- Requests that are not above the view are dropped. -/
  | retain (floor : ℕ)
  deriving DecidableEq

/-- The outstanding requests after a call. -/
def Call.apply (outstanding : Finset ℕ) : Call → Finset ℕ
  | .fetch v => insert v outstanding
  | .fetchAll vs => outstanding ∪ vs.toFinset
  | .cancel v => outstanding.erase v
  | .retain floor => outstanding.filter fun v => floor < v

/-- The outstanding requests after several calls. -/
def applyAll (outstanding : Finset ℕ) (calls : List Call) : Finset ℕ :=
  calls.foldl Call.apply outstanding

/-! ### The state -/

structure State (D Cert : Type) where
  currentView : ℕ
  /-- The most recent certified notarization or finalization. -/
  floor : Option (Certificate D Cert)
  /-- Notarizations that wait for their certification. -/
  notarizations : OrdMap ℕ (Notarization D Cert)
  nullifications : OrdMap ℕ (Certificate D Cert)
  fetchConcurrent : ℕ
  /-- The next view to consider when fetching. -/
  fetchFloor : ℕ
  /-- The requests that a notarization of a view has answered. -/
  satisfiedBy : OrdMap ℕ (OrdMap ℕ Unit)
  /-- The views whose certification has failed. -/
  failedViews : Finset ℕ

namespace State

def new (fetchConcurrent : ℕ) : State D Cert :=
  ⟨0, none, empty, empty, fetchConcurrent, 0, empty, ∅⟩

variable (st : State D Cert)

def isFailed (view : ℕ) : Bool := decide (view ∈ st.failedViews)

def floorView : ℕ := (st.floor.map Certificate.view).getD 0

/-- Moves the current view up; the result says whether the view is above the floor. -/
def encounterView (view : ℕ) : Bool × State D Cert :=
  (decide (view > st.floorView), { st with currentView := max st.currentView view })

/-- A finalization replaces the notarization of its view as the floor. -/
def canUpgradeFloor (view : ℕ) : Bool :=
  match st.floor with
  | some (.notarization n) => decide (n.proposal.view = view)
  | _ => false

variable {st} in
/-- A finalization that is stored as the floor is not below the floor before it. -/
theorem floorView_le_of_new {view : ℕ}
    (h : (decide (view > st.floorView) || st.canUpgradeFloor view) = true) :
    st.floorView ≤ view := by
  rcases Bool.or_eq_true _ _ ▸ h with h | h
  · exact (of_decide_eq_true h).le
  · unfold canUpgradeFloor at h
    split at h
    · next n hn =>
        rw [floorView, hn]
        exact (of_decide_eq_true h).le
    · cases h

/-- The views to be requested next. -/
def missing : List ℕ :=
  let start := max st.fetchFloor (st.floorView + 1)
  ((List.range' start (st.currentView - start)).filter
    fun view => !st.nullifications.contains view).take st.fetchConcurrent

def fetch : State D Cert × List Call :=
  let views := st.missing
  (match views.getLast? with
    | none => st
    | some last => { st with fetchFloor := last + 1 }, [.fetchAll views])

/-- Drops what is not above the floor. -/
def prune : State D Cert × List Call :=
  let floor := st.floorView
  ({ st with
      notarizations := st.notarizations.filter fun view _ => decide (view > floor)
      nullifications := st.nullifications.filter fun view _ => decide (view > floor)
      satisfiedBy := st.satisfiedBy.filter fun view _ => decide (view > floor)
      failedViews := st.failedViews.filter fun view => view > floor },
    [.retain floor])

/-- Storing a certificate; `request` is the view it was requested for. -/
def store (certificate : Certificate D Cert) (request : Option ℕ) : State D Cert × List Call :=
  match certificate with
  | .nullification n =>
    let view := n.round.view
    let (isNew, st) := st.encounterView view
    if isNew then
      ({ st with nullifications := st.nullifications.insert view (.nullification n) },
        [.cancel view])
    else (st, [])
  | .notarization n =>
    let view := n.proposal.view
    let (isNew, st) := st.encounterView view
    if isNew then
      let st := { st with notarizations := st.notarizations.insert view n }
      match request with
      | none => (st, [])
      | some request =>
        let requests := (st.satisfiedBy.get? view).getD empty
        ({ st with satisfiedBy := st.satisfiedBy.insert view (requests.insert request ()) }, [])
    else (st, [])
  | .finalization n =>
    let view := n.proposal.view
    let (isNew, st) := st.encounterView view
    if isNew || st.canUpgradeFloor view then
      prune { st with floor := some (.finalization n) }
    else (st, [])

/-- A new certificate is stored, and missing nullifications are requested. -/
def handle (certificate : Certificate D Cert) (request : Option ℕ) : State D Cert × List Call :=
  let (st, calls) := st.store certificate request
  let (st, fetches) := st.fetch
  (st, calls ++ fetches)

/-- A notarization that was certified becomes the floor. -/
def certifiedFloor (view : ℕ) : State D Cert × List Call :=
  let st' := { st with notarizations := st.notarizations.erase view }
  match st.notarizations.get? view with
  | none => (st', [])
  | some n =>
    if view > st.floorView then prune { st' with floor := some (.notarization n) } else (st', [])

/-- The result of a certification.  A failure brings back the requests that the notarization had
answered. -/
def handleCertified (view : ℕ) (success : Bool) : State D Cert × List Call :=
  if success then
    let (st, calls) := st.certifiedFloor view
    ({ st with satisfiedBy := st.satisfiedBy.erase view }, calls)
  else
    let floor := st.floorView
    let requests := ((st.satisfiedBy.get? view).getD empty).keys
    ({ st with
        notarizations := st.notarizations.erase view
        failedViews := insert view st.failedViews
        satisfiedBy := st.satisfiedBy.erase view },
      (if view > floor then [.fetch view] else []) ++
        (requests.filter fun v => decide (v > floor)).map .fetch)

/-- The certificate that is served for a view. -/
def get (view : ℕ) : Option (Certificate D Cert) :=
  match st.floor with
  | some floor => if view ≤ floor.view then some floor else st.nullifications.get? view
  | none => st.nullifications.get? view

end State

open State

/-! ### Deliveries -/

/-- What the actor is configured with. -/
structure Config (D Sig Cert PK : Type) where
  scheme : Scheme (Subject D) Sig Cert PK
  ns : Namespace
  epoch : ℕ

/-- The certificate of a delivery, if it answers the request for the view. -/
def validate (cfg : Config D Sig Cert PK) (st : State D Cert) (view : ℕ)
    (incoming : Certificate D Cert) : Option (Certificate D Cert) :=
  match incoming with
  | .notarization n =>
    if n.proposal.view < view then none
    else if n.proposal.round.epoch ≠ cfg.epoch then none
    else if st.isFailed n.proposal.view then none
    else if !incoming.verify cfg.scheme cfg.ns then none
    else some incoming
  | .finalization n =>
    if n.proposal.view < view then none
    else if n.proposal.round.epoch ≠ cfg.epoch then none
    else if !incoming.verify cfg.scheme cfg.ns then none
    else some incoming
  | .nullification n =>
    if n.round.view ≠ view then none
    else if n.round.epoch ≠ cfg.epoch then none
    else if !incoming.verify cfg.scheme cfg.ns then none
    else some incoming

/-- The certificate answers a request for the view. -/
def Answers (view : ℕ) : Certificate D Cert → Prop
  | .notarization n => view ≤ n.proposal.view
  | .finalization n => view ≤ n.proposal.view
  | .nullification n => n.round.view = view

variable {c : Certificate D Cert} {view : ℕ}

theorem answers_of_validate {cfg : Config D Sig Cert PK} {st : State D Cert}
    {incoming : Certificate D Cert} (h : validate cfg st view incoming = some c) :
    c = incoming ∧ Answers view c := by
  cases incoming with
  | notarization n | finalization n =>
    simp only [validate] at h
    split_ifs at h with h₁
    cases h
    exact ⟨rfl, Nat.le_of_not_lt h₁⟩
  | nullification n =>
    simp only [validate] at h
    split_ifs at h with h₁
    cases h
    exact ⟨rfl, not_not.1 h₁⟩

/-- The resolver together with the fetch service. -/
structure Backfill (D Cert : Type) where
  state : State D Cert
  outstanding : Finset ℕ

namespace Backfill

def init (fetchConcurrent : ℕ) : Backfill D Cert := ⟨new fetchConcurrent, ∅⟩

/-- A new state, with calls to the service. -/
def apply (outstanding : Finset ℕ) (r : State D Cert × List Call) : Backfill D Cert :=
  ⟨r.1, applyAll outstanding r.2⟩

/-- One step of the resolver. -/
inductive Step (cfg : Config D Sig Cert PK) : Backfill D Cert → Backfill D Cert → Prop
  /-- The voter passes a certificate on. -/
  | certificate (s : Backfill D Cert) (c : Certificate D Cert) :
      Step cfg s (apply s.outstanding (s.state.handle c none))
  | certified (s : Backfill D Cert) (view : ℕ) (success : Bool) :
      Step cfg s (apply s.outstanding (s.state.handleCertified view success))
  /-- A peer answers the request for a view, and the answer is accepted. -/
  | deliver (s : Backfill D Cert) (view : ℕ) {incoming c : Certificate D Cert}
      (h : validate cfg s.state view incoming = some c) :
      Step cfg s (apply (s.outstanding.erase view) (s.state.handle c (some view)))
  /-- A delivery that is not accepted changes nothing. -/
  | reject (s : Backfill D Cert) (view : ℕ) {incoming : Certificate D Cert}
      (h : validate cfg s.state view incoming = none) : Step cfg s s

end Backfill

/-! ### Gaps -/

/-- The view is covered: it is requested, or a notarization has answered the request for it. -/
def Covered (st : State D Cert) (outstanding : Finset ℕ) (v : ℕ) : Prop :=
  v ∈ outstanding ∨ ∃ w requests, st.satisfiedBy.get? w = some requests ∧
    (requests.get? v).isSome = true

/-- The invariant of the resolver.  One view may be uncovered for the moment: the request that a
delivery has just answered. -/
structure Inv (st : State D Cert) (outstanding : Finset ℕ) (uncovered : Option ℕ) : Prop where
  keyed : ∀ w n, st.notarizations.get? w = some n → n.proposal.view = w
  tracked : ∀ w requests, st.satisfiedBy.get? w = some requests →
    (st.notarizations.get? w).isSome = true ∧ st.floorView < w ∧
      ∀ v, (requests.get? v).isSome = true → v ≤ w
  covered : ∀ v, st.floorView < v → v < st.fetchFloor → st.nullifications.get? v = none →
    uncovered ≠ some v → Covered st outstanding v

/-- The invariant holds after a call of the resolver. -/
def InvAfter (outstanding : Finset ℕ) (r : State D Cert × List Call) : Prop :=
  Inv r.1 (applyAll outstanding r.2) none

section

variable {st : State D Cert} {outstanding : Finset ℕ} {uncovered : Option ℕ}

theorem inv_new (fetchConcurrent : ℕ) : Inv (new fetchConcurrent : State D Cert) ∅ none := by
  constructor <;> simp [new]

/-- The current view does not matter. -/
theorem Inv.encounterView (h : Inv st outstanding uncovered) (view : ℕ) :
    Inv (st.encounterView view).2 outstanding uncovered :=
  { h with }

/-! ### Fetching -/

/-- What is not above an element of a prefix of an increasing list is in that prefix. -/
theorem mem_take_of_le {l : List ℕ} (hl : l.Pairwise (· < ·)) {n x y : ℕ} (hx : x ∈ l)
    (hy : y ∈ l.take n) (hxy : x ≤ y) : x ∈ l.take n := by
  rw [← take_append_drop n l] at hl hx
  rcases mem_append.1 hx with hx | hx
  · exact hx
  · have := (pairwise_append.1 hl).2.2 y hy x hx
    omega

/-- Every missing view up to the last one requested is requested. -/
theorem mem_missing {v last : ℕ} (hls : st.missing.getLast? = some last)
    (hf : st.floorView < v) (hft : st.fetchFloor ≤ v) (hv : v ≤ last)
    (hn : st.nullifications.get? v = none) : v ∈ st.missing := by
  have hmem : last ∈ st.missing := mem_of_getLast? hls
  have hls' : last < st.currentView := by
    have h := (mem_filter.1 (mem_of_mem_take hmem)).1
    rw [mem_range'_1] at h
    omega
  have hsr : (List.range' (max st.fetchFloor (st.floorView + 1))
      (st.currentView - max st.fetchFloor (st.floorView + 1))).Pairwise (· < ·) :=
    pairwise_lt_range'
  refine mem_take_of_le (hsr.filter _) (mem_filter.2 ⟨?_, ?_⟩) hmem hv
  · rw [mem_range'_1]
    omega
  · simp [OrdMap.contains, hn]

theorem Inv.fetch (h : Inv st outstanding none) : InvAfter outstanding st.fetch := by
  have hot : applyAll outstanding st.fetch.2 = outstanding ∪ st.missing.toFinset := rfl
  have hmn : ∀ v, Covered st outstanding v → Covered st (outstanding ∪ st.missing.toFinset) v :=
    fun v hv => hv.imp (Finset.mem_union_left _) id
  rw [InvAfter, hot]
  unfold State.fetch
  cases hls : st.missing.getLast? with
  | none =>
    simp only [hls]
    exact ⟨h.keyed, h.tracked, fun v h₁ h₂ h₃ h₄ => hmn v (h.covered v h₁ h₂ h₃ h₄)⟩
  | some last =>
    simp only [hls]
    refine ⟨h.keyed, h.tracked, fun v h₁ h₂ h₃ h₄ => ?_⟩
    by_cases hv : v < st.fetchFloor
    · exact hmn v (h.covered v h₁ hv h₃ h₄)
    · refine .inl (Finset.mem_union_right _ (mem_toFinset.2 ?_))
      exact mem_missing hls h₁ (Nat.le_of_not_lt hv) (Nat.le_of_lt_succ h₂) h₃

/-! ### Raising the floor -/

section

variable (h : Inv st outstanding uncovered)
include h

/-- A new floor covers every view below it, and what it drops concerns such views only. -/
theorem Inv.raise
    (hc : st.floorView ≤ c.view) (hu : ∀ v ∈ uncovered, v ≤ c.view) :
    InvAfter outstanding (prune { st with floor := some c }) := by
  have hf : floorView { st with floor := some c } = c.view := rfl
  have hf' : (prune { st with floor := some c }).1.floorView = c.view := rfl
  refine ⟨fun w n hn => ?_, fun w requests hr => ?_, fun v h₁ h₂ h₃ _ => ?_⟩
  · simp only [prune, get?_filter, Option.filter_eq_some_iff] at hn
    exact h.keyed w n hn.1
  · simp only [prune, get?_filter, Option.filter_eq_some_iff, hf,
      decide_eq_true_eq] at hr
    obtain ⟨hw, -, hrq⟩ := h.tracked w requests hr.1
    obtain ⟨n, hn⟩ := Option.isSome_iff_exists.1 hw
    refine ⟨?_, hr.2, hrq⟩
    simp [prune, get?_filter, hn, Option.filter, hf, hr.2]
  · rw [hf'] at h₁
    have h₃' : st.nullifications.get? v = none := by
      simp only [prune, get?_filter, Option.filter_eq_none_iff, hf] at h₃
      cases hn : st.nullifications.get? v with
      | none => rfl
      | some x => exact absurd h₁ (by simpa using h₃ x hn)
    have hne : uncovered ≠ some v := fun hv => absurd (hu v hv) (Nat.not_le_of_lt h₁)
    rcases h.covered v (lt_of_le_of_lt hc h₁) h₂ h₃' hne with hv | ⟨w, requests, hr, hv⟩
    · refine .inl ?_
      simpa [prune, applyAll, Call.apply, hf] using ⟨hv, h₁⟩
    · refine .inr ⟨w, requests, ?_, hv⟩
      have hw : c.view < w := lt_of_lt_of_le h₁ ((h.tracked w requests hr).2.2 v hv)
      simp [prune, get?_filter, hr, Option.filter, hf, hw]

theorem Inv.close (hu : ∀ v ∈ uncovered, v ≤ st.floorView) : Inv st outstanding none :=
  ⟨h.keyed, h.tracked, fun v h₁ h₂ h₃ _ => h.covered v h₁ h₂ h₃ fun hv =>
    absurd (hu v hv) (Nat.not_le_of_lt h₁)⟩

/-! ### Certificates -/

theorem Inv.storeNullification {n : Nullification Cert} (hu : ∀ v ∈ uncovered, n.round.view = v) :
    InvAfter outstanding (st.store (.nullification n) uncovered) := by
  unfold store
  dsimp only [encounterView]
  split
  · next hnw =>
      refine ⟨h.keyed, h.tracked, fun v h₁ h₂ h₃ _ => ?_⟩
      have hv : v ≠ n.round.view := by
        rintro rfl
        simp at h₃
      rw [get?_insert_of_ne _ _ hv] at h₃
      have hc := h.covered v h₁ h₂ h₃ fun hv' => hv (hu v hv').symm
      refine hc.imp (fun hm => ?_) id
      exact Finset.mem_erase.2 ⟨hv, hm⟩
  · next hnw =>
      refine (h.encounterView n.round.view).close fun v hv => ?_
      rw [← hu v hv]
      exact Nat.le_of_not_lt fun hlt => hnw (decide_eq_true hlt)

theorem Inv.storeNotarization {n : Notarization D Cert}
    (hu : ∀ v ∈ uncovered, v ≤ n.proposal.view) :
    InvAfter outstanding (st.store (.notarization n) uncovered) := by
  have hky : ∀ w m, (st.notarizations.insert n.proposal.view n).get? w = some m →
      m.proposal.view = w := by
    intro w m hm
    rw [get?_insert] at hm
    split_ifs at hm with hw
    · cases hm
      exact hw.symm
    · exact h.keyed w m hm
  have hsm : ∀ w, (st.notarizations.get? w).isSome = true →
      ((st.notarizations.insert n.proposal.view n).get? w).isSome = true := by
    intro w hw
    rw [get?_insert]
    split_ifs
    · rfl
    · exact hw
  unfold State.store
  dsimp only [State.encounterView]
  split
  · next hnw =>
      cases uncovered with
      | none =>
        exact ⟨hky, fun w r hr => (h.tracked w r hr).imp (hsm w) id, h.covered⟩
      | some k =>
        have hk : k ≤ n.proposal.view := hu k rfl
        refine ⟨hky, fun w requests hr => ?_, fun v h₁ h₂ h₃ _ => ?_⟩
        · simp only [get?_insert] at hr
          split_ifs at hr with hw
          · subst hw
            cases hr
            refine ⟨by simp, of_decide_eq_true hnw, fun v hv => ?_⟩
            rw [get?_insert] at hv
            split_ifs at hv with hvk
            · exact hvk ▸ hk
            · cases hrq : st.satisfiedBy.get? n.proposal.view with
              | none => simp [hrq] at hv
              | some r => exact (h.tracked _ r hrq).2.2 v (by simpa [hrq] using hv)
          · exact (h.tracked w requests hr).imp (hsm w) id
        · by_cases hvk : v = k
          · refine .inr ⟨n.proposal.view, _, get?_insert_self _ _ _, ?_⟩
            rw [hvk, get?_insert_self]
            rfl
          · have hc := h.covered v h₁ h₂ h₃ fun hk' => hvk (Option.some_inj.1 hk').symm
            refine hc.imp id fun ⟨w, requests, hr, hv⟩ => ?_
            by_cases hw : w = n.proposal.view
            · subst hw
              refine ⟨_, _, get?_insert_self _ _ _, ?_⟩
              rw [get?_insert_of_ne _ _ hvk, hr]
              exact hv
            · exact ⟨w, requests, (get?_insert_of_ne _ _ hw).trans hr, hv⟩
  · next hnw =>
      refine (h.encounterView n.proposal.view).close fun v hv => le_trans (hu v hv) ?_
      exact Nat.le_of_not_lt fun hlt => hnw (decide_eq_true hlt)

theorem Inv.storeFinalization {n : Finalization D Cert}
    (hu : ∀ v ∈ uncovered, v ≤ n.proposal.view) :
    InvAfter outstanding (st.store (.finalization n) uncovered) := by
  unfold State.store
  dsimp only [State.encounterView]
  split
  · next hnw =>
      refine (h.encounterView n.proposal.view).raise (c := .finalization n) ?_ hu
      exact State.floorView_le_of_new hnw
  · next hnw =>
      refine (h.encounterView n.proposal.view).close fun v hv => le_trans (hu v hv) ?_
      simp only [Bool.or_eq_true, decide_eq_true_eq, not_or, not_lt] at hnw
      exact hnw.1

/-- **A certificate covers the request it answers.** -/
theorem Inv.handle
    (hu : ∀ v ∈ uncovered, Answers v c) : InvAfter outstanding (st.handle c uncovered) := by
  have hst : InvAfter outstanding (st.store c uncovered) := by
    cases c with
    | notarization n => exact h.storeNotarization hu
    | nullification n => exact h.storeNullification hu
    | finalization n => exact h.storeFinalization hu
  have hf := Inv.fetch hst
  rw [InvAfter, applyAll, applyAll, ← foldl_append] at hf
  exact hf

end

/-! ### Certification results -/

/-- Forgetting the requests that a notarization has answered, once they are covered otherwise. -/
theorem Inv.forget (h : Inv st outstanding none)
    {notarizations : OrdMap ℕ (Notarization D Cert)} {outstanding' failedViews : Finset ℕ}
    (hnt : ∀ w, notarizations.get? w = (st.notarizations.erase view).get? w)
    (hot : outstanding ⊆ outstanding')
    (hrq : ∀ requests, st.satisfiedBy.get? view = some requests → ∀ v, st.floorView < v →
      (requests.get? v).isSome = true → v ∈ outstanding') :
    Inv { st with notarizations, satisfiedBy := st.satisfiedBy.erase view, failedViews }
      outstanding' none := by
  refine ⟨fun w n hn => ?_, fun w requests hr => ?_, fun v h₁ h₂ h₃ _ => ?_⟩
  · rw [hnt, get?_erase] at hn
    split_ifs at hn
    exact h.keyed w n hn
  · rw [get?_erase] at hr
    split_ifs at hr with hw
    rw [hnt, get?_erase, if_neg hw]
    exact h.tracked w requests hr
  · rcases h.covered v h₁ h₂ h₃ (by simp) with hv | ⟨w, requests, hr, hv⟩
    · exact .inl (hot hv)
    · by_cases hw : w = view
      · subst hw
        exact .inl (hrq requests hr v h₁ hv)
      · exact .inr ⟨w, requests, by rw [get?_erase, if_neg hw, hr], hv⟩

theorem mem_applyAll_fetch {calls : List ℕ} {v : ℕ} :
    v ∈ applyAll outstanding (calls.map .fetch) ↔ v ∈ outstanding ∨ v ∈ calls := by
  induction calls generalizing outstanding with
  | nil => simp [applyAll]
  | cons c calls ih =>
    have := @ih (insert c outstanding)
    simp only [applyAll, map_cons, foldl_cons] at this ⊢
    rw [show Call.apply outstanding (.fetch c) = insert c outstanding from rfl, this]
    simp only [Finset.mem_insert, mem_cons]
    tauto

theorem Inv.certifiedFailure (h : Inv st outstanding none) (view : ℕ) :
    InvAfter outstanding (st.handleCertified view false) := by
  let requests := ((st.satisfiedBy.get? view).getD empty).keys
  let calls := (if view > st.floorView then [view] else []) ++
    requests.filter fun v => decide (v > st.floorView)
  have hcl : (st.handleCertified view false).2 = calls.map Call.fetch := by
    change (if view > st.floorView then [Call.fetch view] else []) ++ _ = _
    simp only [calls, map_append]
    split_ifs <;> rfl
  rw [InvAfter, hcl]
  refine h.forget (fun _ => rfl) (fun v hv => mem_applyAll_fetch.2 (.inl hv)) ?_
  intro r hr v hv hrv
  refine mem_applyAll_fetch.2 (.inr (mem_append_right _ (mem_filter.2 ⟨?_, ?_⟩)))
  · simpa [requests, hr] using (mem_keys_iff r).2 hrv
  · simpa using hv

/-- The floor moves up to a notarization that is certified, and with it beyond all requests that the
notarization has answered. -/
theorem Inv.certifiedSuccess (h : Inv st outstanding none) (view : ℕ) :
    InvAfter outstanding (st.handleCertified view true) := by
  have hq : (∀ r, st.satisfiedBy.get? view ≠ some r) →
      Inv { st with
        notarizations := st.notarizations.erase view
        satisfiedBy := st.satisfiedBy.erase view } outstanding none := fun hnn =>
    h.forget (fun _ => rfl) (Finset.Subset.refl _) fun r hr => absurd hr (hnn r)
  have hf : st.handleCertified view true =
      ({ (st.certifiedFloor view).1 with
        satisfiedBy := (st.certifiedFloor view).1.satisfiedBy.erase view },
        (st.certifiedFloor view).2) := rfl
  rw [hf]
  unfold certifiedFloor
  cases hn : st.notarizations.get? view with
  | none =>
    refine hq fun r hr => ?_
    simpa [hn] using (h.tracked view r hr).1
  | some n =>
    dsimp only
    split
    · next hvw =>
        have hv : Certificate.view (.notarization n : Certificate D Cert) = view :=
          h.keyed view n hn
        have hrs := h.raise (c := .notarization n) (by rw [hv]; exact hvw.le) (by simp)
        refine hrs.forget (fun w => ?_) (Finset.Subset.refl _) ?_
        · simp only [prune, get?_filter, get?_erase]
          split_ifs <;> rfl
        · intro r hr
          have := (hrs.tracked view r hr).2.1
          exact absurd this (by simp [prune, floorView, hv])
    · next hvw =>
        exact hq fun r hr => hvw (h.tracked view r hr).2.1

/-- **A certification result leaves every gap covered.** -/
theorem Inv.handleCertified (h : Inv st outstanding none) (view : ℕ) (success : Bool) :
    InvAfter outstanding (st.handleCertified view success) := by
  cases success with
  | true => exact h.certifiedSuccess view
  | false => exact h.certifiedFailure view

/-! ### The floor -/

theorem floorView_le_store (c : Certificate D Cert) (request : Option ℕ) :
    st.floorView ≤ (st.store c request).1.floorView := by
  unfold store
  cases c with
  | nullification n =>
    dsimp only [encounterView]
    split <;> exact le_rfl
  | notarization n =>
    dsimp only [encounterView]
    split
    · split <;> exact le_rfl
    · exact le_rfl
  | finalization n =>
    dsimp only [encounterView]
    split
    · next hnw => exact floorView_le_of_new hnw
    · exact le_rfl

theorem floorView_fetch : st.fetch.1.floorView = st.floorView := by
  unfold fetch
  dsimp only
  split <;> rfl

theorem floorView_le_handle (c : Certificate D Cert) (request : Option ℕ) :
    st.floorView ≤ (st.handle c request).1.floorView := by
  change _ ≤ (st.store c request).1.fetch.1.floorView
  rw [floorView_fetch]
  exact floorView_le_store c request

/-- A notarization that becomes the floor is above the floor before it. -/
theorem Inv.floorView_le_handleCertified (h : Inv st outstanding none) (view : ℕ)
    (success : Bool) : st.floorView ≤ (st.handleCertified view success).1.floorView := by
  cases success with
  | false => exact le_rfl
  | true =>
    change _ ≤ (st.certifiedFloor view).1.floorView
    unfold certifiedFloor
    cases hn : st.notarizations.get? view with
    | none => exact le_rfl
    | some n =>
      dsimp only
      split
      · next hvw =>
          have hv : n.proposal.view = view := h.keyed view n hn
          exact le_trans hvw.le hv.ge
      · exact le_rfl

end

/-! ### Runs -/

namespace Backfill

variable {cfg : Config D Sig Cert PK} {s s' : Backfill D Cert}

theorem inv_step (h : Inv s.state s.outstanding none) (hs : Step cfg s s') :
    Inv s'.state s'.outstanding none := by
  cases hs with
  | certificate c => exact h.handle (by simp)
  | certified view success => exact h.handleCertified view success
  | deliver view hv =>
    have hop : Inv s.state (s.outstanding.erase view) (some view) := by
      refine ⟨h.keyed, h.tracked, fun v h₁ h₂ h₃ hne => ?_⟩
      refine (h.covered v h₁ h₂ h₃ (by simp)).imp (fun hm => ?_) id
      exact Finset.mem_erase.2 ⟨fun he => hne (by rw [he]), hm⟩
    refine hop.handle fun v hv' => ?_
    cases hv'
    exact (answers_of_validate hv).2
  | reject view hv => exact h

theorem floorView_le_step (h : Inv s.state s.outstanding none) (hs : Step cfg s s') :
    s.state.floorView ≤ s'.state.floorView := by
  cases hs with
  | certificate c => exact floorView_le_handle c none
  | certified view success => exact h.floorView_le_handleCertified view success
  | @deliver view incoming c hv => exact floorView_le_handle c (some view)
  | reject view hv => exact le_rfl

theorem inv_run (h : Inv s.state s.outstanding none) (hs : Relation.ReflTransGen (Step cfg) s s') :
    Inv s'.state s'.outstanding none ∧ s.state.floorView ≤ s'.state.floorView := by
  induction hs with
  | refl => exact ⟨h, le_rfl⟩
  | tail _ hst ih => exact ⟨inv_step ih.1 hst, le_trans ih.2 (floorView_le_step ih.1 hst)⟩

/-- **No gap is forgotten.**  In every state that the resolver reaches, a view above the floor and
below the fetch cursor whose nullification is not stored is requested, or its request has been
answered by a notarization of the view or a later one that still waits for its certification; and
from there on the floor only moves up. -/
theorem gaps_tracked {fetchConcurrent : ℕ}
    (h : Relation.ReflTransGen (Step cfg) (init fetchConcurrent) s) :
    (∀ v, s.state.floorView < v → v < s.state.fetchFloor → s.state.nullifications.get? v = none →
      v ∈ s.outstanding ∨ ∃ w requests, s.state.satisfiedBy.get? w = some requests ∧
        (requests.get? v).isSome = true ∧ v ≤ w ∧ s.state.floorView < w ∧
        (s.state.notarizations.get? w).isSome = true) ∧
      ∀ s', Relation.ReflTransGen (Step cfg) s s' → s.state.floorView ≤ s'.state.floorView := by
  have h₀ : Inv (new fetchConcurrent : State D Cert) ∅ none := inv_new fetchConcurrent
  obtain ⟨hin, -⟩ := inv_run (s := init fetchConcurrent) h₀ h
  refine ⟨fun v h₁ h₂ h₃ => ?_, fun s' hs => (inv_run hin hs).2⟩
  refine (hin.covered v h₁ h₂ h₃ (by simp)).imp id fun ⟨w, requests, hr, hv⟩ => ?_
  obtain ⟨hw, hf, hle⟩ := hin.tracked w requests hr
  exact ⟨w, requests, hr, hv, hle v hv, hf, hw⟩

/-! A nullification of view 4 makes the resolver request views 1 and 2; a peer answers the request
for view 1 with a notarization of view 3. -/

def sampleConfig : Config ℕ Unit Unit Unit where
  scheme :=
    { signer := none
      participants := [()]
      verifyAttestation := fun _ _ _ => true
      verifyAttestations := fun _ _ l => ⟨l, []⟩
      assemble := fun _ => some ()
      verifyCertificate := fun _ _ _ => true
      verifyCertificates := fun _ _ => true }
  ns := []
  epoch := 0

def sampleNotarization : Certificate ℕ Unit := .notarization ⟨⟨⟨0, 3⟩, 0, 7⟩, ()⟩

def sampleRequested : Backfill ℕ Unit :=
  apply ∅ ((new 2).handle (.nullification ⟨⟨0, 4⟩, ()⟩) none)

def sampleAnswered : Backfill ℕ Unit :=
  apply (sampleRequested.outstanding.erase 1)
    (sampleRequested.state.handle sampleNotarization (some 1))

theorem sampleAnswered_reachable :
    Relation.ReflTransGen (Step sampleConfig) (init 2) sampleAnswered := by
  have h₁ : Step sampleConfig (init 2) sampleRequested := Step.certificate (init 2) _
  have hv : validate sampleConfig sampleRequested.state 1 sampleNotarization =
      some sampleNotarization := by decide
  have h₂ : Step sampleConfig sampleRequested sampleAnswered := Step.deliver sampleRequested 1 hv
  exact (Relation.ReflTransGen.single h₁).tail h₂

theorem gaps_tracked_sample : (1 ∉ sampleAnswered.outstanding ∧ sampleAnswered.state.floorView < 1 ∧
      1 < sampleAnswered.state.fetchFloor) ∧
      ∃ w requests, sampleAnswered.state.satisfiedBy.get? w = some requests ∧
        (requests.get? 1).isSome = true ∧ 1 ≤ w ∧ sampleAnswered.state.floorView < w ∧
        (sampleAnswered.state.notarizations.get? w).isSome = true := by
  have hnt : 1 ∉ sampleAnswered.outstanding := by decide
  refine ⟨⟨hnt, by decide, by decide⟩, ?_⟩
  exact ((gaps_tracked sampleAnswered_reachable).1 1 (by decide) (by decide)
    (by decide)).resolve_left hnt

end Backfill

end Commonware.Simplex.Resolver
