/-
**Answering a peer's request.**

A resolver answers the request for a view with the certificate that `State.get` gives, encoded; the
peer decodes the answer and checks it in `Actor::validate`.  The two sides state the same contract in
two places: a floor answers every view up to its own, a nullification only its own view, and a
notarization of a view whose certification has failed answers nothing.  This module shows that they
agree: an answer of one honest node is accepted by every other honest node of the epoch, as long as
their certification results do not contradict each other.

Main definitions:

* `Simplex.Certificate.codec` — the format of certificates;
* `produce`, `validateBytes` — an answer, and its check;
* `Reach` — the states of a resolver that is given valid certificates only, with the certification
  results it was given.

Main results:

* `Served.reach`, `served_genuine` — what a resolver stores and serves is valid, and its floor is
  certified;
* `answer_accepted` — **an honest answer is accepted**.
-/

import Commonware.FaultEvidence
import Commonware.ResolverBackfill

set_option autoImplicit false

namespace Commonware.Simplex

open Wire (Bytes Codec)

variable {D Sig Cert PK : Type}

/-! ### The format of certificates -/

def Notarization.codec (payload : Codec D) (certificate : Codec Cert) :
    Codec (Notarization D Cert) :=
  ((Proposal.codec payload).pair certificate).map (fun x => ⟨x.1, x.2⟩)
    (fun n => (n.proposal, n.certificate)) fun _ => rfl

def Nullification.codec (certificate : Codec Cert) : Codec (Nullification Cert) :=
  (Rnd.codec.pair certificate).map (fun x => ⟨x.1, x.2⟩) (fun n => (n.round, n.certificate))
    fun _ => rfl

def Finalization.codec (payload : Codec D) (certificate : Codec Cert) :
    Codec (Finalization D Cert) :=
  ((Proposal.codec payload).pair certificate).map (fun x => ⟨x.1, x.2⟩)
    (fun n => (n.proposal, n.certificate)) fun _ => rfl

/-- A tag for the kind, and the certificate. -/
def Certificate.codec (payload : Codec D) (certificate : Codec Cert) :
    Codec (Certificate D Cert) where
  valid
    | .notarization n => (Notarization.codec payload certificate).valid n
    | .nullification n => (Nullification.codec certificate).valid n
    | .finalization n => (Finalization.codec payload certificate).valid n
  write
    | .notarization n => 0 :: (Notarization.codec payload certificate).write n
    | .nullification n => 1 :: (Nullification.codec certificate).write n
    | .finalization n => 2 :: (Finalization.codec payload certificate).write n
  read
    | [] => .error .endOfBuffer
    | tag :: bs =>
      if tag = 0 then
        ((Notarization.codec payload certificate).read bs).map fun r => (.notarization r.1, r.2)
      else if tag = 1 then
        ((Nullification.codec certificate).read bs).map fun r => (.nullification r.1, r.2)
      else if tag = 2 then
        ((Finalization.codec payload certificate).read bs).map fun r => (.finalization r.1, r.2)
      else .error (.invalid "consensus::simplex::Certificate" "Invalid type")
  read_write c rest h := by
    cases c with
    | notarization n =>
      simp [(Notarization.codec payload certificate).read_write n rest h, Except.map]
    | nullification n =>
      simp [(Nullification.codec certificate).read_write n rest h, Except.map]
    | finalization n =>
      simp [(Finalization.codec payload certificate).read_write n rest h, Except.map]

theorem Rnd.codec_sound : Rnd.codec.Sound :=
  ((Varint.codec_sound 8).pair (Varint.codec_sound 8)).map _ fun _ => rfl

variable {payload : Codec D}

theorem Proposal.codec_sound (h : payload.Sound) :
    (Proposal.codec payload).Sound :=
  (Rnd.codec_sound.pair ((Varint.codec_sound 8).pair h)).map _ fun _ => rfl

theorem Certificate.codec_sound {certificate : Codec Cert}
    (hp : payload.Sound) (hc : certificate.Sound) :
    (Certificate.codec payload certificate).Sound := by
  have hn : (Notarization.codec payload certificate).Sound :=
    ((Proposal.codec_sound hp).pair hc).map _ fun _ => rfl
  have hu : (Nullification.codec certificate).Sound :=
    (Rnd.codec_sound.pair hc).map _ fun _ => rfl
  have hf : (Finalization.codec payload certificate).Sound :=
    ((Proposal.codec_sound hp).pair hc).map _ fun _ => rfl
  intro bs c rest h
  cases bs with
  | nil => cases h
  | cons tag bs =>
    simp only [Certificate.codec] at h
    split_ifs at h
    · cases hrd : (Notarization.codec payload certificate).read bs with
      | error e => simp [hrd, Except.map] at h
      | ok r =>
        simp only [hrd, Except.map, Except.ok.injEq, Prod.mk.injEq] at h
        rw [← h.1]
        exact hn bs r.1 r.2 hrd
    · cases hrd : (Nullification.codec certificate).read bs with
      | error e => simp [hrd, Except.map] at h
      | ok r =>
        simp only [hrd, Except.map, Except.ok.injEq, Prod.mk.injEq] at h
        rw [← h.1]
        exact hu bs r.1 r.2 hrd
    · cases hrd : (Finalization.codec payload certificate).read bs with
      | error e => simp [hrd, Except.map] at h
      | ok r =>
        simp only [hrd, Except.map, Except.ok.injEq, Prod.mk.injEq] at h
        rw [← h.1]
        exact hf bs r.1 r.2 hrd

namespace Resolver

/-! ### Requests and answers -/

/-- The formats of payloads and of the certificates of the scheme, as it is configured in an
epoch. -/
structure Format (D Cert : Type) where
  payload : Codec D
  certificate : Codec Cert

def Format.codec (format : Format D Cert) : Codec (Certificate D Cert) :=
  Certificate.codec format.payload format.certificate

def produce (format : Format D Cert) (st : State D Cert) (view : ℕ) : Option Bytes :=
  (st.get view).map format.codec.write

/-- The certificate of an answer to a request for a view, if it is accepted. -/
def validateBytes (cfg : Config D Sig Cert PK) (format : Format D Cert) (st : State D Cert)
    (view : ℕ) (data : Bytes) : Option (Certificate D Cert) :=
  match format.codec.decode data with
  | .error _ => none
  | .ok incoming => validate cfg st view incoming

/-- What the voter passes on, and what is accepted from peers: a certificate of the epoch that
verifies and that can be encoded. -/
structure Genuine (cfg : Config D Sig Cert PK) (format : Format D Cert) (c : Certificate D Cert) :
    Prop where
  epoch : c.round.epoch = cfg.epoch
  verifies : c.verify cfg.scheme cfg.ns = true
  encodes : format.codec.valid c

/-- The states of a resolver, with the certification results that it was told. -/
inductive Reach (cfg : Config D Sig Cert PK) (format : Format D Cert) :
    State D Cert → List (ℕ × Bool) → Prop
  | new (fetchConcurrent : ℕ) : Reach cfg format (State.new fetchConcurrent) []
  /-- The voter passes a certificate on. -/
  | certificate {st : State D Cert} {verdicts : List (ℕ × Bool)} {c : Certificate D Cert}
      (run : Reach cfg format st verdicts) (h : Genuine cfg format c) :
      Reach cfg format (st.handle c none).1 verdicts
  | certified {st : State D Cert} {verdicts : List (ℕ × Bool)} (view : ℕ) (success : Bool)
      (run : Reach cfg format st verdicts) :
      Reach cfg format (st.handleCertified view success).1 (verdicts ++ [(view, success)])
  /-- A peer answers a request, and the answer is accepted. -/
  | deliver {st : State D Cert} {verdicts : List (ℕ × Bool)} {view : ℕ} {data : Bytes}
      {c : Certificate D Cert} (run : Reach cfg format st verdicts)
      (h : validateBytes cfg format st view data = some c) :
      Reach cfg format (st.handle c (some view)).1 verdicts

/-! ### What is accepted is genuine -/

section

variable {cfg : Config D Sig Cert PK} {format : Format D Cert}
  {c : Certificate D Cert} {view : ℕ} {st : State D Cert}

theorem genuine_of_validateBytes (hsn : format.codec.Sound)
    {data : Bytes} (h : validateBytes cfg format st view data = some c) : Genuine cfg format c := by
  rw [validateBytes] at h
  cases hdc : format.codec.decode data with
  | error e => simp [hdc] at h
  | ok incoming =>
    simp only [hdc] at h
    obtain ⟨rfl, -⟩ := answers_of_validate h
    have hvl := hsn.decode hdc
    cases c with
    | notarization n =>
      simp only [validate] at h
      split_ifs at h with h₁ h₂ h₃ h₄
      exact ⟨not_not.1 h₂, by simpa using h₄, hvl⟩
    | finalization n | nullification n =>
      simp only [validate] at h
      split_ifs at h with h₁ h₂ h₃
      exact ⟨not_not.1 h₂, by simpa using h₃, hvl⟩

/-! ### What is stored -/

/-- What may be the floor: a finalization, or a notarization that was certified. -/
def FloorOk (verdicts : List (ℕ × Bool)) : Certificate D Cert → Prop
  | .notarization n => (n.proposal.view, true) ∈ verdicts
  | .nullification _ => False
  | .finalization _ => True

/-- What a resolver stores: genuine certificates, each under its view. -/
structure Served (cfg : Config D Sig Cert PK) (format : Format D Cert) (st : State D Cert)
    (verdicts : List (ℕ × Bool)) : Prop where
  floor : ∀ c, st.floor = some c → Genuine cfg format c ∧ FloorOk verdicts c
  notarizations : ∀ w n, st.notarizations.get? w = some n →
    n.proposal.view = w ∧ Genuine cfg format (.notarization n)
  nullifications : ∀ w c, st.nullifications.get? w = some c →
    ∃ n, c = .nullification n ∧ n.round.view = w ∧ Genuine cfg format c
  failed : ∀ w ∈ st.failedViews, (w, false) ∈ verdicts

variable {st st' : State D Cert} {verdicts : List (ℕ × Bool)}

theorem Served.new (fetchConcurrent : ℕ) : Served cfg format (State.new fetchConcurrent) [] := by
  constructor <;> simp [State.new]

/-- A state that stores no more, with the same floor. -/
theorem Served.mono (h : Served cfg format st verdicts) (hfl : st'.floor = st.floor)
    (hnt : ∀ w n, st'.notarizations.get? w = some n → st.notarizations.get? w = some n)
    (hnl : ∀ w c, st'.nullifications.get? w = some c → st.nullifications.get? w = some c)
    (hf : st'.failedViews ⊆ st.failedViews) : Served cfg format st' verdicts := by
  refine ⟨?_, fun w n hn => h.notarizations w n (hnt w n hn),
    fun w c hc => h.nullifications w c (hnl w c hc), fun w hw => h.failed w (hf hw)⟩
  rw [hfl]
  exact h.floor

theorem FloorOk.mono (h : FloorOk verdicts c) (more : List (ℕ × Bool)) :
    FloorOk (verdicts ++ more) c := by
  cases c with
  | notarization n => exact List.mem_append_left _ h
  | nullification | finalization => exact h

section

variable (h : Served cfg format st verdicts)
include h

/-- More certification results are known. -/
theorem Served.append (more : List (ℕ × Bool)) : Served cfg format st (verdicts ++ more) := by
  refine ⟨fun c hc => ?_, h.notarizations, h.nullifications,
    fun w hw => List.mem_append_left _ (h.failed w hw)⟩
  obtain ⟨hg, hok⟩ := h.floor c hc
  exact ⟨hg, hok.mono more⟩

theorem Served.raise (hc : Genuine cfg format c) (hok : FloorOk verdicts c) :
    Served cfg format (State.prune { st with floor := some c }).1 verdicts := by
  have hf : Served cfg format { st with floor := some c } verdicts := by
    refine ⟨fun c' hc' => ?_, h.notarizations, h.nullifications, h.failed⟩
    cases hc'
    exact ⟨hc, hok⟩
  refine hf.mono rfl (fun w n hn => ?_) (fun w c' hc' => ?_) (Finset.filter_subset _ _)
  · simp only [State.prune, OrdMap.get?_filter, Option.filter_eq_some_iff] at hn
    exact hn.1
  · simp only [State.prune, OrdMap.get?_filter, Option.filter_eq_some_iff] at hc'
    exact hc'.1

/-! ### Steps -/

theorem Served.store (hc : Genuine cfg format c)
    (request : Option ℕ) : Served cfg format (st.store c request).1 verdicts := by
  have hsm : ∀ view, Served cfg format (st.encounterView view).2 verdicts := fun view =>
    h.mono rfl (fun _ _ hn => hn) (fun _ _ hn => hn) (Finset.Subset.refl _)
  unfold State.store
  cases c with
  | nullification n =>
    dsimp only [State.encounterView]
    split
    · refine ⟨h.floor, h.notarizations, fun w c' hc' => ?_, h.failed⟩
      simp only [OrdMap.get?_insert] at hc'
      split_ifs at hc' with hw
      · cases hc'
        exact ⟨n, rfl, hw.symm, hc⟩
      · exact h.nullifications w c' hc'
    · exact hsm n.round.view
  | notarization n =>
    have hst : ∀ w m, (st.notarizations.insert n.proposal.view n).get? w = some m →
        m.proposal.view = w ∧ Genuine cfg format (.notarization m) := by
      intro w m hm
      rw [OrdMap.get?_insert] at hm
      split_ifs at hm with hw
      · cases hm
        exact ⟨hw.symm, hc⟩
      · exact h.notarizations w m hm
    dsimp only [State.encounterView]
    split
    · cases request with
      | none | some view => exact { h with notarizations := hst }
    · exact hsm n.proposal.view
  | finalization n =>
    dsimp only [State.encounterView]
    split
    · exact (hsm n.proposal.view).raise hc trivial
    · exact hsm n.proposal.view

theorem Served.handle (hc : Genuine cfg format c)
    (request : Option ℕ) : Served cfg format (st.handle c request).1 verdicts := by
  have hst := h.store hc request
  change Served cfg format (st.store c request).1.fetch.1 verdicts
  unfold State.fetch
  dsimp only
  split
  · exact hst
  · exact hst.mono rfl (fun _ _ hn => hn) (fun _ _ hn => hn) (Finset.Subset.refl _)

omit h in
theorem get?_of_get?_erase {n : Notarization D Cert} {w : ℕ}
    (hn : (st.notarizations.erase view).get? w = some n) : st.notarizations.get? w = some n := by
  rw [OrdMap.get?_erase] at hn
  split_ifs at hn
  exact hn

theorem Served.certifiedSuccess (view : ℕ) :
    Served cfg format (st.handleCertified view true).1 (verdicts ++ [(view, true)]) := by
  have h' := h.append [(view, true)]
  have hdr : Served cfg format { st with notarizations := st.notarizations.erase view }
      (verdicts ++ [(view, true)]) :=
    h'.mono rfl (fun _ _ hn => get?_of_get?_erase hn) (fun _ _ hn => hn) (Finset.Subset.refl _)
  have hf : Served cfg format (st.certifiedFloor view).1 (verdicts ++ [(view, true)]) := by
    unfold State.certifiedFloor
    cases hn : st.notarizations.get? view with
    | none => exact hdr
    | some n =>
      obtain ⟨hvw, hg⟩ := h.notarizations view n hn
      dsimp only
      split
      · refine hdr.raise hg ?_
        -- the view that was certified is that of the notarization
        change (n.proposal.view, true) ∈ verdicts ++ [(view, true)]
        rw [hvw]
        simp
      · exact hdr
  exact hf.mono rfl (fun _ _ hn => hn) (fun _ _ hn => hn) (Finset.Subset.refl _)

theorem Served.certifiedFailure (view : ℕ) :
    Served cfg format (st.handleCertified view false).1 (verdicts ++ [(view, false)]) := by
  have h' := h.append [(view, false)]
  refine ⟨h'.floor, fun w n hn => h'.notarizations w n (get?_of_get?_erase hn), h'.nullifications,
    fun w hw => ?_⟩
  rcases Finset.mem_insert.1 hw with rfl | hw
  · simp
  · exact h'.failed w hw

end

/-- **Only genuine certificates are stored, and the floor is certified.** -/
theorem Served.reach (hsn : format.codec.Sound) (run : Reach cfg format st verdicts) :
    Served cfg format st verdicts := by
  induction run with
  | new fetchConcurrent => exact Served.new fetchConcurrent
  | certificate run hc ih => exact ih.handle hc none
  | certified view success run ih =>
    cases success with
    | true => exact ih.certifiedSuccess view
    | false => exact ih.certifiedFailure view
  | deliver run hv ih => exact ih.handle (genuine_of_validateBytes hsn hv) _

/-! ### Answers are accepted -/

/-- What is served for a view answers a request for it. -/
theorem Served.answers (h : Served cfg format st verdicts) (hgt : st.get view = some c) :
    Genuine cfg format c ∧ Answers view c ∧
      ∀ n, c = .notarization n → (n.proposal.view, true) ∈ verdicts := by
  have hnl : st.nullifications.get? view = some c → Genuine cfg format c ∧ Answers view c ∧
      ∀ n, c = .notarization n → (n.proposal.view, true) ∈ verdicts := by
    intro hc
    obtain ⟨n, rfl, hvw, hg⟩ := h.nullifications view c hc
    exact ⟨hg, hvw, fun _ hn => by cases hn⟩
  unfold State.get at hgt
  cases hf : st.floor with
  | none =>
    simp only [hf] at hgt
    exact hnl hgt
  | some floor =>
    simp only [hf] at hgt
    split_ifs at hgt with hvw
    · cases hgt
      obtain ⟨hg, hok⟩ := h.floor c hf
      refine ⟨hg, ?_, ?_⟩
      · cases c with
        | notarization n => exact hvw
        | nullification n => exact hok.elim
        | finalization n => exact hvw
      · rintro n rfl
        exact hok
    · exact hnl hgt

/-- **Only genuine certificates are served**, whatever bytes peers send: what is served for a view
verifies, settles the view and, if it is a notarization, was certified. -/
theorem served_genuine (hpayload : format.payload.Sound) (hcertificate : format.certificate.Sound)
    (run : Reach cfg format st verdicts) (h : st.get view = some c) :
    Genuine cfg format c ∧ Answers view c ∧
      ∀ n, c = .notarization n → (n.proposal.view, true) ∈ verdicts :=
  (Served.reach (Certificate.codec_sound hpayload hcertificate) run).answers h

/-- Two nodes of one epoch: they verify certificates alike. -/
structure Peers (a b : Config D Sig Cert PK) : Prop where
  ns : a.ns = b.ns
  epoch : a.epoch = b.epoch
  verify : a.scheme.verifyCertificate = b.scheme.verifyCertificate

theorem Peers.verify_eq {a b : Config D Sig Cert PK} (h : Peers a b) (c : Certificate D Cert) :
    c.verify a.scheme a.ns = c.verify b.scheme b.ns := by
  cases c <;> simp only [Certificate.verify, h.verify, h.ns]

/-- The checks of the receiver are those that the sender's state passes. -/
theorem validate_of_answers (he : c.round.epoch = cfg.epoch)
    (hvr : c.verify cfg.scheme cfg.ns = true) (han : Answers view c)
    (hf : ∀ n, c = .notarization n → n.proposal.view ∉ st.failedViews) :
    validate cfg st view c = some c := by
  cases c with
  | notarization n =>
    have hvw : ¬ n.proposal.view < view := Nat.not_lt.2 han
    have he' : ¬ n.proposal.round.epoch ≠ cfg.epoch := not_not.2 he
    simp [validate, hvw, he', State.isFailed, hf n rfl, hvr]
  | nullification n =>
    have hvw : ¬ n.round.view ≠ view := not_not.2 han
    have he' : ¬ n.round.epoch ≠ cfg.epoch := not_not.2 he
    simp [validate, hvw, he', hvr]
  | finalization n =>
    have hvw : ¬ n.proposal.view < view := Nat.not_lt.2 han
    have he' : ¬ n.proposal.round.epoch ≠ cfg.epoch := not_not.2 he
    simp [validate, hvw, he', hvr]

end

/-- **Honest answers are accepted.** Two nodes of one epoch are in any states that they can reach,
and no certification succeeded at the one and failed at the other.  Then every answer of the first
to a request for any view is accepted by the second. -/
theorem answer_accepted {a b : Config D Sig Cert PK} (peers : Peers a b)
    {format : Format D Cert} (hpayload : format.payload.Sound)
    (hcertificate : format.certificate.Sound) {sa sb : State D Cert}
    {va vb : List (ℕ × Bool)} (ha : Reach a format sa va) (hb : Reach b format sb vb)
    (agree : ∀ w x y, (w, x) ∈ va → (w, y) ∈ vb → x = y) (view : ℕ) {data : Bytes}
    (h : produce format sa view = some data) :
    ∃ c, sa.get view = some c ∧ validateBytes b format sb view data = some c := by
  have hsn : format.codec.Sound := Certificate.codec_sound hpayload hcertificate
  obtain ⟨c, hgt, rfl⟩ := Option.map_eq_some_iff.1 h
  refine ⟨c, hgt, ?_⟩
  obtain ⟨hg, han, hcr⟩ := (Served.reach hsn ha).answers hgt
  rw [validateBytes, format.codec.decode_write hg.encodes]
  refine validate_of_answers (hg.epoch.trans peers.epoch)
    ((peers.verify_eq c).symm.trans hg.verifies) han fun n hn hf => ?_
  -- a notarization is served only after its certification, so the receiver has not seen it fail
  have hfl := (Served.reach hsn hb).failed _ hf
  exact Bool.noConfusion (agree _ true false (hcr n hn) hfl)

/-! A node certifies a notarization of view 3 and answers a request for view 1 with it; the node that
asks has seen the certification of view 2 fail. -/

def sampleFormat : Format ℕ Unit where
  payload := Varint.codec 8
  certificate :=
    { valid := fun _ => True
      write := fun _ => []
      read := fun bs => .ok ((), bs)
      read_write := fun _ _ _ => rfl }

def sampleSender : State ℕ Unit :=
  (((State.new 2).handle Backfill.sampleNotarization none).1.handleCertified 3 true).1

theorem sampleSender_reach : Reach Backfill.sampleConfig sampleFormat sampleSender [(3, true)] := by
  have hg : Genuine Backfill.sampleConfig sampleFormat Backfill.sampleNotarization := by
    have hfits : (0 < 2 ^ 64 ∧ 3 < 2 ^ 64) ∧ 0 < 2 ^ 64 ∧ 7 < 2 ^ 64 := by decide
    exact ⟨rfl, rfl, hfits, trivial⟩
  exact ((Reach.new 2).certificate hg).certified 3 true

theorem served_genuine_sample : ∃ c, sampleSender.get 1 = some c ∧
    Genuine Backfill.sampleConfig sampleFormat c := by
  have h : sampleSender.get 1 = some _ := rfl
  exact ⟨_, h,
    (served_genuine (Varint.codec_sound 8) (fun _ _ _ _ => trivial) sampleSender_reach h).1⟩

theorem answer_accepted_sample : ∃ data, produce sampleFormat sampleSender 1 = some data ∧
      ∃ c, sampleSender.get 1 = some c ∧
        validateBytes Backfill.sampleConfig sampleFormat ((State.new 2).handleCertified 2 false).1 1
          data = some c := by
  have hb : Reach Backfill.sampleConfig sampleFormat ((State.new 2).handleCertified 2 false).1
      [(2, false)] := (Reach.new 2).certified 2 false
  refine ⟨_, rfl, answer_accepted ⟨rfl, rfl, rfl⟩ (Varint.codec_sound 8) (fun _ _ _ _ => trivial)
    sampleSender_reach hb (fun w x y hx hy => ?_) 1 rfl⟩
  simp only [List.mem_singleton, Prod.mk.injEq] at hx hy
  omega

end Resolver

end Commonware.Simplex
