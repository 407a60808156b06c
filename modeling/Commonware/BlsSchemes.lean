/-
**Certificate schemes over BLS signatures.**

The generic threshold scheme and the multi-signature scheme of
`cryptography/src/bls12381/certificate`.  Both verify the attestations of a batch through sums: the
threshold scheme by bisection, the multi-signature scheme by one test of the whole batch and, if that
fails, one for each attestation.  Since errors can cancel in a sum, a batch is judged correctly only
if they do not.

Main definitions:

* `Verification.Exact` — the verified attestations are the valid ones;
* `Scheme.BatchExact` — batches are judged correctly exactly under a condition, and then what has
  been verified assembles to certificates that verify;
* `Threshold.scheme`, `Multisig.scheme` — the two schemes.

Main results:

* `Threshold.batchExact` — **the threshold scheme judges a batch correctly if and only if every
  invalid attestation is exposed**;
* `Multisig.batchExact` — **the multi-signature scheme does if and only if the errors of the batch
  do not cancel**.
-/

import Commonware.BlsOps

set_option autoImplicit false

namespace Commonware

open List Attestation

/-! ### The outcome of a batch -/

section

variable {S Sig Cert PK : Type}

/-- An ordered set of signers. -/
def signerSet (signers : List ℕ) : List ℕ := signers.toFinset.sort (· ≤ ·)

@[simp] theorem mem_signerSet {signers : List ℕ} {i : ℕ} : i ∈ signerSet signers ↔ i ∈ signers := by
  simp [signerSet]

namespace Verification

/-- The attestations of a batch, split by the signers that were found invalid. -/
def settle (l : List (Attestation Sig)) (invalid : List ℕ) : Verification Sig :=
  ⟨l.filter fun a => decide (a.signer ∉ invalid), signerSet invalid⟩

/-- The verified attestations are the valid ones, and the invalid signers those of the others. -/
structure Exact (r : Verification Sig) (l : List (Attestation Sig))
    (valid : Attestation Sig → Prop) : Prop where
  verified : ∀ a, a ∈ r.verified ↔ a ∈ l ∧ valid a
  invalid : ∀ i, i ∈ r.invalid ↔ ∃ a ∈ l, a.signer = i ∧ ¬ valid a

variable {l : List (Attestation Sig)}

theorem eq_of_signer (hnd : (l.map signer).Nodup)
    {a b : Attestation Sig} (ha : a ∈ l) (hb : b ∈ l) (h : a.signer = b.signer) : a = b :=
  inj_on_of_nodup_map hnd ha hb h

/-- A batch is judged correctly when the attestations whose signers are found are those that are
not valid. -/
theorem exact_settle_iff {invalid : List ℕ}
    {valid : Attestation Sig → Prop} (hnd : (l.map signer).Nodup)
    (hsb : ∀ i ∈ invalid, ∃ a ∈ l, a.signer = i) :
    (settle l invalid).Exact l valid ↔ ∀ a ∈ l, a.signer ∈ invalid ↔ ¬ valid a := by
  constructor
  · intro h a ha
    rw [← mem_signerSet, show signerSet invalid = (settle l invalid).invalid from rfl, h.invalid]
    constructor
    · rintro ⟨b, hb, hs, hv⟩
      exact eq_of_signer hnd hb ha hs ▸ hv
    · exact fun hv => ⟨a, ha, rfl, hv⟩
  · intro h
    refine ⟨fun a => ?_, fun i => ?_⟩
    · simp only [settle, mem_filter, decide_eq_true_eq]
      refine and_congr_right fun ha => ?_
      rw [h a ha, not_not]
    · rw [settle, mem_signerSet]
      constructor
      · intro hi
        obtain ⟨a, ha, rfl⟩ := hsb i hi
        exact ⟨a, ha, rfl, (h a ha).1 hi⟩
      · rintro ⟨a, ha, rfl, hv⟩
        exact (h a ha).2 hv

end Verification

/-- Batches of different signers are judged correctly exactly under a condition; and a quorum of
attestations that were verified in such batches assembles to a certificate that verifies. -/
structure Scheme.BatchExact (s : Scheme S Sig Cert PK) (ns : Namespace) (subject : S)
    (valid : Attestation Sig → Prop) (condition : List (Attestation Sig) → Prop) : Prop where
  exact_iff : ∀ l : List (Attestation Sig), (l.map Attestation.signer).Nodup →
    ((s.verifyAttestations ns subject l).Exact l valid ↔ condition l)
  assembles : ∀ q : List (Attestation Sig), (q.map Attestation.signer).Nodup →
    s.quorum ≤ q.length →
    (∀ a ∈ q, ∃ l : List (Attestation Sig), (l.map Attestation.signer).Nodup ∧ condition l ∧
      a ∈ (s.verifyAttestations ns subject l).verified) →
    ∃ c, s.assemble q = some c ∧ s.verifyCertificate ns subject c = true

/-- It is enough that valid attestations assemble. -/
theorem Scheme.BatchExact.of_valid {s : Scheme S Sig Cert PK} {ns : Namespace} {subject : S}
    {valid : Attestation Sig → Prop} {condition : List (Attestation Sig) → Prop}
    (hec : ∀ l : List (Attestation Sig), (l.map Attestation.signer).Nodup →
      ((s.verifyAttestations ns subject l).Exact l valid ↔ condition l))
    (ham : ∀ q : List (Attestation Sig), (q.map Attestation.signer).Nodup →
      s.quorum ≤ q.length → (∀ a ∈ q, valid a) →
      ∃ c, s.assemble q = some c ∧ s.verifyCertificate ns subject c = true) :
    s.BatchExact ns subject valid condition := by
  refine ⟨hec, fun q hnd hq hv => ham q hnd hq fun a ha => ?_⟩
  obtain ⟨l, hl, hcn, hmem⟩ := hv a ha
  exact ((((hec l hl).2 hcn).verified a).1 hmem).2

end

namespace Bls

variable {F P G : Type} [Field F] [AddCommGroup P] [Module F P] [AddCommGroup G] [Module F G]
variable {S PK : Type} [DecidableEq G]

/-! ### The threshold scheme -/

/-- A committee that shares a secret. -/
structure Threshold (F P G S PK : Type) [Field F] [AddCommGroup P] [Module F P] [AddCommGroup G]
    [Module F G] where
  variant : Variant F P G
  sharing : Sharing F P
  participants : List PK
  length_participants : participants.length = sharing.total
  /-- The index and the secret share of a signer. -/
  share : Option (ℕ × F)
  namespaceAndMessage : Namespace → S → Message

namespace Threshold

def scheme (t : Threshold F P G S PK) : Scheme S G G PK where
  signer := t.share.map fun share =>
    (share.1, fun ns subject => t.variant.signMessage share.2 (t.namespaceAndMessage ns subject))
  participants := t.participants
  verifyAttestation ns subject a :=
    match t.sharing.partialPublic a.signer with
    | none => false
    | some pk => t.variant.verifyMessage pk (t.namespaceAndMessage ns subject) a.signature
  verifyAttestations ns subject l :=
    .settle l ((partialVerifyMultiplePublicKeys t.variant t.sharing
      (t.namespaceAndMessage ns subject) l).map signer)
  assemble l := if l.length < t.sharing.required then none else recover t.sharing l
  verifyCertificate ns subject c :=
    t.variant.verifyMessage t.sharing.publicKey (t.namespaceAndMessage ns subject) c
  verifyCertificates ns l :=
    if l.isEmpty then true
    else t.variant.aggregateVerifyMultipleMessages t.sharing.publicKey
      (l.map fun x => t.namespaceAndMessage ns x.1) (l.map Prod.snd).sum

end Threshold

/-- Every partial signature that is not valid is exposed by the bisection of its batch. -/
def AllExposed (v : Variant F P G) (s : Sharing F P) (m : Message) (l : List (Attestation G)) :
    Prop :=
  ∀ x ∈ keyed s.partialPublic l, partialError v m x ≠ 0 →
    Bisection.Exposed (partialError v m) (keyed s.partialPublic l) x

variable {a : Attestation G} {m : Message}
  {l : List (Attestation G)} {v : Variant F P G} {s : Sharing F P}

theorem signer_mem_found_iff
    (hnd : (l.map signer).Nodup)
    (ha : a ∈ l) : a.signer ∈ (partialVerifyMultiplePublicKeys v s m l).map signer ↔
      ∀ pk, s.partialPublic a.signer = some pk →
        Bisection.Exposed (partialError v m) (keyed s.partialPublic l) (pk, a) := by
  rw [mem_map]
  constructor
  · rintro ⟨b, hb, hs⟩
    obtain ⟨hbl, he⟩ := (mem_partialVerifyMultiplePublicKeys hnd).1 hb
    exact Verification.eq_of_signer hnd hbl ha hs ▸ he
  · exact fun h => ⟨a, (mem_partialVerifyMultiplePublicKeys hnd).2 ⟨ha, h⟩, rfl⟩

omit [DecidableEq G] in
theorem not_genuine_of_exposed
    (ha : a ∈ l)
    (h : ∀ pk, s.partialPublic a.signer = some pk →
      Bisection.Exposed (partialError v m) (keyed s.partialPublic l) (pk, a)) :
    ¬ Genuine v s.partialPublic m a := by
  rintro ⟨pk, hpk, he⟩
  exact (h pk hpk).ne_zero (mem_keyed.2 ⟨ha, hpk⟩) he

/-- **The threshold scheme judges a batch correctly if and only if every invalid attestation is
exposed.** -/
theorem Threshold.batchExact (t : Threshold F P G S PK) (ns : Namespace) (subject : S) :
    t.scheme.BatchExact ns subject
      (Genuine t.variant t.sharing.partialPublic (t.namespaceAndMessage ns subject))
      (AllExposed t.variant t.sharing (t.namespaceAndMessage ns subject)) := by
  refine .of_valid (fun l hnd => ?_) fun q hnd hq hv => ?_
  · refine (Verification.exact_settle_iff hnd fun i hi => ?_).trans ?_
    · obtain ⟨a, ha, rfl⟩ := mem_map.1 hi
      exact ⟨a, ((mem_partialVerifyMultiplePublicKeys hnd).1 ha).1, rfl⟩
    · constructor
      · rintro h ⟨pk, a⟩ hmem he
        obtain ⟨ha, hpk⟩ := mem_keyed.1 hmem
        exact (signer_mem_found_iff hnd ha).1 ((h a ha).2 fun hv => he ((genuine_iff hpk).1 hv))
          pk hpk
      · intro h a ha
        rw [signer_mem_found_iff hnd ha]
        refine ⟨not_genuine_of_exposed ha, fun hng pk hpk => ?_⟩
        exact h (pk, a) (mem_keyed.2 ⟨ha, hpk⟩) fun he => hng ⟨pk, hpk, he⟩
  · have hlen : t.sharing.required ≤ q.length := by
      rw [Sharing.required, ← t.length_participants]
      exact hq
    exact ⟨t.variant.secret t.sharing.publicKey •
        t.variant.hashMessage (t.namespaceAndMessage ns subject),
      (if_neg (Nat.not_lt.2 hlen)).trans (recover_eq (card_indices hnd ▸ hlen) hv),
      Variant.verifyMessage_iff.2 (Variant.error_eq_zero_iff.2 rfl)⟩

/-! ### The multi-signature scheme -/

/-- A committee whose members have signing keys of their own. -/
structure Multisig (F P G S PK : Type) [Field F] [AddCommGroup P] [Module F P] [AddCommGroup G]
    [Module F G] where
  variant : Variant F P G
  /-- The identity and the signing key of each member. -/
  participants : List (PK × P)
  share : Option (ℕ × F)
  namespaceAndMessage : Namespace → S → Message

/-- The members that have signed, and the sum of their signatures. -/
structure Multisig.Certificate (G : Type) where
  signers : List Bool
  signature : G

namespace Multisig

/-- The bitmap of a list of different members. -/
def signersFrom (participants : ℕ) (signers : List ℕ) : List Bool :=
  (List.range participants).map fun i => decide (i ∈ signers)

/-- The members that a bitmap marks. -/
def Certificate.iter (c : Certificate G) : List ℕ :=
  (List.range c.signers.length).filter fun i => decide (c.signers[i]? = some true)

def value (k : Multisig F P G S PK) (i : ℕ) : Option P := k.participants[i]?.map Prod.snd

/-- The candidates that fail: none if the batch passes as a whole. -/
def failed (k : Multisig F P G S PK) (m : Message) (l : List (Attestation G)) : List ℕ :=
  let candidates := keyed k.value l
  if candidates.isEmpty then []
  else if k.variant.aggregateVerifyMultiplePublicKeys (candidates.map Prod.fst) m
    (candidates.map fun x => x.2.signature).sum then []
  else (candidates.filter fun x => !k.variant.verifyMessage x.1 m x.2.signature).map
    fun x => x.2.signer

def found (k : Multisig F P G S PK) (m : Message) (l : List (Attestation G)) : List ℕ :=
  (l.filter fun a => (k.value a.signer).isNone).map signer ++ k.failed m l

def verifyCertificate (k : Multisig F P G S PK) (ns : Namespace) (subject : S)
    (c : Certificate G) : Bool :=
  if c.signers.length ≠ k.participants.length then false
  else if c.signers.count true < quorum k.participants.length then false
  else if c.iter.any fun i => (k.value i).isNone then false
  else k.variant.aggregateVerifyMultiplePublicKeys (c.iter.filterMap k.value)
    (k.namespaceAndMessage ns subject) c.signature

def scheme (k : Multisig F P G S PK) : Scheme S G (Certificate G) PK where
  signer := k.share.map fun share =>
    (share.1, fun ns subject => k.variant.signMessage share.2 (k.namespaceAndMessage ns subject))
  participants := k.participants.map Prod.fst
  verifyAttestation ns subject a :=
    match k.value a.signer with
    | none => false
    | some pk => k.variant.verifyMessage pk (k.namespaceAndMessage ns subject) a.signature
  verifyAttestations ns subject l :=
    ⟨((keyed k.value l).map Prod.snd).filter fun a =>
        decide (a.signer ∉ k.found (k.namespaceAndMessage ns subject) l),
      signerSet (k.found (k.namespaceAndMessage ns subject) l)⟩
  assemble l :=
    if l.any fun a => decide (k.participants.length ≤ a.signer) then none
    else if l.length < quorum k.participants.length then none
    else some ⟨signersFrom k.participants.length (l.map signer),
      (l.map signature).sum⟩
  verifyCertificate := k.verifyCertificate
  verifyCertificates ns := Scheme.verifyCertificatesDefault (k.verifyCertificate ns)

/-- The errors of a batch do not cancel. -/
def Uncancelled (k : Multisig F P G S PK) (m : Message) (l : List (Attestation G)) : Prop :=
  ((keyed k.value l).map (partialError k.variant m)).sum = 0 →
    ∀ x ∈ keyed k.value l, partialError k.variant m x = 0

variable {k : Multisig F P G S PK} {l : List (Attestation G)}

/-- Members are found when the batch fails as a whole and their own signature does. -/
theorem mem_failed (hnd : (l.map signer).Nodup) {pk : P}
    (ha : a ∈ l) (hpk : k.value a.signer = some pk) :
    a.signer ∈ k.failed m l ↔ ((keyed k.value l).map (partialError k.variant m)).sum ≠ 0 ∧
      partialError k.variant m (pk, a) ≠ 0 := by
  have hmem : (pk, a) ∈ keyed k.value l := mem_keyed.2 ⟨ha, hpk⟩
  have hne : (keyed k.value l).isEmpty = false := by
    rw [isEmpty_eq_false_iff]
    exact ne_nil_of_mem hmem
  have hok : k.variant.aggregateVerifyMultiplePublicKeys ((keyed k.value l).map Prod.fst) m
      ((keyed k.value l).map fun x => x.2.signature).sum = true ↔
      ((keyed k.value l).map (partialError k.variant m)).sum = 0 := rangeOk_iff
  simp only [failed, hne, Bool.false_eq_true, if_false]
  split_ifs with h
  · exact iff_of_false not_mem_nil fun h' => h'.1 (hok.1 h)
  · rw [and_iff_right fun h0 => h (hok.2 h0)]
    simp only [mem_map, mem_filter, Bool.not_eq_true', ← Bool.not_eq_true,
      Variant.verifyMessage_iff]
    constructor
    · rintro ⟨⟨pk', b⟩, ⟨hb, he⟩, hs⟩
      obtain ⟨hbl, hpk'⟩ := mem_keyed.1 hb
      obtain rfl := Verification.eq_of_signer hnd hbl ha hs
      rw [hpk, Option.some_inj] at hpk'
      exact hpk' ▸ he
    · exact fun he => ⟨(pk, a), ⟨hmem, he⟩, rfl⟩

theorem mem_of_found {i : ℕ} (h : i ∈ k.found m l) : ∃ a ∈ l, a.signer = i := by
  rw [found, mem_append] at h
  rcases h with h | h
  · obtain ⟨a, ha, rfl⟩ := mem_map.1 h
    exact ⟨a, (mem_filter.1 ha).1, rfl⟩
  · simp only [failed] at h
    split_ifs at h
    · cases h
    · cases h
    · obtain ⟨⟨pk, a⟩, hx, rfl⟩ := mem_map.1 h
      exact ⟨a, (mem_keyed.1 (mem_filter.1 hx).1).1, rfl⟩

/-- Which signers are found: those that are no members, and members that fail. -/
theorem mem_found (hnd : (l.map signer).Nodup)
    (ha : a ∈ l) : a.signer ∈ k.found m l ↔ ∀ pk, k.value a.signer = some pk →
      ((keyed k.value l).map (partialError k.variant m)).sum ≠ 0 ∧
        partialError k.variant m (pk, a) ≠ 0 := by
  rw [found, mem_append]
  cases hpk : k.value a.signer with
  | none =>
    refine iff_of_true (.inl ?_) fun pk h => by cases h
    exact mem_map.2 ⟨a, mem_filter.2 ⟨ha, by rw [hpk]; rfl⟩, rfl⟩
  | some pk =>
    rw [mem_failed hnd ha hpk]
    constructor
    · rintro (h | h) pk' hpk'
      · obtain ⟨b, hb, hs⟩ := mem_map.1 h
        have := (mem_filter.1 hb).2
        rw [hs, hpk] at this
        cases this
      · exact Option.some_inj.1 hpk' ▸ h
    · exact fun h => .inr (h pk rfl)

/-- The verified attestations are those of the whole batch that are not found. -/
theorem verifyAttestations_eq (k : Multisig F P G S PK) (ns : Namespace) (subject : S)
    (l : List (Attestation G)) : k.scheme.verifyAttestations ns subject l =
      .settle l (k.found (k.namespaceAndMessage ns subject) l) := by
  refine congrArg (Verification.mk · _) ?_
  rw [map_snd_keyed, filter_filter]
  refine filter_congr fun a ha => ?_
  cases h : k.value a.signer with
  | some pk => simp
  | none =>
    have : a.signer ∈ k.found (k.namespaceAndMessage ns subject) l := by
      rw [found]
      exact mem_append_left _
        (mem_map.2 ⟨a, mem_filter.2 ⟨ha, by rw [h]; rfl⟩, rfl⟩)
    simp [this]

omit [DecidableEq G] in
theorem value_eq_some_lt {i : ℕ} {pk : P} (h : k.value i = some pk) :
    i < k.participants.length := by
  obtain ⟨x, hx, -⟩ := Option.map_eq_some_iff.1 h
  exact (List.getElem?_eq_some_iff.1 hx).1

variable {signers : List ℕ}

omit [AddCommGroup G] [DecidableEq G] in
/-- The members that the bitmap of a list marks are those of the list. -/
theorem iter_signersFrom {n : ℕ} (sig : G) (hnd : signers.Nodup)
    (hlt : ∀ i ∈ signers, i < n) :
    (Certificate.iter ⟨signersFrom n signers, sig⟩).Perm signers := by
  refine (perm_ext_iff_of_nodup (nodup_range.filter _) hnd).2 fun i => ?_
  simp only [signersFrom, length_map, length_range, mem_filter, mem_range,
    List.getElem?_map, decide_eq_true_eq]
  constructor
  · rintro ⟨hi, h⟩
    simpa [List.getElem?_range hi] using h
  · intro h
    simp [hlt i h, h]

theorem count_signersFrom {n : ℕ} (hnd : signers.Nodup)
    (hlt : ∀ i ∈ signers, i < n) : (signersFrom n signers).count true = signers.length := by
  have hp : ((List.range n).filter fun i => decide (i ∈ signers)).Perm signers := by
    refine (perm_ext_iff_of_nodup (nodup_range.filter _) hnd).2 fun i => ?_
    simp only [mem_filter, mem_range, decide_eq_true_eq, and_iff_right_iff_imp]
    exact hlt i
  rw [← hp.length_eq, signersFrom, List.count, countP_map, countP_eq_length_filter]
  simp [Function.comp_def]

/-- Valid signatures of a quorum of members make a certificate that verifies. -/
theorem assemble_verifies {ns : Namespace} {subject : S} {q : List (Attestation G)}
    (hnd : (q.map signer).Nodup) (hq : k.scheme.quorum ≤ q.length)
    (hv : ∀ a ∈ q, Genuine k.variant k.value (k.namespaceAndMessage ns subject) a) :
    ∃ c, k.scheme.assemble q = some c ∧ k.scheme.verifyCertificate ns subject c = true := by
  have hlt : ∀ i ∈ q.map signer, i < k.participants.length := by
    intro i hi
    obtain ⟨a, ha, rfl⟩ := mem_map.1 hi
    obtain ⟨pk, hpk, -⟩ := hv a ha
    exact value_eq_some_lt hpk
  have hlen : ¬ q.length < quorum k.participants.length := by
    simpa [Scheme.quorum, scheme] using hq
  have hnt : (q.any fun a => decide (k.participants.length ≤ a.signer)) = false := by
    rw [any_eq_false]
    intro a ha
    have := hlt a.signer (mem_map_of_mem ha)
    simpa using this
  refine ⟨⟨signersFrom k.participants.length (q.map signer),
    (q.map signature).sum⟩, ?_, ?_⟩
  · simp only [scheme, hnt, hlen, Bool.false_eq_true, if_false]
  · have hit := iter_signersFrom (q.map signature).sum hnd hlt
    have hky : ∀ i ∈ q.map signer, (k.value i).isSome := by
      intro i hi
      obtain ⟨a, ha, rfl⟩ := mem_map.1 hi
      obtain ⟨pk, hpk, -⟩ := hv a ha
      exact hpk ▸ rfl
    have hsm : ((Certificate.iter ⟨signersFrom k.participants.length
        (q.map signer), (q.map signature).sum⟩).any fun i =>
          (k.value i).isNone) = false := by
      rw [any_eq_false]
      intro i hi
      rw [Option.isNone_iff_eq_none, ← ne_eq, Option.ne_none_iff_isSome]
      exact hky i (hit.mem_iff.1 hi)
    -- the keys that the bitmap selects are those of the quorum, in another order
    have hs := (hit.filterMap k.value).sum_eq
    rw [← map_fst_keyed] at hs
    have hsn : (keyed k.value q).map Prod.snd = q := by
      rw [map_snd_keyed, filter_eq_self]
      intro a ha
      exact hky _ (mem_map_of_mem ha)
    have hsg : (keyed k.value q).map (fun x => x.2.signature) = q.map signature := by
      calc _ = ((keyed k.value q).map Prod.snd).map signature := by
            rw [map_map]
            rfl
        _ = _ := by rw [hsn]
    have hok : rangeOk k.variant (k.namespaceAndMessage ns subject) (keyed k.value q) = true := by
      refine rangeOk_iff.2 (sum_eq_zero fun e he => ?_)
      obtain ⟨⟨pk, a⟩, hmem, rfl⟩ := mem_map.1 he
      obtain ⟨ha, hpk⟩ := mem_keyed.1 hmem
      exact (genuine_iff hpk).1 (hv a ha)
    rw [rangeOk, hsg, ← hs] at hok
    simp only [scheme, verifyCertificate, hsm, Bool.false_eq_true, if_false]
    rw [if_neg (by simp [signersFrom]), if_neg (by rw [count_signersFrom hnd hlt]; simpa using hlen)]
    exact hok

/-- **The multi-signature scheme judges a batch correctly if and only if its errors do not
cancel.** -/
theorem batchExact (k : Multisig F P G S PK) (ns : Namespace) (subject : S) :
    k.scheme.BatchExact ns subject (Genuine k.variant k.value (k.namespaceAndMessage ns subject))
      (k.Uncancelled (k.namespaceAndMessage ns subject)) := by
  refine .of_valid (fun l hnd => ?_) fun q hnd hq hv => assemble_verifies hnd hq hv
  rw [verifyAttestations_eq, Verification.exact_settle_iff hnd fun i hi => mem_of_found hi]
  constructor
  · rintro h hs ⟨pk, a⟩ hmem
    obtain ⟨ha, hpk⟩ := mem_keyed.1 hmem
    by_contra he
    have hf := (h a ha).2 fun hv => he ((genuine_iff hpk).1 hv)
    exact ((mem_found hnd ha).1 hf pk hpk).1 hs
  · intro hu a ha
    rw [mem_found hnd ha]
    constructor
    · rintro hbad ⟨pk, hpk, he⟩
      exact (hbad pk hpk).2 he
    · intro hng pk hpk
      have he : partialError k.variant (k.namespaceAndMessage ns subject) (pk, a) ≠ 0 := by
        intro h0
        exact hng ((genuine_iff hpk).2 h0)
      exact ⟨fun hs => he (hu hs _ (mem_keyed.2 ⟨ha, hpk⟩)), he⟩

end Multisig

end Bls

end Commonware
