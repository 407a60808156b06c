/-
**BLS signatures and their aggregation.**

A signature of a message is its hash, a group element, multiplied with the secret key.  The model of
`cryptography/src/bls12381/primitives` keeps the two groups abstract: the public keys are a copy of
the scalars, the signatures are a module over them, and a signature verifies exactly when it is the
one that the secret key behind the public key gives.  Hashing to the group is an arbitrary function.

Signatures aggregate by plain sums.  Subtracting from each signature the one it should be leaves
its error, and an aggregate verifies exactly when the errors sum to zero.  Nothing more is true:
this module derives from it what the verification of many signatures finds.

Main definitions:

* `Bls.Variant`, `Bls.Variant.verify` — the groups, and the verification equation;
* `Bls.Variant.error` — how far a signature is from the valid one;
* `Bls.Sharing` — a secret shared among participants, with their public keys;
* `Bls.partialVerifyMultiplePublicKeys` — verification of many partial signatures by bisection;
* `Bls.recover` — recovery of a signature from partial ones.

Main results:

* `Bls.verifyMessage_sum_iff` — an aggregate verifies if and only if its errors sum to zero;
* `Bls.mem_partialVerifyMultiplePublicKeys` — what bisection finds;
* `Bls.recover_eq` — **a quorum of valid partial signatures recovers the valid signature**;
* `Bls.recovery_exact` — what recovery returns for any partial signatures.
-/

import Commonware.Bisection
import Commonware.CertificateScheme
import Commonware.OrdMap
import Commonware.Varint

set_option autoImplicit false

namespace Commonware.Bls

open List Option Attestation

open Wire (Bytes)

instance ringHomInvPair_id {F : Type} [Field F] : RingHomInvPair (RingHom.id F) (RingHom.id F) :=
  .ids

/-- The groups of public keys and of signatures, over the scalars `F`.  A public key is the generator
multiplied with a secret. -/
structure Variant (F P G : Type) [Field F] [AddCommGroup P] [Module F P] [AddCommGroup G]
    [Module F G] where
  /-- The secret behind a public key. -/
  secret : P ≃ₗ[F] F
  /-- Hashing to the group of signatures. -/
  hash : Bytes → G

/-- A namespace and a message in it. -/
abbrev Message := Bytes × Bytes

/-- The bytes that are hashed: the namespace, with its length, and the message. -/
def unionUnique (m : Message) : Bytes := Varint.write m.1.length ++ m.1 ++ m.2

variable {F P G : Type} [Field F] [AddCommGroup P] [Module F P] [AddCommGroup G] [Module F G]

namespace Variant

def computePublic (v : Variant F P G) (sk : F) : P := v.secret.symm sk

def hashMessage (v : Variant F P G) (m : Message) : G := v.hash (unionUnique m)

def signMessage (v : Variant F P G) (sk : F) (m : Message) : G := sk • v.hashMessage m

section

variable [DecidableEq G]

/-- Whether a signature is the one of the secret behind a public key. -/
def verify (v : Variant F P G) (pk : P) (hm sig : G) : Bool := decide (sig = v.secret pk • hm)

def verifyMessage (v : Variant F P G) (pk : P) (m : Message) (sig : G) : Bool :=
  v.verify pk (v.hashMessage m) sig

def aggregateVerifyMultiplePublicKeys (v : Variant F P G) (pks : List P) (m : Message) (sig : G) :
    Bool :=
  v.verifyMessage pks.sum m sig

def aggregateVerifyMultipleMessages (v : Variant F P G) (pk : P) (ms : List Message) (sig : G) :
    Bool :=
  v.verify pk (ms.map v.hashMessage).sum sig

end

/-- How far a signature is from the valid one. -/
def error (v : Variant F P G) (pk : P) (m : Message) (sig : G) : G :=
  sig - v.secret pk • v.hashMessage m

variable {m : Message} {pk : P}

theorem error_eq_zero_iff {v : Variant F P G} {sig : G} :
    v.error pk m sig = 0 ↔ sig = v.secret pk • v.hashMessage m := sub_eq_zero

/-- The errors of signatures under many keys on one message add up. -/
theorem sum_error_keys (v : Variant F P G) (m : Message) (l : List (P × G)) :
    (l.map fun x => v.error x.1 m x.2).sum =
      v.error (l.map Prod.fst).sum m (l.map Prod.snd).sum := by
  induction l with
  | nil => simp [error]
  | cons x l ih =>
    rw [map_cons, sum_cons, ih]
    simp only [map_cons, sum_cons, error, map_add, add_smul]
    abel

/-- The errors of signatures under one key on many messages add up. -/
theorem sum_error_messages (v : Variant F P G) (pk : P) (l : List (Message × G)) :
    (l.map fun x => v.error pk x.1 x.2).sum =
      (l.map Prod.snd).sum - v.secret pk • (l.map fun x => v.hashMessage x.1).sum := by
  induction l with
  | nil => simp
  | cons x l ih =>
    rw [map_cons, sum_cons, ih]
    simp only [map_cons, sum_cons, error, smul_add]
    abel

section

variable [DecidableEq G] {v : Variant F P G}

theorem verifyMessage_iff {sig : G} :
    v.verifyMessage pk m sig = true ↔ v.error pk m sig = 0 := by
  rw [error_eq_zero_iff, verifyMessage, verify, decide_eq_true_iff]

/-- An aggregate under many keys verifies if and only if its errors sum to zero. -/
theorem verifyMessage_sum_iff {l : List (P × G)} :
    v.verifyMessage (l.map Prod.fst).sum m (l.map Prod.snd).sum = true ↔
      (l.map fun x => v.error x.1 m x.2).sum = 0 := by
  rw [verifyMessage_iff, sum_error_keys]

/-- An aggregate on many messages verifies if and only if its errors sum to zero. -/
theorem aggregateVerifyMultipleMessages_iff {l : List (Message × G)} :
    v.aggregateVerifyMultipleMessages pk (l.map Prod.fst) (l.map Prod.snd).sum = true ↔
      (l.map fun x => v.error pk x.1 x.2).sum = 0 := by
  rw [sum_error_messages, sub_eq_zero, aggregateVerifyMultipleMessages, verify,
    decide_eq_true_iff, List.map_map]
  rfl

end

end Variant

/-! ### Shared secrets -/

/-- The value of a polynomial, given by its coefficients from the constant on, at a point. -/
def evalMsm {K : Type} [AddCommGroup K] [Module F K] (coeffs : List K) (r : F) : K :=
  ∑ k : Fin coeffs.length, r ^ (k : ℕ) • coeffs[k]

/-- The public side of a secret that is shared among `total` participants.  The polynomial has as
many coefficients as participants are required to recover the secret. -/
structure Sharing (F P : Type) [Field F] where
  total : ℕ
  coeffs : List P
  total_pos : 0 < total
  length_coeffs : coeffs.length = quorum total
  /-- Different participants have different points. -/
  scalar_inj : ∀ i < total, ∀ j < total, ((i : F) + 1) = (j : F) + 1 → i = j

namespace Sharing

/-- The point of a participant.  Zero is the point of the secret. -/
def scalar (s : Sharing F P) (i : ℕ) : Option F := if i < s.total then some ((i : F) + 1) else none

def required (s : Sharing F P) : ℕ := quorum s.total

def partialPublic (s : Sharing F P) (i : ℕ) : Option P := (s.scalar i).map (evalMsm s.coeffs)

omit [AddCommGroup P] [Module F P] in
theorem coeffs_ne_nil (s : Sharing F P) : s.coeffs ≠ [] := by
  apply ne_nil_of_length_pos
  rw [s.length_coeffs]
  exact quorum_pos s.total_pos

/-- The public key of the group: the constant of the polynomial. -/
def publicKey (s : Sharing F P) : P := s.coeffs.head s.coeffs_ne_nil

end Sharing

/-! ### Verification of partial signatures -/

section

variable {P G : Type} {partials : List (Attestation G)}

/-- Signatures with the public keys of their signers, where there are such. -/
def keyed (key : ℕ → Option P) (partials : List (Attestation G)) : List (P × Attestation G) :=
  partials.filterMap fun p => (key p.signer).map fun pk => (pk, p)

theorem mem_keyed {key : ℕ → Option P} {pk : P} {p : Attestation G} :
    (pk, p) ∈ keyed key partials ↔ p ∈ partials ∧ key p.signer = some pk := by
  simp only [keyed, mem_filterMap, map_eq_some_iff, Prod.mk.injEq]
  constructor
  · rintro ⟨q, hq, pk', hpk, rfl, rfl⟩
    exact ⟨hq, hpk⟩
  · rintro ⟨hp, hpk⟩
    exact ⟨p, hp, pk, hpk, rfl, rfl⟩

theorem map_fst_keyed (key : ℕ → Option P) (partials : List (Attestation G)) :
    (keyed key partials).map Prod.fst = (partials.map signer).filterMap key := by
  induction partials with
  | nil => rfl
  | cons p partials ih =>
    cases h : key p.signer <;> simp_all [keyed]

theorem map_snd_keyed (key : ℕ → Option P) (partials : List (Attestation G)) :
    (keyed key partials).map Prod.snd = partials.filter fun p => (key p.signer).isSome := by
  induction partials with
  | nil => rfl
  | cons p partials ih =>
    cases h : key p.signer <;> simp_all [keyed]

theorem nodup_keyed (key : ℕ → Option P) (h : (partials.map signer).Nodup) :
    (keyed key partials).Nodup := by
  refine List.Nodup.filterMap (fun p q x hp hq => ?_) (List.Nodup.of_map _ h)
  obtain ⟨pk, -, rfl⟩ := map_eq_some_iff.1 hp
  obtain ⟨pk', -, hx⟩ := map_eq_some_iff.1 hq
  exact (Prod.ext_iff.1 hx).2.symm

end

section

variable [DecidableEq G]

/-- The test of a range of partial signatures as one aggregate. -/
def rangeOk (v : Variant F P G) (m : Message) (slice : List (P × Attestation G)) : Bool :=
  v.verifyMessage (slice.map Prod.fst).sum m (slice.map fun x => x.2.signature).sum

/-- The partial signatures that are found invalid: those without a public key, and those that
bisection finds. -/
def partialVerifyMultiplePublicKeys (v : Variant F P G) (s : Sharing F P) (m : Message)
    (partials : List (Attestation G)) : List (Attestation G) :=
  partials.filter (fun p => (s.partialPublic p.signer).isNone) ++
    (Bisection.search (rangeOk v m) [keyed s.partialPublic partials] []).map Prod.snd

def partialError (v : Variant F P G) (m : Message) (x : P × Attestation G) : G :=
  v.error x.1 m x.2.signature

variable {partials : List (Attestation G)} {v : Variant F P G} {m : Message}

theorem rangeOk_iff {slice : List (P × Attestation G)} :
    rangeOk v m slice = true ↔ (slice.map (partialError v m)).sum = 0 := by
  have h := v.verifyMessage_sum_iff (m := m) (l := slice.map fun x => (x.1, x.2.signature))
  simp only [List.map_map] at h
  exact h

/-- What bisection finds: the partial signatures without a public key, and those that every range
exposes. -/
theorem mem_partialVerifyMultiplePublicKeys {s : Sharing F P}
    (hnd : (partials.map signer).Nodup) {p : Attestation G} :
    p ∈ partialVerifyMultiplePublicKeys v s m partials ↔ p ∈ partials ∧
      ∀ pk, s.partialPublic p.signer = some pk →
        Bisection.Exposed (partialError v m) (keyed s.partialPublic partials) (pk, p) := by
  have hf : ∀ x, x ∈ Bisection.search (rangeOk v m) [keyed s.partialPublic partials] [] ↔
      x ∈ keyed s.partialPublic partials ∧ Bisection.Exposed (partialError v m) (keyed s.partialPublic partials) x := by
    intro x
    rw [Bisection.search_eq, List.nil_append, List.flatMap_singleton]
    exact Bisection.mem_failures_iff (fun r => rangeOk_iff) (nodup_keyed _ hnd)
  simp only [partialVerifyMultiplePublicKeys, List.mem_append, List.mem_filter, List.mem_map, hf]
  constructor
  · rintro (⟨hp, hnn⟩ | ⟨⟨pk, q⟩, ⟨hmem, he⟩, rfl⟩)
    · exact ⟨hp, fun pk hpk => by simp [hpk] at hnn⟩
    · obtain ⟨hq, hpk⟩ := mem_keyed.1 hmem
      refine ⟨hq, fun pk' hpk' => ?_⟩
      rw [hpk, Option.some_inj] at hpk'
      exact hpk' ▸ he
  · rintro ⟨hp, he⟩
    cases hpk : s.partialPublic p.signer with
    | none => exact .inl ⟨hp, rfl⟩
    | some pk => exact .inr ⟨(pk, p), ⟨mem_keyed.2 ⟨hp, hpk⟩, he pk hpk⟩, rfl⟩

end

/-! ### Recovery -/

/-- The first value for each signer, in the order of the signers, and no more than needed. -/
def prepareEvaluations (threshold : ℕ) (partials : List (Attestation G)) :
    Option (OrdMap ℕ G) :=
  let evals := (OrdMap.ofListDedup (partials.map fun p => (p.signer, p.signature))).take threshold
  if evals.size < threshold then none else some evals

/-- The weight of a participant when the value at zero is interpolated. -/
def weight (keys : List ℕ) (i : ℕ) : F :=
  ((keys.filter (· ≠ i)).map fun j : ℕ => (j : F) + 1).prod *
    (((keys.filter (· ≠ i)).map fun j : ℕ => ((j : F) + 1) - ((i : F) + 1)).prod)⁻¹

/-- The sum of values with their weights. -/
def interpolate (F : Type) [Field F] [Module F G] (evals : OrdMap ℕ G) : G :=
  (evals.entries.map fun x => (weight evals.keys x.1 : F) • x.2).sum

/-- Recover a signature from partial ones.  There have to be enough of them, of participants. -/
def recover (s : Sharing F P) (partials : List (Attestation G)) : Option G :=
  (prepareEvaluations s.required partials).bind fun evals =>
    if evals.keys.all fun i => decide (i < s.total) then some (interpolate F evals) else none

/-- Recover two signatures from partial ones of the same participants. -/
def recoverPair (s : Sharing F P) (first second : List (Attestation G)) : Option (G × G) :=
  (prepareEvaluations s.required first).bind fun evals₁ =>
    (prepareEvaluations s.required second).bind fun evals₂ =>
      if evals₂.keys = evals₁.keys ∧ evals₁.keys.all (fun i => decide (i < s.total)) = true then
        some (interpolate F evals₁, interpolate F evals₂)
      else none

/-- Recover signatures from lists of partial ones, all of the same participants. -/
def recoverMultiple (s : Sharing F P) (manyEvals : List (List (Attestation G))) :
    Option (List G) :=
  (manyEvals.mapM (prepareEvaluations s.required)).bind fun
    | [] => some []
    | firstEval :: rest =>
      if (rest.all fun otherEval => decide (otherEval.keys = firstEval.keys)) = true ∧
          firstEval.keys.all (fun i => decide (i < s.total)) = true then
        some ((firstEval :: rest).map (interpolate F))
      else none

/-- The value of a polynomial at zero is a weighted sum of its values at enough points. -/
theorem eval_zero_eq_sum {ι : Type} [DecidableEq ι] {t : Finset ι} {x : ι → F}
    (hx : Set.InjOn x t) {f : Polynomial F} (hf : f.degree < t.card) :
    f.eval 0 = ∑ i ∈ t, (∏ j ∈ t.erase i, x j * (x j - x i)⁻¹) * f.eval (x i) := by
  conv_lhs => rw [Lagrange.eq_interpolate hx hf]
  rw [Lagrange.interpolate_apply, Polynomial.eval_finsetSum]
  refine Finset.sum_congr rfl fun i _ => ?_
  rw [Polynomial.eval_mul, Polynomial.eval_C, mul_comm, Lagrange.basis, Polynomial.eval_prod]
  congr 1
  refine Finset.prod_congr rfl fun j _ => ?_
  rw [Lagrange.basisDivisor, Polynomial.eval_mul, Polynomial.eval_C, Polynomial.eval_sub,
    Polynomial.eval_X, Polynomial.eval_C, zero_sub, ← neg_sub (x j), inv_neg]
  ring

/-- The weights of a list of participants, as products over a set. -/
theorem weight_eq {keys : List ℕ} (hnd : keys.Nodup) (i : ℕ) :
    (weight keys i : F) = ∏ j ∈ keys.toFinset.erase i,
      ((j : F) + 1) * (((j : F) + 1) - ((i : F) + 1))⁻¹ := by
  have hs : keys.toFinset.erase i = (keys.filter (· ≠ i)).toFinset := by
    ext j
    simp [and_comm]
  have hnd' : (keys.filter (· ≠ i)).Nodup := hnd.filter _
  rw [hs, Finset.prod_mul_distrib, Finset.prod_inv_distrib, prod_toFinset _ hnd',
    prod_toFinset _ hnd', weight]

/-- The polynomial of the secrets behind the coefficients. -/
noncomputable def secretPoly (v : Variant F P G) (s : Sharing F P) : Polynomial F :=
  ∑ k : Fin s.coeffs.length, Polynomial.monomial k (v.secret s.coeffs[k])

theorem degree_secretPoly (v : Variant F P G) (s : Sharing F P) :
    (secretPoly v s).degree < s.required := by
  refine lt_of_le_of_lt (Polynomial.degree_sum_le _ _) ?_
  rw [Finset.sup_lt_iff (by exact_mod_cast WithBot.bot_lt_coe _)]
  intro k _
  refine lt_of_le_of_lt (Polynomial.degree_monomial_le _ _) ?_
  have hk : (k : ℕ) < s.required := lt_of_lt_of_eq k.isLt s.length_coeffs
  exact_mod_cast hk

theorem eval_secretPoly (v : Variant F P G) (s : Sharing F P) (r : F) :
    (secretPoly v s).eval r = v.secret (evalMsm s.coeffs r) := by
  rw [secretPoly, evalMsm, Polynomial.eval_finsetSum, map_sum]
  refine Finset.sum_congr rfl fun k _ => ?_
  rw [Polynomial.eval_monomial, map_smul, smul_eq_mul, mul_comm]

theorem eval_zero_secretPoly (v : Variant F P G) (s : Sharing F P) :
    (secretPoly v s).eval 0 = v.secret s.publicKey := by
  have hlen : 0 < s.coeffs.length := length_pos_of_ne_nil s.coeffs_ne_nil
  rw [eval_secretPoly, evalMsm, Finset.sum_eq_single ⟨0, hlen⟩]
  · simp [Sharing.publicKey, head_eq_getElem]
  · intro k _ hk
    have : (k : ℕ) ≠ 0 := fun h => hk (Fin.ext h)
    simp [this]
  · simp

variable {v : Variant F P G} {s : Sharing F P} {evals : OrdMap ℕ G}

/-- Valid values, each the signature of its participant, interpolate to that of the group. -/
theorem interpolate_eq {hm : G} (hsize : evals.size = s.required)
    (hlt : ∀ i ∈ evals.keys, i < s.total)
    (hv : ∀ x ∈ evals.entries, x.2 = v.secret (evalMsm s.coeffs ((x.1 : F) + 1)) • hm) :
    interpolate F evals = v.secret s.publicKey • hm := by
  have hcr : evals.keys.toFinset.card = s.required := by
    rw [toFinset_card_of_nodup evals.nodup_keys, ← hsize, OrdMap.keys, length_map]
    rfl
  have hinj : Set.InjOn (fun i : ℕ => (i : F) + 1) evals.keys.toFinset := by
    intro i hi j hj h
    exact s.scalar_inj i (hlt i (by simpa using hi)) j (hlt j (by simpa using hj)) h
  -- Every value is a multiple of the hash, so that the sum is one of scalars.
  have hs : interpolate F evals = (evals.keys.map fun i =>
      (weight evals.keys i * (secretPoly v s).eval ((i : F) + 1)) • hm).sum := by
    rw [interpolate, OrdMap.keys, List.map_map]
    congr 1
    refine map_congr_left fun x hx => ?_
    rw [hv x hx, smul_smul, Function.comp_apply, eval_secretPoly]
  rw [hs, ← sum_toFinset _ evals.nodup_keys, ← Finset.sum_smul, ← eval_zero_secretPoly,
    eval_zero_eq_sum hinj (by rw [hcr]; exact degree_secretPoly v s)]
  congr 1
  exact Finset.sum_congr rfl fun i _ => by rw [weight_eq evals.nodup_keys]

/-- A signature is the valid one of its signer. -/
def Genuine (v : Variant F P G) (key : ℕ → Option P) (m : Message) (p : Attestation G) : Prop :=
  ∃ pk, key p.signer = some pk ∧ v.error pk m p.signature = 0

variable {p : Attestation G}

theorem genuine_iff {key : ℕ → Option P} {m : Message} {pk : P}
    (hpk : key p.signer = some pk) : Genuine v key m p ↔ partialError v m (pk, p) = 0 := by
  constructor
  · rintro ⟨pk', hpk', he⟩
    rw [hpk, some_inj] at hpk'
    exact hpk' ▸ he
  · intro he
    exact ⟨pk, hpk, he⟩

variable {partials : List (Attestation G)} {m : Message}

theorem Genuine.partialPublic_eq
    (h : Genuine v s.partialPublic m p) : p.signer < s.total ∧
      p.signature = v.secret (evalMsm s.coeffs ((p.signer : F) + 1)) • v.hashMessage m := by
  obtain ⟨pk, hpk, he⟩ := h
  rw [Sharing.partialPublic, Sharing.scalar] at hpk
  split_ifs at hpk with hlt
  · obtain rfl : evalMsm s.coeffs ((p.signer : F) + 1) = pk := by simpa using hpk
    exact ⟨hlt, Variant.error_eq_zero_iff.1 he⟩
  · simp at hpk

/-- The participants that partial signatures are of. -/
def indices (partials : List (Attestation G)) : Finset ℕ :=
  (partials.map signer).toFinset

omit [AddCommGroup G] in
theorem card_indices (hnd : (partials.map signer).Nodup) :
    (indices partials).card = partials.length := by
  rw [indices, toFinset_card_of_nodup hnd, length_map]

/-- The `threshold` smallest of these participants. -/
def smallest (threshold : ℕ) (partials : List (Attestation G)) : List ℕ :=
  (indices partials).sort.take threshold

/-- A value for each of the smallest participants, out of the partial signatures. -/
structure Prepared (threshold : ℕ) (partials : List (Attestation G)) (evals : OrdMap ℕ G) : Prop where
  size : evals.size = threshold
  mem : ∀ x ∈ evals.entries, ∃ p ∈ partials, p.signer = x.1 ∧ p.signature = x.2
  keys : evals.keys = smallest threshold partials

omit [AddCommGroup G] [Module F G] in
theorem prepareEvaluations_spec (threshold : ℕ) (partials : List (Attestation G)) :
    (indices partials).card < threshold ∧ prepareEvaluations threshold partials = none ∨
      threshold ≤ (indices partials).card ∧
        ∃ evals, prepareEvaluations threshold partials = some evals ∧
          Prepared threshold partials evals := by
  have hky : ((OrdMap.ofListDedup (partials.map fun p => (p.signer, p.signature))).take
      threshold).keys = smallest threshold partials := by
    rw [OrdMap.keys, OrdMap.take, map_take, ← OrdMap.keys, OrdMap.keys_ofListDedup, List.map_map]
    rfl
  have hsize : ((OrdMap.ofListDedup (partials.map fun p => (p.signer, p.signature))).take
      threshold).size = min threshold (indices partials).card := by
    rw [OrdMap.size, ← length_map, ← OrdMap.keys, hky, smallest, length_take, Finset.length_sort]
  rw [prepareEvaluations, hsize]
  rcases lt_or_ge (indices partials).card threshold with hlt | hle
  · exact .inl ⟨hlt, if_pos (min_lt_iff.2 (.inr hlt))⟩
  · rw [min_eq_left hle] at hsize ⊢
    refine .inr ⟨hle, _, if_neg (lt_irrefl _), hsize, fun x hx => ?_, hky⟩
    have hmem := OrdMap.get?_ofListDedup (OrdMap.mem_entries_iff _ |>.1 (mem_of_mem_take hx))
    obtain ⟨p, hp, he⟩ := mem_map.1 hmem
    exact ⟨p, hp, (Prod.ext_iff.1 he).1, (Prod.ext_iff.1 he).2⟩

omit [AddCommGroup G] [Module F G] in
theorem exists_prepared {threshold : ℕ} (hlen : threshold ≤ (indices partials).card) :
    ∃ evals, prepareEvaluations threshold partials = some evals ∧
      Prepared threshold partials evals := by
  obtain ⟨hlt, -⟩ | ⟨-, h⟩ := prepareEvaluations_spec threshold partials
  · exact absurd hlen (not_le.2 hlt)
  · exact h

omit [AddCommGroup G] [Module F G] in
theorem mapM_prepareEvaluations_spec (threshold : ℕ) (lists : List (List (Attestation G))) :
    (∃ l ∈ lists, (indices l).card < threshold) ∧ lists.mapM (prepareEvaluations threshold) = none ∨
      (∀ l ∈ lists, threshold ≤ (indices l).card) ∧
        ∃ prepared, lists.mapM (prepareEvaluations threshold) = some prepared ∧
          Forall₂ (Prepared threshold) lists prepared := by
  induction lists with
  | nil => exact .inr ⟨by simp, [], rfl, .nil⟩
  | cons l lists ih =>
    rw [mapM_cons]
    obtain ⟨hlt, he⟩ | ⟨hle, evals, he, hpp⟩ := prepareEvaluations_spec threshold l
    · exact .inl ⟨⟨l, mem_cons_self, hlt⟩, by simp [he]⟩
    · obtain ⟨⟨l', hl', hlt⟩, hr⟩ | ⟨ha, prepared, hr, hpr⟩ := ih
      · exact .inl ⟨⟨l', mem_cons_of_mem _ hl', hlt⟩, by simp [he, hr]⟩
      · exact .inr ⟨forall_mem_cons.2 ⟨hle, ha⟩, evals :: prepared, by simp [he, hr],
          .cons hpp hpr⟩

/-- What is prepared from valid partial signatures interpolates to the valid signature. -/
theorem Prepared.interpolate_eq (h : Prepared s.required partials evals)
    (hv : ∀ p ∈ partials, Genuine v s.partialPublic m p) :
    (evals.keys.all fun i => decide (i < s.total)) = true ∧
      interpolate F evals = v.secret s.publicKey • v.hashMessage m := by
  have hg : ∀ x ∈ evals.entries, x.1 < s.total ∧
      x.2 = v.secret (evalMsm s.coeffs ((x.1 : F) + 1)) • v.hashMessage m := by
    intro x hx
    obtain ⟨p, hp, h₁, h₂⟩ := h.mem x hx
    exact h₁ ▸ h₂ ▸ (hv p hp).partialPublic_eq
  have hlt : ∀ i ∈ evals.keys, i < s.total := by
    intro i hi
    obtain ⟨x, hx, rfl⟩ := mem_map.1 hi
    exact (hg x hx).1
  exact ⟨by simpa using hlt, Bls.interpolate_eq h.size hlt fun x hx => (hg x hx).2⟩

/-- **A quorum of valid partial signatures recovers the valid signature.** -/
theorem recover_eq (hlen : s.required ≤ (indices partials).card)
    (hv : ∀ p ∈ partials, Genuine v s.partialPublic m p) :
    recover s partials = some (v.secret s.publicKey • v.hashMessage m) := by
  obtain ⟨evals, he, hpr⟩ := exists_prepared hlen
  obtain ⟨ha, hin⟩ := hpr.interpolate_eq hv
  rw [recover, he, bind_some, if_pos ha, hin]

theorem recoverPair_eq {m₁ m₂ : Message} {first second : List (Attestation G)}
    (hlen : s.required ≤ (indices first).card) (hsm : indices second = indices first)
    (hv₁ : ∀ p ∈ first, Genuine v s.partialPublic m₁ p)
    (hv₂ : ∀ p ∈ second, Genuine v s.partialPublic m₂ p) :
    recoverPair s first second = some (v.secret s.publicKey • v.hashMessage m₁,
      v.secret s.publicKey • v.hashMessage m₂) := by
  obtain ⟨e₁, he₁, hpr₁⟩ := exists_prepared hlen
  obtain ⟨e₂, he₂, hpr₂⟩ := exists_prepared (hsm ▸ hlen)
  obtain ⟨ha, hin₁⟩ := hpr₁.interpolate_eq hv₁
  have hky : e₂.keys = e₁.keys := by rw [hpr₁.keys, hpr₂.keys, smallest, hsm, smallest]
  rw [recoverPair, he₁, he₂, bind_some, bind_some, if_pos ⟨hky, ha⟩, hin₁,
    (hpr₂.interpolate_eq hv₂).2]

omit [AddCommGroup P] [Module F P] in
theorem recover_eq_none_iff : recover s partials = none ↔
    (indices partials).card < s.required ∨ ∃ i ∈ smallest s.required partials, s.total ≤ i := by
  obtain ⟨hlt, he⟩ | ⟨hle, evals, he, hpr⟩ := prepareEvaluations_spec s.required partials
  · simp [recover, he, hlt]
  · simp [recover, he, hle, ← hpr.keys]

omit [AddCommGroup P] [Module F P] in
theorem recoverMultiple_eq_none_iff {lists : List (List (Attestation G))} :
    recoverMultiple s lists = none ↔ ∃ l ∈ lists, (indices l).card < s.required ∨
      (∃ i ∈ smallest s.required l, s.total ≤ i) ∨
      ∃ l' ∈ lists, smallest s.required l' ≠ smallest s.required l := by
  obtain ⟨⟨l, hl, hlt⟩, he⟩ | ⟨hle, prepared, he, hpr⟩ :=
    mapM_prepareEvaluations_spec s.required lists
  · simpa [recoverMultiple, he] using ⟨l, hl, .inl hlt⟩
  rw [recoverMultiple, he, bind_some]
  cases hpr with
  | nil => simp
  | @cons l firstEval lists rest hf hr =>
    have hky : rest.map OrdMap.keys = lists.map (smallest s.required) := by
      clear he hle
      induction hr with
      | nil => rfl
      | cons h _ ih => rw [map_cons, map_cons, h.keys, ih]
    have hot : (rest.all fun otherEval => decide (otherEval.keys = firstEval.keys)) = true ↔
        ∀ l' ∈ lists, smallest s.required l' = smallest s.required l := by
      rw [← hf.keys, ← forall_mem_map (P := (· = firstEval.keys)), ← hky]
      simp
    simp only [hot, ite_eq_right_iff, reduceCtorEq, imp_false]
    simp only [hf.keys, List.all_eq_true, decide_eq_true_eq]
    constructor
    · intro hne
      by_cases hsm : ∀ l' ∈ lists, smallest s.required l' = smallest s.required l
      · exact ⟨l, mem_cons_self, .inr (.inl (by simpa using fun h => hne ⟨hsm, h⟩))⟩
      · push Not at hsm
        obtain ⟨l', hl', hne⟩ := hsm
        exact ⟨l, mem_cons_self, .inr (.inr ⟨l', mem_cons_of_mem _ hl', hne⟩)⟩
    · rintro ⟨l₀, hl₀, h⟩ ⟨hsm, hlt⟩
      have ha : ∀ l' ∈ l :: lists, smallest s.required l' = smallest s.required l :=
        forall_mem_cons.2 ⟨rfl, hsm⟩
      rw [ha l₀ hl₀] at h
      rcases h with h | ⟨i, hi, h⟩ | ⟨l', hl', h⟩
      · exact absurd (hle l₀ hl₀) (not_le.2 h)
      · exact absurd (hlt i hi) (not_lt.2 h)
      · exact h (ha l' hl')

theorem recoverMultiple_eq {signed : List (Message × List (Attestation G))}
    (hlen : ∀ x ∈ signed, s.required ≤ (indices x.2).card)
    (hsa : ∀ x ∈ signed, ∀ y ∈ signed, smallest s.required x.2 = smallest s.required y.2)
    (hv : ∀ x ∈ signed, ∀ p ∈ x.2, Genuine v s.partialPublic x.1 p) :
    recoverMultiple s (signed.map Prod.snd) =
      some (signed.map fun x => v.secret s.publicKey • v.hashMessage x.1) := by
  have hsm : recoverMultiple s (signed.map Prod.snd) ≠ none := by
    rw [Ne, recoverMultiple_eq_none_iff]
    rintro ⟨l, hl, h⟩
    obtain ⟨x, hx, rfl⟩ := mem_map.1 hl
    rcases h with h | ⟨i, hi, h⟩ | ⟨l', hl', h⟩
    · exact absurd (hlen x hx) (not_le.2 h)
    · obtain ⟨p, hp, rfl⟩ : ∃ p ∈ x.2, p.signer = i := by
        simpa [indices] using mem_of_mem_take hi
      exact absurd (hv x hx p hp).partialPublic_eq.1 (not_lt.2 h)
    · obtain ⟨y, hy, rfl⟩ := mem_map.1 hl'
      exact h (hsa y hy x hx)
  obtain ⟨-, he⟩ | ⟨-, prepared, he, hpr⟩ :=
    mapM_prepareEvaluations_spec s.required (signed.map Prod.snd)
  · exact absurd (by rw [recoverMultiple, he, bind_none]) hsm
  · have hvl : prepared.map (interpolate F) =
        signed.map fun x => v.secret s.publicKey • v.hashMessage x.1 := by
      rw [forall₂_map_left_iff] at hpr
      clear he hsm hlen hsa
      induction hpr with
      | nil => rfl
      | cons h _ ih =>
        rw [map_cons, map_cons, (h.interpolate_eq (hv _ mem_cons_self)).2,
          ih fun x hx => hv x (mem_cons_of_mem _ hx)]
    rw [recoverMultiple, he, bind_some] at hsm ⊢
    rw [← hvl]
    cases prepared with
    | nil => rfl
    | cons firstEval rest =>
      dsimp only at hsm ⊢
      split_ifs at hsm ⊢ with h
      · rfl
      · exact absurd rfl hsm

/-- **What recovery returns**, for any partial signatures.  Only the smallest indices of a list
count, also where the indices of several lists are compared. -/
theorem recovery_exact (v : Variant F P G) (s : Sharing F P) :
    (∀ m partials, s.required ≤ (indices partials).card →
      (∀ p ∈ partials, Genuine v s.partialPublic m p) →
      recover s partials = some (v.secret s.publicKey • v.hashMessage m)) ∧
    (∀ signed : List (Message × List (Attestation G)),
      (∀ x ∈ signed, s.required ≤ (indices x.2).card) →
      (∀ x ∈ signed, ∀ y ∈ signed, indices x.2 = indices y.2) →
      (∀ x ∈ signed, ∀ p ∈ x.2, Genuine v s.partialPublic x.1 p) →
      recoverMultiple s (signed.map Prod.snd) =
        some (signed.map fun x => v.secret s.publicKey • v.hashMessage x.1)) ∧
    (∀ partials : List (Attestation G), recover s partials = none ↔
      (indices partials).card < s.required ∨ ∃ i ∈ smallest s.required partials, s.total ≤ i) ∧
    ∀ lists : List (List (Attestation G)), recoverMultiple s lists = none ↔
      ∃ l ∈ lists, (indices l).card < s.required ∨ (∃ i ∈ smallest s.required l, s.total ≤ i) ∨
        ∃ l' ∈ lists, smallest s.required l' ≠ smallest s.required l :=
  ⟨fun _ _ => recover_eq,
    fun _ hlen hsm => recoverMultiple_eq hlen fun x hx y hy => by
      rw [smallest, smallest, hsm x hx y hy],
    fun _ => recover_eq_none_iff, fun _ => recoverMultiple_eq_none_iff⟩

instance prime_five : Fact (Nat.Prime 5) := ⟨by decide⟩

/-- Four participants that share the secret one modulo five. -/
def sampleSharing : Sharing (ZMod 5) (ZMod 5) := ⟨4, [1, 0, 0], by decide, by decide, by decide⟩

/-- Signatures are recovered from lists of different participants if the smallest agree. -/
theorem differing_indices_recovered : indices [⟨0, 1⟩, ⟨1, 1⟩, ⟨2, (1 : ZMod 5)⟩] ≠
      indices [⟨3, 1⟩, ⟨0, 1⟩, ⟨1, 1⟩, ⟨2, (1 : ZMod 5)⟩] ∧
    recoverMultiple sampleSharing [[⟨0, 1⟩, ⟨1, 1⟩, ⟨2, (1 : ZMod 5)⟩],
      [⟨3, 1⟩, ⟨0, 1⟩, ⟨1, 1⟩, ⟨2, 1⟩]] = some [1, 1] := by
  decide +kernel

end Commonware.Bls
