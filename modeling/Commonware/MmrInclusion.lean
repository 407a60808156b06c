/-
**Soundness of inclusion proofs.**

A proof is any size with any digests, and the elements that it is to prove are any strings.  If the
verifier accepts them against the root of a mountain range then the elements are those of the range:
the root fixes the size and the digests of the peaks, and below a peak everything that the verifier
has used is fixed by the digest of the peak.

The hash is injective.  Strings are made of symbols of some type that has the bytes among them, and
a digest is hashed as a string of symbols, so that such a hash exists (`FreeHash`).

Main results:

* `toBeBytes_inj`, `CHasher.root_inj` — the root fixes the size and the digests of the peaks;
* `reconstruct_eq_ok_iff` — when the digests of the peaks are reconstructed;
* `reconstruct_sound` — what the verifier has used, if the reconstructed digests are those of a
  range;
* `inclusion_sound` — **what is proven is in the range**.
-/

import Commonware.MmrReach
import Commonware.FreeHash

set_option autoImplicit false

namespace Commonware.Mmr

open MountainRange List

variable {Sym D : Type}

/-! ### Strings -/

variable {n : ℕ}

theorem toBeBytes_inj {m : ℕ} (hn : n < 2 ^ 64) (hm : m < 2 ^ 64)
    (h : toBeBytes n = toBeBytes m) : n = m := by
  have hby : ∀ i < 8, n / 256 ^ i % 256 = m / 256 ^ i % 256 := by
    intro i hi
    have hmem : i ∈ [7, 6, 5, 4, 3, 2, 1, 0] := by
      simp only [mem_cons, not_mem_nil, or_false]
      omega
    have heq := (map_inj_left.1 h) i hmem
    simpa using congrArg UInt8.toNat heq
  have h₀ := hby 0 (by omega)
  have h₁ := hby 1 (by omega)
  have h₂ := hby 2 (by omega)
  have h₃ := hby 3 (by omega)
  have h₄ := hby 4 (by omega)
  have h₅ := hby 5 (by omega)
  have h₆ := hby 6 (by omega)
  have h₇ := hby 7 (by omega)
  norm_num at *
  omega

namespace CHasher

variable {c : CHasher Sym D}

theorem u64_inj {m : ℕ} (hn : n < 2 ^ 64) (hm : m < 2 ^ 64) (h : c.u64 n = c.u64 m) : n = m :=
  toBeBytes_inj hn hm (map_injective_iff.2 c.byte_injective h)

theorem bytes_append_inj {d d' : D} {s s' : List Sym} (h : c.bytes d ++ s = c.bytes d' ++ s') :
    d = d' ∧ s = s' := by
  obtain ⟨h₁, h₂⟩ := append_inj h (by rw [c.length_bytes, c.length_bytes])
  exact ⟨c.bytes_injective h₁, h₂⟩

/-- Digests are determined by their string, if there are as many of them. -/
theorem flatMap_bytes_inj {ds ds' : List D} (hlen : ds.length = ds'.length)
    (h : ds.flatMap c.bytes = ds'.flatMap c.bytes) : ds = ds' := by
  induction ds generalizing ds' with
  | nil =>
    cases ds' with
    | nil => rfl
    | cons d' ds' => cases hlen
  | cons d ds ih =>
    cases ds' with
    | nil => cases hlen
    | cons d' ds' =>
      rw [flatMap_cons, flatMap_cons] at h
      obtain ⟨rfl, ht⟩ := bytes_append_inj h
      rw [ih (Nat.succ.inj hlen) ht]

variable (hinj : Function.Injective c.hash)

include hinj

theorem leaf_inj {x y : ℕ} {e e' : List Sym}
    (h : c.standard.leafDigest x e = c.standard.leafDigest y e') : c.u64 x = c.u64 y ∧ e = e' :=
  append_inj (hinj h) rfl

theorem node_inj {x y : ℕ} {l r l' r' : D}
    (h : c.standard.nodeDigest x l r = c.standard.nodeDigest y l' r') :
    c.u64 x = c.u64 y ∧ l = l' ∧ r = r' := by
  have hs := hinj h
  rw [append_assoc, append_assoc] at hs
  obtain ⟨h₁, h₂⟩ := append_inj hs rfl
  obtain ⟨hl, hr⟩ := bytes_append_inj h₂
  exact ⟨h₁, hl, c.bytes_injective hr⟩

/-- **The root fixes the size and the digests of the peaks.** -/
theorem root_inj {ds : List D} {es : List (List Sym)} (hn : n ≤ 2 ^ 62)
    (hes : es.length ≤ 2 ^ 62) (hds : ds.length = (peaks n).length)
    (h : c.standard.root (size n) ds = rootOf c.standard es) :
    n = es.length ∧ ds = peakDigests c.standard es := by
  have hlt : ∀ {k : ℕ}, k ≤ 2 ^ 62 → size k < 2 ^ 64 := fun hk =>
    (size_lt_two_pow_iff.2 hk).trans (by norm_num)
  obtain ⟨hsize, hdg⟩ := append_inj (hinj h) rfl
  have hlen : n = es.length := size_inj.1 (u64_inj (hlt hn) (hlt hes) hsize)
  subst hlen
  refine ⟨rfl, flatMap_bytes_inj ?_ hdg⟩
  rw [hds, peakDigests, length_map]

theorem binding (es : List (List Sym)) (n : ℕ) : Binding c.standard (digestAt c.standard es) n :=
  fun _ _ _ _ _ h => (node_inj hinj h).2

end CHasher

/-! ### Reconstruction -/

section Reconstruct

variable {hasher : Hasher Sym D} {label : ℕ → ℕ → D}

theorem endElementPos_eq_ok {start count x : ℕ} (hst : start ≤ maxLocation) (hcn : count ≠ 0) :
    Proof.endElementPos start (size start) count = .ok x ↔
      start + count - 1 ≤ maxLocation ∧ x = size (start + count - 1) := by
  rw [Proof.endElementPos]
  split_ifs with hone
  · subst hone
    rw [Nat.add_sub_cancel, Except.ok.injEq]
    exact ⟨fun h => ⟨hst, h.symm⟩, fun h => h.2.symm⟩
  · have ha : start + (count - 1) = start + count - 1 := by omega
    rw [Location.checkedAdd, ha]
    split_ifs with hle
    · simp only [Position.tryFrom_eq hle, Except.ok.injEq, hle, true_and]
      exact eq_comm
    · simp [hle]

theorem peakLoop_length {s e : ℕ} {nodes : List (ℕ × ℕ)} {front front' ds : List D}
    {st st' : Feed Sym D}
    (h : Proof.peakLoop hasher (size s) (size e) (nodes.map peakItem) front st =
      .ok (ds, front', st')) : ds.length = nodes.length := by
  induction nodes generalizing front st ds with
  | nil =>
    cases h
    rfl
  | cons node nodes ih =>
    obtain ⟨k, q⟩ := node
    rw [peakLoop_cons] at h
    split_ifs at h with hm
    · obtain ⟨⟨hash, st₁⟩, -, hr⟩ := bind_eq_ok.1 h
      obtain ⟨⟨ds', front₁, st₂⟩, ht, hpr⟩ := bind_eq_ok.1 hr
      cases hpr
      exact congrArg Nat.succ (ih ht)
    · cases front with
      | nil => cases h
      | cons hash front =>
        obtain ⟨⟨ds', front₁, st₂⟩, ht, hpr⟩ := bind_eq_ok.1 h
        cases hpr
        exact congrArg Nat.succ (ih ht)

variable [DecidableEq D] {p : Proof D} {elements : List (List Sym)} {start : ℕ} {cs : List (ℕ × D)}

/-- **When the digests of the peaks are reconstructed.** -/
theorem reconstruct_eq_ok_iff {ds : List D} (hel : elements ≠ []) :
    p.reconstructPeakDigests hasher elements start = .ok (ds, cs) ↔
      ∃ n front st, n ≤ 2 ^ 62 ∧ p.size = size n ∧ start + elements.length ≤ n ∧
        Proof.peakLoop hasher (size start) (size (start + elements.length - 1))
          ((peaks n).map peakItem) p.digests ⟨elements, p.digests.reverse, []⟩ =
            .ok (ds, front, st) ∧ st.elements = [] ∧
        Proof.extraDigests p.digests (p.digests.length - front.length) st = false ∧
        st.collected = cs := by
  have hp : elements.length ≠ 0 := fun h => hel (eq_nil_of_length_eq_zero h)
  rw [Proof.reconstructPeakDigests, if_neg hel]
  constructor
  · intro h
    rw [Position.tryFrom] at h
    by_cases hst : start ≤ maxLocation
    swap
    · rw [if_neg hst] at h
      cases h
    rw [if_pos hst] at h
    obtain ⟨x, hx, hbd⟩ := bind_eq_ok.1 h
    obtain ⟨-, rfl⟩ := (endElementPos_eq_ok hst hp).1 hx
    split_ifs at hbd with hot hsize
    obtain ⟨n, hn, hsz⟩ := Position.isMmrSize_iff.1 (Bool.eq_true_of_not_eq_false hsize)
    rw [hsz, size_le_size_iff] at hot
    rw [hsz, peakIterator_size hn] at hbd
    obtain ⟨⟨ds', front, st⟩, hlp, hr⟩ := bind_eq_ok.1 hbd
    dsimp only at hr
    split_ifs at hr with hlf het
    cases hr
    exact ⟨n, front, st, hn, hsz, by omega, hlp, not_not.1 hlf, by simpa using het, rfl⟩
  · rintro ⟨n, front, st, hn, hsz, hle, hlp, hlf, het, rfl⟩
    have he : start + elements.length - 1 ≤ maxLocation := by
      unfold maxLocation
      omega
    have hin : ¬ size n ≤ size (start + elements.length - 1) := by
      rw [size_le_size_iff]
      omega
    rw [Position.tryFrom_eq (by omega)]
    refine bind_eq_ok.2 ⟨_, (endElementPos_eq_ok (by omega) hp).2 ⟨he, rfl⟩, ?_⟩
    rw [hsz, if_neg hin, Position.isMmrSize_size hn, peakIterator_size hn]
    refine bind_eq_ok.2 ⟨_, hlp, ?_⟩
    simp [hlf, het]

/-- **What the verifier has used, if the reconstructed digests are those of a range.** -/
theorem reconstruct_sound (binding : Binding hasher label n)
    (hel : elements ≠ []) (hsize : p.size = size n)
    (h : p.reconstructPeakDigests hasher elements start =
      .ok ((peaks n).map (fun node => label node.1 node.2), cs)) :
    start + elements.length ≤ n ∧ ∃ front st,
      p.digests = (others start (start + elements.length - 1) (peaks n)).map
        (fun node => label node.1 node.2) ++ front ∧
      Progress hasher label n ⟨elements, p.digests.reverse, []⟩ st
        (range' start elements.length) (along start (start + elements.length - 1)
          (siblings start (start + elements.length - 1)) (peaks n))
        (along start (start + elements.length - 1)
          (entered start (start + elements.length - 1)) (peaks n)) ∧ st.elements = [] ∧
      Proof.extraDigests p.digests (p.digests.length - front.length) st = false ∧
      st.collected = cs := by
  obtain ⟨n', front, st, -, hsz, hle, hlp, hlf, het, hcs⟩ :=
    (reconstruct_eq_ok_iff hel).1 h
  obtain rfl : n = n' := size_inj.1 (hsize.symm.trans hsz)
  have hp : elements.length ≠ 0 := fun h => hel (eq_nil_of_length_eq_zero h)
  obtain ⟨hf, progress⟩ := peakLoop_sound binding (fun _ hnd => peak_end_le hnd) hlp
  have hlv : leavesBelow start (start + elements.length - 1) (peaks n) =
      range' start elements.length := by
    rw [leavesBelow_peaks (by omega) (by omega)]
    congr 1
    omega
  rw [hlv] at progress
  exact ⟨hle, front, st, hf, progress, hlf, het, hcs⟩

end Reconstruct

/-! ### Soundness -/

section Soundness

variable [DecidableEq D] {c : CHasher Sym D} {es : List (List Sym)} {p : Proof D}
  {elements : List (List Sym)} {start : ℕ}

theorem drop_take_of_forall₂ {es' : List (List Sym)}
    (h : List.Forall₂ (fun e a => es[a]? = some e) es' (range' start es'.length)) :
    (es.drop start).take es'.length = es' := by
  refine ext_getElem? fun i => ?_
  rcases Nat.lt_or_ge i es'.length with hi | hi
  · have hg := List.Forall₂.get h hi (by rwa [length_range'])
    rw [getElem?_take_of_lt hi, getElem?_drop, getElem?_eq_getElem hi]
    simpa using hg
  · rw [getElem?_eq_none hi, getElem?_eq_none]
    exact (length_take_le _ _).trans hi

section

variable (hinj : Function.Injective c.hash)
include hinj

variable {cs : List (ℕ × D)}

theorem reconstruct_root_sound (hes : es.length ≤ 2 ^ 62)
    {ds : List D} (hel : elements ≠ [])
    (h : p.reconstructPeakDigests c.standard elements start = .ok (ds, cs))
    (hr : c.standard.root p.size ds = rootOf c.standard es) :
    p.size = size es.length ∧ ds = peakDigests c.standard es := by
  obtain ⟨n, front, st, hn, hsz, -, hlp, -⟩ := (reconstruct_eq_ok_iff hel).1 h
  rw [hsz] at hr
  obtain ⟨rfl, rfl⟩ := CHasher.root_inj hinj hn hes (peakLoop_length hlp) hr
  exact ⟨hsz, rfl⟩

omit [DecidableEq D] in
/-- Elements that give the digests of leaves are the elements of the leaves. -/
theorem leaves_sound {k : ℕ} (hk : start + k ≤ es.length)
    (h : List.Forall₂ (fun element a => c.standard.leafDigest (size a) element =
      digestAt c.standard es 0 a) elements (range' start k)) :
    List.Forall₂ (fun e a => es[a]? = some e) elements (range' start k) := by
  refine (forall₂_iff_get.2 ⟨h.length_eq, fun i hi hi' => ?_⟩)
  have hlf := h.get hi hi'
  obtain ⟨-, heq⟩ := CHasher.leaf_inj hinj hlf
  have hlt : (range' start k).get ⟨i, hi'⟩ < es.length := by
    rw [length_range'] at hi'
    simp only [get_eq_getElem, getElem_range']
    omega
  rw [heq, getD_eq_getElem?_getD, getElem?_eq_getElem hlt]
  rfl

theorem accepted_peaks (hes : es.length ≤ 2 ^ 62) (hel : elements ≠ [])
    (h : p.verifyRangeInclusion c.standard elements start (rootOf c.standard es) = true) :
    p.size = size es.length ∧ ∃ cs,
      p.reconstructPeakDigests c.standard elements start = .ok (peakDigests c.standard es, cs) := by
  rw [Proof.verifyRangeInclusion] at h
  split_ifs at h with hsize
  cases hr : p.reconstructRoot c.standard elements start with
  | error err => simp [hr] at h
  | ok root =>
    rw [hr] at h
    rw [Proof.reconstructRoot, if_neg hsize] at hr
    obtain ⟨⟨ds, cs⟩, hpk, hpr⟩ := bind_eq_ok.1 hr
    cases hpr
    obtain ⟨hsz, rfl⟩ := reconstruct_root_sound hinj hes hel hpk
      (of_decide_eq_true h).symm
    exact ⟨hsz, cs, hpk⟩

theorem range_sound (hes : es.length ≤ 2 ^ 62) (hel : elements ≠ [])
    (h : p.verifyRangeInclusion c.standard elements start (rootOf c.standard es) = true) :
    start + elements.length ≤ es.length ∧ (es.drop start).take elements.length = elements := by
  obtain ⟨hsz, cs, hpk⟩ := accepted_peaks hinj hes hel h
  obtain ⟨hle, front, st, -, progress, hlf, -⟩ :=
    reconstruct_sound (CHasher.binding hinj es es.length) hel hsz hpk
  obtain ⟨used, hu, ha⟩ := progress.elements
  rw [hlf, append_nil] at hu
  obtain rfl : elements = used := hu
  exact ⟨hle, drop_take_of_forall₂ (leaves_sound hinj hle ha)⟩

theorem element_sound (hes : es.length ≤ 2 ^ 62) {element : List Sym}
    (h : p.verifyElementInclusion c.standard element start (rootOf c.standard es) = true) :
    es[start]? = some element := by
  obtain ⟨-, heq⟩ := range_sound hinj hes (cons_ne_nil element []) h
  have hg := congrArg (fun l => l[0]?) heq
  simpa using hg

theorem extract_sound (hes : es.length ≤ 2 ^ 62)
    (h : p.verifyRangeInclusionAndExtractDigests c.standard elements start
      (rootOf c.standard es) = .ok cs) : ∀ item ∈ cs, ∃ k q, (q + 1) * 2 ^ k ≤ es.length ∧
      item = (pos k q, digestAt c.standard es k q) := by
  rw [Proof.verifyRangeInclusionAndExtractDigests] at h
  cases hrc : p.reconstructPeakDigests c.standard elements start with
  | error err => simp [hrc] at h
  | ok result =>
    obtain ⟨ds, cs'⟩ := result
    rw [hrc] at h
    simp only [ne_eq, ite_not] at h
    split_ifs at h with hr
    cases h
    by_cases hel : elements = []
    · rw [Proof.reconstructPeakDigests, if_pos hel] at hrc
      split_ifs at hrc
      cases hrc
      intro item him
      cases him
    · obtain ⟨hsz, rfl⟩ := reconstruct_root_sound hinj hes hel hrc hr
      obtain ⟨-, front, st, -, progress, -, -, hcs⟩ :=
        reconstruct_sound (CHasher.binding hinj es es.length) hel hsz hrc
      obtain ⟨items, hit, ha⟩ := progress.collected
      rw [nil_append, hcs] at hit
      rw [hit]
      exact ha

end

/-- **What is proven is in the range.**  A proof is any value of its type.  The elements that are
accepted as a range, or one by one, are those of the range at their locations, and every digest that
is extracted is the digest of the node at its position. -/
theorem inclusion_sound (hinj : Function.Injective c.hash) {m : CleanMmr D}
    (hreach : Reach c.standard (.inr m) es) (p : Proof D) : (∀ elements start, elements ≠ [] →
      p.verifyRangeInclusion c.standard elements start m.root = true →
      start + elements.length ≤ es.length ∧ (es.drop start).take elements.length = elements) ∧
    (∀ elements, p.verifyMultiInclusion c.standard elements m.root = true →
      ∀ item ∈ elements, es[item.2]? = some item.1) ∧ (∀ elements start cs,
      p.verifyRangeInclusionAndExtractDigests c.standard elements start m.root = .ok cs →
      ∀ item ∈ cs, ∃ k q, (q + 1) * 2 ^ k ≤ es.length ∧
        item = (pos k q, digestAt c.standard es k q)) := by
  have hh : HoldsClean c.standard es m := hreach.holds
  rw [hh.root_eq]
  refine ⟨fun elements start hel h => range_sound hinj hh.length_le hel h, ?_,
    fun elements start cs h => extract_sound hinj hh.length_le h⟩
  intro elements h item hit
  rw [Proof.verifyMultiInclusion] at h
  split_ifs at h with hnl hsize
  · rw [hnl] at hit
    cases hit
  · cases hr : Proof.collectRequired p.size elements with
    | none => simp [hr] at h
    | some required =>
      simp only [hr] at h
      split_ifs at h with hlen
      exact element_sound hinj hh.length_le (all_eq_true.1 h item hit)

end Soundness

/-! ### A sample -/

def freeHasher : CHasher FreeHash.Symbol FreeHash where
  hash := FreeHash.hash
  empty := .nil
  byte := .inl
  bytes d := [.inr d]
  digestSize := 1
  byte_injective := Sum.inl_injective
  bytes_injective := fun _ _ h => Sum.inr_injective (singleton_injective h)
  length_bytes := fun _ => rfl

namespace Sample

def three : List (List FreeHash.Symbol) := [[.inl 7], [.inl 8], [.inl 9]]

def digest (h q : ℕ) : FreeHash := digestAt freeHasher.standard three h q

theorem exists_three : ∃ m : CleanMmr FreeHash, Reach freeHasher.standard (.inr m) three ∧
    m.prunedToPos = 0 ∧ m.root = rootOf freeHasher.standard three := by
  obtain ⟨m, hm, hpr⟩ := exists_range freeHasher.standard (show three.length ≤ 2 ^ 62 by decide)
  have hh : AnyHolds _ _ (.inr m) := hm.holds
  exact ⟨m, hm, hpr, HoldsClean.root_eq hh⟩

end Sample

theorem inclusion_sound_three :
    ∃ m : CleanMmr FreeHash, Reach freeHasher.standard (.inr m) Sample.three ∧
      (Proof.mk 4 [Sample.digest 0 2, Sample.digest 0 0]).verifyRangeInclusion
        freeHasher.standard [[.inl 8]] 1 m.root = true ∧
      (Sample.three.drop 1).take 1 = [[.inl 8]] := by
  obtain ⟨m, hm, -, hr⟩ := Sample.exists_three
  have hvr : (Proof.mk 4 [Sample.digest 0 2, Sample.digest 0 0]).verifyRangeInclusion
      freeHasher.standard [[.inl 8]] 1 m.root = true := by
    rw [hr]
    decide +kernel
  exact ⟨m, hm, hvr, ((inclusion_sound FreeHash.hash_injective hm _).1 _ _ (by simp) hvr).2⟩

end Commonware.Mmr
