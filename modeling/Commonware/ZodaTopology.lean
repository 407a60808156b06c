/-
**How data is laid out.**

`Topology::reckon` of `coding/src/zoda.rs` arranges data in rows and columns.  More columns are better,
but there have to be enough samples for the rows: how many depends on a logarithm that is rounded up,
and the layouts with more and more columns are tried until one of them needs too many samples.

Main definitions:

* `Topology`, `Topology.withCols`, `Topology.requiredSamples`, `Topology.reckon` — the functions;
* `Topology.Laid` — the sizes of a layout fit together.

Main results:

* `laid_of_reckon` — they do for every layout that is reckoned;
* `search_succ` — **the search ends** before there is a column for each element.
-/

import Commonware.CheckedArith
import Commonware.Ntt
import Commonware.RationalLog
import Commonware.WordStream

set_option autoImplicit false

namespace Commonware.Zoda

open WordStream Option

/-! ### Functions -/

structure Config where
  minimumShards : UInt16
  extraShards : UInt16
  deriving DecidableEq

@[ext] structure Topology where
  dataBytes : ℕ
  dataCols : ℕ
  dataRows : ℕ
  encodedRows : ℕ
  samples : ℕ
  columnSamples : ℕ
  minShards : ℕ
  totalShards : ℕ
  deriving DecidableEq

def securityBits : ℕ := 126

def log2Precision : ℕ := 7

def usizeMax : ℕ := 2 ^ 64 - 1

def divCeil (a b : ℕ) : ℕ := (a + b - 1) / b

/-- The next power of two, if it is a word. -/
def checkedNextPowerOfTwo (n : ℕ) : Option ℕ :=
  if nextPowerOfTwo n < 2 ^ 64 then some (nextPowerOfTwo n) else none

namespace Topology

def withCols (dataBytes n k cols : ℕ) : Option Topology := do
  let dataBits ← Checked.mul 8 dataBytes
  let dataEls := bitsToElements dataBits
  let dataRows := divCeil dataEls cols
  if n = 0 then none
  else
    let samples := divCeil dataRows n
    let rows ← Checked.mul (n + k) samples
    let encodedRows ← checkedNextPowerOfTwo rows
    pure {
      dataBytes, dataCols := cols, dataRows, encodedRows, samples, columnSamples := 0,
      minShards := n, totalShards := n + k }

def requiredSamples (t : Topology) : Option ℕ := do
  let k ← Checked.sub t.encodedRows t.dataRows
  let m := t.encodedRows
  if m = 0 then none
  else
    let fraction : ℚ := ((k : ℚ) + 1) / (2 * m)
    let oneMinus := 1 - fraction
    let logTerm ← Rational.log2Ceil oneMinus log2Precision
    if 0 ≤ logTerm then pure usizeMax
    else
      let required := (securityBits : ℚ) / -logTerm
      pure (Rational.ceilToU128 required % 2 ^ 64)

def correctColumnSamples (t : Topology) : Option Topology := do
  let required ← t.requiredSamples
  if t.samples = 0 then none
  else
    let columnSamples ← Checked.mul (bitsToElements securityBits) (divCeil required t.samples)
    pure { t with columnSamples }

/-- Tries more and more columns. -/
def search (dataBytes n k : ℕ) : ℕ → Topology → Option Topology
  | 0, _ => none
  | fuel + 1, out => do
      let attempt ← withCols dataBytes n k (out.dataCols + 1)
      let requiredSamples ← attempt.requiredSamples
      if min (requiredSamples * (n + k)) usizeMax ≤ attempt.encodedRows then
        search dataBytes n k fuel { attempt with samples := max requiredSamples attempt.samples }
      else pure out

/-- The layout of data.  There are fewer layouts than elements. -/
def reckon (config : Config) (dataBytes : ℕ) : Option Topology := do
  let n := config.minimumShards.toNat
  let k := config.extraShards.toNat
  let correctedDataBytes := max dataBytes 1
  let out ← withCols correctedDataBytes n k 1
  let out ← search correctedDataBytes n k (bitsToElements (8 * correctedDataBytes)) out
  let out ← out.correctColumnSamples
  pure { out with dataBytes }

def checkIndex (t : Topology) (i : ℕ) : Bool := decide (i < t.totalShards)

end Topology

open Zoda.Topology

/-! ### Sizes -/

variable {a b : ℕ}

theorem le_mul_divCeil (hb : 0 < b) : a ≤ b * divCeil a b := by
  have h := Nat.lt_mul_div_succ (a + b - 1) hb
  rw [Nat.mul_add, Nat.mul_one] at h
  rw [divCeil]
  omega

theorem divCeil_pos (ha : 0 < a) (hb : 0 < b) : 0 < divCeil a b :=
  Nat.div_pos (by omega) hb

theorem le_nextPowerOfTwo (n : ℕ) : n ≤ nextPowerOfTwo n := Nat.le_pow_clog one_lt_two n

theorem nextPowerOfTwo_lt {n : ℕ} (hn : 0 < n) : nextPowerOfTwo n < 2 * n := by
  rw [nextPowerOfTwo]
  by_cases h1 : n = 1
  · subst h1
    decide
  · have hcl : 1 ≤ Nat.clog 2 n := Nat.clog_pos one_lt_two (by omega)
    have h := Nat.pow_pred_clog_lt_self one_lt_two (show 1 < n by omega)
    rw [Nat.pred_eq_sub_one] at h
    obtain ⟨c, hc⟩ : ∃ c, Nat.clog 2 n = c + 1 := ⟨Nat.clog 2 n - 1, by omega⟩
    rw [hc, Nat.add_sub_cancel] at h
    rw [hc, pow_succ']
    omega

theorem mul_eq_some {c : ℕ} (h : Checked.mul a b = some c) : a * b < 2 ^ 64 ∧ c = a * b := by
  rw [Checked.mul] at h
  split_ifs at h with hlt
  exact ⟨hlt, (some.inj h).symm⟩

/-- The sizes of a topology fit together. -/
structure Topology.Laid (t : Topology) (els : ℕ) : Prop where
  cols_pos : 0 < t.dataCols
  rows_pos : 0 < t.dataRows
  samples_pos : 0 < t.samples
  els_le : els ≤ t.dataRows * t.dataCols
  rows_le : t.dataRows ≤ t.minShards * t.samples
  total_le : t.totalShards * t.samples ≤ t.encodedRows
  min_le : t.minShards ≤ t.totalShards
  encoded : ∃ lg, t.encodedRows = 2 ^ lg

variable {bytes n k cols els r : ℕ} {t out : Topology}

theorem withCols_eq_some (h : withCols bytes n k cols = some t) :
    0 < n ∧ t.encodedRows < 2 ^ 64 ∧
      ∃ rows samples, rows = divCeil (bitsToElements (8 * bytes)) cols ∧ samples = divCeil rows n ∧
        t = ⟨bytes, cols, rows, nextPowerOfTwo ((n + k) * samples), samples, 0, n, n + k⟩ := by
  obtain ⟨dataBits, hmul, h⟩ := bind_eq_some_iff.1 h
  obtain ⟨-, rfl⟩ := mul_eq_some hmul
  dsimp only at h
  split_ifs at h with hn
  obtain ⟨rows, hmul, h⟩ := bind_eq_some_iff.1 h
  obtain ⟨-, rfl⟩ := mul_eq_some hmul
  obtain ⟨encodedRows, hp, h⟩ := bind_eq_some_iff.1 h
  rw [checkedNextPowerOfTwo] at hp
  split_ifs at hp with hlt
  obtain rfl := some.inj hp
  obtain rfl := some.inj h
  exact ⟨Nat.pos_of_ne_zero hn, hlt, _, _, rfl, rfl, rfl⟩

theorem laid_withCols (he : els = bitsToElements (8 * bytes)) (hp : 0 < els) (hcl : 0 < cols)
    (h : withCols bytes n k cols = some t) :
    t.Laid els ∧ t.minShards = n ∧ t.totalShards = n + k := by
  obtain ⟨hn, -, rows, samples, hrs, hsm, rfl⟩ := withCols_eq_some h
  rw [← he] at hrs
  have hrw : 0 < rows := hrs ▸ divCeil_pos hp hcl
  refine ⟨⟨hcl, hrw, hsm ▸ divCeil_pos hrw hn, ?_, hsm ▸ le_mul_divCeil hn,
    le_nextPowerOfTwo _, Nat.le_add_right _ _, ⟨_, rfl⟩⟩, rfl, rfl⟩
  rw [Nat.mul_comm, hrs]
  exact le_mul_divCeil hcl

/-- The product of the comparison is not cut off where the layout is accepted: the number of encoded
rows is a power of two below the largest word. -/
theorem mul_le_of_accepted (h : withCols bytes n k cols = some t)
    (hac : min (r * (n + k)) usizeMax ≤ t.encodedRows) : r * (n + k) ≤ t.encodedRows := by
  obtain ⟨-, hlt, rows, samples, -, -, rfl⟩ := withCols_eq_some h
  have hp : nextPowerOfTwo ((n + k) * samples) ≤ 2 ^ 63 := by
    rw [nextPowerOfTwo, Nat.pow_lt_pow_iff_right one_lt_two] at hlt
    exact Nat.pow_le_pow_right two_pos (by omega)
  have hm : usizeMax = 2 ^ 64 - 1 := rfl
  dsimp only at hac ⊢
  omega

variable {fuel : ℕ}

theorem search_laid (he : els = bitsToElements (8 * bytes)) (hp : 0 < els)
    (hot : out.Laid els ∧ out.minShards = n ∧ out.totalShards = n + k)
    (h : search bytes n k fuel out = some t) :
    t.Laid els ∧ t.minShards = n ∧ t.totalShards = n + k := by
  induction fuel generalizing out with
  | zero => exact nomatch h
  | succ fuel ih =>
    obtain ⟨attempt, hat, h⟩ := bind_eq_some_iff.1 h
    obtain ⟨required, -, h⟩ := bind_eq_some_iff.1 h
    obtain ⟨hld, hm, ht⟩ := laid_withCols he hp (Nat.succ_pos _) hat
    split_ifs at h with hac
    · refine ih ?_ h
      refine ⟨{ hld with
        samples_pos := lt_max_of_lt_right hld.samples_pos
        rows_le := hld.rows_le.trans (Nat.mul_le_mul_left _ (le_max_right _ _))
        total_le := ?_ }, hm, ht⟩
      have hle := mul_le_of_accepted hat hac
      show attempt.totalShards * max required attempt.samples ≤ attempt.encodedRows
      rcases max_choice required attempt.samples with hmx | hmx
      · rwa [hmx, ht, Nat.mul_comm]
      · rw [hmx]
        exact hld.total_le
    · exact some.inj h ▸ hot

variable {config : Config} {dataBytes : ℕ}

/-- **The sizes of every topology that is reckoned** fit together. -/
theorem laid_of_reckon (h : reckon config dataBytes = some t) :
    t.Laid (bitsToElements (8 * max dataBytes 1)) ∧ t.dataBytes = dataBytes ∧
      t.minShards = config.minimumShards.toNat ∧
      t.totalShards = config.minimumShards.toNat + config.extraShards.toNat := by
  have he : 0 < bitsToElements (8 * max dataBytes 1) := by
    rw [bitsToElements]
    omega
  obtain ⟨first, hf, h⟩ := bind_eq_some_iff.1 h
  obtain ⟨out, hot, h⟩ := bind_eq_some_iff.1 h
  obtain ⟨corrected, hcr, h⟩ := bind_eq_some_iff.1 h
  obtain ⟨hld, hm, ht⟩ :=
    search_laid rfl he (laid_withCols rfl he Nat.one_pos hf) hot
  obtain ⟨required, -, hcr⟩ := bind_eq_some_iff.1 hcr
  split_ifs at hcr
  obtain ⟨columnSamples, -, hcr⟩ := bind_eq_some_iff.1 hcr
  obtain rfl := some.inj hcr
  obtain rfl := some.inj h
  exact ⟨{ hld with }, rfl, hm, ht⟩

/-! ### The search ends -/

/-- The logarithms from which the number of samples is computed are between `-2` and `0`. -/
theorem two_le_ceil : ∀ i : Fin 256,
    2 ≤ Rational.ceilToU128 ((securityBits : ℚ) / -((-((i : ℤ) + 1) : ℤ) / (2 ^ log2Precision : ℤ))) %
      2 ^ 64 := by
  decide +kernel

theorem two_le_requiredSamples (hrw : 0 < t.dataRows) (h : t.requiredSamples = some r) : 2 ≤ r := by
  obtain ⟨d, hd, h⟩ := bind_eq_some_iff.1 h
  dsimp only at h
  split_ifs at h with hm
  obtain ⟨y, hy, h⟩ := bind_eq_some_iff.1 h
  split_ifs at h with hng
  · obtain rfl := some.inj h
    decide
  obtain rfl := some.inj h
  have hh : (1 : ℚ) / 2 ≤ 1 - ((d : ℚ) + 1) / (2 * t.encodedRows) := by
    have hle : d + 1 ≤ t.encodedRows := by
      rw [Checked.sub] at hd
      split_ifs at hd
      have := some.inj hd
      omega
    have hp : (0 : ℚ) < 2 * t.encodedRows := by positivity
    have hf : ((d : ℚ) + 1) / (2 * t.encodedRows) ≤ 1 / 2 := by
      rw [div_le_div_iff₀ hp two_pos]
      have : (d : ℚ) + 1 ≤ t.encodedRows := by exact_mod_cast hle
      linarith
    linarith
  obtain ⟨j, hj, rfl⟩ := Rational.le_log2Ceil hh hy
  have hlt : j < 0 := by
    by_contra hnn
    exact hng (div_nonneg (Int.cast_nonneg (not_lt.1 hnn)) (by positivity))
  have hcl := two_le_ceil ⟨(-j - 1).toNat, by have : (2 : ℤ) ^ log2Precision = 128 := rfl; omega⟩
  rwa [show -((((-j - 1).toNat : ℕ) : ℤ) + 1) = j by omega] at hcl

/-- With a column for each element there is one row, and as many samples as shards are too few. -/
theorem lt_of_accepted (he : els = bitsToElements (8 * bytes)) (hp : 0 < els) (hcl : 0 < cols)
    (h : withCols bytes n k cols = some t) (hr : t.requiredSamples = some r)
    (hac : min (r * (n + k)) usizeMax ≤ t.encodedRows) : cols < els := by
  by_contra hge
  have hle := mul_le_of_accepted h hac
  have ht := two_le_requiredSamples (laid_withCols he hp hcl h).1.rows_pos hr
  obtain ⟨hn, -, rows, samples, hrw, hsm, rfl⟩ := withCols_eq_some h
  rw [← he] at hrw
  obtain rfl : rows = 1 := by
    rw [hrw, divCeil, Nat.div_eq_iff hcl]
    omega
  obtain rfl : samples = 1 := by
    rw [hsm, divCeil, Nat.div_eq_iff hn]
    omega
  have hlt := nextPowerOfTwo_lt (n := (n + k) * 1) (by omega)
  have hmul := Nat.mul_le_mul_right (n + k) ht
  dsimp only at hle
  omega

/-- **More steps** than there are elements change nothing. -/
theorem search_succ (he : els = bitsToElements (8 * bytes)) (hp : 0 < els)
    (hot : out.dataCols ≤ els) (hf : els < out.dataCols + fuel) :
    search bytes n k (fuel + 1) out = search bytes n k fuel out := by
  induction fuel generalizing out with
  | zero => omega
  | succ fuel ih =>
    rw [search.eq_2, search.eq_2 bytes n k out fuel]
    refine bind_congr fun attempt hat => bind_congr fun required hrq => ?_
    split_ifs with hac
    · have hlt := lt_of_accepted he hp (Nat.succ_pos _) hat hrq hac
      obtain ⟨-, -, rows, samples, -, -, rfl⟩ := withCols_eq_some hat
      exact ih hlt.le (by dsimp only; omega)
    · rfl

end Commonware.Zoda
