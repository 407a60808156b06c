/-
**Variable-length integers.**

`codec/src/varint.rs` writes an unsigned integer in groups of seven bits, lowest first, with the high
bit of every byte but the last set.  The decoder is fed one byte after the other; it rejects a last
byte that adds nothing and bits beyond the width of the type.

Numbers are natural numbers; the width of the source's integer type is the parameter `size`, in
bytes.

Main definitions:

* `Varint.Decoder`, `Varint.Decoder.feed` — the incremental decoder;
* `Varint.write`, `Varint.read` — whole numbers;
* `Varint.codec` — the codec of the numbers of a given width.

Main results:

* `Varint.read_write` — **reading undoes writing** for every number of the width;
* `Varint.codec_sound` — a number that is read fits the width.
-/

import Commonware.WireCodec
import Mathlib.Data.Nat.Log
import Mathlib.Tactic.Ring

set_option autoImplicit false

namespace Commonware.Varint

open Wire (Bytes Error Reader Codec)

/-! ### Writing -/

def write (value : ℕ) : Bytes :=
  if value < 0x80 then [UInt8.ofNat value]
  else UInt8.ofNat (value % 256 ||| 0x80) :: write (value >>> 7)
termination_by value
decreasing_by
  rw [Nat.shiftRight_eq_div_pow]
  omega

def size (value : ℕ) : ℕ :=
  let dataBits := if value = 0 then 0 else value.log2 + 1
  max 1 ((dataBits + 6) / 7)

theorem size_pos (value : ℕ) : 1 ≤ size value := by
  rw [size]
  exact le_max_left _ _

theorem size_le_five {value : ℕ} (h : value < 2 ^ 32) : size value ≤ 5 := by
  rw [size]
  by_cases hz : value = 0
  · simp [hz]
  · have hl : value.log2 < 32 := (Nat.log2_lt hz).2 h
    rw [if_neg hz]
    omega

theorem length_write (value : ℕ) : (write value).length = size value := by
  -- by strong induction on the number: every byte takes seven bits off
  induction value using Nat.strong_induction_on with
  | _ value ih =>
    rw [write]
    by_cases hlt : value < 0x80
    · rw [if_pos hlt, size, List.length_singleton]
      by_cases hz : value = 0
      · simp [hz]
      · have hl : value.log2 < 7 := (Nat.log2_lt hz).2 hlt
        rw [if_neg hz]
        omega
    · have hsh : value >>> 7 = value / 128 := Nat.shiftRight_eq_div_pow value 7
      have hl : (value / 128).log2 + 7 = value.log2 := by
        have hle : 7 ≤ value.log2 := (Nat.le_log2 (by omega)).2 (Nat.not_lt.1 hlt)
        have hdv := Nat.log_div_base_pow 2 value 7
        rw [← Nat.log2_eq_log_two, ← Nat.log2_eq_log_two, show 2 ^ 7 = 128 from rfl] at hdv
        omega
      rw [if_neg hlt, List.length_cons, ih _ (by omega), size, size, hsh,
        if_neg (by omega), if_neg (by omega)]
      omega

/-! ### Reading -/

structure Decoder where
  result : ℕ
  bitsRead : ℕ

namespace Decoder

def new : Decoder := ⟨0, 0⟩

/-- The number of bits from the lowest to the highest one that is set. -/
def relevantBits (byte : ℕ) : ℕ := if byte = 0 then 0 else byte.log2 + 1

/-- Feeding a byte: the number once it is complete, or the decoder that waits for more. -/
def feed (size : ℕ) (d : Decoder) (byte : UInt8) : Except Error (ℕ ⊕ Decoder) :=
  let byte := byte.toNat
  let remainingBits := size * 8 - d.bitsRead
  if byte = 0 ∧ d.bitsRead > 0 then .error (.invalidVarint size)
  else if remainingBits ≤ 7 ∧ relevantBits byte > remainingBits then .error (.invalidVarint size)
  else
    let result := d.result ||| ((byte &&& 0x7f) <<< d.bitsRead)
    if byte &&& 0x80 = 0 then .ok (.inl result) else .ok (.inr ⟨result, d.bitsRead + 7⟩)

end Decoder

open Decoder

/-- Feeding bytes to a decoder until the number is complete. -/
def readFrom (size : ℕ) (d : Decoder) : Reader ℕ
  | [] => .error .endOfBuffer
  | byte :: bs =>
    match d.feed size byte with
    | .error e => .error e
    | .ok (.inl value) => .ok (value, bs)
    | .ok (.inr d) => readFrom size d bs

def read (size : ℕ) : Reader ℕ := readFrom size .new

/-! ### Reading undoes writing -/

theorem or_continuation (v : ℕ) : v % 256 ||| 0x80 = v % 128 + 128 := by
  have h : ∀ i : Fin 256, i.val ||| 0x80 = i.val % 128 + 128 := by decide +kernel
  have := h ⟨v % 256, Nat.mod_lt _ (by decide)⟩
  simp only at this
  omega

theorem and_continuation {b : ℕ} (hb : b < 256) : b &&& 0x80 = 0 ↔ b < 128 := by
  have h : ∀ i : Fin 256, i.val &&& 0x80 = 0 ↔ i.val < 128 := by decide +kernel
  exact h ⟨b, hb⟩

theorem and_data (b : ℕ) : b &&& 0x7f = b % 128 := Nat.and_two_pow_sub_one_eq_mod b 7

theorem Decoder.relevantBits_le {b k : ℕ} (h : b < 2 ^ k) : relevantBits b ≤ k := by
  unfold relevantBits
  split_ifs with hb
  · exact Nat.zero_le k
  · exact (Nat.log2_lt hb).2 h

/-- Adding a group of bits above those that have been read. -/
theorem or_shiftLeft {r bits : ℕ} (hr : r < 2 ^ bits) (b : ℕ) :
    r ||| (b <<< bits) = r + b * 2 ^ bits := by
  rw [Nat.or_comm, ← Nat.shiftLeft_add_eq_or_of_lt hr, Nat.shiftLeft_eq, Nat.add_comm]

theorem lt_of_fits {r bits v w : ℕ} (h : r + v * 2 ^ bits < 2 ^ w) (hb : bits ≤ w) :
    v < 2 ^ (w - bits) := by
  have h' : v * 2 ^ bits < 2 ^ (w - bits) * 2 ^ bits := by
    rw [← pow_add, Nat.sub_add_cancel hb]
    omega
  exact Nat.lt_of_mul_lt_mul_right h'

variable {size : ℕ} {d : Decoder}

/-- The last byte of a number completes it. -/
theorem Decoder.feed_last {v : ℕ} (hv : v < 128)
    (hd : d.result < 2 ^ d.bitsRead) (h₀ : d.bitsRead > 0 → v ≠ 0)
    (hf : d.result + v * 2 ^ d.bitsRead < 2 ^ (size * 8)) (hbt : d.bitsRead ≤ size * 8) :
    d.feed size (UInt8.ofNat v) = .ok (.inl (d.result + v * 2 ^ d.bitsRead)) := by
  have hby : (UInt8.ofNat v).toNat = v := by
    rw [UInt8.toNat_ofNat']
    omega
  have hr := relevantBits_le (lt_of_fits hf hbt)
  have h₁ : ¬ (v = 0 ∧ d.bitsRead > 0) := fun h => h₀ h.2 h.1
  have h₂ : ¬ (size * 8 - d.bitsRead ≤ 7 ∧ relevantBits v > size * 8 - d.bitsRead) := by omega
  unfold feed
  simp only [hby, if_neg h₁, if_neg h₂, (and_continuation (by omega : v < 256)).2 hv, if_true,
    and_data, Nat.mod_eq_of_lt hv, or_shiftLeft hd]

/-- A byte with the continuation bit leaves the higher bits to the next ones. -/
theorem Decoder.feed_continue {v : ℕ} (hv : 128 ≤ v)
    (hd : d.result < 2 ^ d.bitsRead)
    (hf : d.result + v * 2 ^ d.bitsRead < 2 ^ (size * 8)) (hbt : d.bitsRead ≤ size * 8) :
    d.feed size (UInt8.ofNat (v % 256 ||| 0x80)) =
      .ok (.inr ⟨d.result + v % 128 * 2 ^ d.bitsRead, d.bitsRead + 7⟩) := by
  have hby : (UInt8.ofNat (v % 256 ||| 0x80)).toNat = v % 128 + 128 := by
    rw [or_continuation, UInt8.toNat_ofNat']
    omega
  have hlt := lt_of_fits hf hbt
  -- at least eight bits remain, so nothing is checked
  have hmr : 7 < size * 8 - d.bitsRead := by
    by_contra hle
    have := Nat.pow_le_pow_right (by decide : 0 < 2) (Nat.le_of_not_lt hle)
    omega
  have h₁ : ¬ (v % 128 + 128 = 0 ∧ d.bitsRead > 0) := by omega
  have h₂ : ¬ (size * 8 - d.bitsRead ≤ 7 ∧
      relevantBits (v % 128 + 128) > size * 8 - d.bitsRead) := by omega
  have h₃ : ¬ (v % 128 + 128 &&& 0x80 = 0) := by
    rw [and_continuation (by omega)]
    omega
  unfold feed
  simp only [hby, if_neg h₁, if_neg h₂, if_neg h₃, and_data, or_shiftLeft hd]
  rw [show (v % 128 + 128) % 128 = v % 128 by omega]

theorem readFrom_write (rest : Bytes) (v : ℕ) : ∀ d : Decoder,
    d.result < 2 ^ d.bitsRead → (d.bitsRead > 0 → v ≠ 0) →
    d.result + v * 2 ^ d.bitsRead < 2 ^ (size * 8) → d.bitsRead ≤ size * 8 →
    readFrom size d (write v ++ rest) = .ok (d.result + v * 2 ^ d.bitsRead, rest) := by
  -- by strong induction on what is left of the number
  induction v using Nat.strong_induction_on with
  | _ v ih =>
    intro d hd h₀ hf hbt
    rw [write]
    split_ifs with hv
    · simp only [List.singleton_append, readFrom, feed_last hv hd h₀ hf hbt]
    · have hv' : 128 ≤ v := Nat.le_of_not_lt hv
      have hsh : v >>> 7 = v / 128 := Nat.shiftRight_eq_div_pow v 7
      have hp : 2 ^ (d.bitsRead + 7) = 2 ^ d.bitsRead * 128 := pow_add 2 d.bitsRead 7
      have hsp : d.result + v % 128 * 2 ^ d.bitsRead + v / 128 * (2 ^ d.bitsRead * 128) =
          d.result + v * 2 ^ d.bitsRead := by
        have hdv : v % 128 + v / 128 * 128 = v := by omega
        calc d.result + v % 128 * 2 ^ d.bitsRead + v / 128 * (2 ^ d.bitsRead * 128)
            = d.result + (v % 128 + v / 128 * 128) * 2 ^ d.bitsRead := by ring
          _ = d.result + v * 2 ^ d.bitsRead := by rw [hdv]
      have hm : v % 128 < 128 := Nat.mod_lt _ (by decide)
      have hd' : d.result + v % 128 * 2 ^ d.bitsRead < 2 ^ (d.bitsRead + 7) := by
        rw [hp]
        calc d.result + v % 128 * 2 ^ d.bitsRead
            < 2 ^ d.bitsRead + v % 128 * 2 ^ d.bitsRead := by omega
          _ = (v % 128 + 1) * 2 ^ d.bitsRead := by ring
          _ ≤ 128 * 2 ^ d.bitsRead := Nat.mul_le_mul_right _ hm
          _ = 2 ^ d.bitsRead * 128 := Nat.mul_comm _ _
      have hbt' : d.bitsRead + 7 ≤ size * 8 := by
        have hlt := lt_of_fits hf hbt
        by_contra hle
        have := Nat.pow_le_pow_right (by decide : 0 < 2)
          (show size * 8 - d.bitsRead ≤ 7 by omega)
        omega
      simp only [List.cons_append, readFrom, feed_continue hv' hd hf hbt]
      rw [hsh] at *
      rw [ih (v / 128) (by omega) ⟨_, d.bitsRead + 7⟩ hd' (fun _ => by omega)
        (by rw [hp, hsp]; exact hf) hbt']
      simp only [hp, hsp]

/-- **Reading undoes writing.** -/
theorem read_write {v : ℕ} (hv : v < 2 ^ (size * 8)) (rest : Bytes) :
    read size (write v ++ rest) = .ok (v, rest) := by
  have h := @readFrom_write size rest v .new (by simp [new]) (by simp [new])
    (by simpa [new] using hv) (Nat.zero_le _)
  simpa [new, read] using h

/-- The numbers of `size` bytes. -/
def codec (size : ℕ) : Codec ℕ where
  valid v := v < 2 ^ (size * 8)
  write := write
  read := read size
  read_write _ rest h := read_write h rest

/-! ### What is read fits the width -/

theorem Decoder.lt_of_relevantBits_le {b k : ℕ} (h : relevantBits b ≤ k) : b < 2 ^ k := by
  unfold relevantBits at h
  split_ifs at h with hb
  · rw [hb]
    exact Nat.two_pow_pos k
  · exact (Nat.log2_lt hb).1 h

/-- A group of bits that fits the width is added within the width. -/
theorem or_shiftLeft_lt {r b bits n w : ℕ} (hr : r < 2 ^ bits) (hb : b < 2 ^ n)
    (hw : bits + n ≤ w) : r ||| (b <<< bits) < 2 ^ w := by
  rw [or_shiftLeft hr]
  have hmul : (b + 1) * 2 ^ bits ≤ 2 ^ n * 2 ^ bits := Nat.mul_le_mul_right _ hb
  have hp : 2 ^ n * 2 ^ bits ≤ 2 ^ w := by
    rw [← pow_add]
    exact Nat.pow_le_pow_right (by decide) (by omega)
  rw [Nat.add_mul, Nat.one_mul] at hmul
  omega

/-- The bits read so far fit the width, and so does a number that is complete. -/
def Decoder.Fits (size : ℕ) : ℕ ⊕ Decoder → Prop
  | .inl value => value < 2 ^ (size * 8)
  | .inr d => d.result < 2 ^ d.bitsRead ∧ d.bitsRead ≤ size * 8

theorem Decoder.feed_fits {byte : UInt8} {r : ℕ ⊕ Decoder}
    (hd : Fits size (.inr d)) (h : d.feed size byte = .ok r) : Fits size r := by
  obtain ⟨hd, hbt⟩ := hd
  have hby : byte.toNat < 256 := byte.toNat_lt
  have hdt : byte.toNat &&& 0x7f < 2 ^ 7 := by
    rw [and_data]
    omega
  unfold feed at h
  simp only at h
  split_ifs at h with hz hw hls
  · -- the last byte
    cases h
    have hsm := (and_continuation hby).1 hls
    by_cases hr : size * 8 - d.bitsRead ≤ 7
    · have hrl : relevantBits byte.toNat ≤ size * 8 - d.bitsRead := by omega
      have hlt := lt_of_relevantBits_le hrl
      change d.result ||| ((byte.toNat &&& 0x7f) <<< d.bitsRead) < 2 ^ (size * 8)
      rw [and_data, Nat.mod_eq_of_lt hsm]
      exact or_shiftLeft_lt hd hlt (by omega)
    · exact or_shiftLeft_lt hd hdt (by omega)
  · cases h
    -- a continuation byte has eight relevant bits, so there is room for seven
    have hb : ¬ byte.toNat < 128 := fun hlt => hls ((and_continuation hby).2 hlt)
    have hr : ¬ size * 8 - d.bitsRead ≤ 7 := by
      intro hr
      have hrl : relevantBits byte.toNat ≤ 7 := by omega
      exact hb (lt_of_relevantBits_le hrl)
    have hnx : d.bitsRead + 7 ≤ size * 8 := by omega
    exact ⟨or_shiftLeft_lt hd hdt le_rfl, hnx⟩

theorem readFrom_lt {bs : Bytes} {value : ℕ} {rest : Bytes}
    (hd : Decoder.Fits size (.inr d)) (h : readFrom size d bs = .ok (value, rest)) :
    value < 2 ^ (size * 8) := by
  induction bs generalizing d with
  | nil => cases h
  | cons byte bs ih =>
    rw [readFrom] at h
    cases hf : d.feed size byte with
    | error e => simp [hf] at h
    | ok r =>
      have hfits := feed_fits hd hf
      cases r with
      | inl v =>
        simp only [hf, Except.ok.injEq, Prod.mk.injEq] at h
        rw [← h.1]
        exact hfits
      | inr d' =>
        simp only [hf] at h
        exact ih hfits h

/-- **A number that is read fits the width.** -/
theorem codec_sound (size : ℕ) : (codec size).Sound :=
  fun _ _ _ h => readFrom_lt (d := .new) ⟨by decide, Nat.zero_le _⟩ h

example : read 4 [0xAC, 0x02, 0x07] = .ok (300, [0x07]) := by decide

/-- What is read is what a number writes whose bits follow those of the decoder. -/
theorem write_of_readFrom {bs rest : Bytes} {v : ℕ} (hd : d.result < 2 ^ d.bitsRead)
    (h : readFrom size d bs = .ok (v, rest)) :
    ∃ w, v = d.result + w * 2 ^ d.bitsRead ∧ bs = write w ++ rest ∧ (d.bitsRead > 0 → w ≠ 0) := by
  induction bs generalizing d with
  | nil => cases h
  | cons byte bs ih =>
    have hby := byte.toNat_lt
    have hm : byte.toNat % 128 < 2 ^ 7 := Nat.mod_lt _ (by decide)
    rw [readFrom] at h
    cases hf : d.feed size byte with
    | error e => simp [hf] at h
    | ok r =>
      simp only [hf] at h
      simp only [feed, and_data] at hf
      split_ifs at hf with hz hw hls
      · cases hf
        cases h
        have hlt := (and_continuation hby).1 hls
        rw [Nat.mod_eq_of_lt hlt, or_shiftLeft hd]
        refine ⟨byte.toNat, rfl, ?_, fun hp hb => hz ⟨hb, hp⟩⟩
        rw [write, if_pos hlt, UInt8.ofNat_toNat]
        rfl
      · cases hf
        have hge := not_lt.1 (mt (and_continuation hby).2 hls)
        obtain ⟨w, rfl, rfl, hnz⟩ := ih (or_shiftLeft_lt hd hm le_rfl) h
        have hw := hnz (Nat.succ_pos _)
        refine ⟨byte.toNat % 128 + w * 128, ?_, ?_, by omega⟩
        · rw [or_shiftLeft hd, pow_add]
          ring
        · have hb : (byte.toNat % 128 + w * 128) % 128 + 128 = byte.toNat := by omega
          rw [write.eq_1 (_ + _), if_neg (by omega), or_continuation, hb, UInt8.ofNat_toNat,
            Nat.shiftRight_eq_div_pow, show (_ + w * 128) / 2 ^ 7 = w by omega]
          rfl

/-- **A number has no other encoding than the one that is written.** -/
theorem read_unique {bs rest : Bytes} {v : ℕ} (h : read size bs = .ok (v, rest)) :
    bs = write v ++ rest := by
  obtain ⟨w, rfl, rfl, -⟩ := write_of_readFrom (d := .new) (by decide) h
  simp [new]

theorem read_unique_300 : [0xAC, 0x02, 0x07] = write 300 ++ [0x07] :=
  @read_unique 4 _ _ _ (by decide)

end Commonware.Varint
