/-
**Readers and writers of bytes.**

A codec writes values of a type as bytes and reads them back.  A reader takes its value from the
front of a byte string and hands on the rest, so that codecs compose; the law that reading undoes
writing is part of the codec, for the values that the format can represent.

Main definitions:

* `Wire.Codec` — a writer and a reader, with the law that connects them;
* `Wire.Codec.pair`, `Wire.Codec.map`, `Wire.Codec.refine` — one value after the other, values of
  another type, and values that have to pass a check;
* `Wire.Codec.decode` — reading a whole byte string;
* `Wire.Codec.Sound` — codecs that read only values they can represent.

Main results:

* `Wire.Codec.decode_write` — **decoding undoes encoding**.
-/

import Mathlib.Tactic.Common

set_option autoImplicit false

namespace Wire

abbrev Bytes := List UInt8

/-- The bytes of an ASCII text. -/
def ascii (text : String) : Bytes := text.toList.map fun c => UInt8.ofNat c.toNat

/-- Why bytes do not decode. -/
inductive Error
  | endOfBuffer
  | extraData (remaining : ℕ)
  | invalidVarint (size : ℕ)
  | invalid (context message : String)
  deriving DecidableEq

/-- A reader takes a value from the front of the bytes. -/
abbrev Reader (α : Type) := Bytes → Except Error (α × Bytes)

/-- A format for values of a type; `valid` are the values it can represent. -/
structure Codec (α : Type) where
  valid : α → Prop
  write : α → Bytes
  read : Reader α
  read_write : ∀ a rest, valid a → read (write a ++ rest) = .ok (a, rest)

namespace Codec

variable {α β : Type}

def byte : Codec UInt8 where
  valid _ := True
  write b := [b]
  read
    | [] => .error .endOfBuffer
    | b :: bs => .ok (b, bs)
  read_write _ _ _ := rfl

variable (c : Codec α)

def pair (d : Codec β) : Codec (α × β) where
  valid p := c.valid p.1 ∧ d.valid p.2
  write p := c.write p.1 ++ d.write p.2
  read bs :=
    match c.read bs with
    | .error e => .error e
    | .ok (a, bs) =>
      match d.read bs with
      | .error e => .error e
      | .ok (b, bs) => .ok ((a, b), bs)
  read_write p rest h := by
    rw [List.append_assoc]
    simp only [c.read_write _ _ h.1, d.read_write _ _ h.2]

/-- Values of another type, by way of functions in both directions. -/
def map (f : α → β) (g : β → α) (h : ∀ b, f (g b) = b) : Codec β where
  valid b := c.valid (g b)
  write b := c.write (g b)
  read bs :=
    match c.read bs with
    | .error e => .error e
    | .ok (a, bs) => .ok (f a, bs)
  read_write b rest hb := by simp only [c.read_write _ _ hb, h]

/-- Values that are built from others only if these pass a check. -/
def refine (f : α → Option β) (g : β → α) (h : ∀ b, f (g b) = some b) (e : Error) : Codec β where
  valid b := c.valid (g b)
  write b := c.write (g b)
  read bs :=
    match c.read bs with
    | .error e => .error e
    | .ok (a, bs) =>
      match f a with
      | none => .error e
      | some b => .ok (b, bs)
  read_write b rest hb := by simp only [c.read_write _ _ hb, h]

/-- Reading a whole byte string. -/
def decode (bs : Bytes) : Except Error α :=
  match c.read bs with
  | .error e => .error e
  | .ok (a, rest) => if rest.isEmpty then .ok a else .error (.extraData rest.length)

/-- **Decoding undoes encoding.** -/
theorem decode_write {a : α} (h : c.valid a) : c.decode (c.write a) = .ok a := by
  have hr := c.read_write a [] h
  rw [List.append_nil] at hr
  simp [decode, hr]

/-- Whatever is read can be represented. -/
def Sound : Prop := ∀ bs a rest, c.read bs = .ok (a, rest) → c.valid a

theorem Sound.pair {c : Codec α} {d : Codec β} (hc : c.Sound) (hd : d.Sound) :
    (c.pair d).Sound := by
  intro bs p rest h
  simp only [Codec.pair] at h
  cases hrd : c.read bs with
  | error e => simp [hrd] at h
  | ok r =>
    obtain ⟨a, bs'⟩ := r
    simp only [hrd] at h
    cases hrd' : d.read bs' with
    | error e => simp [hrd'] at h
    | ok r' =>
      obtain ⟨b, rest'⟩ := r'
      simp only [hrd', Except.ok.injEq, Prod.mk.injEq] at h
      rw [← h.1]
      exact ⟨hc bs a bs' hrd, hd bs' b rest' hrd'⟩

theorem Sound.map {c : Codec α} (hc : c.Sound) {f : α → β} {g : β → α} (h : ∀ b, f (g b) = b)
    (hgf : ∀ a, g (f a) = a) : (c.map f g h).Sound := by
  intro bs b rest hb
  simp only [Codec.map] at hb
  cases hrd : c.read bs with
  | error e => simp [hrd] at hb
  | ok r =>
    obtain ⟨a, bs'⟩ := r
    simp only [hrd, Except.ok.injEq, Prod.mk.injEq] at hb
    change c.valid (g b)
    rw [← hb.1, hgf]
    exact hc bs a bs' hrd

/-- A value that a whole byte string decodes to can be represented. -/
theorem Sound.decode {c : Codec α} (hc : c.Sound) {bs : Bytes} {a : α}
    (h : c.decode bs = .ok a) : c.valid a := by
  rw [Codec.decode] at h
  cases hrd : c.read bs with
  | error e => simp [hrd] at h
  | ok r =>
    obtain ⟨b, rest⟩ := r
    simp only [hrd] at h
    split_ifs at h
    cases h
    exact hc bs _ rest hrd

end Codec

end Wire
