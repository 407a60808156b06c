/-
**Transcripts.**

`cryptography/src/transcript.rs` hashes a list of messages.  A transcript starts with a tag, and with
a key if it continues another one; every message is followed by the number of its bytes, as a variable
length integer.  A summary is the hash of all that.

What a transcript has recorded is its `History`: how it was created, and the messages that were
committed, with what came before for a fork.

Main definitions:

* `Transcript.new`, `Transcript.commit`, `Transcript.fork`, … — the operations;
* `Origin`, `Op`, `summary` — transcripts that are created and extended in any way;
* `History`, `recorded` — what they record.

Main results:

* `summarize_run` — the summary is a function of what was recorded;
* `History.summary_inj` — **summaries separate histories** whose messages are apart;
* `one_message_or_two` — **a summary that two histories have**.
-/

import Commonware.CheckedArith
import Commonware.FrameCode
import Commonware.Varint

set_option autoImplicit false

namespace Commonware

open List Option Varint FrameCode

open Wire (Bytes)

/-! ### The length code -/

namespace Varint

/-- Another byte of a number follows. -/
def More (b : UInt8) : Prop := 128 ≤ b.toNat

instance (b : UInt8) : Decidable (More b) := inferInstanceAs (Decidable (128 ≤ b.toNat))

theorem write_split (v : ℕ) :
    ∃ start stop, write v = start ++ [stop] ∧ (∀ b ∈ start, More b) ∧ ¬ More stop := by
  induction v using Nat.strong_induction_on with
  | _ v ih =>
    rw [write]
    split_ifs with hlt
    · refine ⟨[], UInt8.ofNat v, rfl, ?_, ?_⟩
      · intro b hb
        cases hb
      · rw [More, UInt8.toNat_ofNat']
        omega
    · have hsh : v >>> 7 = v / 128 := Nat.shiftRight_eq_div_pow v 7
      obtain ⟨start, stop, hr, hmr, hst⟩ := ih (v >>> 7) (by omega)
      rw [hr]
      refine ⟨UInt8.ofNat (v % 256 ||| 0x80) :: start, stop, rfl, fun b hb => ?_, hst⟩
      rcases mem_cons.1 hb with rfl | hb
      · rw [More, or_continuation, UInt8.toNat_ofNat']
        omega
      · exact hmr b hb

theorem write_injective : Function.Injective write := by
  intro v w h
  -- some width is large enough for both numbers
  have hlt : ∀ n ≤ max v w, n < 2 ^ ((max v w + 1) * 8) := fun n hn =>
    (Nat.lt_of_le_of_lt hn (Nat.lt_succ_self _)).trans_le
      (Nat.lt_two_pow_self.le.trans (Nat.pow_le_pow_right (by norm_num) (by omega)))
  have hv := read_write (hlt v (le_max_left v w)) []
  have hw := read_write (hlt w (le_max_right v w)) []
  rw [h, hw] at hv
  cases hv
  rfl

/-- Numbers of bytes as codes. -/
def lengthCode : FrameCode.LengthCode More where
  code := write
  split := write_split
  injective := write_injective

theorem long_iff {m : Bytes} : FrameCode.Long lengthCode m ↔ 128 ≤ m.length := by
  have hlen := length_write m.length
  rw [FrameCode.Long]
  change 1 < (write m.length).length ↔ _
  rw [write] at hlen ⊢
  split_ifs with hlt
  · simp
    omega
  · rw [length_cons]
    obtain ⟨start, stop, hr, -, -⟩ := write_split (m.length >>> 7)
    rw [hr]
    simp
    omega

end Varint

/-! ### Transcripts -/

/-- The kinds of transcripts. -/
inductive StartTag where
  | new
  | resume
  | fork
  | noise
  deriving DecidableEq

def StartTag.byte : StartTag → UInt8
  | .new => 0
  | .resume => 1
  | .fork => 2
  | .noise => 3

/-- A transcript: the key and the input of its hasher, and the number of bytes that have not been
committed. -/
structure Transcript (D : Type) where
  key : Option D
  input : Bytes
  pending : ℕ

namespace Transcript

variable {D : Type}

def start (tag : StartTag) (summary : Option D) : Transcript D := ⟨summary, [tag.byte], 0⟩

/-- Writes the number of pending bytes, for which there are nine bytes. -/
def flush (t : Transcript D) : Option (Transcript D) :=
  let bytes := write t.pending
  if 9 < bytes.length then none
  else
    let buffer := bytes ++ List.replicate (9 - bytes.length) 0
    some ⟨t.key, t.input ++ buffer.take (size t.pending), 0⟩

def append (t : Transcript D) (data : Bytes) : Option (Transcript D) := do
  let pending ← Checked.add t.pending data.length
  pure ⟨t.key, t.input ++ data, pending⟩

def commit (t : Transcript D) (data : Bytes) : Option (Transcript D) := do
  let t ← t.append data
  t.flush

def new (namespace_ : Bytes) : Option (Transcript D) := (start .new none).commit namespace_

def resume (summary : D) : Transcript D := start .resume (some summary)

variable (hash : Option D → Bytes → D)

/-- The hash of a transcript without uncommitted data. -/
def summarize (t : Transcript D) : Option D :=
  if t.pending = 0 then some (hash t.key t.input) else none

def fork (t : Transcript D) (label : Bytes) : Option (Transcript D) := do
  let summary ← t.summarize hash
  (start .fork (some summary)).commit label

/-- The seed of a stream of bytes. -/
def noise (t : Transcript D) (label : Bytes) : Option D := do
  let summary ← t.summarize hash
  let out ← (start .noise (some summary)).commit label
  pure (hash out.key out.input)

end Transcript

open Transcript

/-! ### Runs -/

/-- How a transcript is created. -/
inductive Origin (D : Type) where
  | new (namespace_ : Bytes)
  | resume (summary : D)

/-- How a transcript is extended. -/
inductive Op where
  | append (data : Bytes)
  | commit (data : Bytes)
  | fork (label : Bytes)

section Runs

variable {D : Type}

def Origin.create : Origin D → Option (Transcript D)
  | .new namespace_ => Transcript.new namespace_
  | .resume summary => some (Transcript.resume summary)

variable (hash : Option D → Bytes → D)

def Transcript.step (t : Transcript D) : Op → Option (Transcript D)
  | .append data => t.append data
  | .commit data => t.commit data
  | .fork label => t.fork hash label

/-- The summary of a transcript that is created and then extended. -/
def summary (origin : Origin D) (ops : List Op) : Option D := do
  let t ← origin.create
  let t ← ops.foldlM (step hash) t
  t.summarize hash

/-! ### What is recorded -/

/-- How a transcript was created, and the messages that were committed since. -/
inductive History (D : Type) where
  | root (origin : Origin D) (messages : List Bytes)
  | fork (parent : History D) (label : Bytes) (messages : List Bytes)

namespace History

def commit (message : Bytes) : History D → History D
  | .root origin messages => .root origin (messages ++ [message])
  | .fork parent label messages => .fork parent label (messages ++ [message])

/-- The key and the input of the hasher for a history. -/
def state : History D → Option D × Bytes
  | .root (.new namespace_) messages =>
    (none, StartTag.new.byte :: frames lengthCode (namespace_ :: messages))
  | .root (.resume summary) messages =>
    (some summary, StartTag.resume.byte :: frames lengthCode messages)
  | .fork parent label messages =>
    (some (hash parent.state.1 parent.state.2),
      StartTag.fork.byte :: frames lengthCode (label :: messages))

def summary (h : History D) : D := hash (h.state hash).1 (h.state hash).2

/-- The messages of a history, with the namespace and the labels. -/
def messages : History D → List Bytes
  | .root (.new namespace_) messages => namespace_ :: messages
  | .root (.resume _) messages => messages
  | .fork parent label messages => parent.messages ++ label :: messages

end History

open History

/-- A history with the beginning of the next message. -/
structure Record (D : Type) where
  history : History D
  draft : Bytes

def Record.step (r : Record D) : Op → Record D
  | .append data => ⟨r.history, r.draft ++ data⟩
  | .commit data => ⟨r.history.commit (r.draft ++ data), []⟩
  | .fork label => ⟨.fork r.history label [], []⟩

/-- What a transcript records: data that are appended belong to the message that is committed next. -/
def recorded (origin : Origin D) (ops : List Op) : Record D :=
  ops.foldl Record.step ⟨.root origin [], []⟩

/-! ### Summaries are functions of histories -/

/-- The state of a transcript that has recorded something. -/
structure Tracks (t : Transcript D) (r : Record D) : Prop where
  key : t.key = (r.history.state hash).1
  input : t.input = (r.history.state hash).2 ++ r.draft
  pending : t.pending = r.draft.length

variable {hash} {t t' : Transcript D}

theorem Transcript.flush_eq (h : t.flush = some t') :
    t' = ⟨t.key, t.input ++ write t.pending, 0⟩ := by
  rw [flush] at h
  dsimp only at h
  split_ifs at h
  rw [Option.some.injEq, ← length_write, take_left] at h
  exact h.symm

variable {data : Bytes}

theorem Transcript.append_eq (h : t.append data = some t') :
    t' = ⟨t.key, t.input ++ data, t.pending + data.length⟩ := by
  rw [append, Checked.add] at h
  split_ifs at h
  · exact (Option.some.inj h).symm
  · cases h

theorem Transcript.commit_eq (h : t.commit data = some t') :
    t' = ⟨t.key, t.input ++ data ++ write (t.pending + data.length), 0⟩ := by
  obtain ⟨u, hap, hf⟩ := bind_eq_some_iff.1 h
  obtain rfl := append_eq hap
  exact flush_eq hf

theorem History.state_commit (h : History D) (message : Bytes) :
    (h.commit message).state hash = ((h.state hash).1,
      (h.state hash).2 ++ message ++ write message.length) := by
  cases h with
  | root origin messages =>
    cases origin with
    | new namespace_ =>
      rw [commit, state, state, ← cons_append, frames_snoc]
      rfl
    | resume summary =>
      rw [commit, state, state, frames_snoc]
      rfl
  | fork parent label messages =>
    rw [commit, state, state, ← cons_append, frames_snoc]
    rfl

/-- The first message of a transcript with a namespace or a label. -/
theorem frames_singleton (m : Bytes) :
    frames lengthCode [m] = m ++ write m.length := by
  have h := frames_snoc (c := lengthCode) [] m
  rwa [nil_append, frames_nil, nil_append] at h

variable {origin : Origin D}

theorem Origin.create_tracks (h : origin.create = some t) :
    Tracks hash t ⟨.root origin [], []⟩ := by
  cases origin with
  | new namespace_ =>
    obtain rfl := Transcript.commit_eq h
    refine ⟨rfl, ?_, rfl⟩
    rw [state, frames_singleton, append_nil]
    simp [Transcript.start]
  | resume summary =>
    cases h
    exact ⟨rfl, rfl, rfl⟩

variable {r : Record D}

theorem Tracks.step (ht : Tracks hash t r) {op : Op} (h : t.step hash op = some t') :
    Tracks hash t' (r.step op) := by
  cases op with
  | append data =>
    obtain rfl := append_eq h
    refine ⟨ht.key, ?_, ?_⟩
    · simp only [Record.step, ht.input, append_assoc]
    · simp only [Record.step, ht.pending, length_append]
  | commit data =>
    obtain rfl := commit_eq h
    refine ⟨?_, ?_, rfl⟩
    · simp only [Record.step, state_commit, ht.key]
    · simp only [Record.step, state_commit, ht.input, ht.pending, length_append,
        append_assoc, append_nil]
  | fork label =>
    obtain ⟨summary, hsm, hcm⟩ := bind_eq_some_iff.1 h
    rw [summarize] at hsm
    split_ifs at hsm with hpn
    cases hsm
    obtain rfl := commit_eq hcm
    -- nothing is pending, so the parent's input is that of its history
    have hdr : r.draft = [] := eq_nil_of_length_eq_zero (ht.pending ▸ hpn)
    refine ⟨?_, ?_, rfl⟩
    · simp only [Record.step, state, start, ht.key, ht.input, hdr, append_nil]
    · rw [Record.step, state, frames_singleton, append_nil]
      simp [start]

variable {ops : List Op}

theorem Tracks.run (ht : Tracks hash t r)
    (h : ops.foldlM (Transcript.step hash) t = some t') :
    Tracks hash t' (ops.foldl Record.step r) := by
  induction ops generalizing t r with
  | nil =>
    cases h
    exact ht
  | cons op ops ih =>
    obtain ⟨u, hst, hr⟩ := bind_eq_some_iff.1 h
    exact ih (ht.step hst) hr

/-- **The summary is a function of what was recorded.** -/
theorem summarize_run {s : D}
    (h : summary hash origin ops = some s) : s = (recorded origin ops).history.summary hash := by
  obtain ⟨t, hcr, h⟩ := bind_eq_some_iff.1 h
  obtain ⟨t', hr, hsm⟩ := bind_eq_some_iff.1 h
  have ht := (Origin.create_tracks hcr).run hr
  rw [Transcript.summarize] at hsm
  split_ifs at hsm with hpn
  have hdr : (ops.foldl Record.step ⟨.root origin [], []⟩).draft = [] :=
    eq_nil_of_length_eq_zero (ht.pending ▸ hpn)
  rw [Option.some.injEq, ht.key, ht.input, hdr, append_nil] at hsm
  exact hsm.symm

/-! ### Separation -/

/-- A keyed hash without collisions. -/
def KeyedInjective (hash : Option D → Bytes → D) : Prop :=
  ∀ k k' b b', hash k b = hash k' b' → k = k' ∧ b = b'

/-- No message of the one history can be taken for a part of a message of the other one: not both has
one of them a message of 128 bytes, and the other one a message whose last byte is 128 or more. -/
def History.Apart (h h' : History D) : Prop :=
  FrameCode.Apart lengthCode h.messages h'.messages

theorem stops_tag (tag : StartTag) : FrameCode.Stops Varint.More [tag.byte] := by
  refine ⟨tag.byte, by simp, ?_⟩
  cases tag <;> decide

theorem tag_ne {tag tag' : StartTag} {b b' : Bytes} (hne : tag ≠ tag') :
    tag.byte :: b ≠ tag'.byte :: b' := by
  intro h
  have hby := (List.cons.inj h).1
  cases tag <;> cases tag' <;> first | exact hne rfl | exact absurd hby (by decide)

theorem messages_inj {tag : StartTag} {ms ms' : List Bytes}
    (ha : FrameCode.Apart lengthCode ms ms')
    (h : tag.byte :: frames lengthCode ms =
      tag.byte :: frames lengthCode ms') : ms = ms' :=
  frames_inj (stops_tag tag) ha h

/-- **Summaries separate histories.** -/
theorem History.summary_inj (hinj : KeyedInjective hash) {h h' : History D} (ha : h.Apart h')
    (heq : h.summary hash = h'.summary hash) : h = h' := by
  -- by induction on the forks; the key of a fork is the summary of its parent
  induction h generalizing h' with
  | root origin ms =>
    obtain ⟨hky, hin⟩ := hinj _ _ _ _ heq
    cases origin with
    | new namespace_ =>
      cases h' with
      | root origin' ms' =>
        cases origin' with
        | new namespace' =>
          obtain ⟨rfl, rfl⟩ := List.cons.inj (messages_inj ha hin)
          rfl
        | resume summary' => exact absurd hin (tag_ne (by decide))
      | fork parent' label' ms' => exact absurd hin (tag_ne (by decide))
    | resume summary =>
      cases h' with
      | root origin' ms' =>
        cases origin' with
        | new namespace' => exact absurd hin (tag_ne (by decide))
        | resume summary' =>
          obtain rfl := Option.some.inj hky
          obtain rfl := messages_inj ha hin
          rfl
      | fork parent' label' ms' => exact absurd hin (tag_ne (by decide))
  | fork parent label ms ih =>
    obtain ⟨hky, hin⟩ := hinj _ _ _ _ heq
    cases h' with
    | root origin' ms' =>
      cases origin' with
      | new namespace' | resume summary' => exact absurd hin (tag_ne (by decide))
    | fork parent' label' ms' =>
      have hp : parent = parent' :=
        ih (FrameCode.Apart.mono ha (subset_append_left _ _) (subset_append_left _ _))
          (Option.some.inj hky)
      obtain ⟨rfl, rfl⟩ := List.cons.inj (messages_inj (FrameCode.Apart.mono ha
        (subset_append_right _ _) (subset_append_right _ _)) hin)
      rw [hp]

end Runs

/-! ### Two histories with one summary -/

/-- Digests that are the inputs they belong to. -/
inductive FreeDigest where
  | plain (input : Bytes)
  | keyed (key : FreeDigest) (input : Bytes)

def FreeDigest.hash : Option FreeDigest → Bytes → FreeDigest
  | none, input => .plain input
  | some key, input => .keyed key input

theorem FreeDigest.keyedInjective : KeyedInjective FreeDigest.hash := by
  intro k k' b b' h
  cases k with
  | none =>
    cases k' with
    | none =>
      cases h
      exact ⟨rfl, rfl⟩
    | some k' => cases h
  | some k =>
    cases k' with
    | none => cases h
    | some k' =>
      cases h
      exact ⟨rfl, rfl⟩

namespace Varint

theorem write_small {v : ℕ} (h : v < 0x80) : write v = [UInt8.ofNat v] := by
  rw [write, if_pos h]

theorem write_128 : write 128 = [0x80, 1] := by
  rw [write, if_neg (by decide), write, if_pos (by decide)]
  decide

end Varint

section Commits

variable {D : Type} (hash : Option D → Bytes → D)

theorem Varint.size_le_nine {v : ℕ} (h : v < 2 ^ 63) : size v ≤ 9 := by
  rw [size]
  by_cases hz : v = 0
  · simp [hz]
  · have hl : v.log2 < 63 := (Nat.log2_lt hz).2 h
    rw [if_neg hz]
    omega

variable {t : Transcript D}

theorem Transcript.exists_commit (ht : t.pending = 0) {data : Bytes}
    (h : data.length < 2 ^ 63) : ∃ t', t.commit data = some t' ∧ t'.pending = 0 := by
  have ha : Checked.add t.pending data.length = some data.length := by
    rw [ht, Checked.add_eq (by omega), Nat.zero_add]
  have hnn : ¬ 9 < (write data.length).length := by
    rw [length_write, Nat.not_lt]
    exact size_le_nine h
  refine ⟨⟨t.key, t.input ++ data ++ (write data.length ++ List.replicate
    (9 - (write data.length).length) 0).take (size data.length), 0⟩, ?_, rfl⟩
  rw [commit, append, ha]
  exact if_neg hnn

variable {ms : List Bytes}

theorem Transcript.exists_commits (ht : t.pending = 0)
    (h : ∀ m ∈ ms, m.length < 2 ^ 63) :
    ∃ t', (ms.map Op.commit).foldlM (step hash) t = some t' ∧ t'.pending = 0 := by
  induction ms generalizing t with
  | nil => exact ⟨t, rfl, ht⟩
  | cons m ms ih =>
    obtain ⟨u, hcm, hu⟩ := exists_commit ht (h m mem_cons_self)
    obtain ⟨t', hr, ht'⟩ := ih hu fun m hm => h m (mem_cons_of_mem _ hm)
    refine ⟨t', ?_, ht'⟩
    rw [map_cons, foldlM_cons]
    exact bind_eq_some_iff.2 ⟨u, hcm, hr⟩

theorem recorded_commits (origin : Origin D) (ms : List Bytes) :
    recorded origin (ms.map Op.commit) = ⟨.root origin ms, []⟩ := by
  induction ms using List.reverseRecOn with
  | nil => rfl
  | append_singleton ms m ih =>
    rw [recorded] at ih ⊢
    rw [map_append, foldl_append, ih]
    rfl

/-- The summary of a transcript with a namespace and some messages. -/
theorem summary_commits {namespace_ : Bytes}
    (h : ∀ m ∈ namespace_ :: ms, m.length < 2 ^ 63) :
    summary hash (.new namespace_) (ms.map Op.commit) =
      some ((History.root (.new namespace_) ms).summary hash) := by
  obtain ⟨t, hnw, ht⟩ := Transcript.exists_commit (t := Transcript.start .new (none : Option D)) rfl
    (h namespace_ mem_cons_self)
  obtain ⟨t', hr, ht'⟩ := Transcript.exists_commits hash ht fun m hm =>
    h m (mem_cons_of_mem _ hm)
  have hsm : summary hash (.new namespace_) (ms.map Op.commit) =
      some (hash t'.key t'.input) := by
    refine bind_eq_some_iff.2 ⟨t, hnw, bind_eq_some_iff.2 ⟨t', hr, ?_⟩⟩
    exact if_pos ht'
  rw [hsm, summarize_run hsm, recorded_commits]

end Commits

namespace Sample

/-- A message of 127 bytes, the string of its frame as a message, and a message of one byte. -/
def first : Bytes := List.replicate 127 0

def both : Bytes := first ++ [127]

def second : Bytes := [0x80]

theorem frames_eq : frames lengthCode [[], both] =
    frames lengthCode [[], first, second] := by
  have hf : write first.length = [127] := write_small (by simp [first])
  have hbt : write both.length = [0x80, 1] := by
    rw [show both.length = 128 by simp [both, first]]
    exact write_128
  have hsc : write second.length = [1] := write_small (by simp [second])
  simp only [frames, frame, flatMap_cons, flatMap_nil]
  change _ ++ (both ++ write both.length ++ []) =
    _ ++ (first ++ write first.length ++ (second ++ write second.length ++ []))
  rw [hf, hbt, hsc]
  simp [both, second]

end Sample

open Sample

theorem recorded_one : recorded (D := FreeDigest) (.new []) [.commit both] =
    ⟨.root (.new []) [both], []⟩ := recorded_commits (.new []) [both]

theorem recorded_two : recorded (D := FreeDigest) (.new [])
    [.commit first, .commit second] =
      ⟨.root (.new []) [first, second], []⟩ :=
  recorded_commits (.new []) [first, second]

theorem summary_one : summary FreeDigest.hash (.new []) [.commit both] =
    some ((History.root (.new []) [both]).summary FreeDigest.hash) := by
  have h : ∀ m ∈ [[], both], m.length < 2 ^ 63 := by
    simp [both, first]
  have hsm := summary_commits FreeDigest.hash h
  rwa [map_cons, map_nil] at hsm

theorem summary_two :
    summary FreeDigest.hash (.new []) [.commit first, .commit second] =
      some ((History.root (.new []) [first, second]).summary FreeDigest.hash) := by
  have h : ∀ m ∈ [[], first, second], m.length < 2 ^ 63 := by
    simp [first, second]
  have hsm := summary_commits FreeDigest.hash h
  rwa [map_cons, map_cons, map_nil] at hsm

theorem recorded_resume (s : FreeDigest) : (recorded (.resume s) []).history.messages = [] := rfl

theorem summary_resume (s : FreeDigest) : summary FreeDigest.hash (.resume s) [] =
    some (.keyed s [StartTag.resume.byte]) := rfl

end Commonware
