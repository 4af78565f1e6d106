import Lumberjack.Wire.Codec

/-!
# Batches and the window being collected

`Batch` owns the sending half of its acknowledgement channel, named here by a
value of an arbitrary type. Every way a batch can end sends its last sequence
number there, once. `Collect` is the set of locals `run_connection` keeps while
it reads one window, with the check that is applied to each event, raw or
inside a compressed frame.
-/
namespace Lumberjack.Server

open Lumberjack.Stream Lumberjack.Wire

/-- `server::Batch`; `τ` names the channels an acknowledgement is sent on. -/
structure Batch (τ : Type) where
  events : List Bytes
  lastSeq : UInt32
  ack : Option τ
  deriving DecidableEq

namespace Batch

variable {τ : Type}

def new (events : List Bytes) (lastSeq : UInt32) (ack : τ) : Batch τ := ⟨events, lastSeq, some ack⟩

/-- `Drop for Batch`: what is sent, and on which channel. -/
def drop (b : Batch τ) : List (τ × UInt32) :=
  match b.ack with
  | some tx => [(tx, b.lastSeq)]
  | none => []

/-- `Batch::ack` takes the sender, sends, and then drops the rest of the batch. -/
def acknowledge (b : Batch τ) : List (τ × UInt32) :=
  match b.ack with
  | some tx => (tx, b.lastSeq) :: drop { b with ack := none }
  | none => drop b

/-- `Batch::into_events` takes the events and drops the rest of the batch. -/
def intoEvents (b : Batch τ) : List Bytes × List (τ × UInt32) :=
  (b.events, drop { b with events := [] })

end Batch

/-- The ways a consumer can be done with a batch. -/
inductive Release where
  | ack
  | drop
  | intoEvents
  deriving DecidableEq

/-- What is sent on acknowledgement channels when a batch is released. -/
def Batch.release {τ : Type} (b : Batch τ) : Release → List (τ × UInt32)
  | .ack => b.acknowledge
  | .drop => b.drop
  | .intoEvents => b.intoEvents.2

/-- However a batch ends, its last sequence number is sent exactly once. -/
theorem Batch.release_eq {τ : Type} (b : Batch τ) (tx : τ) (h : b.ack = some tx) (how : Release) :
    b.release how = [(tx, b.lastSeq)] := by
  cases how <;> simp [release, acknowledge, drop, intoEvents, h]

/-- The receiving half of an acknowledgement channel. `closed` is a sender that
went away without sending. -/
inductive Oneshot where
  | pending
  | sent (seq : UInt32)
  | closed
  deriving DecidableEq

/-- The locals of `run_connection` while a window is open. `capacity` is what was
asked of `Vec::with_capacity`. -/
structure Collect where
  window : UInt32
  capacity : Nat
  events : List Bytes
  received : UInt32
  lastSeq : UInt32
  prevSeq : UInt32
  deriving DecidableEq

namespace Collect

def start (window : UInt32) : Collect := ⟨window, window.toNat, [], 0, 0, 0⟩

/-- Record one event. -/
def store (c : Collect) (seq : UInt32) (data : Bytes) : Collect :=
  { c with prevSeq := seq, lastSeq := seq, received := c.received + 1, events := c.events ++ [data] }

/-- The sequence check, then the update. -/
def push (c : Collect) (seq : UInt32) (data : Bytes) : Result Collect :=
  if seq ≤ c.prevSeq then .error (.seqOutOfOrder seq c.prevSeq)
  else .ok (c.store seq data)

/-- The loop over the inflated bytes of a compressed frame. It stops when they
are used up or when the window is full. -/
def inner (z : Flate) (max : Nat) (c : Collect) (buf : Bytes) : Result Collect :=
  if ¬ buf.isEmpty ∧ c.received < c.window then
    match _h : decodeWithLimit z buf max with
    | (.error e, _) => .error e
    | (.ok (some (.json seq data)), buf) =>
      match c.push seq data with
      | .error e => .error e
      | .ok c => inner z max c buf
    | (.ok (some _), _) =>
      .error (.unexpectedFrame "compressed payload must contain only J frames")
    | (.ok none, _) => .error (.invalidFrame "compressed payload truncated")
  else .ok c
termination_by buf.length
decreasing_by
  have hs := decode_some_shrinks _h
  omega

/-- One frame inside a window. -/
def frame (z : Flate) (max : Nat) (c : Collect) : Frame → Result Collect
  | .json seq data => c.push seq data
  | .compressed bytes => c.inner z max bytes
  | .window _ => .error (.unexpectedFrame "expected J or C inside window")
  | .ack _ => .error (.unexpectedFrame "expected J or C inside window")

/-- How many events the window still has room for. -/
def room (c : Collect) : Nat := c.window.toNat - c.received.toNat

/-- The locals agree with each other at every point of the loop. The last field
is the counting argument: positive, strictly increasing numbers outrun their
count. -/
structure Good (c : Collect) : Prop where
  capacity : c.capacity = c.window.toNat
  length : c.events.length = c.received.toNat
  bound : c.received.toNat ≤ c.window.toNat
  last : c.lastSeq = c.prevSeq
  count : c.received.toNat ≤ c.prevSeq.toNat

theorem start_good (n : UInt32) : (start n).Good := by
  constructor <;> simp [start]

theorem received_succ {c : Collect} (h : c.received < c.window) :
    (c.received + 1).toNat = c.received.toNat + 1 := by
  have hl := UInt32.lt_iff_toNat_lt.mp h
  have hw := c.window.toNat_lt
  rw [UInt32.toNat_add, UInt32.toNat_one]
  omega

theorem store_good {c : Collect} (hc : c.Good) (hr : c.received < c.window) {seq : UInt32}
    (hs : c.prevSeq < seq) (data : Bytes) : (c.store seq data).Good := by
  have h1 := received_succ hr
  have h2 := UInt32.lt_iff_toNat_lt.mp hr
  have h3 := UInt32.lt_iff_toNat_lt.mp hs
  have h4 := hc.count
  constructor
  · exact hc.capacity
  · simp only [store, List.length_append, List.length_singleton, h1, hc.length]
  · simp only [store, h1]
    omega
  · rfl
  · simp only [store, h1]
    omega

theorem push_ok {c c' : Collect} {seq : UInt32} {data : Bytes} :
    c.push seq data = .ok c' ↔ c.prevSeq < seq ∧ c' = c.store seq data := by
  unfold push
  split
  · rename_i h
    simp [UInt32.not_lt.mpr h]
  · rename_i h
    simp [UInt32.not_le.mp h, eq_comm]

section Inner

variable (z : Flate) (max : Nat)

theorem inner_stop (c : Collect) (buf : Bytes) (h : buf = [] ∨ ¬ c.received < c.window) :
    c.inner z max buf = .ok c := by
  rw [inner]
  rcases h with rfl | h <;> simp [*]

/-- One round of the loop. -/
theorem inner_eq {c : Collect} {buf : Bytes} (hb : buf ≠ []) (hr : c.received < c.window) :
    c.inner z max buf =
      match decodeWithLimit z buf max with
      | (.error e, _) => .error e
      | (.ok (some (.json seq data)), rest) =>
        match c.push seq data with
        | .error e => .error e
        | .ok c => c.inner z max rest
      | (.ok (some _), _) =>
        .error (.unexpectedFrame "compressed payload must contain only J frames")
      | (.ok none, _) => .error (.invalidFrame "compressed payload truncated") := by
  rw [inner]
  simp only [List.isEmpty_iff, hb, hr, not_false_eq_true, and_self, if_true]
  split
  · simp_all
  · rename_i seq data rest hd
    simp only [hd]
  · simp_all
  · simp_all

theorem inner_json {c : Collect} {buf rest : Bytes} {seq : UInt32} {data : Bytes}
    (hr : c.received < c.window) (h : decodeWithLimit z buf max = (.ok (some (.json seq data)), rest)) :
    c.inner z max buf = match c.push seq data with
      | .error e => .error e
      | .ok c => c.inner z max rest := by
  have hb : buf ≠ [] := by
    rintro rfl
    simp [decode_nil] at h
  rw [inner_eq z max hb hr, h]

/-- The inner loop fails, or stops early, on anything else. -/
theorem inner_other {c : Collect} {buf : Bytes} (hb : buf ≠ []) (hr : c.received < c.window)
    (h : ∀ seq data rest, decodeWithLimit z buf max ≠ (.ok (some (.json seq data)), rest)) :
    ∃ e, c.inner z max buf = .error e := by
  rw [inner_eq z max hb hr]
  split
  · exact ⟨_, rfl⟩
  · rename_i seq data rest hd
    exact absurd hd (h seq data rest)
  · exact ⟨_, rfl⟩
  · exact ⟨_, rfl⟩

end Inner

/-- Induction over the rounds of a loop that returns. -/
theorem inner_induct {z : Flate} {max : Nat} {c' : Collect} {motive : Collect → Bytes → Prop}
    (stop : ∀ {buf}, buf = [] ∨ ¬ c'.received < c'.window → motive c' buf)
    (round : ∀ {c buf seq data rest}, c.received < c.window →
      decodeWithLimit z buf max = (.ok (some (.json seq data)), rest) → c.prevSeq < seq →
      motive (c.store seq data) rest → motive c buf)
    {c : Collect} {buf : Bytes} (h : c.inner z max buf = .ok c') : motive c buf := by
  induction hn : buf.length using Nat.strongRecOn generalizing c buf with
  | ind n ih =>
    by_cases hb : buf = [] ∨ ¬ c.received < c.window
    · rw [inner_stop z max c buf hb] at h
      cases h
      exact stop hb
    · rw [not_or, not_not] at hb
      obtain ⟨hne, hr⟩ := hb
      by_cases hd : ∃ seq data rest, decodeWithLimit z buf max = (.ok (some (.json seq data)), rest)
      · obtain ⟨seq, data, rest, hd⟩ := hd
        have hs := decode_some_shrinks hd
        rw [inner_json z max hr hd] at h
        cases hp : c.push seq data with
        | error e => simp [hp] at h
        | ok c₁ =>
          obtain ⟨hlt, rfl⟩ := push_ok.mp hp
          simp only [hp] at h
          exact round hr hd hlt (ih rest.length (by omega) h rfl)
      · obtain ⟨e, he⟩ := inner_other z max hne hr (by simpa using hd)
        rw [he] at h
        cases h

theorem inner_good {z : Flate} {max : Nat} {c c' : Collect} {buf : Bytes} (hc : c.Good)
    (h : c.inner z max buf = .ok c') : c'.Good ∧ c'.window = c.window := by
  refine inner_induct (motive := fun c _ => c.Good → c'.Good ∧ c'.window = c.window) ?_ ?_ h hc
  · intro buf _ hc
    exact ⟨hc, rfl⟩
  · intro c buf seq data rest hr _ hlt ih hc
    exact ih (store_good hc hr hlt data)

theorem frame_good {z : Flate} {max : Nat} {c c' : Collect} {f : Frame} (hc : c.Good)
    (hr : c.received < c.window) (h : c.frame z max f = .ok c') :
    c'.Good ∧ c'.window = c.window := by
  cases f with
  | json seq data =>
    obtain ⟨hlt, rfl⟩ := push_ok.mp h
    exact ⟨store_good hc hr hlt data, rfl⟩
  | compressed bytes => exact inner_good hc h
  | window n => cases h
  | ack seq => cases h

end Collect
end Lumberjack.Server
