import Mathlib.Data.List.Forall2
import Lumberjack.Server.Grammar

/-!
# Raw and compressed events are collected alike

The sequence check and the counters stand twice in `run_connection`, once for a raw
event frame and once in the loop over an inflated frame. Both amount to `pushAll`,
the check applied to one event after the other, so it does not matter how a list of
events is divided into raw frames and compressed ones: the locals at the end, or the
error, are the same.
-/
namespace Lumberjack.Server

open Lumberjack.Stream Lumberjack.Wire

/-- Consecutive events on the wire: one of them as a raw frame, or one or more of them
encoded into a compressed frame. -/
inductive Carrier where
  | raw (e : Event)
  | group (e : Event) (es : List Event)

namespace Carrier

def events : Carrier → List Event
  | .raw e => [e]
  | .group e es => e :: es

def frame (z : Flate) : Carrier → Frame
  | .raw e => .json e.1 e.2
  | .group e es => .compressed (encodeAll z ((e :: es).map fun e => .json e.1 e.2))

theorem events_length_pos (k : Carrier) : 0 < k.events.length := by
  cases k <;> simp [events]

end Carrier

namespace Collect

/-- The check and the update, event by event. -/
def pushAll (c : Collect) : List Event → Result Collect
  | [] => .ok c
  | e :: es =>
    match c.push e.1 e.2 with
    | .ok c => c.pushAll es
    | .error e => .error e

theorem pushAll_append (c : Collect) (es fs : List Event) :
    c.pushAll (es ++ fs) =
      match c.pushAll es with
      | .ok c => c.pushAll fs
      | .error e => .error e := by
  induction es generalizing c with
  | nil => rfl
  | cons e es ih =>
    simp only [List.cons_append, pushAll]
    cases c.push e.1 e.2 with
    | ok c' => exact ih c'
    | error err => rfl

theorem pushAll_room {c c' : Collect} {es : List Event} (h : c.pushAll es = .ok c')
    (hl : es.length ≤ c.room) : c'.room = c.room - es.length := by
  induction es generalizing c with
  | nil =>
    cases h
    rfl
  | cons e es ih =>
    simp only [List.length_cons] at hl
    simp only [pushAll] at h
    cases hp : c.push e.1 e.2 with
    | error err => simp [hp] at h
    | ok c₁ =>
      obtain ⟨-, rfl⟩ := push_ok.mp hp
      have hr := room_store (c := c) (by omega) e.1 e.2
      simp only [hp] at h
      rw [ih h (by omega), hr, List.length_cons]
      omega

/-- Payloads within the limit, whose length fields hold their lengths. -/
def Fit (max : Nat) (es : List Event) : Prop := ∀ e ∈ es, e.2.length ≤ max ∧ e.2.length < 2^32

variable {z : Flate} {max : Nat}

/-- The inner loop over encoded events. -/
theorem inner_pushAll {c : Collect} {es : List Event} (hf : Fit max es) (hl : es.length ≤ c.room) :
    c.inner z max (encodeAll z (es.map fun e => .json e.1 e.2)) = c.pushAll es := by
  induction es generalizing c with
  | nil => exact inner_stop z max c [] (.inl rfl)
  | cons e es ih =>
    simp only [List.length_cons] at hl
    obtain ⟨hm, hn⟩ := hf e List.mem_cons_self
    have hr : c.received < c.window := (received_lt_iff c).mpr (by omega)
    have hw : WireForm z max (.json e.1 e.2) ((Frame.json e.1 e.2).encode z) :=
      wireForm_encode_json hm hn
    have hd := decode_wire hw (encodeAll z (es.map fun e => .json e.1 e.2))
    rw [List.map_cons, encodeAll_cons, inner_json z max hr hd, pushAll]
    cases hp : c.push e.1 e.2 with
    | error err => rfl
    | ok c₁ =>
      obtain ⟨-, rfl⟩ := push_ok.mp hp
      have hroom := room_store (c := c) (by omega) e.1 e.2
      exact ih (fun e he => hf e (List.mem_cons_of_mem _ he)) (by omega)

/-- A raw frame and a compressed one do the same for the events they carry. -/
theorem frame_carrier {c : Collect} {k : Carrier} (hf : Fit max k.events)
    (hl : k.events.length ≤ c.room) : c.frame z max (k.frame z) = c.pushAll k.events := by
  cases k with
  | raw e =>
    simp only [Carrier.frame, Carrier.events, frame, pushAll]
    cases c.push e.1 e.2 <;> rfl
  | group e es => exact inner_pushAll hf hl

end Collect

/-- The collection loop, given the frames that `framed.next()` returns. It takes them
while the window has room, and stands where they end. -/
def collectFrames (z : Flate) (max : Nat) (c : Collect) : List Frame → Result Collect
  | [] => .ok c
  | f :: fs =>
    if c.received < c.window then
      match c.frame z max f with
      | .ok c => collectFrames z max c fs
      | .error e => .error e
    else .ok c

section Loop

variable {z : Flate} {c : Collect} {ks : List Carrier}

theorem collectFrames_carriers {max : Nat} (hf : Collect.Fit max (ks.flatMap Carrier.events))
    (hl : (ks.flatMap Carrier.events).length ≤ c.room) :
    collectFrames z max c (ks.map (Carrier.frame z)) = c.pushAll (ks.flatMap Carrier.events) := by
  induction ks generalizing c with
  | nil => rfl
  | cons k ks ih =>
    rw [List.flatMap_cons] at hf hl
    rw [List.length_append] at hl
    have hpos := k.events_length_pos
    have hr : c.received < c.window := (Collect.received_lt_iff c).mpr (by omega)
    have hk := Collect.frame_carrier (z := z) (c := c)
      (fun e he => hf e (List.mem_append_left _ he)) (by omega)
    rw [List.map_cons, List.flatMap_cons, Collect.pushAll_append, collectFrames, if_pos hr, hk]
    cases hp : c.pushAll k.events with
    | error err => rfl
    | ok c₁ =>
      have hroom := Collect.pushAll_room hp (by omega)
      exact ih (fun e he => hf e (List.mem_append_right _ he)) (by omega)

/-- The same over bytes: behind the carriers the loop goes on from where `pushAll` is. -/
theorem collect_carriers {cfg : ConnectionConfig}
    (hf : Collect.Fit cfg.maxFrameSize (ks.flatMap Carrier.events))
    (hl : (ks.flatMap Carrier.events).length ≤ c.room) {ws : List Bytes}
    (hws : List.Forall₂ (WireForm z cfg.maxFrameSize) (ks.map (Carrier.frame z)) ws)
    {src : Source UInt8} {rest : Bytes} (hp : src.pending = ws.flatten ++ rest) :
    (collect z cfg c src).1 =
      match c.pushAll (ks.flatMap Carrier.events) with
      | .ok c' => (collect z cfg c' ⟨rest, []⟩).1
      | .error e => .error e := by
  induction ks generalizing c ws src with
  | nil =>
    cases hws
    exact (collect_congr z cfg c (by simpa [Source.pending] using hp)).1
  | cons k ks ih =>
    cases hws with
    | @cons _ w _ ws hw hws =>
      rw [List.flatMap_cons] at hf hl
      rw [List.length_append] at hl
      rw [List.flatten_cons, List.append_assoc] at hp
      have hpos := k.events_length_pos
      have hr : c.received < c.window := (Collect.received_lt_iff c).mpr (by omega)
      have hk := Collect.frame_carrier (z := z) (c := c)
        (fun e he => hf e (List.mem_append_left _ he)) (by omega)
      obtain ⟨src₁, hn, hp₁⟩ := next_wire hw hp
      rw [List.flatMap_cons, Collect.pushAll_append, collect_eq z cfg src hr, hn]
      simp only [hk]
      cases hpush : c.pushAll k.events with
      | error err => rfl
      | ok c₁ =>
        have hroom := Collect.pushAll_room hpush (by omega)
        exact ih (fun e he => hf e (List.mem_append_right _ he)) (by omega) hws hp₁

end Loop

/-- **Grouping independence.** A list of at most `n` events, with any sequence numbers
and payloads within the limit, leads a window of `n` to the same locals or to the same
error however it is carried: given the frames, and given any bytes that decode to them,
in any reads and with anything behind them. -/
theorem grouping_independent (z : Flate) (cfg : ConnectionConfig) (n : UInt32) (es : List Event)
    (hl : es.length ≤ n.toNat)
    (hf : ∀ e ∈ es, e.2.length ≤ cfg.maxFrameSize ∧ e.2.length < 2^32)
    (ks ks' : List Carrier) (hk : ks.flatMap Carrier.events = es)
    (hk' : ks'.flatMap Carrier.events = es) :
    collectFrames z cfg.maxFrameSize (.start n) (ks.map (Carrier.frame z)) =
      collectFrames z cfg.maxFrameSize (.start n) (ks'.map (Carrier.frame z)) ∧
    (∀ (ws ws' : List Bytes) (rest : Bytes) (src src' : Source UInt8),
      List.Forall₂ (WireForm z cfg.maxFrameSize) (ks.map (Carrier.frame z)) ws →
      List.Forall₂ (WireForm z cfg.maxFrameSize) (ks'.map (Carrier.frame z)) ws' →
      src.pending = ws.flatten ++ rest → src'.pending = ws'.flatten ++ rest →
      (collect z cfg (.start n) src).1 = (collect z cfg (.start n) src').1) := by
  have hroom : (Collect.start n).room = n.toNat := by
    simp [Collect.room, Collect.start]
  subst hk
  have hl' : (ks'.flatMap Carrier.events).length ≤ (Collect.start n).room := by
    rw [hk', hroom]
    exact hl
  have hf' : Collect.Fit cfg.maxFrameSize (ks'.flatMap Carrier.events) := by
    rw [hk']
    exact hf
  rw [← hroom] at hl
  constructor
  · rw [collectFrames_carriers hf hl, collectFrames_carriers hf' hl', hk']
  · intro ws ws' rest src src' hws hws' hp hp'
    rw [collect_carriers hf hl hws hp, collect_carriers hf' hl' hws' hp', hk']

/-- Two events out of order, raw and in one compressed frame. -/
theorem grouping_independent_sample :
    collectFrames .sample 1024 (.start 3) [.json 2 [123, 125], .json 1 []] =
      collectFrames .sample 1024 (.start 3)
        [.compressed [50, 74, 0, 0, 0, 2, 0, 0, 0, 2, 123, 125, 50, 74, 0, 0, 0, 1, 0, 0, 0, 0]] :=
  (grouping_independent .sample ⟨1024, none⟩ 3 [(2, [123, 125]), (1, [])] (by decide) (by decide)
    [.raw (2, [123, 125]), .raw (1, [])] [.group (2, [123, 125]) [(1, [])]] rfl rfl).1

end Lumberjack.Server
