import Lumberjack.Server.Batch

/-!
# `run_connection` over a stream that ends

The connection loop as the source writes it: a window frame, the frames that
fill it, the batch handed to the consumer, the acknowledgement. The consumer
here receives every batch and releases it, after any number of keepalive
intervals and in any way; `Server.Handler` has the same loop one await at a time.
The result depends on the bytes alone, not on how they are cut into reads.
-/
namespace Lumberjack.Server

open Lumberjack.Stream Lumberjack.Wire

/-- `ConnectionConfig`; a keepalive interval is given in milliseconds. -/
structure ConnectionConfig where
  maxFrameSize : Nat
  keepalive : Option Nat

/-- The read half of `Framed::new(stream, codec)`. -/
def ConnectionConfig.decoder (z : Flate) (cfg : ConnectionConfig) : Decoder UInt8 Error Frame :=
  LumberjackCodec.decoder z ⟨cfg.maxFrameSize⟩

theorem ConnectionConfig.decode_eq (z : Flate) (cfg : ConnectionConfig) (b : Bytes) :
    (cfg.decoder z).decode b = decodeWithLimit z b cfg.maxFrameSize := rfl

/-- What is handed to the consumer for one window. -/
structure Dispatch where
  window : UInt32
  events : List Bytes
  lastSeq : UInt32
  deriving DecidableEq

def Collect.dispatch (c : Collect) : Dispatch := ⟨c.window, c.events, c.lastSeq⟩

/-- `while received < window` -/
def collect (z : Flate) (cfg : ConnectionConfig) (c : Collect) (src : Source UInt8) :
    Result Collect × Source UInt8 :=
  if c.received < c.window then
    match _h : (cfg.decoder z).next src with
    | (some (.ok f), src) =>
      match c.frame z cfg.maxFrameSize f with
      | .ok c => collect z cfg c src
      | .error e => (.error e, src)
    | (some (.error e), src) => (.error e, src)
    | (none, src) => (.error .connectionClosed, src)
  else (.ok c, src)
termination_by src.pending.length
decreasing_by exact Decoder.next_shrinks _ _h

/-- What the wait on `ack_rx` breaks with, once it can. -/
def Oneshot.acked (lastSeq : UInt32) : Oneshot → Option UInt32
  | .pending => none
  | .sent seq => some seq
  | .closed => some lastSeq

/-- The channel after these sends. -/
def Oneshot.ofSends {τ : Type} : List (τ × UInt32) → Oneshot
  | [] => .closed
  | (_, seq) :: _ => .sent seq

/-- The frames written for one batch: a keepalive for each interval that passes
before the release, then the acknowledgement. -/
def ackFrames (cfg : ConnectionConfig) (ticks : Nat) (acked : UInt32) : List Frame :=
  match cfg.keepalive with
  | some _ => List.replicate ticks (.ack 0) ++ [.ack acked]
  | none => [.ack acked]

/-- Everything a connection did: batches dispatched, frames written, result. -/
structure Log where
  batches : List Dispatch
  written : List Frame
  result : Result Unit

def Log.after (l : Log) (d : Dispatch) (acks : List Frame) : Log :=
  ⟨d :: l.batches, acks ++ l.written, l.result⟩

theorem collect_full {z : Flate} {cfg : ConnectionConfig} {c : Collect} (src : Source UInt8)
    (h : ¬ c.received < c.window) : collect z cfg c src = (.ok c, src) := by
  rw [collect, if_neg h]

theorem collect_eq (z : Flate) (cfg : ConnectionConfig) {c : Collect} (src : Source UInt8)
    (h : c.received < c.window) :
    collect z cfg c src =
      match (cfg.decoder z).next src with
      | (some (.ok f), src) =>
        match c.frame z cfg.maxFrameSize f with
        | .ok c => collect z cfg c src
        | .error e => (.error e, src)
      | (some (.error e), src) => (.error e, src)
      | (none, src) => (.error .connectionClosed, src) := by
  rw [collect, if_pos h]
  split <;> simp_all

theorem collect_pending_le {z : Flate} {cfg : ConnectionConfig} {c c' : Collect}
    {src src' : Source UInt8} (h : collect z cfg c src = (.ok c', src')) :
    src'.pending.length ≤ src.pending.length := by
  induction hn : src.pending.length using Nat.strongRecOn generalizing c src with
  | ind n ih =>
    by_cases hr : c.received < c.window
    · rw [collect_eq z cfg src hr] at h
      split at h
      · rename_i f src₁ hf
        have hs := Decoder.next_shrinks _ hf
        split at h
        · have hle := ih _ (hn ▸ hs) h rfl
          omega
        · cases h
      · cases h
      · cases h
    · rw [collect_full src hr] at h
      cases h
      omega

/-- `run_connection`. For the `k`-th batch, `env k` says how many keepalive
intervals pass before the consumer releases it, and how it does. -/
def runConnection (z : Flate) (cfg : ConnectionConfig) (env : Nat → Nat × Release)
    (src : Source UInt8) : Log :=
  match _hw : (cfg.decoder z).next src with
  | (some (.ok (.window n)), src) =>
    match _hc : collect z cfg (.start n) src with
    | (.ok c, src) =>
      let batch := Batch.new c.events c.lastSeq ()
      let ackRx := Oneshot.ofSends (batch.release (env 0).2)
      let acked := (ackRx.acked c.lastSeq).getD c.lastSeq
      (runConnection z cfg (fun k => env (k + 1)) src).after c.dispatch
        (ackFrames cfg (env 0).1 acked)
    | (.error e, _) => ⟨[], [], .error e⟩
  | (some (.ok _), _) => ⟨[], [], .error (.unexpectedFrame "expected Window at batch start")⟩
  | (some (.error e), _) => ⟨[], [], .error e⟩
  | (none, _) => ⟨[], [], .ok ()⟩
termination_by src.pending.length
decreasing_by
  have h1 := Decoder.next_shrinks _ _hw
  have h2 := collect_pending_le _hc
  omega

/-- The rest of a run whose current window stands at `c`. -/
def resume (z : Flate) (cfg : ConnectionConfig) (env : Nat → Nat × Release) (c : Collect)
    (src : Source UInt8) : Log :=
  match collect z cfg c src with
  | (.ok c, src) =>
    (runConnection z cfg (fun k => env (k + 1)) src).after c.dispatch
      (ackFrames cfg (env 0).1 c.lastSeq)
  | (.error e, _) => ⟨[], [], .error e⟩

/-- Whichever way the batch ends, the acknowledgement carries its last number. -/
theorem acked_release (events : List Bytes) (lastSeq : UInt32) (how : Release) :
    ((Oneshot.ofSends ((Batch.new events lastSeq ()).release how)).acked lastSeq).getD lastSeq =
      lastSeq := by
  rw [Batch.release_eq _ () rfl]
  rfl

theorem runConnection_eq (z : Flate) (cfg : ConnectionConfig) (env : Nat → Nat × Release)
    (src : Source UInt8) :
    runConnection z cfg env src =
      match (cfg.decoder z).next src with
      | (some (.ok (.window n)), src) => resume z cfg env (.start n) src
      | (some (.ok _), _) => ⟨[], [], .error (.unexpectedFrame "expected Window at batch start")⟩
      | (some (.error e), _) => ⟨[], [], .error e⟩
      | (none, _) => ⟨[], [], .ok ()⟩ := by
  rw [runConnection]
  split
  · rename_i n src₁ hw
    simp only [hw, resume]
    split
    · rename_i c src₂ hc
      simp only [hc, acked_release]
    · rename_i e src₂ hc
      simp only [hc]
  all_goals simp_all

theorem collect_congr (z : Flate) (cfg : ConnectionConfig) (c : Collect) {src src' : Source UInt8}
    (h : src.pending = src'.pending) :
    (collect z cfg c src).1 = (collect z cfg c src').1 ∧
    (∀ c₁, (collect z cfg c src).1 = .ok c₁ →
      (collect z cfg c src).2.pending = (collect z cfg c src').2.pending) := by
  induction hn : src.pending.length using Nat.strongRecOn generalizing c src src' with
  | ind n ih =>
    by_cases hr : c.received < c.window
    · obtain ⟨h1, h2⟩ := (cfg.decoder z).next_congr h
      rw [collect_eq z cfg src hr, collect_eq z cfg src' hr]
      rcases hs : (cfg.decoder z).next src with ⟨_ | _ | f, s₁⟩ <;>
        rcases hs' : (cfg.decoder z).next src' with ⟨o, s₁'⟩ <;>
        (rw [hs, hs'] at h1; obtain rfl := h1)
      · simp
      · simp
      · have hp : s₁.pending = s₁'.pending := by
          have := h2 f (by rw [hs])
          rwa [hs, hs'] at this
        have hlt := Decoder.next_shrinks _ hs
        cases hf : c.frame z cfg.maxFrameSize f with
        | error e => simp [hf]
        | ok c' => simpa [hf] using ih _ (hn ▸ hlt) c' hp rfl
    · rw [collect_full src hr, collect_full src' hr]
      exact ⟨rfl, fun _ _ => h⟩

theorem runConnection_congr {z : Flate} {cfg : ConnectionConfig} (env : Nat → Nat × Release)
    {src src' : Source UInt8} (h : src.pending = src'.pending) :
    runConnection z cfg env src = runConnection z cfg env src' := by
  induction hn : src.pending.length using Nat.strongRecOn generalizing env src src' with
  | ind n ih =>
    obtain ⟨h1, h2⟩ := (cfg.decoder z).next_congr h
    rw [runConnection_eq, runConnection_eq]
    rcases hs : (cfg.decoder z).next src with ⟨_ | _ | f, s₁⟩ <;>
      rcases hs' : (cfg.decoder z).next src' with ⟨o, s₁'⟩ <;>
      (rw [hs, hs'] at h1; obtain rfl := h1)
    · rfl
    · rfl
    · have hp : s₁.pending = s₁'.pending := by
        have := h2 f (by rw [hs])
        rwa [hs, hs'] at this
      have hlt := Decoder.next_shrinks _ hs
      cases f with
      | window n =>
        obtain ⟨hc1, hc2⟩ := collect_congr z cfg (.start n) hp
        simp only [resume]
        rcases hc : collect z cfg (.start n) s₁ with ⟨e | c, s₂⟩ <;>
          rcases hc' : collect z cfg (.start n) s₁' with ⟨o, s₂'⟩ <;>
          (rw [hc, hc'] at hc1; obtain rfl := hc1)
        · rfl
        · have hp2 : s₂.pending = s₂'.pending := by
            have := hc2 c (by rw [hc])
            rwa [hc, hc'] at this
          have hle := collect_pending_le hc
          simp only [ih s₂.pending.length (by omega) (fun k => env (k + 1)) hp2 rfl]
      | json seq data => rfl
      | compressed inner => rfl
      | ack seq => rfl

end Lumberjack.Server
