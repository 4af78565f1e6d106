import Lumberjack.Server.Grammar

/-!
# The connection loop from the middle of its input

Between two awaits the loop of `run_connection` expects a window, is inside one,
or has stopped. `Position.outcome` is what it still dispatches and ends with from
there; `Position.advance` is what one frame does to it. `Reads` ties a position
to the bytes that led there, for every continuation of the input, which is how
the handler's state and the client's half-written stream are described alike.
-/
namespace Lumberjack.Server

open Lumberjack.Stream Lumberjack.Wire

/-- Batches and result of a connection, leaving out what it writes. -/
structure Outcome where
  batches : List Dispatch
  result : Result Unit

namespace Outcome

def after (o : Outcome) (ds : List Dispatch) : Outcome := ⟨ds ++ o.batches, o.result⟩

@[simp] theorem after_after (o : Outcome) (ds es : List Dispatch) :
    (o.after es).after ds = o.after (ds ++ es) := by
  simp [after]

end Outcome

def Log.outcome (l : Log) : Outcome := ⟨l.batches, l.result⟩

inductive Position where
  | window
  | inside (c : Collect)
  | stopped (r : Result Unit)
  deriving DecidableEq

/-- A consumer that releases every batch at once. -/
def prompt : Nat → Nat × Release := fun _ => (0, .ack)

namespace Position

/-- What the loop does with this input, and then the end of the stream. -/
def outcome (z : Flate) (cfg : ConnectionConfig) : Position → Bytes → Outcome
  | .window, b => (runConnection z cfg prompt ⟨b, []⟩).outcome
  | .inside c, b => (resume z cfg prompt c ⟨b, []⟩).outcome
  | .stopped r, _ => ⟨[], r⟩

/-- What one frame does to a loop that is waiting for it. -/
def advance (z : Flate) (cfg : ConnectionConfig) : Position → Frame → Position
  | .window, .window n => .inside (.start n)
  | .window, _ => .stopped (.error (.unexpectedFrame "expected Window at batch start"))
  | .inside c, f =>
    match c.frame z cfg.maxFrameSize f with
    | .ok c => .inside c
    | .error e => .stopped (.error e)
  | .stopped r, _ => .stopped r

/-- The result when `framed.next()` answers without a frame. -/
def ended : Position → Option Error → Result Unit
  | .stopped r, _ => r
  | _, some e => .error e
  | .window, none => .ok ()
  | .inside _, none => .error .connectionClosed

/-- The loop waits for a frame unless a full window is to be dispatched first. -/
def Open : Position → Prop
  | .inside c => c.received < c.window
  | _ => True

section Outcome

variable {z : Flate} {cfg : ConnectionConfig}

theorem next_buffered (b : Bytes) : (cfg.decoder z).next ⟨b, []⟩ =
    (((cfg.decoder z).decodeEof b).1, ⟨((cfg.decoder z).decodeEof b).2, []⟩) := rfl

theorem outcome_full {c : Collect} (h : ¬ c.received < c.window) (b : Bytes) :
    (inside c).outcome z cfg b = (window.outcome z cfg b).after [c.dispatch] := by
  simp only [outcome, resume, collect_full ⟨b, []⟩ h, Log.outcome, Log.after, Outcome.after]
  rfl

/-- A decoded frame advances the position. -/
theorem outcome_frame {pos : Position} (hopen : pos.Open) {b r : Bytes} {f : Frame}
    (hd : (cfg.decoder z).decode b = (.ok (some f), r)) :
    pos.outcome z cfg b = (pos.advance z cfg f).outcome z cfg r := by
  have hn : (cfg.decoder z).next ⟨b, []⟩ = (some (.ok f), ⟨r, []⟩) := by
    rw [next_buffered, Decoder.decodeEof_some _ hd]
  cases pos with
  | stopped res => rfl
  | window =>
    simp only [outcome]
    rw [runConnection_eq, hn]
    cases f <;> rfl
  | inside c =>
    have hc := collect_eq z cfg ⟨b, []⟩ hopen
    rw [hn] at hc
    cases hf : c.frame z cfg.maxFrameSize f with
    | error e =>
      simp only [hf] at hc
      simp only [outcome, advance, resume, hc, hf, Log.outcome]
    | ok c' =>
      simp only [hf] at hc
      simp only [outcome, advance, resume, hc, hf]

theorem outcome_end {pos : Position} (hopen : pos.Open) {b : Bytes} {answer : Option Error}
    (h : ((cfg.decoder z).decodeEof b).1 = answer.map .error) :
    pos.outcome z cfg b = ⟨[], pos.ended answer⟩ := by
  have hn : (cfg.decoder z).next ⟨b, []⟩ =
      (answer.map .error, ⟨((cfg.decoder z).decodeEof b).2, []⟩) := by
    rw [next_buffered, h]
  cases pos with
  | stopped r => rfl
  | window =>
    simp only [outcome]
    rw [runConnection_eq, hn]
    cases answer <;> rfl
  | inside c =>
    have hc := collect_eq z cfg ⟨b, []⟩ hopen
    rw [hn] at hc
    cases answer with
    | none =>
      simp only [Option.map] at hc
      simp only [outcome, resume, hc, Log.outcome, ended]
    | some e =>
      simp only [Option.map] at hc
      simp only [outcome, resume, hc, Log.outcome, ended]

/-- Nothing more is dispatched and the loop ends well only when it is between
windows and the input is used up. -/
theorem outcome_nil_ok {pos : Position} {b : Bytes}
    (h : pos.outcome z cfg b = ⟨[], .ok ()⟩) : pos = .stopped (.ok ()) ∨ (pos = .window ∧ b = []) := by
  cases pos with
  | stopped r =>
    simp only [outcome, Outcome.mk.injEq, true_and] at h
    exact .inl (by rw [h])
  | window =>
    have hres : (runConnection z cfg prompt ⟨b, []⟩).result = .ok () := congrArg Outcome.result h
    have hb : (runConnection z cfg prompt ⟨b, []⟩).batches = [] := congrArg Outcome.batches h
    obtain ⟨ds, sk, p, r, hp, hws, -, hds, -, hr⟩ := run_spec z cfg prompt ⟨b, []⟩
    rw [hb] at hds
    subst hds
    cases hws
    have hpend : (Source.mk b []).pending = b := List.append_nil b
    rw [hpend, hr.mp hres] at hp
    exact .inr ⟨rfl, hp⟩
  | inside c =>
    simp only [outcome, resume] at h
    split at h
    · simp [Log.outcome, Log.after] at h
    · simp [Log.outcome] at h

end Outcome
end Position

/-- Batches and result do not depend on the consumer or on the keepalives. -/
theorem runConnection_env (z : Flate) (cfg : ConnectionConfig) (env env' : Nat → Nat × Release)
    (src : Source UInt8) :
    (runConnection z cfg env src).outcome = (runConnection z cfg env' src).outcome := by
  induction hn : src.pending.length using Nat.strongRecOn generalizing env env' src with
  | ind n ih =>
    rw [runConnection_eq, runConnection_eq]
    rcases hs : (cfg.decoder z).next src with ⟨_ | _ | f, src₁⟩
    · rfl
    · rfl
    · have hlt := Decoder.next_shrinks _ hs
      cases f with
      | window n =>
        simp only [resume]
        rcases hc : collect z cfg (.start n) src₁ with ⟨e | c, src₂⟩
        · rfl
        · have hle := collect_pending_le hc
          have hrest := ih src₂.pending.length (by omega) (fun k => env (k + 1))
            (fun k => env' (k + 1)) src₂ rfl
          simp only [Log.outcome, Outcome.mk.injEq] at hrest
          simp only [Log.outcome, Log.after, hrest]
      | json seq data => rfl
      | compressed inner => rfl
      | ack seq => rfl

/-- The whole log of a connection, from the outcome on its bytes. -/
theorem runConnection_outcome (z : Flate) (cfg : ConnectionConfig) (env : Nat → Nat × Release)
    (input : Bytes) :
    runConnection z cfg env (.ofReads [input]) =
      ⟨(Position.window.outcome z cfg input).batches,
        ackStream cfg env (Position.window.outcome z cfg input).batches,
        (Position.window.outcome z cfg input).result⟩ := by
  have hsrc : runConnection z cfg env (.ofReads [input]) = runConnection z cfg env ⟨input, []⟩ :=
    runConnection_congr env (by simp [Source.pending, Source.ofReads])
  have hout : (runConnection z cfg env ⟨input, []⟩).outcome = Position.window.outcome z cfg input :=
    runConnection_env z cfg env prompt _
  obtain ⟨ds, -, -, -, -, -, -, hb, hw, -⟩ := run_spec z cfg env ⟨input, []⟩
  rw [hsrc, ← hout]
  simp only [Log.outcome, hb, ← hw]
  rw [← hb]

section Reads

variable {z : Flate} {cfg : ConnectionConfig}

/-- Having read `input`, of which `rest` is not decoded yet, the loop has
dispatched `ds` and stands at `pos`, whatever comes next. -/
def Reads (z : Flate) (cfg : ConnectionConfig) (input : Bytes) (ds : List Dispatch)
    (pos : Position) (rest : Bytes) : Prop :=
  ∀ t, Position.window.outcome z cfg (input ++ t) = (pos.outcome z cfg (rest ++ t)).after ds

namespace Reads

variable {input rest : Bytes} {ds : List Dispatch} {pos : Position}

theorem start (z : Flate) (cfg : ConnectionConfig) : Reads z cfg [] [] .window [] := fun _ => rfl

theorem more (h : Reads z cfg input ds pos rest) (w : Bytes) :
    Reads z cfg (input ++ w) ds pos (rest ++ w) := by
  intro t
  rw [List.append_assoc, List.append_assoc]
  exact h (w ++ t)

theorem decoded (h : Reads z cfg input ds pos rest) (hopen : pos.Open) {f : Frame} {r : Bytes}
    (hd : (cfg.decoder z).decode rest = (.ok (some f), r)) :
    Reads z cfg input ds (pos.advance z cfg f) r := by
  intro t
  rw [h t, Position.outcome_frame hopen ((cfg.decoder z).some_append hd t)]

/-- A frame written behind everything that was read. -/
theorem frame (h : Reads z cfg input ds pos []) (hopen : pos.Open) {f : Frame} {w : Bytes}
    (hw : WireForm z cfg.maxFrameSize f w) :
    Reads z cfg (input ++ w) ds (pos.advance z cfg f) [] := by
  have hd : (cfg.decoder z).decode ([] ++ w) = (.ok (some f), []) := by
    have := decode_wire hw []
    rwa [List.append_nil] at this
  exact (h.more w).decoded hopen hd

/-- An undecodable buffer stops the loop for good. -/
theorem refused (h : Reads z cfg input ds pos rest) (hopen : pos.Open) {e : Error} {r : Bytes}
    (hd : (cfg.decoder z).decode rest = (.error e, r)) (hpos : ∀ r, pos ≠ .stopped r) (r' : Bytes) :
    Reads z cfg input ds (.stopped (.error e)) r' := by
  intro t
  have he : ((cfg.decoder z).decodeEof (rest ++ t)).1 = (some e).map .error := by
    rw [Decoder.decodeEof_error _ (Prod.ext ((cfg.decoder z).error_append hd t) rfl)]
    rfl
  rw [h t, Position.outcome_end hopen he]
  cases pos with
  | stopped r => exact absurd rfl (hpos r)
  | window => rfl
  | inside c => rfl

theorem dispatched {c : Collect} (h : Reads z cfg input ds (.inside c) rest)
    (hfull : ¬ c.received < c.window) : Reads z cfg input (ds ++ [c.dispatch]) .window rest := by
  intro t
  rw [h t, Position.outcome_full hfull, Outcome.after_after]

/-- What was dispatched is the start of what the whole stream leads to. -/
theorem batches (h : Reads z cfg input ds pos rest) (t : Bytes) :
    (Position.window.outcome z cfg (input ++ t)).batches =
      ds ++ (pos.outcome z cfg (rest ++ t)).batches := by
  rw [h t]
  rfl

/-- What the loop does when the stream ends with what was read. -/
theorem outcome_end (h : Reads z cfg input ds pos []) (hopen : pos.Open) :
    Position.window.outcome z cfg input = ⟨ds, pos.ended none⟩ := by
  have he : ((cfg.decoder z).decodeEof ([] ++ [])).1 = (none : Option Error).map .error := rfl
  have ho := h []
  rw [List.append_nil, Position.outcome_end hopen he] at ho
  rw [ho]
  simp [Outcome.after]

end Reads
end Reads
end Lumberjack.Server
