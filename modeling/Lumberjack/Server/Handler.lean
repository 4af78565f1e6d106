import Lumberjack.Process.Run
import Lumberjack.Server.Position

/-!
# The connection handler, one await at a time

`run_connection` as a state machine: a phase for every point at which the task
can be suspended, the two buffers of its `Framed`, and the receiving half of the
current batch's acknowledgement channel. The last six fields are history; no
step reads them, except that the channel of the batch dispatched last is the one
a release goes to.
-/
namespace Lumberjack.Server

open Lumberjack.Stream Lumberjack.Wire Lumberjack.Process

/-- Where the task is suspended, or how it returned. `failed` is an I/O error of
the stream, `shutdown` the return when the receiving end of the batch channel is gone. -/
inductive Phase where
  | expectWindow
  | collecting (c : Collect)
  | dispatching (c : Collect)
  | awaitAck (lastSeq : UInt32)
  | keepalive (lastSeq : UInt32)
  | acking
  | done (r : Result Unit)
  | failed (e : Error)
  | shutdown
  deriving DecidableEq

namespace Phase

/-- Suspended in `framed.next()`. -/
def reading : Phase → Bool
  | .expectWindow | .collecting _ => true
  | _ => false

/-- Suspended in `framed.send(..)`. -/
def writing : Phase → Bool
  | .acking | .keepalive _ => true
  | _ => false

/-- The loop condition `received < window`. -/
def ofCollect (c : Collect) : Phase :=
  if c.received < c.window then .collecting c else .dispatching c

/-- Where a send that has been flushed leads. -/
def flushed : Phase → Phase
  | .acking => .expectWindow
  | .keepalive lastSeq => .awaitAck lastSeq
  | p => p

end Phase

structure Handler where
  phase : Phase
  buffer : Bytes
  out : Bytes
  ackRx : Oneshot
  /-- everything read from the stream -/
  input : Bytes
  eof : Bool
  dispatched : List Dispatch
  /-- for each acknowledgement written, how many keepalives went before it -/
  rounds : List Nat
  /-- keepalives written for the batch that is not acknowledged yet -/
  ticks : Nat
  written : List Frame
  deriving DecidableEq

namespace Handler

def init : Handler := ⟨.expectWindow, [], [], .closed, [], false, [], [], 0, []⟩

inductive Act where
  | read (chunk : Bytes)
  | next
  | eof
  | dispatch
  | shutdown
  | release
  | tick
  | acked
  | write (k : Nat)
  | fail (msg : String)
  deriving DecidableEq

/-- `framed.send(f)` up to the flush. -/
def send (z : Flate) (h : Handler) (f : Frame) : Handler :=
  { h with out := h.out ++ f.encode z, written := h.written ++ [f] }

/-- What a frame returned by `framed.next()` does. -/
def onFrame (z : Flate) (cfg : ConnectionConfig) (h : Handler) (f : Frame) : Handler :=
  match h.phase, f with
  | .expectWindow, .window n => { h with phase := .ofCollect (.start n) }
  | .expectWindow, _ =>
    { h with phase := .done (.error (.unexpectedFrame "expected Window at batch start")) }
  | .collecting c, f =>
    match c.frame z cfg.maxFrameSize f with
    | .ok c => { h with phase := .ofCollect c }
    | .error e => { h with phase := .done (.error e) }
  | _, _ => h

/-- The result when the stream ends here. -/
def atEof (z : Flate) (cfg : ConnectionConfig) (h : Handler) : Result Unit :=
  match ((cfg.decoder z).decodeEof h.buffer).1, h.phase with
  | some (.error e), _ => .error e
  | _, .collecting _ => .error .connectionClosed
  | _, _ => .ok ()

def step (z : Flate) (cfg : ConnectionConfig) (h : Handler) : Act → Option Handler
  | .read chunk =>
    if h.phase.reading ∧ chunk ≠ [] ∧ ((cfg.decoder z).decode h.buffer).1 = .ok none then
      some { h with buffer := h.buffer ++ chunk, input := h.input ++ chunk }
    else none
  | .next =>
    if h.phase.reading then
      match (cfg.decoder z).decode h.buffer with
      | (.ok (some f), r) => some ({ h with buffer := r }.onFrame z cfg f)
      | (.error e, r) => some { h with buffer := r, phase := .done (.error e) }
      | (.ok none, _) => none
    else none
  | .eof =>
    if h.phase.reading ∧ ((cfg.decoder z).decode h.buffer).1 = .ok none then
      some { h with phase := .done (h.atEof z cfg), eof := true }
    else none
  | .dispatch =>
    match h.phase with
    | .dispatching c =>
      some { h with phase := .awaitAck c.lastSeq, ackRx := .pending,
                    dispatched := h.dispatched ++ [c.dispatch] }
    | _ => none
  | .shutdown =>
    match h.phase with
    | .dispatching _ => some { h with phase := .shutdown }
    | _ => none
  | .release =>
    match h.ackRx, h.dispatched.getLast? with
    | .pending, some d => some { h with ackRx := .sent d.lastSeq }
    | _, _ => none
  | .tick =>
    match h.phase, cfg.keepalive, h.ackRx with
    | .awaitAck lastSeq, some _, .pending =>
      some ({ h with phase := .keepalive lastSeq, ticks := h.ticks + 1 }.send z (.ack 0))
    | _, _, _ => none
  | .acked =>
    match h.phase with
    | .awaitAck lastSeq =>
      match h.ackRx.acked lastSeq with
      | some seq =>
        some ({ h with phase := .acking, rounds := h.rounds ++ [h.ticks], ticks := 0 }.send z (.ack seq))
      | none => none
    | _ => none
  | .write k =>
    if h.phase.writing ∧ 0 < k ∧ k ≤ h.out.length then
      some { h with out := h.out.drop k,
                    phase := if h.out.length = k then h.phase.flushed else h.phase }
    else none
  | .fail msg =>
    if h.phase.reading ∨ h.phase.writing then some { h with phase := .failed (.io msg) } else none

/-- The steps, one constructor for each branch of the source. -/
inductive Step (z : Flate) (cfg : ConnectionConfig) (h : Handler) : Act → Handler → Prop
  | read {chunk r : Bytes} (hr : h.phase.reading) (hc : chunk ≠ [])
      (hd : (cfg.decoder z).decode h.buffer = (.ok none, r)) :
      Step z cfg h (.read chunk) { h with buffer := h.buffer ++ chunk, input := h.input ++ chunk }
  | window {n : UInt32} {r : Bytes} (hp : h.phase = .expectWindow)
      (hd : (cfg.decoder z).decode h.buffer = (.ok (some (.window n)), r)) :
      Step z cfg h .next { h with buffer := r, phase := .ofCollect (.start n) }
  | stray {f : Frame} {r : Bytes} (hp : h.phase = .expectWindow) (hf : ∀ n, f ≠ .window n)
      (hd : (cfg.decoder z).decode h.buffer = (.ok (some f), r)) :
      Step z cfg h .next { h with
        buffer := r, phase := .done (.error (.unexpectedFrame "expected Window at batch start")) }
  | collected {c c' : Collect} {f : Frame} {r : Bytes} (hp : h.phase = .collecting c)
      (hd : (cfg.decoder z).decode h.buffer = (.ok (some f), r))
      (hf : c.frame z cfg.maxFrameSize f = .ok c') :
      Step z cfg h .next { h with buffer := r, phase := .ofCollect c' }
  | rejected {c : Collect} {f : Frame} {r : Bytes} {e : Error} (hp : h.phase = .collecting c)
      (hd : (cfg.decoder z).decode h.buffer = (.ok (some f), r))
      (hf : c.frame z cfg.maxFrameSize f = .error e) :
      Step z cfg h .next { h with buffer := r, phase := .done (.error e) }
  | undecodable {r : Bytes} {e : Error} (hr : h.phase.reading)
      (hd : (cfg.decoder z).decode h.buffer = (.error e, r)) :
      Step z cfg h .next { h with buffer := r, phase := .done (.error e) }
  | eof {r : Bytes} (hr : h.phase.reading)
      (hd : (cfg.decoder z).decode h.buffer = (.ok none, r)) :
      Step z cfg h .eof { h with phase := .done (h.atEof z cfg), eof := true }
  | dispatch {c : Collect} (hp : h.phase = .dispatching c) :
      Step z cfg h .dispatch { h with
        phase := .awaitAck c.lastSeq, ackRx := .pending, dispatched := h.dispatched ++ [c.dispatch] }
  | shutdown {c : Collect} (hp : h.phase = .dispatching c) :
      Step z cfg h .shutdown { h with phase := .shutdown }
  | release {d : Dispatch} (hrx : h.ackRx = .pending) (hl : h.dispatched.getLast? = some d) :
      Step z cfg h .release { h with ackRx := .sent d.lastSeq }
  | tick {lastSeq : UInt32} {interval : Nat} (hp : h.phase = .awaitAck lastSeq)
      (hk : cfg.keepalive = some interval) (hrx : h.ackRx = .pending) :
      Step z cfg h .tick
        ({ h with phase := .keepalive lastSeq, ticks := h.ticks + 1 }.send z (.ack 0))
  | acked {lastSeq seq : UInt32} (hp : h.phase = .awaitAck lastSeq)
      (hv : h.ackRx.acked lastSeq = some seq) :
      Step z cfg h .acked
        ({ h with phase := .acking, rounds := h.rounds ++ [h.ticks], ticks := 0 }.send z (.ack seq))
  | write {k : Nat} (hw : h.phase.writing) (hk : 0 < k) (hl : k ≤ h.out.length) :
      Step z cfg h (.write k) { h with
        out := h.out.drop k, phase := if h.out.length = k then h.phase.flushed else h.phase }
  | fail {msg : String} (hio : h.phase.reading ∨ h.phase.writing) :
      Step z cfg h (.fail msg) { h with phase := .failed (.io msg) }

variable {z : Flate} {cfg : ConnectionConfig} {h h' : Handler} {a : Act}

private theorem next_cases (hs : h.step z cfg .next = some h') : Step z cfg h .next h' := by
  simp only [step] at hs
  split at hs
  · rename_i hr
    split at hs
    · rename_i f r hd
      cases hp : h.phase with
      | expectWindow =>
        cases f with
        | window n =>
          simp only [onFrame, hp, Option.some.injEq] at hs
          exact hs ▸ .window hp hd
        | json seq data =>
          simp only [onFrame, hp, Option.some.injEq] at hs
          exact hs ▸ .stray hp (fun n hn => by cases hn) hd
        | compressed inner =>
          simp only [onFrame, hp, Option.some.injEq] at hs
          exact hs ▸ .stray hp (fun n hn => by cases hn) hd
        | ack seq =>
          simp only [onFrame, hp, Option.some.injEq] at hs
          exact hs ▸ .stray hp (fun n hn => by cases hn) hd
      | collecting c =>
        cases hf : c.frame z cfg.maxFrameSize f with
        | ok c' =>
          simp only [onFrame, hp, hf, Option.some.injEq] at hs
          exact hs ▸ .collected hp hd hf
        | error e =>
          simp only [onFrame, hp, hf, Option.some.injEq] at hs
          exact hs ▸ .rejected hp hd hf
      | _ => simp [hp, Phase.reading] at hr
    · rename_i e r hd
      cases hs
      exact .undecodable hr hd
    · cases hs
  · cases hs

/-- The step function takes no other steps. -/
theorem step_cases (hs : h.step z cfg a = some h') : Step z cfg h a h' := by
  cases a with
  | next => exact next_cases hs
  | read chunk =>
    simp only [step] at hs
    split at hs
    · rename_i hc
      cases hs
      exact .read hc.1 hc.2.1 (Prod.ext hc.2.2 rfl)
    · cases hs
  | eof =>
    simp only [step] at hs
    split at hs
    · rename_i hc
      cases hs
      exact .eof hc.1 (Prod.ext hc.2 rfl)
    · cases hs
  | dispatch =>
    simp only [step] at hs
    split at hs
    · rename_i c hp
      cases hs
      exact .dispatch hp
    · cases hs
  | shutdown =>
    simp only [step] at hs
    split at hs
    · rename_i c hp
      cases hs
      exact .shutdown hp
    · cases hs
  | release =>
    simp only [step] at hs
    split at hs
    · rename_i d hrx hl
      cases hs
      exact .release hrx hl
    · cases hs
  | tick =>
    simp only [step] at hs
    split at hs
    · rename_i lastSeq i hp hk hrx
      cases hs
      exact .tick hp hk hrx
    · cases hs
  | acked =>
    simp only [step] at hs
    split at hs
    · rename_i lastSeq hp
      split at hs
      · rename_i seq hv
        cases hs
        exact .acked hp hv
      · cases hs
    · cases hs
  | write k =>
    simp only [step] at hs
    split at hs
    · rename_i hc
      cases hs
      exact .write hc.1 hc.2.1 hc.2.2
    · cases hs
  | fail msg =>
    simp only [step] at hs
    split at hs
    · rename_i hc
      cases hs
      exact .fail hc
    · cases hs

/-- Every such step is enabled. -/
theorem Step.enabled (hs : Step z cfg h a h') : h.step z cfg a = some h' := by
  cases hs with
  | read hr hc hd => simp [step, hr, hc, hd]
  | window hp hd => simp [step, onFrame, hp, hd, Phase.reading]
  | @stray f r hp hf hd => cases f <;> simp_all [step, onFrame, Phase.reading]
  | collected hp hd hf => simp [step, onFrame, hp, hd, hf, Phase.reading]
  | rejected hp hd hf => simp [step, onFrame, hp, hd, hf, Phase.reading]
  | undecodable hr hd => simp [step, hr, hd]
  | eof hr hd => simp [step, hr, hd]
  | dispatch hp => simp [step, hp]
  | shutdown hp => simp [step, hp]
  | release hrx hl => simp [step, hrx, hl]
  | tick hp hk hrx => simp [step, hp, hk, hrx]
  | acked hp hv => simp [step, hp, hv]
  | write hw hk hl => simp [step, hw, hk, hl]
  | fail hio => simp [step, hio]

end Handler
end Lumberjack.Server
