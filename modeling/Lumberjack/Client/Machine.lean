import Lumberjack.Process.Run
import Lumberjack.Client.Send

/-!
# `Client::send`, one await at a time

A send feeds its frames to the sink, flushes it and then reads acknowledgements.
Feeding waits only while the write buffer is at its backpressure boundary. A send
that fails returns its error and leaves the `Client` as it is: buffers, socket and
all, ready for another call. What the next call finds is in the read state of
`Framed`: after a failure its stream ends once, and then it reads before it decodes
again; after the end of the input it decodes what is left, and then ends again and
again. The last four fields are history.
-/
namespace Lumberjack

open Lumberjack.Stream Lumberjack.Wire Lumberjack.Server

namespace Client

/-- What a connected `Client` keeps of its builder; timeouts are in milliseconds. -/
structure ClientBuilder where
  compressionLevel : UInt32 := 3
  writeTimeout : Option Nat := none
  ackTimeout : Option Nat := some 30000

/-- The write buffer size from which on `Framed` flushes before it takes a frame. -/
def backpressureBoundary : Nat := 8 * 1024

/-- Where a call is suspended, with the events it was given. `feeding` has the
frames still to be fed and the error that the last of them is followed by. -/
inductive Phase (T : Type) where
  | idle
  | feeding (events : List T) (todo : List Frame) (err : Option Error)
  | flushing (events : List T)
  | awaiting (events : List T)

inductive Act (T : Type) where
  | start (events : List T)
  | feed
  | flush
  | write (k : Nat)
  | flushed
  | read (chunk : Bytes)
  | next
  | eof
  | ackTimeout
  | writeTimeout
  | fail (msg : String)
  deriving DecidableEq

end Client

structure Client (T : Type) where
  phase : Client.Phase T
  rbuf : Bytes
  /-- `has_errored`: a failure was returned, of the decoder or of a read -/
  errored : Bool
  /-- `is_readable`: the buffer may hold a frame -/
  readable : Bool
  /-- `eof`: the last read found the end of the input -/
  eof : Bool
  wbuf : Bytes
  /-- a flush for backpressure has begun -/
  draining : Bool
  /-- everything fed to the sink -/
  fed : Bytes
  /-- the batches of which every frame was fed -/
  complete : List (List T)
  /-- the frames read -/
  heard : List Frame
  results : List (List T × Result UInt32)

namespace Client

variable {T : Type}

def init (T : Type) : Client T := ⟨.idle, [], false, false, false, [], false, [], [], [], []⟩

/-- `events.len() as u32` -/
def count (events : List T) : UInt32 := .ofNat events.length

/-- Return from the call. -/
def finish (cl : Client T) (events : List T) (r : Result UInt32) : Client T :=
  { cl with phase := .idle, draining := false, results := cl.results ++ [(events, r)] }

/-- A frame returned by `framed.next()` in the acknowledgement loop. -/
def onFrame (cl : Client T) (events : List T) : Frame → Client T
  | .ack seq => if count events ≤ seq then cl.finish events (.ok (count events)) else cl
  | _ => cl.finish events (.error (.unexpectedFrame "expected Ack"))

/-- What `framed.next()` returns, with what is left of the buffer. -/
def onItem (cl : Client T) (events : List T) (r : Bytes) : Result Frame → Client T
  | .ok f => { cl with rbuf := r, heard := cl.heard ++ [f] }.onFrame events f
  | .error e => { cl with rbuf := r, errored := true }.finish events (.error e)

/-- A feed that has to wait for the write buffer. -/
def blocked (cl : Client T) : Bool := backpressureBoundary ≤ cl.wbuf.length

/-- Bytes go to the socket: in a flush, or in a feed that found the buffer full. -/
def writing (cl : Client T) : Bool :=
  match cl.phase with
  | .feeding _ (_ :: _) _ => cl.blocked || cl.draining
  | .flushing _ => true
  | _ => false

/-- The read side asks the socket for more. A buffer without a frame stays `readable`
here, as decoding it once more gives the same answer. -/
def starved (z : Flate) (cl : Client T) : Bool :=
  !cl.errored && (!cl.readable ||
    (!cl.eof && ((LumberjackCodec.decoder z {}).decode cl.rbuf).1 = .ok none))

def step (z : Flate) (toVec : T → Except String Bytes) (b : ClientBuilder) (cl : Client T) :
    Act T → Option (Client T)
  | .start events =>
    match cl.phase with
    | .idle =>
      if events.isEmpty then some (cl.finish events (.ok 0))
      else
        let frames := sendFrames z toVec b.compressionLevel events
        some { cl with phase := .feeding events frames.1 frames.2 }
    | _ => none
  | .feed =>
    match cl.phase with
    | .feeding events (f :: todo) err =>
      if cl.blocked then none
      else some { cl with
        phase := .feeding events todo err
        wbuf := cl.wbuf ++ f.encode z
        draining := false
        fed := cl.fed ++ f.encode z
        complete := if todo.isEmpty && err.isNone then cl.complete ++ [events] else cl.complete }
    | _ => none
  | .flush =>
    match cl.phase with
    | .feeding events [] none => some { cl with phase := .flushing events }
    | .feeding events [] (some e) => some (cl.finish events (.error e))
    | _ => none
  | .write k =>
    if cl.writing ∧ 0 < k ∧ k ≤ cl.wbuf.length then
      some { cl with wbuf := cl.wbuf.drop k, draining := true }
    else none
  | .flushed =>
    match cl.phase with
    | .flushing events =>
      if cl.wbuf.isEmpty then some { cl with phase := .awaiting events, draining := false } else none
    | _ => none
  | .read chunk =>
    match cl.phase with
    | .awaiting _ =>
      if chunk ≠ [] ∧ cl.starved z then
        some { cl with rbuf := cl.rbuf ++ chunk, readable := true, eof := false }
      else none
    | _ => none
  | .next =>
    match cl.phase with
    | .awaiting events =>
      if cl.errored then
        some ({ cl with errored := false, readable := false }.finish events (.error .connectionClosed))
      else if cl.readable then
        if cl.eof then
          match (LumberjackCodec.decoder z {}).decodeEof cl.rbuf with
          | (some item, r) => some (cl.onItem events r item)
          | (none, r) =>
            some ({ cl with rbuf := r, readable := false }.finish events (.error .connectionClosed))
        else
          match (LumberjackCodec.decoder z {}).decode cl.rbuf with
          | (.ok (some f), r) => some (cl.onItem events r (.ok f))
          | (.error e, r) => some (cl.onItem events r (.error e))
          | (.ok none, _) => none
      else none
    | _ => none
  | .eof =>
    match cl.phase with
    | .awaiting events =>
      if cl.starved z then
        -- the second end in a row is an answer of its own, the first leads to `decode_eof`
        if cl.eof then some (cl.finish events (.error .connectionClosed))
        else some { cl with readable := true, eof := true }
      else none
    | _ => none
  | .ackTimeout =>
    match cl.phase with
    | .awaiting events =>
      if b.ackTimeout.isSome ∧ cl.starved z then some (cl.finish events (.error .ackTimeout)) else none
    | _ => none
  | .writeTimeout =>
    if b.writeTimeout.isSome then
      match cl.phase with
      | .feeding events (_ :: _) _ =>
        if cl.writing then some (cl.finish events (.error .writeTimeout)) else none
      | .flushing events =>
        if cl.wbuf.isEmpty then none else some (cl.finish events (.error .writeTimeout))
      | _ => none
    else none
  | .fail msg =>
    match cl.phase with
    | .feeding events (_ :: _) _ =>
      if cl.writing then some (cl.finish events (.error (.io msg))) else none
    | .flushing events => some (cl.finish events (.error (.io msg)))
    | .awaiting events =>
      if cl.starved z then some ({ cl with errored := true }.finish events (.error (.io msg))) else none
    | _ => none

/-- The call in progress was given these events. -/
def Phase.Has (events : List T) : Phase T → Prop
  | .idle => False
  | .feeding ev _ _ | .flushing ev | .awaiting ev => ev = events

/-- Not the error of a frame that is no acknowledgement. -/
def NotStray (e : Error) : Prop := ∀ msg, e ≠ .unexpectedFrame msg

/-- The steps, one constructor for each branch of the source; timeouts and I/O
errors are one, as they change nothing but the phase, the results and `errored`. -/
inductive Step (z : Flate) (toVec : T → Except String Bytes) (b : ClientBuilder) (cl : Client T) :
    Act T → Client T → Prop
  | empty (hp : cl.phase = .idle) : Step z toVec b cl (.start []) (cl.finish [] (.ok 0))
  | start {events : List T} (hp : cl.phase = .idle) (hne : events ≠ []) :
      Step z toVec b cl (.start events) { cl with
        phase := .feeding events (sendFrames z toVec b.compressionLevel events).1
          (sendFrames z toVec b.compressionLevel events).2 }
  | feed {events : List T} {f : Frame} {todo : List Frame} {err : Option Error}
      (hp : cl.phase = .feeding events (f :: todo) err) (hb : cl.blocked = false) :
      Step z toVec b cl .feed { cl with
        phase := .feeding events todo err
        wbuf := cl.wbuf ++ f.encode z
        draining := false
        fed := cl.fed ++ f.encode z
        complete := if todo.isEmpty && err.isNone then cl.complete ++ [events] else cl.complete }
  | flush {events : List T} (hp : cl.phase = .feeding events [] none) :
      Step z toVec b cl .flush { cl with phase := .flushing events }
  | write {k : Nat} (hw : cl.writing) (hk : 0 < k) (hl : k ≤ cl.wbuf.length) :
      Step z toVec b cl (.write k) { cl with wbuf := cl.wbuf.drop k, draining := true }
  | flushed {events : List T} (hp : cl.phase = .flushing events) (hw : cl.wbuf = []) :
      Step z toVec b cl .flushed { cl with phase := .awaiting events, draining := false }
  | read {events : List T} {chunk : Bytes} (hp : cl.phase = .awaiting events) (hc : chunk ≠ [])
      (hs : cl.starved z) : Step z toVec b cl (.read chunk)
        { cl with rbuf := cl.rbuf ++ chunk, readable := true, eof := false }
  | next {events : List T} {f : Frame} {r : Bytes} (hp : cl.phase = .awaiting events)
      (he : cl.errored = false) (hr : cl.readable = true)
      (hd : (LumberjackCodec.decoder z {}).decode cl.rbuf = (.ok (some f), r)) :
      Step z toVec b cl .next ({ cl with rbuf := r, heard := cl.heard ++ [f] }.onFrame events f)
  | undecodable {events : List T} {e : Error} {r : Bytes} (hp : cl.phase = .awaiting events)
      (he : cl.errored = false)
      (hd : (LumberjackCodec.decoder z {}).decode cl.rbuf = (.error e, r)) :
      Step z toVec b cl .next ({ cl with rbuf := r, errored := true }.finish events (.error e))
  | exhausted {events : List T} (hp : cl.phase = .awaiting events) (he : cl.errored = true) :
      Step z toVec b cl .next
        ({ cl with errored := false, readable := false }.finish events (.error .connectionClosed))
  | truncated {events : List T} (hp : cl.phase = .awaiting events) (he : cl.eof = true) :
      Step z toVec b cl .next ({ cl with errored := true }.finish events
        (.error (LumberjackCodec.decoder z {}).remaining))
  | paused {events : List T} (hp : cl.phase = .awaiting events) (he : cl.eof = true) :
      Step z toVec b cl .next
        ({ cl with readable := false }.finish events (.error .connectionClosed))
  | ended {events : List T} (hp : cl.phase = .awaiting events) :
      Step z toVec b cl .eof { cl with readable := true, eof := true }
  | unfed {events : List T} {e : Error} (hp : cl.phase = .feeding events [] (some e)) :
      Step z toVec b cl .flush (cl.finish events (.error e))
  | closed {events : List T} (hp : cl.phase = .awaiting events) :
      Step z toVec b cl .eof (cl.finish events (.error .connectionClosed))
  | giveUp {a : Act T} {events : List T} {e : Error} {er : Bool}
      (ha : a = .ackTimeout ∨ a = .writeTimeout ∨ ∃ msg, a = .fail msg) :
      Step z toVec b cl a ({ cl with errored := er }.finish events (.error e))

/-- A frame heard while waiting moves no buffer; the call goes on or returns. -/
theorem onFrame_keeps (cl : Client T) (events : List T) (f : Frame) :
    (cl.onFrame events f).fed = cl.fed ∧ (cl.onFrame events f).wbuf = cl.wbuf ∧
    (cl.onFrame events f).rbuf = cl.rbuf ∧ (cl.onFrame events f).heard = cl.heard ∧
    ((cl.onFrame events f).phase = cl.phase ∨ (cl.onFrame events f).phase = .idle) := by
  cases f with
  | ack seq =>
    simp only [onFrame]
    split
    · exact ⟨rfl, rfl, rfl, rfl, .inr rfl⟩
    · exact ⟨rfl, rfl, rfl, rfl, .inl rfl⟩
  | _ => exact ⟨rfl, rfl, rfl, rfl, .inr rfl⟩

variable {z : Flate} {toVec : T → Except String Bytes} {b : ClientBuilder} {cl cl' : Client T}
variable {a : Act T}

private theorem next_cases (hs : cl.step z toVec b .next = some cl') :
    Step z toVec b cl .next cl' := by
  simp only [step] at hs
  split at hs
  · rename_i events hp
    split at hs
    · rename_i he
      cases hs
      exact .exhausted hp he
    · rename_i he
      have he : cl.errored = false := by simpa using he
      rcases hd : (LumberjackCodec.decoder z {}).decode cl.rbuf with ⟨e | _ | f, r⟩
      · rw [Decoder.decodeEof_error _ hd, hd] at hs
        split at hs
        · split at hs <;> cases hs <;> exact .undecodable hp he hd
        · cases hs
      · rw [Decoder.decodeEof_none _ hd, hd] at hs
        split at hs
        · split at hs
          · rename_i heof
            by_cases hb : cl.rbuf.isEmpty
            · rw [if_pos hb] at hs
              cases hs
              exact .paused hp heof
            · rw [if_neg hb] at hs
              cases hs
              exact .truncated hp heof
          · cases hs
        · cases hs
      · rw [Decoder.decodeEof_some _ hd, hd] at hs
        split at hs
        · rename_i hr
          split at hs <;> cases hs <;> exact .next hp he hr hd
        · cases hs
  · cases hs

private theorem eof_cases (hs : cl.step z toVec b .eof = some cl') : Step z toVec b cl .eof cl' := by
  simp only [step] at hs
  split at hs
  · rename_i events hp
    split at hs
    · split at hs
      · cases hs
        exact .closed hp
      · cases hs
        exact .ended hp
    · cases hs
  · cases hs

/-- A timeout or an I/O error ends the call in progress, and is none of a frame. -/
theorem giveUp_of (ha : a = .ackTimeout ∨ a = .writeTimeout ∨ ∃ msg, a = .fail msg)
    (hs : cl.step z toVec b a = some cl') :
    ∃ events e er, cl.phase.Has events ∧ NotStray e ∧
      cl' = { cl with errored := er }.finish events (.error e) := by
  obtain rfl | rfl | ⟨msg, rfl⟩ := ha
  · simp only [step] at hs
    split at hs
    · rename_i events hp
      split at hs
      · exact ⟨events, _, cl.errored, by rw [hp]; rfl, by simp [NotStray], (Option.some.inj hs).symm⟩
      · cases hs
    · cases hs
  · simp only [step] at hs
    split at hs
    · split at hs
      · rename_i events f todo err hp
        split at hs
        · exact ⟨events, _, cl.errored, by rw [hp]; rfl, by simp [NotStray], (Option.some.inj hs).symm⟩
        · cases hs
      · rename_i events hp
        split at hs
        · cases hs
        · exact ⟨events, _, cl.errored, by rw [hp]; rfl, by simp [NotStray], (Option.some.inj hs).symm⟩
      · cases hs
    · cases hs
  · simp only [step] at hs
    split at hs
    · rename_i events f todo err hp
      split at hs
      · exact ⟨events, _, cl.errored, by rw [hp]; rfl, by simp [NotStray], (Option.some.inj hs).symm⟩
      · cases hs
    · rename_i events hp
      exact ⟨events, _, cl.errored, by rw [hp]; rfl, by simp [NotStray], (Option.some.inj hs).symm⟩
    · rename_i events hp
      split at hs
      · exact ⟨events, _, true, by rw [hp]; rfl, by simp [NotStray], (Option.some.inj hs).symm⟩
      · cases hs
    · cases hs

private theorem giveUp_cases (ha : a = .ackTimeout ∨ a = .writeTimeout ∨ ∃ msg, a = .fail msg)
    (hs : cl.step z toVec b a = some cl') : Step z toVec b cl a cl' := by
  obtain ⟨events, e, er, -, -, rfl⟩ := giveUp_of ha hs
  exact .giveUp ha

theorem step_cases (hs : cl.step z toVec b a = some cl') : Step z toVec b cl a cl' := by
  cases a with
  | next => exact next_cases hs
  | eof => exact eof_cases hs
  | ackTimeout => exact giveUp_cases (.inl rfl) hs
  | writeTimeout => exact giveUp_cases (.inr (.inl rfl)) hs
  | fail msg => exact giveUp_cases (.inr (.inr ⟨msg, rfl⟩)) hs
  | start events =>
    simp only [step] at hs
    split at hs
    · rename_i hp
      split at hs
      · rename_i he
        cases hs
        rw [List.isEmpty_iff.mp he]
        exact .empty hp
      · rename_i he
        cases hs
        exact .start hp (by simpa using he)
    · cases hs
  | feed =>
    simp only [step] at hs
    split at hs
    · rename_i events f todo err hp
      split at hs
      · cases hs
      · rename_i hb
        cases hs
        exact .feed hp (by simpa using hb)
    · cases hs
  | flush =>
    simp only [step] at hs
    split at hs
    · rename_i events hp
      cases hs
      exact .flush hp
    · rename_i events e hp
      cases hs
      exact .unfed hp
    · cases hs
  | write k =>
    simp only [step] at hs
    split at hs
    · rename_i hc
      cases hs
      exact .write hc.1 hc.2.1 hc.2.2
    · cases hs
  | flushed =>
    simp only [step] at hs
    split at hs
    · rename_i events hp
      split at hs
      · rename_i hw
        cases hs
        exact .flushed hp (List.isEmpty_iff.mp hw)
      · cases hs
    · cases hs
  | read chunk =>
    simp only [step] at hs
    split at hs
    · rename_i events hp
      split at hs
      · rename_i hc
        cases hs
        exact .read hp hc.1 hc.2
      · cases hs
    · cases hs

end Client
end Lumberjack
