import Lumberjack.Server.Plain
import Lumberjack.Client.Receive
import Lumberjack.Client.Stream

/-!
# The client of the build without the `compression` feature

Without the feature `Frame::encode` panics on a compressed frame, and `Client::send` is
compiled from the same lines: it hands such a frame to the sink whenever
`compression_level` is not 0. The panic unwinds the call in the middle of its feed and
leaves the `Client` as it was, so a caller that catches it can go on; these calls are
recorded in `panicked`. At level 0 no call panics, and the client goes the way of the
default build up to the first compressed frame it would have to read.
-/
namespace Lumberjack.Wire.Plain

open Lumberjack.Stream

/-- `Frame::encode` under `not(feature = "compression")`; `none` is its panic. -/
def encode : Frame → Option Bytes
  | .window n => some (protocolVersion :: typeWindow :: putU32 n)
  | .json seq data =>
    some (protocolVersion :: typeJson :: (putU32 seq ++ putU32 (.ofNat data.length) ++ data))
  | .ack seq => some (protocolVersion :: typeAck :: putU32 seq)
  | .compressed _ => none

/-- The frames both builds encode, and alike. -/
def Encodable (f : Frame) : Prop := ∀ inner, f ≠ .compressed inner

theorem encode_eq (z : Flate) {f : Frame} (h : Encodable f) : encode f = some (f.encode z) := by
  cases f with
  | compressed inner => exact absurd rfl (h inner)
  | _ => rfl

/-- What this build decodes it can encode. -/
theorem encodable_of_decode {b r : Bytes} {f : Frame} {max : Nat}
    (h : decodeWithLimit b max = (.ok (some f), r)) : Encodable f := by
  rintro inner rfl
  obtain ⟨hc, hd⟩ := decode_some h
  obtain ⟨w, hw, rfl⟩ := wire_of_decode (hd noFlate)
  cases hw
  exact hc ⟨_, rfl⟩

end Lumberjack.Wire.Plain

namespace Lumberjack.Client

open Lumberjack.Stream Lumberjack.Wire Lumberjack.Server Lumberjack.Process

/-- A client of this build, and the events of the calls that ended in the panic. -/
structure Plain (T : Type) where
  client : Client T
  panicked : List (List T)

namespace Plain

variable {T : Type}

def of (cl : Client T) : Plain T := ⟨cl, []⟩

def init (T : Type) : Plain T := of (Client.init T)

/-- The same record of panics with another client. -/
def put (s : Plain T) (cl : Client T) : Plain T := { s with client := cl }

/-- `sendFrames` with the decoder of this build. Events are encoded as `J` frames only,
for which it does not matter which library `encodeEvents` is given. -/
def sendFrames (toVec : T → Except String Bytes) (level : UInt32) (events : List T) :
    List Frame × Option Error :=
  if events.isEmpty then ([], none)
  else
    match encodeEvents Wire.Plain.noFlate toVec 0 events [] with
    | .error e => ([], some e)
    | .ok payload =>
      let n := UInt32.ofNat events.length
      if level > 0 then ([.window n, .compressed payload], none)
      else
        let frames := (Wire.Plain.decoder {}).drain payload
        (.window n :: frames.items, frames.error)

/-- The read side asks the socket for more. -/
def starved (cl : Client T) : Bool :=
  !cl.errored && (!cl.readable ||
    (!cl.eof && ((Wire.Plain.decoder {}).decode cl.rbuf).1 = .ok none))

def step (toVec : T → Except String Bytes) (b : ClientBuilder) (s : Plain T) :
    Act T → Option (Plain T)
  | .start events =>
    match s.client.phase with
    | .idle =>
      if events.isEmpty then some (s.put (s.client.finish events (.ok 0)))
      else
        let frames := sendFrames toVec b.compressionLevel events
        some (s.put { s.client with phase := .feeding events frames.1 frames.2 })
    | _ => none
  | .feed =>
    match s.client.phase with
    | .feeding events (f :: todo) err =>
      if s.client.blocked then none
      else
        match Wire.Plain.encode f with
        | some w => some (s.put { s.client with
            phase := .feeding events todo err
            wbuf := s.client.wbuf ++ w
            draining := false
            fed := s.client.fed ++ w
            complete :=
              if todo.isEmpty && err.isNone then s.client.complete ++ [events] else s.client.complete })
        -- the future is unwound; the write buffer has not been touched
        | none => some ⟨{ s.client with phase := .idle, draining := false }, s.panicked ++ [events]⟩
    | _ => none
  | .read chunk =>
    match s.client.phase with
    | .awaiting _ =>
      if chunk ≠ [] ∧ starved s.client then
        some (s.put { s.client with rbuf := s.client.rbuf ++ chunk, readable := true, eof := false })
      else none
    | _ => none
  | .next =>
    match s.client.phase with
    | .awaiting events =>
      if s.client.errored then
        some (s.put ({ s.client with errored := false, readable := false }.finish events
          (.error .connectionClosed)))
      else if s.client.readable then
        if s.client.eof then
          match (Wire.Plain.decoder {}).decodeEof s.client.rbuf with
          | (some item, r) => some (s.put (s.client.onItem events r item))
          | (none, r) =>
            some (s.put ({ s.client with rbuf := r, readable := false }.finish events
              (.error .connectionClosed)))
        else
          match (Wire.Plain.decoder {}).decode s.client.rbuf with
          | (.ok (some f), r) => some (s.put (s.client.onItem events r (.ok f)))
          | (.error e, r) => some (s.put (s.client.onItem events r (.error e)))
          | (.ok none, _) => none
      else none
    | _ => none
  | .eof =>
    match s.client.phase with
    | .awaiting events =>
      if starved s.client then
        if s.client.eof then some (s.put (s.client.finish events (.error .connectionClosed)))
        else some (s.put { s.client with readable := true, eof := true })
      else none
    | _ => none
  | .ackTimeout =>
    match s.client.phase with
    | .awaiting events =>
      if b.ackTimeout.isSome ∧ starved s.client then
        some (s.put (s.client.finish events (.error .ackTimeout)))
      else none
    | _ => none
  | .fail msg =>
    match s.client.phase with
    | .feeding events (_ :: _) _ =>
      if s.client.writing then some (s.put (s.client.finish events (.error (.io msg)))) else none
    | .flushing events => some (s.put (s.client.finish events (.error (.io msg))))
    | .awaiting events =>
      if starved s.client then
        some (s.put ({ s.client with errored := true }.finish events (.error (.io msg))))
      else none
    | _ => none
  -- the remaining steps do not reach the codec
  | a => (s.client.step Wire.Plain.noFlate toVec b a).map s.put

/-- What a step can do. The awaits of the read side are one constructor: they are taken
by a call that waits, which goes on waiting or returns. -/
inductive Step (toVec : T → Except String Bytes) (b : ClientBuilder) (s : Plain T) :
    Act T → Plain T → Prop
  | empty (hp : s.client.phase = .idle) :
      Step toVec b s (.start []) (s.put (s.client.finish [] (.ok 0)))
  | start {events : List T} (hp : s.client.phase = .idle) (hne : events ≠ []) :
      Step toVec b s (.start events) (s.put { s.client with
        phase := .feeding events (sendFrames toVec b.compressionLevel events).1
          (sendFrames toVec b.compressionLevel events).2 })
  | feed {events : List T} {f : Frame} {todo : List Frame} {err : Option Error} {w : Bytes}
      (hp : s.client.phase = .feeding events (f :: todo) err) (hw : Wire.Plain.encode f = some w) :
      Step toVec b s .feed (s.put { s.client with
        phase := .feeding events todo err
        wbuf := s.client.wbuf ++ w
        draining := false
        fed := s.client.fed ++ w
        complete :=
          if todo.isEmpty && err.isNone then s.client.complete ++ [events] else s.client.complete })
  | panic {events : List T} {f : Frame} {todo : List Frame} {err : Option Error}
      (hp : s.client.phase = .feeding events (f :: todo) err) (hw : Wire.Plain.encode f = none) :
      Step toVec b s .feed
        ⟨{ s.client with phase := .idle, draining := false }, s.panicked ++ [events]⟩
  | waits {a : Act T} {events : List T} {cl : Client T} (hp : s.client.phase = .awaiting events)
      (hq : cl.phase = .awaiting events ∨ cl.phase = .idle) : Step toVec b s a (s.put cl)
  | other {a : Act T} {cl : Client T} (ha : ∀ events, a ≠ .start events) (hf : a ≠ .feed)
      (hs : s.client.step Wire.Plain.noFlate toVec b a = some cl) : Step toVec b s a (s.put cl)

section Cases

variable {toVec : T → Except String Bytes} {b : ClientBuilder} {s s' : Plain T} {a : Act T}

private theorem other_cases (ha : ∀ events, a ≠ .start events) (hf : a ≠ .feed)
    (hs : (s.client.step Wire.Plain.noFlate toVec b a).map s.put = some s') : Step toVec b s a s' := by
  obtain ⟨cl, hcl, rfl⟩ := Option.map_eq_some_iff.mp hs
  exact .other ha hf hcl

/-- A frame that was returned leaves the call waiting or ends it, and so does an error. -/
theorem onItem_phase {cl : Client T} {events : List T} (hp : cl.phase = .awaiting events) (r : Bytes)
    (item : Result Frame) :
    (cl.onItem events r item).phase = .awaiting events ∨ (cl.onItem events r item).phase = .idle := by
  cases item with
  | error e => exact .inr rfl
  | ok f =>
    rcases (onFrame_keeps { cl with rbuf := r, heard := cl.heard ++ [f] } events f).2.2.2.2 with hk | hk
    · exact .inl (hk.trans hp)
    · exact .inr hk

private theorem next_cases (hs : step toVec b s .next = some s') : Step toVec b s .next s' := by
  simp only [step] at hs
  split at hs
  · rename_i events hp
    split at hs
    · cases hs
      exact .waits hp (.inr rfl)
    · split at hs
      · split at hs
        · split at hs
          · cases hs
            exact .waits hp (onItem_phase hp _ _)
          · cases hs
            exact .waits hp (.inr rfl)
        · split at hs
          · cases hs
            exact .waits hp (onItem_phase hp _ _)
          · cases hs
            exact .waits hp (onItem_phase hp _ _)
          · cases hs
      · cases hs
  · cases hs

private theorem fail_cases {msg : String} (hs : step toVec b s (.fail msg) = some s') :
    Step toVec b s (.fail msg) s' := by
  simp only [step] at hs
  split at hs
  · rename_i events f todo err hp
    split at hs
    · rename_i hw
      cases hs
      exact .other (by simp) (by simp) (by simp only [Client.step, hp, if_pos hw])
    · cases hs
  · rename_i events hp
    cases hs
    exact .other (by simp) (by simp) (by simp only [Client.step, hp])
  · rename_i events hp
    split at hs
    · cases hs
      exact .waits hp (.inr rfl)
    · cases hs
  · cases hs

theorem step_cases (hs : step toVec b s a = some s') : Step toVec b s a s' := by
  cases a with
  | start events =>
    simp only [step] at hs
    split at hs
    · rename_i hp
      split at hs
      · rename_i he
        cases hs
        rw [List.isEmpty_iff.mp he]
        exact .empty hp
      · rename_i he
        cases hs
        exact .start hp (by simpa using he)
    · cases hs
  | feed =>
    simp only [step] at hs
    split at hs
    · rename_i events f todo err hp
      split at hs
      · cases hs
      · split at hs
        · rename_i w hw
          cases hs
          exact .feed hp hw
        · rename_i hw
          cases hs
          exact .panic hp hw
    · cases hs
  | read chunk =>
    simp only [step] at hs
    split at hs
    · rename_i events hp
      split at hs
      · cases hs
        exact .waits hp (.inl hp)
      · cases hs
    · cases hs
  | next => exact next_cases hs
  | eof =>
    simp only [step] at hs
    split at hs
    · rename_i events hp
      split at hs
      · split at hs
        · cases hs
          exact .waits hp (.inr rfl)
        · cases hs
          exact .waits hp (.inl hp)
      · cases hs
    · cases hs
  | ackTimeout =>
    simp only [step] at hs
    split at hs
    · rename_i events hp
      split at hs
      · cases hs
        exact .waits hp (.inr rfl)
      · cases hs
    · cases hs
  | fail msg => exact fail_cases hs
  | flush | write | flushed | writeTimeout =>
    exact other_cases (fun _ h => by cases h) (fun h => by cases h) hs

end Cases

section Frames

variable {toVec : T → Except String Bytes} {z : Flate}

theorem encodeEvents_any (z z' : Flate) (i : Nat) (events : List T) (payload : Bytes) :
    encodeEvents z toVec i events payload = encodeEvents z' toVec i events payload := by
  induction events generalizing i payload with
  | nil => rfl
  | cons ev events ih =>
    simp only [encodeEvents]
    cases toVec ev with
    | error e => rfl
    | ok bytes => exact ih (i + 1) _

/-- An event whose length field would be cut to 32 bits. -/
def Huge (toVec : T → Except String Bytes) (events : List T) : Prop :=
  ∃ ev ∈ events, ∃ data, toVec ev = .ok data ∧ 2^32 ≤ data.length

theorem narrow_of_not_huge {events : List T} {bs : List Bytes} (h : ¬ Huge toVec events)
    (hv : Serialized toVec events bs) : ∀ b ∈ bs, b.length < 2^32 := by
  induction hv with
  | nil => simp
  | @cons ev b events bs hev _ ih =>
    intro b' hb'
    rcases List.mem_cons.mp hb' with rfl | hb'
    · by_contra hlt
      exact h ⟨ev, List.mem_cons_self, b', hev, by omega⟩
    · refine ih ?_ b' hb'
      rintro ⟨ev', hmem, hd⟩
      exact h ⟨ev', List.mem_cons_of_mem _ hmem, hd⟩

/-- The client's own buffer of event frames is decoded alike. -/
theorem drain_numbered_eq {bs : List Bytes} (hn : ∀ b ∈ bs, b.length < 2^32) (i : Nat) :
    (Wire.Plain.decoder {}).drain (encodeAll z (jsonFrames (numbered i bs))) =
      (LumberjackCodec.decoder z {}).drain (encodeAll z (jsonFrames (numbered i bs))) := by
  induction bs generalizing i with
  | nil =>
    have hp : (Wire.Plain.decoder {}).decode [] = (.ok none, []) := rfl
    have hf : (LumberjackCodec.decoder z {}).decode [] = (.ok none, []) := rfl
    exact (Decoder.drain_none _ hp).trans (Decoder.drain_none _ hf).symm
  | cons b bs ih =>
    have hb := hn b List.mem_cons_self
    obtain ⟨w, hw⟩ : ∃ w, w = (Frame.json (.ofNat i + 1) b).encode z ++
        encodeAll z (jsonFrames (numbered (i + 1) bs)) := ⟨_, rfl⟩
    have hc : ¬ Wire.Plain.startsCompressed w := by
      rintro ⟨body, rfl⟩
      injection hw with _ hw
      injection hw with hw _
      revert hw
      decide
    have heq : (Wire.Plain.decoder {}).decode w = (LumberjackCodec.decoder z {}).decode w :=
      Wire.Plain.decode_eq z hc defaultMaxFrameSize
    have hbuf : encodeAll z (jsonFrames (numbered i (b :: bs))) = w := hw.symm
    rw [hbuf]
    by_cases hfit : b.length ≤ defaultMaxFrameSize
    · have hd : (LumberjackCodec.decoder z {}).decode w = (.ok (some (.json (.ofNat i + 1) b)), _) :=
        hw ▸ decode_wire (wireForm_encode_json hfit hb) _
      rw [Decoder.drain_some _ hd, Decoder.drain_some _ (heq.trans hd),
        ih (fun b' hb' => hn b' (List.mem_cons_of_mem _ hb'))]
    · have he := decode_json_oversized z (.ofNat i + 1) hb (Nat.lt_of_not_le hfit)
        (encodeAll z (jsonFrames (numbered (i + 1) bs)))
      rw [← hw] at he
      have hd : (LumberjackCodec.decoder z {}).decode w = (.error _, _) := Prod.ext he rfl
      rw [Decoder.drain_error _ hd, Decoder.drain_error _ (heq.trans hd)]

theorem sendFrames_eq {events : List T} (h : ¬ Huge toVec events) :
    sendFrames toVec 0 events = Client.sendFrames z toVec 0 events := by
  simp only [sendFrames, Client.sendFrames, encodeEvents_any Wire.Plain.noFlate z]
  rcases encodeEvents_cases z toVec events 0 [] with ⟨bs, hbs⟩ | ⟨e, he⟩
  · rw [encodeEvents_ok hbs]
    simp only [List.nil_append, drain_numbered_eq (narrow_of_not_huge h hbs)]
  · rw [he]

/-- At level 0 nothing is fed that this build cannot encode. -/
theorem encodable_of_send {events : List T} {f : Frame} (h : f ∈ (sendFrames toVec 0 events).1) :
    Wire.Plain.Encodable f := by
  simp only [sendFrames] at h
  split at h
  · simp at h
  · split at h
    · simp at h
    · rw [if_neg (UInt32.lt_irrefl 0)] at h
      rcases List.mem_cons.mp h with rfl | h
      · intro inner he
        cases he
      · obtain ⟨b, r, hd⟩ := (Wire.Plain.decoder {}).decoded_of_mem h
        exact Wire.Plain.encodable_of_decode hd

end Frames

section Agree

variable {toVec : T → Except String Bytes} {z : Flate} {b : ClientBuilder} {cl cl' : Client T}
variable {a : Act T}

/-- The call in progress has nothing to feed that this build cannot encode. -/
def Feeds (cl : Client T) : Prop :=
  ∀ events todo err, cl.phase = .feeding events todo err → ∀ f ∈ todo, Wire.Plain.Encodable f

theorem Feeds.of_ne (h : ∀ events todo err, cl.phase ≠ .feeding events todo err) : Feeds cl :=
  fun events todo err hp => absurd hp (h events todo err)

/-- A call waits, and what it decodes next is a compressed frame. -/
def Faces (cl : Client T) (events : List T) : Prop :=
  cl.phase = .awaiting events ∧ (cl.errored = false ∧ cl.readable = true) ∧
    Wire.Plain.startsCompressed cl.rbuf

/-- Where the builds part: at an event that is too long for its length field, which the
client may read back as anything, and at a compressed frame from the peer. -/
def Parts (toVec : T → Except String Bytes) (cl : Client T) (a : Act T) : Prop :=
  (∃ events, a = .start events ∧ Huge toVec events) ∨ ∃ events, Faces cl events

section Read

variable (hc : cl.errored = true ∨ cl.readable = false ∨ ¬ Wire.Plain.startsCompressed cl.rbuf)

include hc

theorem starved_eq (z : Flate) : starved cl = cl.starved z := by
  rcases hc with he | hr | hc
  · simp [starved, Client.starved, he]
  · simp [starved, Client.starved, hr]
  · have hd : (Wire.Plain.decoder {}).decode cl.rbuf = (LumberjackCodec.decoder z {}).decode cl.rbuf :=
      Wire.Plain.decode_eq z hc defaultMaxFrameSize
    simp [starved, Client.starved, hd]

theorem step_next {events : List T} (hp : cl.phase = .awaiting events) :
    step toVec b (of cl) .next = (cl.step z toVec b .next).map of := by
  simp only [step, Client.step, of, hp]
  rcases hc with he | hr | hc
  · rw [if_pos he, if_pos he]
    rfl
  · simp only [hr]
    split <;> rfl
  · have hd : (Wire.Plain.decoder {}).decode cl.rbuf = (LumberjackCodec.decoder z {}).decode cl.rbuf :=
      Wire.Plain.decode_eq z hc defaultMaxFrameSize
    have heof : (Wire.Plain.decoder {}).decodeEof cl.rbuf =
        (LumberjackCodec.decoder z {}).decodeEof cl.rbuf := by
      rw [Decoder.decodeEof, Decoder.decodeEof, hd]
      rfl
    rw [hd, heof]
    split
    · rfl
    · split
      · split
        · rcases (LumberjackCodec.decoder z {}).decodeEof cl.rbuf with ⟨_ | item, r⟩ <;> rfl
        · rcases (LumberjackCodec.decoder z {}).decode cl.rbuf with ⟨e | _ | f, r⟩ <;> rfl
      · rfl

end Read

/-- The awaits of the read side, of a call that does not face a compressed frame. -/
theorem step_read (hf : ∀ events, ¬ Faces cl events)
    (ha : a = .next ∨ a = .eof ∨ a = .ackTimeout ∨ (∃ chunk, a = .read chunk) ∨ ∃ msg, a = .fail msg) :
    step toVec b (of cl) a = (cl.step z toVec b a).map of := by
  cases hp : cl.phase with
  | awaiting events =>
    have hc : cl.errored = true ∨ cl.readable = false ∨ ¬ Wire.Plain.startsCompressed cl.rbuf := by
      cases he : cl.errored with
      | true => exact .inl rfl
      | false =>
        cases hr : cl.readable with
        | false => exact .inr (.inl rfl)
        | true => exact .inr (.inr (fun hc => hf events ⟨hp, ⟨he, hr⟩, hc⟩))
    obtain rfl | rfl | rfl | ⟨chunk, rfl⟩ | ⟨msg, rfl⟩ := ha
    · exact step_next hc hp
    · simp only [step, Client.step, of, hp, starved_eq hc z]
      split
      · split <;> rfl
      · rfl
    all_goals
      simp only [step, Client.step, of, hp, starved_eq hc z]
      split <;> rfl
  | feeding events todo err =>
    obtain rfl | rfl | rfl | ⟨chunk, rfl⟩ | ⟨msg, rfl⟩ := ha
    case inr.inr.inr.inr =>
      cases todo with
      | nil =>
        simp only [step, Client.step, of, hp]
        rfl
      | cons f todo =>
        by_cases hw : cl.writing <;> simp [step, Client.step, of, put, hp, hw]
    all_goals
      simp only [step, Client.step, of, hp]
      rfl
  | _ =>
    obtain rfl | rfl | rfl | ⟨chunk, rfl⟩ | ⟨msg, rfl⟩ := ha <;>
    · simp only [step, Client.step, of, hp]
      rfl

/-- A step of the default build that is none of the parting ones keeps `Feeds`. -/
theorem Feeds.step (h : Feeds cl) (hl : b.compressionLevel = 0)
    (hn : ∀ events, a = .start events → ¬ Huge toVec events)
    (hs : cl.step z toVec b a = some cl') : Feeds cl' := by
  cases Client.step_cases hs with
  | @start events hp hne =>
    intro ev todo err he
    cases he
    rw [hl, ← sendFrames_eq (z := z) (hn events rfl)]
    exact fun f hf => encodable_of_send hf
  | @feed events f todo err hp hb =>
    intro ev todo' err' he
    cases he
    exact fun f' hf' => h _ _ _ hp f' (List.mem_cons_of_mem f hf')
  | write hw hk hle => exact h
  | read hp hc hst => exact h
  | ended hp => exact h
  | @next events f r hp he hr hd =>
    apply Feeds.of_ne
    intro ev todo err hq
    rcases (onFrame_keeps { cl with rbuf := r, heard := cl.heard ++ [f] } events f).2.2.2.2 with hk | hk
    · rw [hk, hp] at hq
      cases hq
    · rw [hk] at hq
      cases hq
  | _ =>
    apply Feeds.of_ne
    intro ev todo err hq
    cases hq

/-- Both builds take the same step, unless this is where they part. -/
theorem step_agrees (hl : b.compressionLevel = 0) (h : Feeds cl) :
    Parts toVec cl a ∨ (step toVec b (of cl) a = (cl.step z toVec b a).map of ∧
      ∀ cl', cl.step z toVec b a = some cl' → Feeds cl') := by
  by_cases hp : Parts toVec cl a
  · exact .inl hp
  · have hn : ∀ events, a = .start events → ¬ Huge toVec events :=
      fun events ha hh => hp (.inl ⟨events, ha, hh⟩)
    have hf : ∀ events, ¬ Faces cl events := fun events hf => hp (.inr ⟨events, hf⟩)
    refine .inr ⟨?_, fun cl' hs => h.step hl hn hs⟩
    cases a with
    | start events =>
      cases hq : cl.phase with
      | idle =>
        simp only [step, Client.step, of, hq, hl, sendFrames_eq (z := z) (hn events rfl)]
        split <;> rfl
      | _ =>
        simp only [step, Client.step, of, hq]
        rfl
    | feed =>
      cases hq : cl.phase with
      | feeding events todo err =>
        cases todo with
        | nil =>
          simp only [step, Client.step, of, hq]
          rfl
        | cons f todo =>
          simp only [step, Client.step, of, hq, Wire.Plain.encode_eq z (h _ _ _ hq f List.mem_cons_self)]
          split <;> rfl
      | _ =>
        simp only [step, Client.step, of, hq]
        rfl
    | read chunk => exact step_read hf (.inr (.inr (.inr (.inl ⟨chunk, rfl⟩))))
    | next => exact step_read hf (.inl rfl)
    | eof => exact step_read hf (.inr (.inl rfl))
    | ackTimeout => exact step_read hf (.inr (.inr (.inl rfl)))
    | flush => rfl
    | write k => rfl
    | flushed => rfl
    | writeTimeout => rfl
    | fail msg => exact step_read hf (.inr (.inr (.inr (.inr ⟨msg, rfl⟩))))

/-- At level 0 no call panics. -/
theorem Feeds.calm {s s' : Plain T} (h : Feeds s.client) (hl : b.compressionLevel = 0)
    (hs : Plain.step toVec b s a = some s') : Feeds s'.client ∧ s'.panicked = s.panicked := by
  cases Plain.step_cases hs with
  | empty hp => exact ⟨.of_ne (fun _ _ _ hq => by cases hq), rfl⟩
  | start hp hne =>
    refine ⟨?_, rfl⟩
    intro ev todo err hq
    cases hq
    rw [hl]
    exact fun f hf => encodable_of_send hf
  | @feed events f todo err w hp hw =>
    refine ⟨?_, rfl⟩
    intro ev todo' err' hq
    cases hq
    exact fun f' hf' => h _ _ _ hp f' (List.mem_cons_of_mem f hf')
  | panic hp hw =>
    rw [Wire.Plain.encode_eq Wire.Plain.noFlate (h _ _ _ hp _ List.mem_cons_self)] at hw
    cases hw
  | waits hp hq =>
    refine ⟨.of_ne (fun _ _ _ he => ?_), rfl⟩
    rcases hq with hq | hq
    · exact absurd (hq.symm.trans he) (by simp)
    · exact absurd (hq.symm.trans he) (by simp)
  | other ha hf hcl => exact ⟨h.step hl (fun events he => absurd he (ha events)) hcl, rfl⟩

/-- `InvalidFrame("compression feature disabled")` -/
def disabled : Error := .invalidFrame "compression feature disabled"

/-- A call that faces a compressed frame fails with it. -/
theorem step_faces {events : List T} {s : Plain T} (h : Faces cl events)
    (hs : step toVec b (of cl) a = some s) :
    a = .next ∧ s = of ({ cl with errored := true }.finish events (.error disabled)) := by
  obtain ⟨hp, ⟨he, hr⟩, hc⟩ := h
  have hd : (Wire.Plain.decoder {}).decode cl.rbuf = (.error disabled, cl.rbuf) :=
    Wire.Plain.decode_compressed hc defaultMaxFrameSize
  have hst : starved cl = false := by simp [starved, hr, hd]
  cases a with
  | next =>
    simp only [step, of, hp, he, hr, hd, Decoder.decodeEof_error _ hd, Bool.false_eq_true, if_false,
      if_true, ite_self] at hs
    exact ⟨rfl, (Option.some.inj hs).symm⟩
  | write k => simp [step, Client.step, of, writing, hp] at hs
  | writeTimeout => simp [step, Client.step, of, hp] at hs
  | _ => simp [step, Client.step, of, hp, hst] at hs

end Agree

end Plain

section Level0

variable {T : Type}

open Plain in
/-- **At level 0 the feature is not missed until the peer compresses.** With
`compression_level(0)`, the client of a build without `compression` never panics, and
every sequence of calls, reads, writes, timeouts and failures leads it to the state that
the default build reaches, up to a first step at which one of two things is the case: a
call is given an event of 4 GiB or more, or a waiting call has a compressed frame next
in its buffer. In the second case that call ends with
`InvalidFrame("compression feature disabled")`, and nothing else can happen before. -/
theorem plain_client_agrees (z : Flate) (toVec : T → Except String Bytes) (b : ClientBuilder)
    (hl : b.compressionLevel = 0) (as : List (Act T)) :
    (∀ s, Run (Plain.step toVec b) anything (Plain.init T) as s → s.panicked = []) ∧
    (exec (Plain.step toVec b) (Plain.init T) as = (exec (step z toVec b) (init T) as).map Plain.of ∨
      ∃ bs a cs cl, as = bs ++ a :: cs ∧ exec (step z toVec b) (init T) bs = some cl ∧
        exec (Plain.step toVec b) (Plain.init T) bs = some (Plain.of cl) ∧
        ((∃ events, a = .start events ∧ Huge toVec events) ∨
          ∃ events, cl.phase = .awaiting events ∧ Wire.Plain.startsCompressed cl.rbuf ∧
            ∀ s, Plain.step toVec b (Plain.of cl) a = some s →
              a = .next ∧ s = Plain.of ({ cl with errored := true }.finish events (.error disabled)))) := by
  have hinit : Feeds (init T) := .of_ne (fun _ _ _ hp => by cases hp)
  constructor
  · intro s hrun
    have hinv : Feeds s.client ∧ s.panicked = [] :=
      hrun.invariant (P := fun s => Feeds s.client ∧ s.panicked = []) ⟨hinit, rfl⟩
        (fun hp _ hs => ⟨(hp.1.calm hl hs).1, (hp.1.calm hl hs).2.trans hp.2⟩)
    exact hinv.2
  · have hagree {cl : Client T} {a : Act T} (h : Feeds cl) :
        Parts toVec cl a ∨ (Plain.step toVec b (Plain.of cl) a = (cl.step z toVec b a).map Plain.of ∧
          ∀ cl', cl.step z toVec b a = some cl' → Feeds cl') := step_agrees hl h
    rcases exec_apart hagree hinit as with he | ⟨bs, a, cs, cl, rfl, hcl, hpl, -, hparts⟩
    · exact .inl he
    · refine .inr ⟨bs, a, cs, cl, rfl, hcl, hpl, ?_⟩
      rcases hparts with hh | ⟨events, hf⟩
      · exact .inl hh
      · exact .inr ⟨events, hf.1, hf.2.2, fun s hs => step_faces hf hs⟩

/-- A call with one event, to a peer that answers with the header of a compressed frame. -/
def samplePeerCompresses : List (Act Bytes) :=
  [.start [[123, 125]], .feed, .feed, .flush, .write 18, .flushed, .read [50, 67], .next]

/-- The two bytes are refused, and the call returns the error. -/
theorem plain_client_agrees_sample :
    ∃ s : Plain Bytes, s.client.results = [([[123, 125]], .error Plain.disabled)] ∧ s.panicked = [] := by
  obtain ⟨s, hrun, hr⟩ : ∃ s : Plain Bytes, Run (Plain.step .ok { compressionLevel := 0 }) anything
      (Plain.init Bytes) samplePeerCompresses s ∧
      s.client.results = [([[123, 125]], .error Plain.disabled)] := Run.exists_of_exec (by decide +kernel)
  exact ⟨s, hr, (plain_client_agrees .sample .ok { compressionLevel := 0 } rfl samplePeerCompresses).1 s hrun⟩

end Level0
end Lumberjack.Client
