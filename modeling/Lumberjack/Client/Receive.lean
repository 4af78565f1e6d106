import Lumberjack.Client.Machine

/-!
# What a client hears, call by call

The acknowledgement loop of `Client::send` takes frames from the stream until one of
them decides the call. Against any peer, whatever it sends and whatever else fails,
every frame decoded is taken by exactly one call: a call that returns `Ok(n)` has taken
acknowledgements below `n` and one that is not, a call that fails on a frame has taken
that frame last, and a call that fails otherwise has taken acknowledgements below `n`
only. The frames in turn are what the codec makes of the bytes read.
-/
namespace Lumberjack.Client

open Lumberjack.Stream Lumberjack.Wire Lumberjack.Server Lumberjack.Process

variable {T : Type}

/-- An acknowledgement that does not cover the batch: a keepalive or a partial one. -/
def Short (events : List T) (f : Frame) : Prop := ∃ seq, f = .ack seq ∧ seq < count events

/-- The frames a call has taken when it returns with this result. -/
inductive Taken (events : List T) : Result UInt32 → List Frame → Prop
  | empty (he : events = []) : Taken events (.ok 0) []
  | acked {fs : List Frame} {seq : UInt32} (hne : events ≠ []) (hfs : ∀ f ∈ fs, Short events f)
      (hseq : count events ≤ seq) : Taken events (.ok (count events)) (fs ++ [.ack seq])
  | stray {fs : List Frame} {f : Frame} (hne : events ≠ []) (hfs : ∀ f ∈ fs, Short events f)
      (hf : ∀ seq, f ≠ .ack seq) :
      Taken events (.error (.unexpectedFrame "expected Ack")) (fs ++ [f])
  | failed {fs : List Frame} {e : Error} (hne : events ≠ []) (hfs : ∀ f ∈ fs, Short events f)
      (he : NotStray e) : Taken events (.error e) fs

section Codec

variable {z : Flate} {max : Nat}

theorem notStray_decompress {input : Bytes} {e : Error} (h : zlibDecompress z input max = .error e) :
    NotStray e := by
  intro msg he
  rw [zlibDecompress, inflateLoop_eq] at h
  split at h
  · cases h
    cases he
  · split at h
    · cases h
    · cases h
      cases he

theorem notStray_decode {b : Bytes} {e : Error} (h : (decodeWithLimit z b max).1 = .error e) : NotStray e := by
  intro msg he
  subst he
  cases header b with
  | short hs => simp [decode_short z max hs] at h
  | version hv => simp [decode_bad_version z max _ hv] at h
  | unknown hw hj ha hc => simp [decode_unknown z max _ hw hj ha hc] at h
  | window body =>
    rw [decode_window] at h
    split at h <;> simp at h
  | ack body =>
    rw [decode_ack] at h
    split at h <;> simp at h
  | json body =>
    simp only [decode_json] at h
    repeat' split at h
    all_goals simp at h
  | compressed body =>
    simp only [decode_compressed] at h
    repeat' split at h
    all_goals try simp at h
    rename_i hd
    subst h
    exact notStray_decompress hd msg rfl

theorem notStray_drain {codec : LumberjackCodec} {b : Bytes} {e : Error}
    (h : ((codec.decoder z).drain b).error = some e) : NotStray e := by
  induction hn : b.length using Nat.strongRecOn generalizing b with
  | ind n ih =>
    rcases hd : (codec.decoder z).decode b with ⟨e' | _ | f, r⟩
    · rw [Decoder.drain_error _ hd] at h
      cases h
      have he : (decodeWithLimit z b codec.maxFrameSize).1 = .error e := congrArg Prod.fst hd
      exact notStray_decode he
    · rw [Decoder.drain_none _ hd] at h
      cases h
    · have hs := (codec.decoder z).some_shrinks hd
      rw [Decoder.drain_some _ hd] at h
      exact ih r.length (by omega) h rfl

variable {toVec : T → Except String Bytes}

theorem notStray_encodeEvents {events : List T} {i : Nat} {payload : Bytes} {e : Error}
    (h : encodeEvents z toVec i events payload = .error e) : NotStray e := by
  induction events generalizing i payload with
  | nil => cases h
  | cons ev events ih =>
    simp only [encodeEvents] at h
    split at h
    · cases h
      intro msg he
      cases he
    · exact ih h

theorem notStray_sendFrames {level : UInt32} {events : List T} {e : Error}
    (h : (sendFrames z toVec level events).2 = some e) : NotStray e := by
  simp only [sendFrames] at h
  split at h
  · cases h
  · split at h
    · rename_i he
      cases h
      exact notStray_encodeEvents he
    · split at h
      · cases h
      · exact notStray_drain h

end Codec

/-- Every frame heard belongs to a call that has returned or to the one that waits. -/
structure Account (cl : Client T) : Prop where
  heard : ∃ segs tail, cl.heard = segs.flatten ++ tail ∧
    List.Forall₂ (fun p fs => Taken p.1 p.2 fs) cl.results segs ∧
    ∀ f ∈ tail, ∃ events, cl.phase = .awaiting events ∧ Short events f
  given : ∀ events, cl.phase.Has events → events ≠ []
  raised : ∀ events todo e, cl.phase = .feeding events todo (some e) → NotStray e

variable {z : Flate} {toVec : T → Except String Bytes} {b : ClientBuilder} {cl cl' : Client T}
variable {a : Act T} {events : List T}

theorem forall₂_concat {α β : Type} {R : α → β → Prop} {xs : List α} {ys : List β} {x : α} {y : β}
    (h : List.Forall₂ R xs ys) (hxy : R x y) : List.Forall₂ R (xs ++ [x]) (ys ++ [y]) :=
  List.rel_append h (.cons hxy .nil)

namespace Account

theorem init (T : Type) : Account (Client.init T) where
  heard := ⟨[], [], rfl, .nil, by simp⟩
  given := by simp [Client.init, Phase.Has]
  raised := by simp [Client.init]

/-- The call returns without having taken another frame. -/
theorem finish (h : Account cl) (hp : cl.phase.Has events) {e : Error} (he : NotStray e)
    (hh : cl'.heard = cl.heard) (hr : cl'.results = cl.results ++ [(events, .error e)])
    (hi : cl'.phase = .idle) : Account cl' := by
  obtain ⟨segs, tail, heq, hseg, htail⟩ := h.heard
  constructor
  · refine ⟨segs ++ [tail], [], ?_, ?_, by simp⟩
    · rw [hh, heq]
      simp
    · rw [hr]
      apply forall₂_concat hseg
      apply Taken.failed (h.given events hp) _ he
      intro f hf
      obtain ⟨ev, hev, hs⟩ := htail f hf
      rw [hev] at hp
      cases hp
      exact hs
  · simp [hi, Phase.Has]
  · simp [hi]

/-- While no call waits, every frame heard belongs to a call that has returned. -/
theorem settled (h : Account cl) (hp : ∀ events, cl.phase ≠ .awaiting events) :
    ∃ segs, cl.heard = segs.flatten ∧
      List.Forall₂ (fun p fs => Taken p.1 p.2 fs) cl.results segs := by
  obtain ⟨segs, tail, heq, hseg, htail⟩ := h.heard
  refine ⟨segs, ?_, hseg⟩
  cases tail with
  | nil => rw [heq, List.append_nil]
  | cons f fs =>
    obtain ⟨ev, hev, -⟩ := htail f List.mem_cons_self
    exact absurd hev (hp ev)

/-- The call in progress moves on before it waits. -/
theorem of_settled (h : Account cl) (hp : ∀ events, cl.phase ≠ .awaiting events)
    (hh : cl'.heard = cl.heard) (hr : cl'.results = cl.results)
    (hg : ∀ events, cl'.phase.Has events → events ≠ [])
    (he : ∀ events todo e, cl'.phase = .feeding events todo (some e) → NotStray e) : Account cl' := by
  obtain ⟨segs, heq, hseg⟩ := h.settled hp
  exact ⟨⟨segs, [], by rw [hh, heq, List.append_nil], by rwa [hr], by simp⟩, hg, he⟩

/-- The frame that was heard decides the call. -/
theorem decided (h : Account cl) (hp : cl.phase = .awaiting events) {f : Frame} {r : Result UInt32}
    (hans : ∀ fs, (∀ f ∈ fs, Short events f) → Taken events r (fs ++ [f]))
    (hh : cl'.heard = cl.heard ++ [f]) (hr : cl'.results = cl.results ++ [(events, r)])
    (hi : cl'.phase = .idle) : Account cl' := by
  obtain ⟨segs, tail, heq, hseg, htail⟩ := h.heard
  constructor
  · refine ⟨segs ++ [tail ++ [f]], [], ?_, ?_, by simp⟩
    · rw [hh, heq]
      simp
    · rw [hr]
      apply forall₂_concat hseg
      apply hans
      intro g hg
      obtain ⟨ev, hev, hs⟩ := htail g hg
      rw [hp] at hev
      cases hev
      exact hs
  · simp [hi, Phase.Has]
  · simp [hi]

theorem onFrame (h : Account cl) (hp : cl.phase = .awaiting events) (f : Frame) (r : Bytes) :
    Account ({ cl with rbuf := r, heard := cl.heard ++ [f] }.onFrame events f) := by
  have hne : events ≠ [] := h.given events (by rw [hp]; rfl)
  have stray (hf : ∀ seq, f ≠ .ack seq) :
      Account ({ cl with rbuf := r, heard := cl.heard ++ [f] }.finish events
        (.error (.unexpectedFrame "expected Ack"))) :=
    h.decided hp (fun fs hfs => .stray hne hfs hf) rfl rfl rfl
  cases f with
  | ack seq =>
    simp only [Client.onFrame]
    split
    · rename_i hseq
      exact h.decided hp (fun fs hfs => .acked hne hfs hseq) rfl rfl rfl
    · rename_i hseq
      obtain ⟨segs, tail, heq, hseg, htail⟩ := h.heard
      refine ⟨⟨segs, tail ++ [.ack seq], ?_, hseg, ?_⟩, h.given, h.raised⟩
      · show cl.heard ++ _ = _
        rw [heq, List.append_assoc]
      · intro g hg
        rcases List.mem_append.mp hg with hg | hg
        · exact htail g hg
        · exact ⟨events, hp, seq, List.mem_singleton.mp hg, UInt32.not_le.mp hseq⟩
  | window n => exact stray (by simp)
  | json seq data => exact stray (by simp)
  | compressed inner => exact stray (by simp)

end Account

theorem step_account (hs : cl.step z toVec b a = some cl') (h : Account cl) : Account cl' := by
  cases step_cases hs with
  | empty hp =>
    obtain ⟨segs, heq, hseg⟩ := h.settled (by simp [hp])
    refine ⟨⟨segs ++ [[]], [], ?_, forall₂_concat hseg (.empty rfl), by simp⟩, ?_, ?_⟩
    · show cl.heard = _
      rw [heq]
      simp
    · simp [Client.finish, Phase.Has]
    · simp [Client.finish]
  | start hp hne =>
    refine h.of_settled (by simp [hp]) rfl rfl ?_ ?_
    · intro ev hev
      cases hev
      exact hne
    · intro ev todo e he
      simp only [Phase.feeding.injEq] at he
      exact notStray_sendFrames he.2.2
  | @feed ev f todo err hp hb =>
    refine h.of_settled (by simp [hp]) rfl rfl ?_ ?_
    · intro ev' hev
      exact h.given ev' (by rw [hp]; exact hev)
    · intro ev' todo' e he
      simp only [Phase.feeding.injEq] at he
      exact h.raised ev (f :: todo) e (by rw [hp, he.2.2])
  | @flush ev hp =>
    refine h.of_settled (by simp [hp]) rfl rfl ?_ (by simp)
    intro ev' hev
    exact h.given ev' (by rw [hp]; exact hev)
  | write hw hk hl => exact ⟨h.heard, h.given, h.raised⟩
  | @flushed ev hp hw =>
    refine h.of_settled (by simp [hp]) rfl rfl ?_ (by simp)
    intro ev' hev
    exact h.given ev' (by rw [hp]; exact hev)
  | read hp hc hst => exact ⟨h.heard, h.given, h.raised⟩
  | next hp he hr hd => exact h.onFrame hp _ _
  | undecodable hp he hd =>
    exact h.finish (by rw [hp]; rfl) (notStray_decode (congrArg Prod.fst hd)) rfl rfl rfl
  | exhausted hp he => exact h.finish (by rw [hp]; rfl) (by simp [NotStray]) rfl rfl rfl
  | truncated hp he =>
    exact h.finish (by rw [hp]; rfl) (by simp [NotStray, LumberjackCodec.decoder]) rfl rfl rfl
  | paused hp he => exact h.finish (by rw [hp]; rfl) (by simp [NotStray]) rfl rfl rfl
  | ended hp => exact ⟨h.heard, h.given, h.raised⟩
  | unfed hp => exact h.finish (by rw [hp]; rfl) (h.raised _ _ _ hp) rfl rfl rfl
  | closed hp => exact h.finish (by rw [hp]; rfl) (by simp [NotStray]) rfl rfl rfl
  | giveUp ha =>
    obtain ⟨ev, e, er, hp, he, hcl⟩ := giveUp_of ha hs
    rw [hcl]
    exact h.finish hp he rfl rfl rfl

/-- **Every frame is taken by one call.** In every run of a client, whatever bytes the
peer sends and however timeouts and I/O errors strike, the frames decoded fall into
consecutive pieces, one for each call that returned and one for the call that waits.
A call returns `Ok(n)` exactly when the last frame of its piece acknowledges at least
`n`, and `UnexpectedFrame` exactly when that frame is no acknowledgement; all frames
before it, and all frames of a call that failed otherwise or still waits, are
acknowledgements below `n`. -/
theorem frames_by_call (z : Flate) (toVec : T → Except String Bytes) (b : ClientBuilder)
    (as : List (Act T)) (cl : Client T) (hrun : Run (step z toVec b) anything (init T) as cl) :
    ∃ segs tail, cl.heard = segs.flatten ++ tail ∧
      List.Forall₂ (fun p fs => Taken p.1 p.2 fs) cl.results segs ∧
      ∀ f ∈ tail, ∃ events, cl.phase = .awaiting events ∧ Short events f :=
  (hrun.invariant (Account.init T) (fun h _ hs => step_account hs h)).heard

/-- A call with one event, up to the wait for its acknowledgement. -/
def sampleWaits : List (Act Bytes) := [.start [[123, 125]], .feed, .feed, .flush, .write 18, .flushed]

/-- Such a call and what its peer answers: a keepalive and the acknowledgement, in reads that
cut the frames. -/
def sampleAnswered : List (Act Bytes) :=
  sampleWaits ++ [.read [50, 65, 0, 0], .read [0, 0, 50, 65, 0], .next, .read [0, 0, 1], .next]

/-- The keepalive and the acknowledgement are the piece of the one call. -/
theorem frames_by_call_sample :
    ∃ (cl : Client Bytes) (segs : List (List Frame)) (tail : List Frame), cl.heard = [.ack 0, .ack 1] ∧
      cl.heard = segs.flatten ++ tail ∧
      List.Forall₂ (fun p fs => Taken p.1 p.2 fs) cl.results segs := by
  obtain ⟨cl, hrun, hh⟩ : ∃ cl : Client Bytes, Run (step .sample .ok { compressionLevel := 0 }) anything
      (init Bytes) sampleAnswered cl ∧ cl.heard = [.ack 0, .ack 1] := Run.exists_of_exec (by decide +kernel)
  obtain ⟨segs, tail, heq, hseg, -⟩ :=
    frames_by_call .sample .ok { compressionLevel := 0 } sampleAnswered cl hrun
  exact ⟨cl, segs, tail, hh, heq, hseg⟩

/-- A call that comes to wait after a failure takes no frame and returns
`ConnectionClosed`: the stream of `Framed` ends once before it is read again. -/
theorem after_failure (hp : cl.phase = .awaiting events) (he : cl.errored = true)
    (hs : cl.step z toVec b a = some cl') : a = .next ∧
      cl' = { cl with errored := false, readable := false }.finish events (.error .connectionClosed) := by
  cases a with
  | next =>
    simp only [step, hp, he, if_true] at hs
    rw [← hp] at hs
    exact ⟨rfl, (Option.some.inj hs).symm⟩
  | _ => simp [step, writing, starved, hp, he] at hs

example : (exec (step .sample .ok { compressionLevel := 0 }) (init Bytes) (sampleWaits ++
      [.read [50, 67, 0, 0, 0, 1, 9], .next] ++ sampleWaits ++ [.next] ++ sampleWaits ++ [.ackTimeout])).map
        (fun cl => cl.results.map Prod.snd) =
    some [.error (.compression "corrupt deflate stream"), .error .connectionClosed, .error .ackTimeout] := by
  decide +kernel

-- the end of the input is final, until something is read after it
example : (exec (step .sample .ok { compressionLevel := 0 }) (init Bytes) (sampleWaits ++
      [.read [50, 65], .eof, .next] ++ sampleWaits ++ [.next] ++ sampleWaits ++ [.eof])).map
        (fun cl => cl.results.map Prod.snd) =
    some [.error (.io "bytes remaining on stream"), .error .connectionClosed, .error .connectionClosed] := by
  decide +kernel

/-- The bytes an action reads. -/
def Act.input : Act T → Bytes
  | .read chunk => chunk
  | _ => []

/-- The codec does not fail here. -/
def legible (z : Flate) (cl : Client T) (a : Act T) : Prop :=
  a = .next → cl.errored = false → ((LumberjackCodec.decoder z {}).decode cl.rbuf).1.isOk

instance [DecidableEq T] (z : Flate) (cl : Client T) (a : Act T) : Decidable (legible z cl a) :=
  inferInstanceAs (Decidable (a = _ → _ = false → _ = true))

theorem step_decoded (hs : cl.step z toVec b a = some cl') (hok : legible z cl a) {input : Bytes}
    (h : ∀ t, (LumberjackCodec.decoder z {}).drain (input ++ t) =
      ((LumberjackCodec.decoder z {}).drain (cl.rbuf ++ t)).prepend cl.heard) (t : Bytes) :
    (LumberjackCodec.decoder z {}).drain (input ++ a.input ++ t) =
      ((LumberjackCodec.decoder z {}).drain (cl'.rbuf ++ t)).prepend cl'.heard := by
  have still (hi : a.input = []) (hr : cl'.rbuf = cl.rbuf) (hh : cl'.heard = cl.heard) :
      (LumberjackCodec.decoder z {}).drain (input ++ a.input ++ t) =
        ((LumberjackCodec.decoder z {}).drain (cl'.rbuf ++ t)).prepend cl'.heard := by
    rw [hi, hr, hh, List.append_nil]
    exact h t
  cases step_cases hs with
  | @read ev chunk hp hc hst =>
    rw [List.append_assoc, h]
    simp only [Act.input, List.append_assoc]
  | @next ev f r hp he hr hd =>
    obtain ⟨-, -, h3, h4, -⟩ := onFrame_keeps { cl with rbuf := r, heard := cl.heard ++ [f] } ev f
    rw [h3, h4]
    show (LumberjackCodec.decoder z {}).drain (input ++ [] ++ t) = _
    rw [List.append_nil, h t, Decoder.drain_some _ (Decoder.some_append _ hd t)]
    simp [Drained.prepend]
  | undecodable hp he hd =>
    have hlegible := hok rfl he
    rw [hd] at hlegible
    cases hlegible
  | giveUp ha =>
    refine still ?_ rfl rfl
    obtain rfl | rfl | ⟨msg, rfl⟩ := ha <;> rfl
  | _ => exact still rfl rfl rfl

/-- **The frames are those of the bytes.** As long as the codec has not failed, the frames
a client has heard are the first that the codec decodes from the bytes it has read, and
what is left in its buffer decodes to the rest, whatever bytes follow: nothing read is
lost between calls, and how the bytes arrived does not show. -/
theorem frames_of_bytes (z : Flate) (toVec : T → Except String Bytes) (b : ClientBuilder)
    (as : List (Act T)) (cl : Client T) (hrun : Run (step z toVec b) (legible z) (init T) as cl)
    (t : Bytes) :
    (LumberjackCodec.decoder z {}).drain (as.flatMap Act.input ++ t) =
      ((LumberjackCodec.decoder z {}).drain (cl.rbuf ++ t)).prepend cl.heard := by
  induction hrun generalizing t with
  | refl => simp [init, Drained.prepend]
  | tail _ hok hs ih =>
    rw [List.flatMap_append, List.flatMap_singleton]
    exact step_decoded hs hok ih t

/-- The twelve bytes read are the two frames heard. -/
theorem frames_of_bytes_sample :
    ∃ cl : Client Bytes, cl.heard = [.ack 0, .ack 1] ∧
      (LumberjackCodec.decoder .sample {}).drain (sampleAnswered.flatMap Act.input ++ [50]) =
        ((LumberjackCodec.decoder .sample {}).drain (cl.rbuf ++ [50])).prepend cl.heard := by
  obtain ⟨cl, hrun, hh⟩ : ∃ cl : Client Bytes, Run (step .sample .ok { compressionLevel := 0 })
      (legible .sample) (init Bytes) sampleAnswered cl ∧ cl.heard = [.ack 0, .ack 1] :=
    Run.exists_of_exec (by decide +kernel)
  exact ⟨cl, hh, frames_of_bytes .sample .ok { compressionLevel := 0 } sampleAnswered cl hrun [50]⟩

end Lumberjack.Client
