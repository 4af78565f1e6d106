import Lumberjack.Client.Clean

/-!
# The wire image of a call

What a call puts on its stream, byte for byte. `traced` is the client with a record
of everything it has written; between the start of a call and its wait for the
acknowledgement that record grows by exactly the image of the call, however the
writes are cut and whenever the buffer is flushed.
-/
namespace Lumberjack.Client

open Lumberjack.Stream Lumberjack.Wire Lumberjack.Server Lumberjack.Process

variable {T : Type}

/-- The bytes a step puts on the stream. -/
def output (cl : Client T) : Act T → Bytes
  | .write k => cl.wbuf.take k
  | _ => []

/-- A client, with everything written so far. -/
def traced (z : Flate) (toVec : T → Except String Bytes) (b : ClientBuilder) (x : Client T × Bytes)
    (a : Act T) : Option (Client T × Bytes) :=
  (x.1.step z toVec b a).map fun cl => (cl, x.2 ++ x.1.output a)

/-- The call in progress goes on: no other is started. -/
def Continues (_ : Client T × Bytes) (a : Act T) : Prop := ∀ events, a ≠ .start events

instance (x : Client T × Bytes) : (a : Act T) → Decidable (Continues x a)
  | .start events => .isFalse (fun h => h events rfl)
  | .feed | .flush | .write _ | .flushed | .read _ | .next | .eof | .ackTimeout | .writeTimeout
  | .fail _ => .isTrue (fun _ h => by cases h)

/-- The client right after a call was given these events. -/
def begun (z : Flate) (toVec : T → Except String Bytes) (b : ClientBuilder) (cl : Client T)
    (events : List T) : Client T :=
  { cl with
    phase := .feeding events (sendFrames z toVec b.compressionLevel events).1
      (sendFrames z toVec b.compressionLevel events).2 }

section Calls

variable {z : Flate} {toVec : T → Except String Bytes} {b : ClientBuilder} {level : UInt32}
variable {events : List T} {cl cl' : Client T} {a : Act T}

theorem start_begun (hp : cl.phase = .idle) (hne : events ≠ []) :
    cl.step z toVec b (.start events) = some (cl.begun z toVec b events) := by
  simp only [step, hp, List.isEmpty_iff, hne, if_false]
  rfl

theorem begun_of_start (hne : events ≠ []) (hs : cl.step z toVec b (.start events) = some cl') :
    cl.phase = .idle ∧ cl' = cl.begun z toVec b events := by
  cases step_cases hs with
  | empty => exact absurd rfl hne
  | start hp => exact ⟨hp, rfl⟩
  | giveUp ha => simp at ha

/-- What is still to come after `done` of the call's image has been fed. -/
def Due (z : Flate) (toVec : T → Except String Bytes) (level : UInt32) (events : List T)
    (done wbuf : Bytes) : Phase T → Prop
  | .idle => True
  | .feeding ev todo err => ev = events ∧ err = (sendFrames z toVec level events).2 ∧
      done ++ encodeAll z todo = sendBytes z toVec level events
  | .flushing ev => ev = events ∧ (sendFrames z toVec level events).2 = none ∧
      done = sendBytes z toVec level events
  | .awaiting ev => ev = events ∧ (sendFrames z toVec level events).2 = none ∧
      done = sendBytes z toVec level events ∧ wbuf = []

/-- Every byte fed since the start of the call has been written or is buffered, behind
what was buffered before. -/
structure Calling (z : Flate) (toVec : T → Except String Bytes) (level : UInt32) (cl₀ : Client T)
    (events : List T) (x : Client T × Bytes) (done : Bytes) : Prop where
  fed : x.1.fed = cl₀.fed ++ done
  stream : x.2 ++ x.1.wbuf = cl₀.wbuf ++ done
  due : Due z toVec level events done x.1.wbuf x.1.phase

namespace Calling

variable {cl₀ : Client T} {w done : Bytes}

theorem begun (z : Flate) (toVec : T → Except String Bytes) (b : ClientBuilder) (cl : Client T)
    (events : List T) :
    Calling z toVec b.compressionLevel cl events (cl.begun z toVec b events, []) [] :=
  ⟨(List.append_nil _).symm, (List.append_nil _).symm, rfl, rfl, rfl⟩

/-- A step that neither feeds nor writes. -/
theorem of_still (h : Calling z toVec level cl₀ events (cl, w) done) (hf : cl'.fed = cl.fed)
    (hw : cl'.wbuf = cl.wbuf) (hd : Due z toVec level events done cl.wbuf cl'.phase) :
    Calling z toVec level cl₀ events (cl', w ++ []) done where
  fed := hf.trans h.fed
  stream := by
    show w ++ [] ++ cl'.wbuf = _
    rw [List.append_nil, hw]
    exact h.stream
  due := by
    show Due z toVec level events done cl'.wbuf cl'.phase
    rwa [hw]

theorem step (h : Calling z toVec level cl₀ events (cl, w) done) (hc : ∀ ev, a ≠ .start ev)
    (hs : Step z toVec b cl a cl') :
    ∃ more, Calling z toVec level cl₀ events (cl', w ++ cl.output a) more := by
  have hdue : Due z toVec level events done cl.wbuf cl.phase := h.due
  cases hs with
  | empty => exact absurd rfl (hc _)
  | start => exact absurd rfl (hc _)
  | @feed ev f todo err hp hb =>
    rw [hp] at hdue
    obtain ⟨he, herr, himage⟩ := hdue
    refine ⟨done ++ f.encode z, ?_, ?_, he, herr, ?_⟩
    · show cl.fed ++ f.encode z = _
      rw [show cl.fed = _ from h.fed, List.append_assoc]
    · show w ++ [] ++ (cl.wbuf ++ f.encode z) = _
      have hst : w ++ cl.wbuf = _ := h.stream
      rw [List.append_nil, ← List.append_assoc, hst, List.append_assoc]
    · rw [List.append_assoc, ← encodeAll_cons]
      exact himage
  | @flush ev hp =>
    rw [hp] at hdue
    obtain ⟨he, herr, himage⟩ := hdue
    refine ⟨done, h.of_still rfl rfl ⟨he, herr.symm, ?_⟩⟩
    rwa [encodeAll_nil, List.append_nil] at himage
  | @write k hw hk hl =>
    refine ⟨done, h.fed, ?_, ?_⟩
    · show w ++ cl.wbuf.take k ++ cl.wbuf.drop k = _
      rw [List.append_assoc, List.take_append_drop]
      exact h.stream
    · show Due z toVec level events done (cl.wbuf.drop k) cl.phase
      cases hp : cl.phase with
      | awaiting ev => simp [writing, hp] at hw
      | _ =>
        rw [hp] at hdue
        exact hdue
  | @flushed ev hp hw =>
    rw [hp] at hdue
    obtain ⟨he, herr, himage⟩ := hdue
    exact ⟨done, h.of_still rfl rfl ⟨he, herr, himage, hw⟩⟩
  | read hp hch hst => exact ⟨done, h.of_still rfl rfl hdue⟩
  | ended hp => exact ⟨done, h.of_still rfl rfl hdue⟩
  | @next ev f r hp he hr hd =>
    obtain ⟨hf, hw, -, -, hph⟩ := onFrame_keeps { cl with rbuf := r, heard := cl.heard ++ [f] } ev f
    refine ⟨done, h.of_still hf hw ?_⟩
    rcases hph with hph | hph
    · rw [hph]
      exact hdue
    · rw [hph]
      trivial
  | undecodable hp he hd => exact ⟨done, h.of_still rfl rfl trivial⟩
  | exhausted hp he => exact ⟨done, h.of_still rfl rfl trivial⟩
  | truncated hp he => exact ⟨done, h.of_still rfl rfl trivial⟩
  | paused hp he => exact ⟨done, h.of_still rfl rfl trivial⟩
  | unfed hp => exact ⟨done, h.of_still rfl rfl trivial⟩
  | closed hp => exact ⟨done, h.of_still rfl rfl trivial⟩
  | giveUp ha =>
    have hout : cl.output a = [] := by
      obtain rfl | rfl | ⟨msg, rfl⟩ := ha <;> rfl
    rw [hout]
    exact ⟨done, h.of_still rfl rfl trivial⟩

end Calling

theorem run_calling {cl₀ : Client T} {as : List (Act T)} {x : Client T × Bytes}
    (hrun : Run (traced z toVec b) Continues (cl₀.begun z toVec b events, []) as x) :
    ∃ done, Calling z toVec b.compressionLevel cl₀ events x done := by
  apply hrun.invariant (P := fun x => ∃ done, Calling z toVec b.compressionLevel cl₀ events x done)
  · exact ⟨[], Calling.begun z toVec b cl₀ events⟩
  · rintro x a x' ⟨done, h⟩ hc hs
    obtain ⟨cl', hcl, rfl⟩ := Option.map_eq_some_iff.mp hs
    exact h.step hc (step_cases hcl)

theorem traced_of_step {w : Bytes} (hs : cl.step z toVec b a = some cl') :
    traced z toVec b (cl, w) a = some (cl', w ++ cl.output a) := by
  simp only [traced, hs, Option.map_some]

/-- A single step of a call in progress. -/
theorem run_step {w : Bytes} (ha : ∀ ev, a ≠ .start ev) (hs : cl.step z toVec b a = some cl') :
    Run (traced z toVec b) Continues (cl, w) [a] (cl', w ++ cl.output a) :=
  .single ha (traced_of_step hs)

/-- Everything that is buffered is written. -/
theorem run_drained (w : Bytes) (hw : cl.writing) (hne : cl.wbuf ≠ []) :
    Run (traced z toVec b) Continues (cl, w) [.write cl.wbuf.length]
      ({ cl with wbuf := [], draining := true }, w ++ cl.wbuf) := by
  have hs : cl.step z toVec b (.write cl.wbuf.length) =
      some { cl with wbuf := cl.wbuf.drop cl.wbuf.length, draining := true } := by
    simp only [step]
    rw [if_pos ⟨hw, List.length_pos_iff.mpr hne, Nat.le_refl _⟩]
  have hrun := run_step (w := w) (fun _ h => by cases h) hs
  rwa [List.drop_length, output, List.take_length] at hrun

theorem run_fed {ev : List T} {f : Frame} {todo : List Frame} {err : Option Error} (w : Bytes)
    (hp : cl.phase = .feeding ev (f :: todo) err) (hb : cl.blocked = false) :
    ∃ cl' w', Run (traced z toVec b) Continues (cl, w) [.feed] (cl', w') ∧
      cl'.phase = .feeding ev todo err := by
  have hs : (cl.step z toVec b .feed).map Client.phase = some (.feeding ev todo err) := by
    simp only [step, hp, hb]
    rfl
  obtain ⟨cl', hs, hp'⟩ := Option.map_eq_some_iff.mp hs
  exact ⟨cl', _, run_step (fun _ h => by cases h) hs, hp'⟩

/-- One frame is fed, after a flush if the buffer is at its boundary. -/
theorem feed_one {ev : List T} {f : Frame} {todo : List Frame} {err : Option Error} (w : Bytes)
    (hp : cl.phase = .feeding ev (f :: todo) err) :
    ∃ as cl' w', Run (traced z toVec b) Continues (cl, w) as (cl', w') ∧
      cl'.phase = .feeding ev todo err := by
  cases hb : cl.blocked with
  | false => exact ⟨_, run_fed w hp hb⟩
  | true =>
    have hne : cl.wbuf ≠ [] := by
      intro hnil
      simp [blocked, hnil, backpressureBoundary] at hb
    have hrun : Run (traced z toVec b) Continues (cl, w) _ _ :=
      run_drained w (by simp [writing, hp, hb]) hne
    obtain ⟨cl', w', hfed, hp'⟩ := run_fed (z := z) (b := b) (w ++ cl.wbuf)
      (show Client.phase { cl with wbuf := [], draining := true } = _ from hp)
      (by simp [blocked, backpressureBoundary])
    exact ⟨_, cl', w', hrun.trans hfed, hp'⟩

theorem feed_all {ev : List T} {todo : List Frame} {err : Option Error} (w : Bytes)
    (hp : cl.phase = .feeding ev todo err) :
    ∃ as cl' w', Run (traced z toVec b) Continues (cl, w) as (cl', w') ∧
      cl'.phase = .feeding ev [] err := by
  induction todo generalizing cl w with
  | nil => exact ⟨[], cl, w, .refl, hp⟩
  | cons f todo ih =>
    obtain ⟨as, cl₁, w₁, hrun, hp₁⟩ : ∃ as cl' w', Run (traced z toVec b) Continues (cl, w) as (cl', w') ∧
      cl'.phase = .feeding ev todo err := feed_one w hp
    obtain ⟨bs, cl₂, w₂, hrun', hp₂⟩ := ih w₁ hp₁
    exact ⟨as ++ bs, cl₂, w₂, hrun.trans hrun', hp₂⟩

theorem run_flushed {ev : List T} (w : Bytes) (hp : cl.phase = .flushing ev) :
    ∃ as cl' w', Run (traced z toVec b) Continues (cl, w) as (cl', w') ∧ cl'.phase = .awaiting ev := by
  have last {cl : Client T} (w : Bytes) (hp : cl.phase = .flushing ev) (hw : cl.wbuf = []) :
      ∃ cl' w', Run (traced z toVec b) Continues (cl, w) [.flushed] (cl', w') ∧
        cl'.phase = .awaiting ev := by
    have hs : (cl.step z toVec b .flushed).map Client.phase = some (.awaiting ev) := by
      simp only [step, hp, hw]
      rfl
    obtain ⟨cl', hs, hp'⟩ := Option.map_eq_some_iff.mp hs
    exact ⟨cl', _, run_step (fun _ h => by cases h) hs, hp'⟩
  by_cases hw : cl.wbuf = []
  · exact ⟨_, last w hp hw⟩
  · have hrun : Run (traced z toVec b) Continues (cl, w) _ _ :=
      run_drained w (by simp [writing, hp]) hw
    obtain ⟨cl', w', hlast, hp'⟩ := last (w ++ cl.wbuf)
      (show Client.phase { cl with wbuf := [], draining := true } = _ from hp) rfl
    exact ⟨_, cl', w', hrun.trans hlast, hp'⟩

/-- Without an error of its own, a call can come to wait for its acknowledgement. -/
theorem call_awaits (cl : Client T) (hok : (sendFrames z toVec b.compressionLevel events).2 = none) :
    ∃ as cl' w, Run (traced z toVec b) Continues (cl.begun z toVec b events, []) as (cl', w) ∧
      cl'.phase = .awaiting events := by
  obtain ⟨as, cl₁, w₁, hrun, hp⟩ : ∃ as cl' w,
      Run (traced z toVec b) Continues (cl.begun z toVec b events, []) as (cl', w) ∧
      cl'.phase = .feeding events [] (sendFrames z toVec b.compressionLevel events).2 := feed_all [] rfl
  rw [hok] at hp
  have hflush : cl₁.step z toVec b .flush = some { cl₁ with phase := .flushing events } := by
    simp only [step, hp]
  obtain ⟨bs, cl', w', hlast, hp'⟩ : ∃ as cl' w', Run (traced z toVec b) Continues
      ({ cl₁ with phase := .flushing events }, w₁ ++ []) as (cl', w') ∧ cl'.phase = .awaiting events :=
    run_flushed _ rfl
  exact ⟨_, cl', w', (hrun.trans (run_step (fun _ h => by cases h) hflush)).trans hlast, hp'⟩

/-- A call that waits has written its image behind what was buffered before. -/
theorem written_of_awaiting {cl₀ : Client T} {as : List (Act T)} {w : Bytes}
    (hrun : Run (traced z toVec b) Continues (cl₀.begun z toVec b events, []) as (cl', w))
    (hp : cl'.phase = .awaiting events) :
    w = cl₀.wbuf ++ sendBytes z toVec b.compressionLevel events := by
  obtain ⟨done, h⟩ := run_calling hrun
  have hdue := h.due
  rw [show (cl', w).1.phase = _ from hp] at hdue
  obtain ⟨-, -, himage, hw⟩ := hdue
  have hst : w ++ cl'.wbuf = _ := h.stream
  rw [show cl'.wbuf = [] from hw, List.append_nil, himage] at hst
  exact hst

theorem jsonFrames_mapIdx (i : Nat) (bs : List Bytes) :
    jsonFrames (numbered i bs) = bs.mapIdx fun j data => .json (.ofNat (i + j + 1)) data := by
  induction bs generalizing i with
  | nil => rfl
  | cons b bs ih =>
    have htail : (fun j => Frame.json (.ofNat (i + (j + 1) + 1))) =
        fun j => Frame.json (.ofNat (i + 1 + j + 1)) := by
      funext j
      rw [Nat.add_assoc i 1 j, Nat.add_comm 1 j]
    rw [List.mapIdx_cons, htail, ← ih (i + 1), Nat.add_zero, ← index_succ]
    rfl

/-- **The exact wire image of a call.** For a non-empty list of fewer than 2^32 events,
each serialized to at most 16 MiB: the encoding loop succeeds, decoding its buffer
gives back one frame for each event, numbered from 1, and leaves nothing; and a call
that has come to wait for its acknowledgement has written, behind whatever was
buffered before it, the window and then that buffer, as it is at level 0 and as one
compressed frame above it. Such a call can always be made. -/
theorem send_image (z : Flate) (toVec : T → Except String Bytes) (b : ClientBuilder)
    (events : List T) (hne : events ≠ []) (hn : events.length < 2^32) (bs : List Bytes)
    (hv : Serialized toVec events bs) (hs : ∀ data ∈ bs, data.length ≤ defaultMaxFrameSize) :
    let frames := bs.mapIdx fun i data => Frame.json (.ofNat (i + 1)) data
    let payload := encodeAll z frames
    let window := Frame.window (.ofNat events.length)
    ((UInt32.ofNat events.length).toNat = events.length ∧ frames.length = events.length ∧
      ∀ i < events.length, (UInt32.ofNat (i + 1)).toNat = i + 1) ∧
    encodeEvents z toVec 0 events [] = .ok payload ∧
    (LumberjackCodec.decoder z {}).drain payload = ⟨frames, none, []⟩ ∧
    (∀ (cl cl₁ cl' : Client T) (as : List (Act T)) (w : Bytes),
      cl.step z toVec b (.start events) = some cl₁ →
      Run (traced z toVec b) Continues (cl₁, []) as (cl', w) → cl'.phase = .awaiting events →
      (b.compressionLevel = 0 → w = cl.wbuf ++ (window.encode z ++ payload)) ∧
      (b.compressionLevel > 0 →
        w = cl.wbuf ++ (window.encode z ++ (Frame.compressed payload).encode z))) ∧
    (∀ cl : Client T, cl.phase = .idle → ∃ cl₁ as cl' w,
      cl.step z toVec b (.start events) = some cl₁ ∧
      Run (traced z toVec b) Continues (cl₁, []) as (cl', w) ∧ cl'.phase = .awaiting events) := by
  intro frames payload window
  have hframes : frames = jsonFrames (numbered 0 bs) := by
    rw [jsonFrames_mapIdx]
    simp only [Nat.zero_add, frames]
  have hpayload : payload = encodeAll z (jsonFrames (numbered 0 bs)) := by
    simp only [payload, hframes]
  have hzip (hl : b.compressionLevel > 0) := sendFrames_compressed (z := z) hv hne hl
  have hraw (hl : b.compressionLevel = 0) :
      sendFrames z toVec b.compressionLevel events = (window :: frames, none) := by
    rw [hl, sendFrames_raw hv hne hs, hframes]
  refine ⟨⟨?_, ?_, ?_⟩, ?_, ?_, ?_, ?_⟩
  · rw [UInt32.toNat_ofNat', Nat.mod_eq_of_lt hn]
  · rw [List.length_mapIdx, hv.length_eq]
  · intro i hi
    rw [UInt32.toNat_ofNat', Nat.mod_eq_of_lt (by omega)]
  · rw [encodeEvents_ok hv, List.nil_append, hpayload]
  · rw [hpayload, hframes]
    exact drain_numbered hs 0
  · intro cl cl₁ cl' as w hstart hrun hp
    obtain ⟨-, rfl⟩ := begun_of_start hne hstart
    rw [written_of_awaiting hrun hp]
    constructor
    · intro hl
      rw [sendBytes, hraw hl, encodeAll_cons]
    · intro hl
      rw [sendBytes, hzip hl, hpayload, encodeAll_cons, encodeAll_cons, encodeAll_nil, List.append_nil]
  · intro cl hidle
    have hok : (sendFrames z toVec b.compressionLevel events).2 = none := by
      by_cases hl : b.compressionLevel > 0
      · rw [hzip hl]
      · rw [hraw (UInt32.le_zero_iff.mp (UInt32.not_lt.mp hl))]
    obtain ⟨as, cl', w, hrun, hp⟩ := call_awaits cl hok
    exact ⟨_, as, cl', w, start_begun hidle hne, hrun, hp⟩

end Calls

/-- One event at level 0, on a new client. -/
theorem send_image_sample :
    ∃ (cl₁ cl' : Client Bytes) (as : List (Act Bytes)) (w : Bytes),
      (Client.init Bytes).step .sample .ok { compressionLevel := 0 } (.start [[123, 125]]) = some cl₁ ∧
      Run (traced .sample .ok { compressionLevel := 0 }) Continues (cl₁, []) as (cl', w) ∧
      w = [50, 87, 0, 0, 0, 1, 50, 74, 0, 0, 0, 1, 0, 0, 0, 2, 123, 125] := by
  obtain ⟨-, -, -, himage, hcall⟩ := send_image .sample .ok { compressionLevel := 0 } [[123, 125]]
    (by decide) (by decide) [[123, 125]] (.cons rfl .nil) (by decide)
  obtain ⟨cl₁, as, cl', w, hstart, hrun, hp⟩ := hcall (Client.init Bytes) rfl
  exact ⟨cl₁, cl', as, w, hstart, hrun, (himage _ cl₁ cl' as w hstart hrun hp).1 rfl⟩

end Lumberjack.Client
