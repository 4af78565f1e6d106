import Lumberjack.Client.Image
import Lumberjack.Wire.Canonical

/-!
# Calls rejected for their own events

A call fails on its own events in two places. An event that does not serialize is
met before anything is fed. Without compression the encoded buffer is decoded once
more, and an event over the default limit is met only there, when the window and
the events before it have been fed already: those bytes stay on the stream, and the
next call writes its window behind them.
-/
namespace Lumberjack.Client

open Lumberjack.Stream Lumberjack.Wire Lumberjack.Server Lumberjack.Process

variable {T : Type} {z : Flate} {toVec : T → Except String Bytes} {b : ClientBuilder}
variable {cl cl' : Client T} {events : List T} {e : Error} {w : Bytes}

/-- The call returns with an error of its own: `?` on the serializer, or on
`Frame::decode` once the frames before have been fed. `w` is what it wrote. -/
def Rejected (z : Flate) (toVec : T → Except String Bytes) (b : ClientBuilder) (cl : Client T)
    (events : List T) (e : Error) (cl' : Client T) (w : Bytes) : Prop :=
  ∃ cl₁ as cl₂, cl.step z toVec b (.start events) = some cl₁ ∧
    Run (traced z toVec b) Continues (cl₁, []) as (cl₂, w) ∧
    cl₂.phase = .feeding events [] (some e) ∧ cl₂.step z toVec b .flush = some cl'

/-- The call has left the client as it was. -/
def Untouched (cl : Client T) (events : List T) (e : Error) (cl' : Client T) (w : Bytes) : Prop :=
  w = [] ∧ cl' = cl.finish events (.error e)

/-- The buffer of encoded event frames. -/
def payload (z : Flate) (toVec : T → Except String Bytes) (events : List T) : Bytes :=
  encodeAll z (jsonFrames (numbered 0 (payloads toVec events)))

theorem step_flush (hp : cl.phase = .feeding events [] (some e)) :
    cl.step z toVec b .flush = some (cl.finish events (.error e)) := by
  simp only [step, hp]

/-- Between calls nothing happens but the start of another. -/
theorem step_idle (hp : cl.phase = .idle) {a : Act T} (ha : ∀ ev, a ≠ .start ev) :
    cl.step z toVec b a = none := by
  cases a with
  | start ev => exact absurd rfl (ha ev)
  | _ => simp [step, hp, writing]

/-- Once its frames are fed, a call with an error of its own can only return. -/
theorem step_unfed (hp : cl.phase = .feeding events [] (some e)) {a : Act T}
    (hs : cl.step z toVec b a = some cl') : cl'.phase = .idle := by
  cases a with
  | flush =>
    rw [step_flush hp] at hs
    cases hs
    rfl
  | _ => simp [step, hp, writing] at hs

/-- What holds of the call's first state, or after its return, if no step leads from
the first state anywhere else. -/
theorem run_returned {cl₁ : Client T} {as : List (Act T)} {x : Client T × Bytes}
    (hrun : Run (traced z toVec b) Continues (cl₁, []) as x)
    (hfirst : ∀ a cl', (∀ ev, a ≠ .start ev) → cl₁.step z toVec b a = some cl' → cl'.phase = .idle) :
    x = (cl₁, []) ∨ x.1.phase = .idle := by
  apply hrun.invariant (P := fun x => x = (cl₁, []) ∨ x.1.phase = .idle) (.inl rfl)
  rintro x a x' hx ha hs
  obtain ⟨cl', hstep, rfl⟩ := Option.map_eq_some_iff.mp hs
  right
  rcases hx with rfl | hx
  · exact hfirst a cl' ha hstep
  · rw [step_idle hx ha] at hstep
    cases hstep

theorem Rejected.ne_nil (h : Rejected z toVec b cl events e cl' w) : events ≠ [] := by
  obtain ⟨cl₁, as, cl₂, hstart, hrun, hp, -⟩ := h
  rintro rfl
  have hidle : cl₁.phase = .idle := by
    cases step_cases hstart with
    | empty => rfl
    | start _ hne => exact absurd rfl hne
    | giveUp ha => rfl
  have hx := run_returned hrun (fun a cl' ha hs => by rw [step_idle hidle ha] at hs; cases hs)
  have hidle₂ : cl₂.phase = .idle := by
    rcases hx with hx | hx
    · cases hx
      exact hidle
    · exact hx
  rw [hidle₂] at hp
  cases hp

/-- It has fed all the frames before the error. -/
theorem Rejected.stream (h : Rejected z toVec b cl events e cl' w) :
    (sendFrames z toVec b.compressionLevel events).2 = some e ∧
    cl'.fed = cl.fed ++ sendBytes z toVec b.compressionLevel events ∧
    w ++ cl'.wbuf = cl.wbuf ++ sendBytes z toVec b.compressionLevel events := by
  have hne := h.ne_nil
  obtain ⟨cl₁, as, cl₂, hstart, hrun, hp, hflush⟩ := h
  obtain ⟨-, rfl⟩ := begun_of_start hne hstart
  obtain ⟨done, hc⟩ := run_calling hrun
  have hdue := hc.due
  rw [show (cl₂, w).1.phase = _ from hp] at hdue
  obtain ⟨-, herr, himage⟩ := hdue
  rw [encodeAll_nil, List.append_nil] at himage
  rw [step_flush hp] at hflush
  cases hflush
  exact ⟨herr.symm, himage ▸ hc.fed, himage ▸ hc.stream⟩

/-- An error with nothing before it is met before the first step. -/
theorem Rejected.untouched (h : Rejected z toVec b cl events e cl' w)
    (hnil : (sendFrames z toVec b.compressionLevel events).1 = []) :
    Untouched cl events e cl' w := by
  have hne := h.ne_nil
  have herr := h.stream.1
  obtain ⟨cl₁, as, cl₂, hstart, hrun, hp, hflush⟩ := h
  obtain ⟨hidle, rfl⟩ := begun_of_start hne hstart
  have hfirst : (cl.begun z toVec b events).phase = .feeding events [] (some e) := by
    rw [begun, hnil, herr]
  rcases run_returned hrun (fun a cl' _ hs => step_unfed hfirst hs) with hx | hx
  · cases hx
    rw [step_flush hp] at hflush
    cases hflush
    exact ⟨rfl, rfl⟩
  · rw [show cl₂.phase = .idle from hx] at hp
    cases hp

/-- A call with an error of its own can come to be rejected. -/
theorem rejected_of_error (hidle : cl.phase = .idle) (hne : events ≠ [])
    (herr : (sendFrames z toVec b.compressionLevel events).2 = some e) :
    ∃ cl' w, Rejected z toVec b cl events e cl' w := by
  obtain ⟨as, cl₂, w, hrun, hp⟩ : ∃ as cl' w,
      Run (traced z toVec b) Continues (cl.begun z toVec b events, []) as (cl', w) ∧
      cl'.phase = .feeding events [] (sendFrames z toVec b.compressionLevel events).2 := feed_all [] rfl
  rw [herr] at hp
  exact ⟨_, w, _, as, cl₂, start_begun hidle hne, hrun, hp, step_flush hp⟩

theorem serialized_all {bs : List Bytes} (h : Serialized toVec events bs) :
    ∀ ev ∈ events, ∀ msg, toVec ev ≠ .error msg := by
  induction h with
  | nil => simp
  | cons hv h ih =>
    intro ev hev msg he
    rcases List.mem_cons.mp hev with rfl | hev
    · rw [hv] at he
      cases he
    · exact ih ev hev msg he

/-- The events of a call serialize, or one of them does not and stops the encoding. -/
theorem serialized_or (z : Flate) (toVec : T → Except String Bytes) (events : List T) :
    Serialized toVec events (payloads toVec events) ∨
    ((∃ ev ∈ events, ∃ msg, toVec ev = .error msg) ∧
      ∃ msg, encodeEvents z toVec 0 events [] = .error (.serialization msg)) := by
  rcases encodeEvents_cases z toVec events 0 [] with ⟨bs, hbs⟩ | ⟨msg, he⟩
  · left
    rwa [payloads_eq hbs]
  · right
    refine ⟨?_, msg, he⟩
    by_contra hno
    have hall : ∀ ev ∈ events, (toVec ev).toOption.isSome := by
      intro ev hev
      cases hv : toVec ev with
      | ok x => rfl
      | error msg => exact absurd ⟨ev, hev, msg, hv⟩ hno
    rw [encodeEvents_ok (serialized_payloads hall)] at he
    cases he

/-- Event frames are decoded again without an error when they are all within the
default limit, and only then; as long as their length fields hold their lengths. -/
theorem readable_iff {bs : List Bytes} (hn : ∀ data ∈ bs, data.length < 2^32) (i : Nat) :
    Readable z defaultMaxFrameSize (encodeAll z (jsonFrames (numbered i bs))) ↔
      ∀ data ∈ bs, data.length ≤ defaultMaxFrameSize := by
  refine (drain_ok_iff {} _).symm.trans ?_
  constructor
  · intro h
    rcases drain_jsonFrames (z := z) hn i with ⟨-, -, hall⟩ | ⟨e, k, he, -⟩
    · exact hall
    · rw [h] at he
      cases he
  · intro h
    rw [drain_numbered h]

/-- Events that serialize are refused at level 0 when their buffer cannot be decoded
again, and only then. -/
theorem error_none_iff (hv : Serialized toVec events (payloads toVec events)) (hne : events ≠ [])
    {level : UInt32} (hl : ¬ level > 0) :
    (sendFrames z toVec level events).2 = none ↔
      Readable z defaultMaxFrameSize (payload z toVec events) := by
  rw [sendFrames_decoded hv hne hl]
  exact drain_ok_iff {} _

/-- An error of a call's own comes with nothing fed exactly outside of the second
decoding. -/
theorem error_clean_iff (hne : events ≠ []) :
    (∀ e, (sendFrames z toVec b.compressionLevel events).2 = some e →
      (sendFrames z toVec b.compressionLevel events).1 = []) ↔
    b.compressionLevel > 0 ∨ (∃ ev ∈ events, ∃ msg, toVec ev = .error msg) ∨
      Readable z defaultMaxFrameSize (payload z toVec events) := by
  rcases serialized_or z toVec events with hv | ⟨hfail, msg, he⟩
  · by_cases hl : b.compressionLevel > 0
    · have hs := sendFrames_compressed (z := z) hv hne hl
      exact iff_of_true (fun e he => by rw [hs] at he; cases he) (.inl hl)
    · have hok := error_none_iff (z := z) hv hne hl
      constructor
      · intro h
        right
        right
        rw [← hok]
        cases herr : (sendFrames z toVec b.compressionLevel events).2 with
        | none => rfl
        | some e =>
          have hnil := h e herr
          rw [sendFrames_decoded hv hne hl] at hnil
          cases hnil
      · rintro (h | ⟨ev, hev, msg, hmsg⟩ | h) e he
        · exact absurd h hl
        · exact absurd hmsg (serialized_all hv ev hev msg)
        · rw [hok.mpr h] at he
          cases he
  · have hs : sendFrames z toVec b.compressionLevel events = ([], some (.serialization msg)) := by
      simp only [sendFrames, List.isEmpty_iff, hne, if_false, he]
    exact iff_of_true (fun e _ => by rw [hs]) (.inr (.inl hfail))

/-- **When a rejected call leaves the connection at a batch boundary.** A call that
returns an error of its own events has written nothing and left the client as it was,
if and only if the client compresses, or an event does not serialize, or the encoded
buffer can be decoded again to its end. For events shorter than 2^32 bytes the last of
these says that each of them is at most 16 MiB. What the next call then writes is its
own image. -/
theorem rejected_untouched_iff (z : Flate) (toVec : T → Except String Bytes) (b : ClientBuilder)
    (cl : Client T) (hidle : cl.phase = .idle) (events : List T) :
    ((∀ e cl' w, Rejected z toVec b cl events e cl' w → Untouched cl events e cl' w) ↔
      b.compressionLevel > 0 ∨ (∃ ev ∈ events, ∃ msg, toVec ev = .error msg) ∨
        Readable z defaultMaxFrameSize (payload z toVec events)) ∧
    ((∀ data ∈ payloads toVec events, data.length < 2^32) →
      (Readable z defaultMaxFrameSize (payload z toVec events) ↔
        ∀ data ∈ payloads toVec events, data.length ≤ defaultMaxFrameSize)) ∧
    (∀ e cl' w, Rejected z toVec b cl events e cl' w → Untouched cl events e cl' w →
      ∀ events' ≠ [], ∀ cl₁ as cl₂ w', cl'.step z toVec b (.start events') = some cl₁ →
        Run (traced z toVec b) Continues (cl₁, []) as (cl₂, w') → cl₂.phase = .awaiting events' →
        w ++ w' = cl.wbuf ++ sendBytes z toVec b.compressionLevel events') := by
  refine ⟨?_, fun hn => readable_iff hn 0, ?_⟩
  · by_cases hne : events = []
    · subst hne
      refine iff_of_true (fun e cl' w h => absurd rfl h.ne_nil) (.inr (.inr ?_))
      exact ⟨[], [], [], .nil, rfl, congrArg Prod.fst (decode_nil z _)⟩
    · rw [← error_clean_iff hne]
      constructor
      · intro h e herr
        obtain ⟨cl', w, hrej⟩ := rejected_of_error hidle hne herr
        obtain ⟨rfl, rfl⟩ := h e cl' w hrej
        have hfed := hrej.stream.2.1
        have hnil : sendBytes z toVec b.compressionLevel events = [] := by simpa [finish] using hfed
        cases hfs : (sendFrames z toVec b.compressionLevel events).1 with
        | nil => rfl
        | cons f fs =>
          rw [sendBytes, hfs, encodeAll_cons] at hnil
          cases f <;> simp [Frame.encode] at hnil
      · intro h e cl' w hrej
        exact hrej.untouched (h e hrej.stream.1)
  · rintro e cl' w - ⟨rfl, rfl⟩ events' hne cl₁ as cl₂ w' hstart hrun hp
    obtain ⟨-, rfl⟩ := begun_of_start hne hstart
    have hw := written_of_awaiting hrun hp
    exact hw

/-- An event that does not serialize behind one that does. -/
theorem rejected_untouched_sample :
    ∃ (cl' : Client (Option Bytes)) (w : Bytes),
      Rejected .sample (fun ev => ev.elim (.error "key must be a string") .ok)
        { compressionLevel := 0 } (.init _) [some [123, 125], none]
        (.serialization "key must be a string") cl' w ∧
      Untouched (.init _) [some [123, 125], none] (.serialization "key must be a string") cl' w := by
  obtain ⟨cl', w, hrej⟩ := rejected_of_error (z := .sample) (b := { compressionLevel := 0 })
    (show (Client.init (Option Bytes)).phase = .idle from rfl)
    (show [some [123, 125], none] ≠ [] by decide)
    (show (sendFrames .sample (fun ev : Option Bytes => ev.elim (.error "key must be a string") .ok)
      _ _).2 = some (.serialization "key must be a string") from rfl)
  exact ⟨cl', w, hrej, (rejected_untouched_iff .sample _ _ (.init _) rfl _).1.mpr
    (.inr (.inl ⟨none, by simp, _, rfl⟩)) _ cl' w hrej⟩

/-- One event over the default limit, at level 0. -/
theorem sendFrames_oversized {data : Bytes} (hn : data.length < 2^32)
    (h : defaultMaxFrameSize < data.length) :
    sendFrames z (fun ev : Bytes => .ok ev) 0 [data] =
      ([.window 1], some (.frameTooLarge data.length defaultMaxFrameSize)) := by
  have herr := decode_json_oversized z 1 hn h []
  have hd : (LumberjackCodec.decoder z {}).drain ((Frame.json 1 data).encode z ++ []) =
      ⟨[], some (.frameTooLarge data.length defaultMaxFrameSize), _⟩ :=
    Decoder.drain_error _ (Prod.ext herr rfl)
  have henc : encodeEvents z (fun ev : Bytes => .ok ev) 0 [data] [] =
      .ok ((Frame.json 1 data).encode z ++ []) := by
    rw [List.append_nil]
    rfl
  simp only [sendFrames, List.isEmpty_cons, henc, Bool.false_eq_true, if_false, hd]
  rfl

/-- A JSON string of this many letters. -/
def letters (n : Nat) : Bytes := 34 :: (List.replicate n 97 ++ [34])

theorem letters_length (n : Nat) : (letters n).length = n + 2 := by
  simp [letters]

/-- The window of an event over 16 MiB is fed before the event is refused, and it stays
on the stream. -/
theorem rejected_leaves_window :
    ∃ (cl' : Client Bytes) (w : Bytes),
      Rejected .sample (fun ev => .ok ev) { compressionLevel := 0 } (.init Bytes) [letters (2^24)]
        (.frameTooLarge (2^24 + 2) defaultMaxFrameSize) cl' w ∧
      w ++ cl'.wbuf = [50, 87, 0, 0, 0, 1] ∧
      ¬ Untouched (.init Bytes) [letters (2^24)] (.frameTooLarge (2^24 + 2) defaultMaxFrameSize)
        cl' w := by
  have hlen := letters_length (2^24)
  generalize letters (2^24) = data at hlen ⊢
  have hsend : sendFrames .sample (fun ev : Bytes => .ok ev) 0 [data] = _ :=
    sendFrames_oversized (by rw [hlen]; decide) (by rw [hlen]; decide)
  rw [hlen] at hsend
  obtain ⟨cl', w, hrej⟩ := rejected_of_error (z := .sample) (b := { compressionLevel := 0 })
    (show (Client.init Bytes).phase = .idle from rfl) (List.cons_ne_nil data [])
    (congrArg Prod.snd hsend)
  have hstream := hrej.stream.2.2
  rw [sendBytes, congrArg Prod.fst hsend] at hstream
  have hbytes : w ++ cl'.wbuf = [50, 87, 0, 0, 0, 1] := hstream
  refine ⟨cl', w, hrej, hbytes, ?_⟩
  rintro ⟨rfl, rfl⟩
  cases hbytes

end Lumberjack.Client
