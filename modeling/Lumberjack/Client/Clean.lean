import Lumberjack.Client.Stream

/-!
# Streams of calls that run to their end

When every batch is within the limits of both ends and no call is given up, the
receiving loop refuses nothing: after all that was fed it stands between windows,
or inside the window of the call in progress, which the frames still to be fed
complete.
-/
namespace Lumberjack.Client

open Lumberjack.Stream Lumberjack.Wire Lumberjack.Server

variable {T : Type} {z : Flate} {toVec : T → Except String Bytes} {level : UInt32} {max : Nat}

/-- A batch within all limits: uncompressed, each serialized event is within the
default limit and the server's; compressed, so are the concatenated event frames
and their zlib image for the server's. -/
structure Sendable (z : Flate) (toVec : T → Except String Bytes) (level : UInt32) (max : Nat)
    (events : List T) : Prop where
  ne : events ≠ []
  count : events.length < 2^32
  serializes : ∀ ev ∈ events, (toVec ev).toOption.isSome
  raw : ¬ level > 0 → ∀ b ∈ payloads toVec events, b.length ≤ min defaultMaxFrameSize max
  zip : level > 0 →
    (encodeAll z (jsonFrames (numbered 0 (payloads toVec events)))).length ≤ max ∧
    (z.zlibCompress (encodeAll z (jsonFrames (numbered 0 (payloads toVec events))))).length ≤ max

instance (events : List T) : Decidable (Sendable z toVec level max events) :=
  decidable_of_iff (events ≠ [] ∧ events.length < 2^32 ∧
      (∀ ev ∈ events, (toVec ev).toOption.isSome) ∧
      (¬ level > 0 → ∀ b ∈ payloads toVec events, b.length ≤ min defaultMaxFrameSize max) ∧
      (level > 0 →
        (encodeAll z (jsonFrames (numbered 0 (payloads toVec events)))).length ≤ max ∧
        (z.zlibCompress (encodeAll z
          (jsonFrames (numbered 0 (payloads toVec events))))).length ≤ max))
    ⟨fun h => ⟨h.1, h.2.1, h.2.2.1, h.2.2.2.1, h.2.2.2.2⟩,
      fun h => ⟨h.ne, h.count, h.serializes, h.raw, h.zip⟩⟩

theorem serialized_payloads {events : List T} (h : ∀ ev ∈ events, (toVec ev).toOption.isSome) :
    Serialized toVec events (payloads toVec events) := by
  induction events with
  | nil => exact .nil
  | cons ev events ih =>
    cases hv : toVec ev with
    | error e =>
      have := h ev List.mem_cons_self
      rw [hv] at this
      cases this
    | ok b =>
      have hp : payloads toVec (ev :: events) = b :: payloads toVec events := by
        have hone : (toVec ev).toOption = some b := congrArg Except.toOption hv
        rw [payloads, List.filterMap_cons, hone]
        rfl
      rw [hp]
      exact .cons hv (ih (fun ev' hev => h ev' (List.mem_cons_of_mem _ hev)))

namespace Sendable

variable {events : List T}

theorem serialized (h : Sendable z toVec level max events) :
    Serialized toVec events (payloads toVec events) := serialized_payloads h.serializes

theorem payload_le (h : Sendable z toVec level max events) :
    ∀ b ∈ payloads toVec events, b.length ≤ max := by
  intro b hb
  by_cases hl : level > 0
  · exact Nat.le_trans (length_le_encodeAll hb 0) (h.zip hl).1
  · have := h.raw hl b hb
    omega

theorem narrow (h : Sendable z toVec level max events) (hm : max < 2^32) :
    Narrow z toVec level events where
  count := h.count
  payload b hb := Nat.lt_of_le_of_lt (h.payload_le b hb) hm
  image hl := Nat.lt_of_le_of_lt (h.zip hl).2 hm

/-- The frames of such a batch are all fed, fit, and fill the window. -/
theorem frames (h : Sendable z toVec level max events) (hm : max < 2^32) :
    ∃ fs, sendFrames z toVec level events = (.window (Client.count events) :: fs, none) ∧
      (∀ f ∈ fs, f.Narrow z ∧ f.Fits z max) ∧
      Leads z max (.start (Client.count events)) fs (some (deliver toVec events)) := by
  have hall : ∃ fs, sendFrames z toVec level events = (.window (Client.count events) :: fs, none) ∧
      ∀ f ∈ fs, f.Fits z max := by
    by_cases hl : level > 0
    · refine ⟨_, sendFrames_compressed h.serialized h.ne hl, ?_⟩
      intro f hf
      rw [List.mem_singleton.mp hf]
      exact h.zip hl
    · have hzero : level = 0 := by
        rw [gt_iff_lt, UInt32.not_lt] at hl
        exact UInt32.le_zero_iff.mp hl
      subst hzero
      refine ⟨_, sendFrames_raw h.serialized h.ne (fun b hb => ?_), ?_⟩
      · have := h.raw hl b hb
        omega
      · intro f hf
        obtain ⟨seq, b, hb, rfl⟩ := mem_jsonFrames_numbered hf
        exact h.payload_le b hb
  obtain ⟨fs, hs, hfit⟩ := hall
  rcases sendFrames_cases h.ne (h.narrow hm) max with ⟨e, he⟩ | ⟨fs', err, he, hn, hl⟩
  · rw [hs] at he
    cases he
  · rw [hs] at he
    cases he
    exact ⟨fs, hs, fun f hf => ⟨hn f hf, hfit f hf⟩, hl⟩

end Sendable

/-- The call in progress and the receiving loop after all that was fed. -/
inductive Clean (z : Flate) (toVec : T → Except String Bytes) (level : UInt32) (max : Nat) :
    Phase T → Position → Prop
  | resting {p : Phase T} (hp : ∀ events todo err, p ≠ .feeding events todo err) :
      Clean z toVec level max p .window
  | fresh {events : List T} {todo : List Frame} {err : Option Error}
      (hs : Sendable z toVec level max events)
      (he : sendFrames z toVec level events = (todo, err)) :
      Clean z toVec level max (.feeding events todo err) .window
  | inside {events : List T} {todo : List Frame} {c : Collect}
      (hl : Leads z max c todo (some (deliver toVec events)))
      (hf : ∀ f ∈ todo, f.Narrow z ∧ f.Fits z max) :
      Clean z toVec level max (.feeding events todo none) (.inside c)
  | fed {events : List T} : Clean z toVec level max (.feeding events [] none) .window

/-- Every complete batch is dispatched, and the stream goes on from there. -/
def CleanStream (z : Flate) (toVec : T → Except String Bytes) (level : UInt32)
    (cfg : ConnectionConfig) (cl : Client T) : Prop :=
  ∃ pos, Reads z cfg cl.fed (cl.complete.map (deliver toVec)) pos [] ∧ pos.Open ∧
    Clean z toVec level cfg.maxFrameSize cl.phase pos

namespace CleanStream

variable {cfg : ConnectionConfig} {cl cl' : Client T}

theorem init (z : Flate) (toVec : T → Except String Bytes) (level : UInt32) (cfg : ConnectionConfig) :
    CleanStream z toVec level cfg (Client.init T) :=
  ⟨.window, .start z cfg, trivial, .resting (fun events todo err hp => by cases hp)⟩

theorem of_still (h : CleanStream z toVec level cfg cl) (hf : cl'.fed = cl.fed)
    (hc : cl'.complete = cl.complete)
    (hs : ∀ pos, Clean z toVec level cfg.maxFrameSize cl.phase pos →
      Clean z toVec level cfg.maxFrameSize cl'.phase pos) : CleanStream z toVec level cfg cl' := by
  obtain ⟨pos, hr, ho, hst⟩ := h
  refine ⟨pos, ?_, ho, hs pos hst⟩
  rwa [hf, hc]

/-- At rest, the receiving loop is between windows. -/
theorem at_rest (h : CleanStream z toVec level cfg cl)
    (hp : ∀ events todo err, cl.phase = .feeding events todo err → todo = [] ∧ err = none) :
    Reads z cfg cl.fed (cl.complete.map (deliver toVec)) .window [] := by
  obtain ⟨pos, hr, ho, hst⟩ := h
  generalize hph : cl.phase = p at hst hp
  cases hst with
  | resting => exact hr
  | fresh => exact hr
  | fed => exact hr
  | inside hl =>
    obtain ⟨rfl, -⟩ := hp _ _ _ rfl
    cases hl

/-- The batches that the bytes fed lead to are the complete ones. -/
theorem batches (h : CleanStream z toVec level cfg cl) :
    (Position.window.outcome z cfg cl.fed).batches = cl.complete.map (deliver toVec) := by
  obtain ⟨pos, hr, ho, -⟩ := h
  rw [hr.outcome_end ho]

theorem feed (hz : z.Lawful) (hm : cfg.maxFrameSize < 2^32) {events : List T} {f : Frame}
    {todo : List Frame} {err : Option Error} (h : CleanStream z toVec level cfg cl)
    (hp : cl.phase = .feeding events (f :: todo) err) (hp' : cl'.phase = .feeding events todo err)
    (hf : cl'.fed = cl.fed ++ f.encode z)
    (hc : cl'.complete =
      if todo.isEmpty && err.isNone then cl.complete ++ [events] else cl.complete) :
    CleanStream z toVec level cfg cl' := by
  obtain ⟨pos, hr, ho, hst⟩ := h
  have go {c : Collect} (herr : err = none) (hr' : Reads z cfg (cl.fed ++ f.encode z)
      (cl.complete.map (deliver toVec)) (.inside c) []) (hlt : c.received < c.window)
      (hl : Leads z cfg.maxFrameSize c todo (some (deliver toVec events)))
      (hn : ∀ f ∈ todo, f.Narrow z ∧ f.Fits z cfg.maxFrameSize) :
      CleanStream z toVec level cfg cl' := by
    subst herr
    rw [unfinished_of_leads none hl] at hc
    refine ⟨.inside c, ?_, hlt, ?_⟩
    · rw [hf, hc]
      exact hr'
    · rw [hp']
      exact .inside hl hn
  rw [hp] at hst
  cases hst with
  | resting hp => exact absurd rfl (hp _ _ _)
  | fresh hs he =>
    obtain ⟨fs, hfs, hfit, hl⟩ := hs.frames hm
    rw [he] at hfs
    cases hfs
    apply go rfl (hr.frame ho (WireForm.window _)) _ hl hfit
    rw [Collect.received_lt_iff, Client.count, room_start hs.count]
    exact List.length_pos_iff.mpr hs.ne
  | inside hl hfit =>
    have hfirst := hfit f List.mem_cons_self
    rcases reads_leads hz hr ho hfirst.1 hl with ⟨c', hr', hlt, hl'⟩ | ⟨d, hr', rfl, hod⟩ | ⟨hno, -⟩
    · exact go rfl hr' hlt hl' (fun g hg => hfit g (List.mem_cons_of_mem _ hg))
    · cases hod
      refine ⟨.window, ?_, trivial, ?_⟩
      · rw [hf, hc]
        show Reads z cfg _ ((cl.complete ++ [events]).map (deliver toVec)) .window []
        rw [List.map_append]
        exact hr'
      · rw [hp']
        exact .fed
    · exact absurd hfirst.2 hno

end CleanStream

/-- The frames that fill a window bring the receiving loop behind it. -/
theorem finish_leads (hz : z.Lawful) {cfg : ConnectionConfig} {todo : List Frame} {fed : Bytes}
    {ds : List Dispatch} {c : Collect} {d : Dispatch} (hr : Reads z cfg fed ds (.inside c) [])
    (ho : c.received < c.window) (hl : Leads z cfg.maxFrameSize c todo (some d))
    (hf : ∀ f ∈ todo, f.Narrow z ∧ f.Fits z cfg.maxFrameSize) :
    Reads z cfg (fed ++ encodeAll z todo) (ds ++ [d]) .window [] := by
  induction todo generalizing fed c with
  | nil => cases hl
  | cons f todo ih =>
    have hfirst := hf f List.mem_cons_self
    rw [encodeAll_cons, ← List.append_assoc]
    rcases reads_leads hz hr ho hfirst.1 hl with ⟨c', hr', hlt, hl'⟩ | ⟨d', hr', rfl, hod⟩ | ⟨hno, -⟩
    · exact ih hr' hlt hl' (fun g hg => hf g (List.mem_cons_of_mem _ hg))
    · cases hod
      rw [encodeAll_nil, List.append_nil]
      exact hr'
    · exact absurd hfirst.2 hno

/-- A batch within the limits meets no error of its own. -/
theorem CleanStream.no_error {cfg : ConnectionConfig} (hm : cfg.maxFrameSize < 2^32) {cl : Client T}
    (h : CleanStream z toVec level cfg cl) {events : List T} {todo : List Frame} {err : Option Error}
    (hp : cl.phase = .feeding events todo err) : err = none := by
  obtain ⟨pos, -, -, hst⟩ := h
  rw [hp] at hst
  cases hst with
  | resting hp => exact absurd rfl (hp _ _ _)
  | fresh hs he =>
    obtain ⟨fs, hfs, -⟩ := hs.frames hm
    rw [he] at hfs
    cases hfs
    rfl
  | inside hl hf => rfl
  | fed => rfl

/-- Feeding what is left brings the receiving loop between windows. -/
theorem CleanStream.completes (hz : z.Lawful) {cfg : ConnectionConfig} {cl : Client T}
    (h : CleanStream z toVec level cfg cl) : ∃ t ds, Reads z cfg (cl.fed ++ t) ds .window [] := by
  obtain ⟨pos, hr, ho, hst⟩ := h
  generalize cl.phase = p at hst
  cases hst with
  | inside hl hfit => exact ⟨_, _, finish_leads hz hr ho hl hfit⟩
  | _ => exact ⟨[], _, by rwa [List.append_nil]⟩

/-- Steps that give no call up keep the stream clean. -/
theorem Step.clean (hz : z.Lawful) {cfg : ConnectionConfig} (hm : cfg.maxFrameSize < 2^32)
    {b : ClientBuilder} {cl cl' : Client T} {a : Act T} (hs : Step z toVec b cl a cl')
    (hstart : ∀ events, a = .start events →
      Sendable z toVec b.compressionLevel cfg.maxFrameSize events)
    (hfault : ¬ (a = .ackTimeout ∨ a = .writeTimeout ∨ ∃ msg, a = .fail msg))
    (h : CleanStream z toVec b.compressionLevel cfg cl) :
    CleanStream z toVec b.compressionLevel cfg cl' := by
  -- a call that rests before and after the step
  have rest (hf : cl'.fed = cl.fed) (hc : cl'.complete = cl.complete)
      (hp : ∀ events todo err, cl.phase = .feeding events todo err → todo = [] ∧ err = none)
      (hp' : ∀ events todo err, cl'.phase ≠ .feeding events todo err) :
      CleanStream z toVec b.compressionLevel cfg cl' := by
    refine ⟨.window, ?_, trivial, .resting hp'⟩
    rw [hf, hc]
    exact h.at_rest hp
  have returned {events : List T} (hp : cl.phase = .awaiting events) (hf : cl'.fed = cl.fed)
      (hc : cl'.complete = cl.complete) (hp' : cl'.phase = .idle) :
      CleanStream z toVec b.compressionLevel cfg cl' := by
    apply rest hf hc
    · intro _ _ _ hq
      rw [hp] at hq
      cases hq
    · intro _ _ _ hq
      rw [hp'] at hq
      cases hq
  cases hs with
  | empty hp => exact absurd rfl (hstart [] rfl).ne
  | @start events hp hne =>
    refine ⟨.window, ?_, trivial, .fresh (hstart events rfl) rfl⟩
    exact h.at_rest (fun _ _ _ hq => by rw [hp] at hq; cases hq)
  | feed hp hb => exact h.feed hz hm hp rfl rfl rfl
  | flush hp =>
    refine rest rfl rfl (fun _ _ _ hq => ?_) (fun _ _ _ hq => by cases hq)
    rw [hp] at hq
    cases hq
    exact ⟨rfl, rfl⟩
  | write hw hk hl => exact h.of_still rfl rfl (fun pos hst => hst)
  | flushed hp hw =>
    exact rest rfl rfl (fun _ _ _ hq => by rw [hp] at hq; cases hq) (fun _ _ _ hq => by cases hq)
  | read hp hc hst => exact h.of_still rfl rfl (fun pos hst => hst)
  | ended hp => exact h.of_still rfl rfl (fun pos hst => hst)
  | @next events f r hp he hr hd =>
    cases f with
    | ack seq =>
      simp only [onFrame] at rest returned ⊢
      split at rest
      · rename_i hle
        rw [if_pos hle] at returned ⊢
        exact returned hp rfl rfl rfl
      · rename_i hle
        rw [if_neg hle]
        refine rest rfl rfl (fun _ _ _ hq => ?_) (fun _ _ _ hq => ?_)
        · rw [hp] at hq
          cases hq
        · rw [hp] at hq
          cases hq
    | _ => exact returned hp rfl rfl rfl
  | undecodable hp he hd => exact returned hp rfl rfl rfl
  | exhausted hp he => exact returned hp rfl rfl rfl
  | truncated hp he => exact returned hp rfl rfl rfl
  | paused hp he => exact returned hp rfl rfl rfl
  | closed hp => exact returned hp rfl rfl rfl
  | unfed hp => cases h.no_error hm hp
  | giveUp ha => exact absurd ha hfault

end Lumberjack.Client
