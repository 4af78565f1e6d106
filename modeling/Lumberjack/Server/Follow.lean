import Lumberjack.Server.Handler

/-!
# The handler follows `run_connection` on its bytes

At every point of every run the batches a handler has dispatched are the first
that `run_connection` dispatches on the bytes it has read, whatever follows them,
and a handler that has returned has dispatched all of them and returned the same
result. Reads, keepalives and releases move the handler along; none of them
changes what it will do.
-/
namespace Lumberjack.Server

open Lumberjack.Stream Lumberjack.Wire

namespace Phase

/-- Not returned yet. -/
def live : Phase → Bool
  | .done _ | .failed _ | .shutdown => false
  | _ => true

/-- Where the loop stands on its input. -/
def position : Phase → Position
  | .collecting c | .dispatching c => .inside c
  | .done r => .stopped r
  | _ => .window

/-- A window being collected is not full, one being dispatched is. -/
def Sound : Phase → Prop
  | .collecting c => c.Good ∧ c.received < c.window
  | .dispatching c => c.Good ∧ ¬ c.received < c.window
  | _ => True

theorem live_of_reading {p : Phase} (h : p.reading) : p.live := by
  cases p <;> simp_all [reading, live]

theorem live_of_writing {p : Phase} (h : p.writing) : p.live := by
  cases p <;> simp_all [writing, live]

theorem open_of_reading {p : Phase} (h : p.reading) (hs : p.Sound) : p.position.Open := by
  cases p with
  | expectWindow => trivial
  | collecting c => exact hs.2
  | _ => simp [reading] at h

theorem not_stopped_of_reading {p : Phase} (h : p.reading) (r : Result Unit) :
    p.position ≠ .stopped r := by
  cases p <;> simp_all [reading, position]

theorem position_ofCollect (c : Collect) : (ofCollect c).position = .inside c := by
  unfold ofCollect
  split <;> rfl

theorem live_ofCollect (c : Collect) : (ofCollect c).live := by
  unfold ofCollect
  split <;> rfl

theorem live_written {p : Phase} (h : p.writing) (done : Prop) [Decidable done] :
    (if done then p.flushed else p).live := by
  cases p with
  | keepalive lastSeq => split <;> rfl
  | acking => split <;> rfl
  | _ => simp [writing] at h

theorem sound_ofCollect {c : Collect} (h : c.Good) : (ofCollect c).Sound := by
  unfold ofCollect
  split
  · exact ⟨h, by assumption⟩
  · exact ⟨h, by assumption⟩

end Phase

/-- A batch is complete, and its last number has outrun the size of its window. -/
structure Dispatch.Complete (d : Dispatch) : Prop where
  length : d.events.length = d.window.toNat
  last : d.window.toNat ≤ d.lastSeq.toNat

theorem Collect.Good.complete {c : Collect} (h : c.Good) (hfull : ¬ c.received < c.window) :
    c.dispatch.Complete := by
  have hb := h.bound
  have hl := h.length
  have hc := h.count
  rw [UInt32.lt_iff_toNat_lt] at hfull
  constructor
  · show c.events.length = c.window.toNat
    omega
  · show c.window.toNat ≤ c.lastSeq.toNat
    rw [h.last]
    omega

namespace Handler

/-- What a handler has read explains what it has dispatched and, once it has
returned, its result. -/
structure Follows (z : Flate) (cfg : ConnectionConfig) (h : Handler) : Prop where
  reads : ∃ pos rest, Reads z cfg h.input h.dispatched pos rest ∧
    (h.phase.live → pos = h.phase.position ∧ rest = h.buffer) ∧
    (∀ r, h.phase = .done r →
      pos.outcome z cfg rest = ⟨[], r⟩ ∧ (h.eof = false → pos = .stopped r ∧ r ≠ .ok ()))
  sound : h.phase.Sound
  complete : ∀ d ∈ h.dispatched, d.Complete

variable {z : Flate} {cfg : ConnectionConfig} {h h' : Handler} {a : Act}

namespace Follows

theorem init (z : Flate) (cfg : ConnectionConfig) : Follows z cfg .init where
  reads := ⟨.window, [], .start z cfg, fun _ => ⟨rfl, rfl⟩, fun r hr => by cases hr⟩
  sound := trivial
  complete := by simp [Handler.init]

theorem here (hf : h.Follows z cfg) (hl : h.phase.live) :
    Reads z cfg h.input h.dispatched h.phase.position h.buffer := by
  obtain ⟨pos, rest, hr, hpos, -⟩ := hf.reads
  obtain ⟨rfl, rfl⟩ := hpos hl
  exact hr

theorem of_live (hr : Reads z cfg h.input h.dispatched h.phase.position h.buffer)
    (hl : h.phase.live) (hs : h.phase.Sound) (hc : ∀ d ∈ h.dispatched, d.Complete) :
    h.Follows z cfg where
  reads := ⟨_, _, hr, fun _ => ⟨rfl, rfl⟩, fun r he => by simp [he, Phase.live] at hl⟩
  sound := hs
  complete := hc

/-- The loop stopped on what it read. -/
theorem of_stopped {e : Error} (hp : h.phase = .done (.error e)) {rest : Bytes}
    (hr : Reads z cfg h.input h.dispatched (.stopped (.error e)) rest)
    (hc : ∀ d ∈ h.dispatched, d.Complete) : h.Follows z cfg where
  reads := by
    refine ⟨_, _, hr, ?_, ?_⟩
    · intro hl
      simp [hp, Phase.live] at hl
    · intro r' hr'
      rw [hp] at hr'
      cases hr'
      exact ⟨rfl, fun _ => ⟨rfl, by simp⟩⟩
  sound := by
    rw [hp]
    trivial
  complete := hc

/-- Returning for a reason that is not in the input leaves what was read as it is. -/
theorem of_abandoned (hf : h.Follows z cfg) (hi : h'.input = h.input)
    (hd : h'.dispatched = h.dispatched)
    (hp : (∃ e, h'.phase = .failed e) ∨ h'.phase = .shutdown) : h'.Follows z cfg := by
  obtain ⟨pos, rest, hr, -, -⟩ := hf.reads
  refine ⟨⟨pos, rest, ?_, ?_, ?_⟩, ?_, ?_⟩
  · rwa [hi, hd]
  · intro hl
    rcases hp with ⟨e, hp⟩ | hp <;> simp [hp, Phase.live] at hl
  · intro r hr'
    rcases hp with ⟨e, hp⟩ | hp <;> simp [hp] at hr'
  · rcases hp with ⟨e, hp⟩ | hp <;> (rw [hp]; trivial)
  · rw [hd]
    exact hf.complete

/-- A step that moves neither the input nor the position. -/
theorem of_still (hf : h.Follows z cfg) (hi : h'.input = h.input) (hd : h'.dispatched = h.dispatched)
    (hb : h'.buffer = h.buffer) (hl : h.phase.live) (hl' : h'.phase.live)
    (hp : h'.phase.position = h.phase.position) (hs : h'.phase.Sound) : h'.Follows z cfg := by
  refine of_live ?_ hl' hs ?_
  · rw [hi, hd, hb, hp]
    exact hf.here hl
  · rw [hd]
    exact hf.complete

end Follows

theorem atEof_outcome (hr : h.phase.reading) (hs : h.phase.Sound) {r : Bytes}
    (hd : (cfg.decoder z).decode h.buffer = (.ok none, r)) :
    h.phase.position.outcome z cfg h.buffer = ⟨[], h.atEof z cfg⟩ := by
  have he : ((cfg.decoder z).decodeEof h.buffer).1 =
      (if h.buffer.isEmpty then none else some (cfg.decoder z).remaining).map .error := by
    rw [Decoder.decodeEof_none _ hd]
    cases h.buffer.isEmpty <;> rfl
  rw [Position.outcome_end (Phase.open_of_reading hr hs) he]
  unfold atEof
  rw [he]
  cases hp : h.phase with
  | expectWindow => cases h.buffer.isEmpty <;> rfl
  | collecting c => cases h.buffer.isEmpty <;> rfl
  | _ => simp [hp, Phase.reading] at hr

/-- Decoding a frame moves the handler as it moves the loop. -/
theorem Follows.advanced (hf : h.Follows z cfg) (hr : h.phase.reading) {f : Frame} {r : Bytes}
    (hd : (cfg.decoder z).decode h.buffer = (.ok (some f), r)) :
    Reads z cfg h.input h.dispatched (h.phase.position.advance z cfg f) r :=
  (hf.here (Phase.live_of_reading hr)).decoded (Phase.open_of_reading hr hf.sound) hd

theorem Step.follows (hs : Step z cfg h a h') (hf : h.Follows z cfg) : h'.Follows z cfg := by
  cases hs with
  | @read chunk r hr hc hd =>
    have hl := Phase.live_of_reading hr
    exact .of_live ((hf.here hl).more chunk) hl hf.sound hf.complete
  | @window n r hp hd =>
    have hadv := hf.advanced (by rw [hp]; rfl) hd
    rw [hp] at hadv
    refine .of_live ?_ (Phase.live_ofCollect _) (Phase.sound_ofCollect (Collect.start_good n))
      hf.complete
    rw [Phase.position_ofCollect]
    exact hadv
  | @stray f r hp hn hd =>
    have hadv := hf.advanced (by rw [hp]; rfl) hd
    have hstop : Position.advance z cfg .window f =
        .stopped (.error (.unexpectedFrame "expected Window at batch start")) := by
      cases f with
      | window n => exact absurd rfl (hn n)
      | _ => rfl
    rw [hp] at hadv
    exact .of_stopped rfl (hstop ▸ hadv) hf.complete
  | @collected c c' f r hp hd hc =>
    have hadv := hf.advanced (by rw [hp]; rfl) hd
    have hsound := hf.sound
    rw [hp] at hadv hsound
    have hgood := (Collect.frame_good hsound.1 hsound.2 hc).1
    refine .of_live ?_ (Phase.live_ofCollect _) (Phase.sound_ofCollect hgood) hf.complete
    rw [Phase.position_ofCollect]
    simp only [Phase.position, Position.advance, hc] at hadv
    exact hadv
  | @rejected c f r e hp hd hc =>
    have hadv := hf.advanced (by rw [hp]; rfl) hd
    rw [hp] at hadv
    simp only [Phase.position, Position.advance, hc] at hadv
    exact .of_stopped rfl hadv hf.complete
  | @undecodable r e hr hd =>
    have hopen := Phase.open_of_reading hr hf.sound
    have hstop := (hf.here (Phase.live_of_reading hr)).refused hopen hd
      (Phase.not_stopped_of_reading hr) r
    exact .of_stopped rfl hstop hf.complete
  | @eof r hr hd =>
    refine ⟨⟨_, _, hf.here (Phase.live_of_reading hr), ?_, ?_⟩, trivial, hf.complete⟩
    · intro hl
      cases hl
    · intro res hres
      cases hres
      exact ⟨atEof_outcome hr hf.sound hd, fun he => by cases he⟩
  | @dispatch c hp =>
    have hhere := hf.here (by rw [hp]; rfl)
    have hsound := hf.sound
    rw [hp] at hhere hsound
    refine .of_live (hhere.dispatched hsound.2) rfl trivial ?_
    intro d hd
    rcases List.mem_append.mp hd with hd | hd
    · exact hf.complete d hd
    · rw [List.mem_singleton.mp hd]
      exact hsound.1.complete hsound.2
  | shutdown hp => exact hf.of_abandoned rfl rfl (.inr rfl)
  | release hrx hl =>
    obtain ⟨pos, rest, hr, hlive, hdone⟩ := hf.reads
    exact ⟨⟨pos, rest, hr, hlive, hdone⟩, hf.sound, hf.complete⟩
  | tick hp hk hrx => exact hf.of_still rfl rfl rfl (by rw [hp]; rfl) rfl (by rw [hp]; rfl) trivial
  | acked hp hv => exact hf.of_still rfl rfl rfl (by rw [hp]; rfl) rfl (by rw [hp]; rfl) trivial
  | @write k hw hk hl =>
    cases hp : h.phase with
    | keepalive lastSeq =>
      refine hf.of_still rfl rfl rfl (by rw [hp]; rfl) ?_ ?_ ?_ <;> simp only <;> split <;>
        simp [Phase.flushed, Phase.live, Phase.position, Phase.Sound, hp]
    | acking =>
      refine hf.of_still rfl rfl rfl (by rw [hp]; rfl) ?_ ?_ ?_ <;> simp only <;> split <;>
        simp [Phase.flushed, Phase.live, Phase.position, Phase.Sound, hp]
    | _ => simp [hp, Phase.writing] at hw
  | fail hio => exact hf.of_abandoned rfl rfl (.inl ⟨_, rfl⟩)

namespace Follows

theorem of_run {ok : Handler → Act → Prop} {as : List Act}
    (hr : Process.Run (step z cfg) ok .init as h) : h.Follows z cfg :=
  hr.invariant (.init z cfg) (fun hf _ hs => (step_cases hs).follows hf)

/-- The batches dispatched so far are a front of those of any continuation. -/
theorem batches_front (hf : h.Follows z cfg) (t : Bytes) :
    h.dispatched <+: (Position.window.outcome z cfg (h.input ++ t)).batches := by
  obtain ⟨pos, rest, hr, -, -⟩ := hf.reads
  exact ⟨_, (hr.batches t).symm⟩

/-- A handler that returned on its input did all that `run_connection` does on it. -/
theorem outcome_done (hf : h.Follows z cfg) {r : Result Unit} (hp : h.phase = .done r) :
    Position.window.outcome z cfg h.input = ⟨h.dispatched, r⟩ := by
  obtain ⟨pos, rest, hr, -, hdone⟩ := hf.reads
  have ho := hr []
  rw [List.append_nil, List.append_nil, (hdone r hp).1] at ho
  rw [ho]
  simp [Outcome.after]

/-- If it returned before the end of the stream, it failed, and nothing that follows
matters. -/
theorem outcome_stopped (hf : h.Follows z cfg) {r : Result Unit} (hp : h.phase = .done r)
    (he : h.eof = false) (t : Bytes) :
    Position.window.outcome z cfg (h.input ++ t) = ⟨h.dispatched, r⟩ ∧ r ≠ .ok () := by
  obtain ⟨pos, rest, hr, -, hdone⟩ := hf.reads
  obtain ⟨hpos, hne⟩ := (hdone r hp).2 he
  rw [hr t, hpos]
  exact ⟨by simp [Position.outcome, Outcome.after], hne⟩

end Follows
end Handler
end Lumberjack.Server
