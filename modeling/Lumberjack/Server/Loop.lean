import Lumberjack.Stream.Within
import Lumberjack.Server.Position

/-!
# The receiving loop, whatever decodes for it

The loop of `run_connection` takes from its configuration, and from the features it is
built with, nothing but a decoder. `Position.outcomeBy` is the loop over any decoder, on
a buffer that the stream ends with and from any position; with the decoder of a
connection it is `Position.outcome`. Two decoders of which the first refuses more than
the second lead the loop through the same positions until it does.
-/
namespace Lumberjack.Server

open Lumberjack.Stream Lumberjack.Wire

namespace Collect

/-- The loop over the inflated bytes of a compressed frame. -/
def innerBy (d : Decoder UInt8 Error Frame) (c : Collect) (buf : Bytes) : Result Collect :=
  if ¬ buf.isEmpty ∧ c.received < c.window then
    match _h : d.decode buf with
    | (.error e, _) => .error e
    | (.ok (some (.json seq data)), buf) =>
      match c.push seq data with
      | .error e => .error e
      | .ok c => innerBy d c buf
    | (.ok (some _), _) =>
      .error (.unexpectedFrame "compressed payload must contain only J frames")
    | (.ok none, _) => .error (.invalidFrame "compressed payload truncated")
  else .ok c
termination_by buf.length
decreasing_by
  have hs := d.some_shrinks _h
  omega

/-- One frame inside a window. -/
def frameBy (d : Decoder UInt8 Error Frame) (c : Collect) : Frame → Result Collect
  | .json seq data => c.push seq data
  | .compressed bytes => c.innerBy d bytes
  | .window _ => .error (.unexpectedFrame "expected J or C inside window")
  | .ack _ => .error (.unexpectedFrame "expected J or C inside window")

variable {d d' : Decoder UInt8 Error Frame} {c : Collect} {buf : Bytes}

theorem innerBy_stop (h : buf = [] ∨ ¬ c.received < c.window) : c.innerBy d buf = .ok c := by
  rw [innerBy]
  rcases h with rfl | h <;> simp [*]

theorem innerBy_json (hb : buf ≠ []) (hr : c.received < c.window) {seq : UInt32} {data r : Bytes}
    (hd : d.decode buf = (.ok (some (.json seq data)), r)) :
    c.innerBy d buf = (c.push seq data).bind fun c => c.innerBy d r := by
  rw [innerBy]
  simp only [List.isEmpty_iff, hb, hr, not_false_eq_true, and_self, if_true]
  split <;> simp_all
  cases c.push seq data <;> rfl

theorem innerBy_other (hb : buf ≠ []) (hr : c.received < c.window) {f : Frame} {r : Bytes}
    (hf : ∀ seq data, f ≠ .json seq data) (hd : d.decode buf = (.ok (some f), r)) :
    c.innerBy d buf = .error (.unexpectedFrame "compressed payload must contain only J frames") := by
  rw [innerBy]
  simp only [List.isEmpty_iff, hb, hr, not_false_eq_true, and_self, if_true]
  cases f with
  | json seq data => exact absurd rfl (hf seq data)
  | _ => split <;> simp_all

theorem innerBy_none (hb : buf ≠ []) (hr : c.received < c.window) (hd : (d.decode buf).1 = .ok none) :
    c.innerBy d buf = .error (.invalidFrame "compressed payload truncated") := by
  rw [innerBy]
  simp only [List.isEmpty_iff, hb, hr, not_false_eq_true, and_self, if_true]
  split <;> simp_all

theorem innerBy_error (hb : buf ≠ []) (hr : c.received < c.window) {e : Error}
    (hd : (d.decode buf).1 = .error e) : c.innerBy d buf = .error e := by
  rw [innerBy]
  simp only [List.isEmpty_iff, hb, hr, not_false_eq_true, and_self, if_true]
  split <;> simp_all

/-- With the decoder of a connection it is the loop of the model. -/
theorem innerBy_decoder (z : Flate) (cfg : ConnectionConfig) (c : Collect) (buf : Bytes) :
    c.innerBy (cfg.decoder z) buf = c.inner z cfg.maxFrameSize buf := by
  induction hn : buf.length using Nat.strongRecOn generalizing c buf with
  | ind n ih =>
    by_cases hstop : buf = [] ∨ ¬ c.received < c.window
    · rw [innerBy_stop hstop, inner_stop z cfg.maxFrameSize c buf hstop]
    · rw [not_or, not_not] at hstop
      obtain ⟨hb, hr⟩ := hstop
      rw [inner_eq z cfg.maxFrameSize hb hr]
      rcases hd : decodeWithLimit z buf cfg.maxFrameSize with ⟨e | _ | f, r⟩
      · exact innerBy_error hb hr (congrArg Prod.fst hd)
      · exact innerBy_none hb hr (congrArg Prod.fst hd)
      · cases f with
        | json seq data =>
          have hlt := decode_some_shrinks hd
          rw [innerBy_json hb hr hd]
          cases hp : c.push seq data with
          | error e =>
            simp only [hp]
            rfl
          | ok c' =>
            simp only [hp]
            exact ih r.length (by omega) c' r rfl
        | _ => exact innerBy_other hb hr (by simp) hd

theorem frameBy_decoder (z : Flate) (cfg : ConnectionConfig) (c : Collect) (f : Frame) :
    c.frameBy (cfg.decoder z) f = c.frame z cfg.maxFrameSize f := by
  cases f with
  | compressed bytes => exact innerBy_decoder z cfg c bytes
  | _ => rfl

theorem innerBy_within {odd : Error → Prop} (h : d.Within odd d') (c : Collect) (buf : Bytes) :
    UpTo odd (c.innerBy d buf) (c.innerBy d' buf) := by
  induction hn : buf.length using Nat.strongRecOn generalizing c buf with
  | ind n ih =>
    by_cases hstop : buf = [] ∨ ¬ c.received < c.window
    · rw [innerBy_stop hstop, innerBy_stop hstop]
      exact .refl _ _
    · rw [not_or, not_not] at hstop
      obtain ⟨hb, hr⟩ := hstop
      have hans := h.answer buf
      rcases hd : d.decode buf with ⟨e | _ | f, r⟩
      · rw [innerBy_error hb hr (congrArg Prod.fst hd)]
        rcases hans.error (congrArg Prod.fst hd) with ho | he
        · exact .stopped ho _
        · rw [innerBy_error hb hr he]
          exact .refl _ _
      · rw [innerBy_none hb hr (congrArg Prod.fst hd),
          innerBy_none hb hr (hans.ok (congrArg Prod.fst hd))]
        exact .refl _ _
      · cases f with
        | json seq data =>
          have hlt := d.some_shrinks hd
          rw [innerBy_json hb hr hd, innerBy_json hb hr (h.rest hd)]
          cases c.push seq data with
          | error e => exact .refl _ _
          | ok c' => exact ih r.length (by omega) c' r rfl
        | _ =>
          rw [innerBy_other hb hr (by simp) hd, innerBy_other hb hr (by simp) (h.rest hd)]
          exact .refl _ _

theorem frameBy_within {odd : Error → Prop} (h : d.Within odd d') (c : Collect) (f : Frame) :
    UpTo odd (c.frameBy d f) (c.frameBy d' f) := by
  cases f with
  | compressed bytes => exact innerBy_within h c bytes
  | _ => exact .refl _ _

end Collect

namespace Position

/-- A full window is dispatched before the next frame is read. -/
def owed : Position → Nat
  | .inside c => if c.received < c.window then 0 else 1
  | _ => 0

theorem owed_le (pos : Position) : pos.owed ≤ 1 := by
  cases pos with
  | inside c =>
    simp only [owed]
    split <;> omega
  | _ => exact Nat.zero_le _

/-- What one frame does to a loop that is waiting for it. -/
def advanceBy (d : Decoder UInt8 Error Frame) : Position → Frame → Position
  | .window, .window n => .inside (.start n)
  | .window, _ => .stopped (.error (.unexpectedFrame "expected Window at batch start"))
  | .inside c, f =>
    match c.frameBy d f with
    | .ok c => .inside c
    | .error e => .stopped (.error e)
  | .stopped r, _ => .stopped r

/-- The error `framed.next()` returns at the end of the stream. -/
def leftover (d : Decoder UInt8 Error Frame) (b : Bytes) : Option Error :=
  if b.isEmpty then none else some d.remaining

/-- The loop on this input, and then the end of the stream. -/
def outcomeBy (d : Decoder UInt8 Error Frame) (pos : Position) (b : Bytes) : Outcome :=
  match pos with
  | .stopped r => ⟨[], r⟩
  | .window =>
    match _h : d.decode b with
    | (.ok (some f), r) => outcomeBy d (advanceBy d .window f) r
    | (.ok none, _) => ⟨[], Position.window.ended (leftover d b)⟩
    | (.error e, _) => ⟨[], .error e⟩
  | .inside c =>
    if c.received < c.window then
      match _h : d.decode b with
      | (.ok (some f), r) => outcomeBy d (advanceBy d (.inside c) f) r
      | (.ok none, _) => ⟨[], (Position.inside c).ended (leftover d b)⟩
      | (.error e, _) => ⟨[], .error e⟩
    else (outcomeBy d .window b).after [c.dispatch]
termination_by 2 * b.length + pos.owed
decreasing_by
  · have hs := d.some_shrinks _h
    have ho := (advanceBy d .window f).owed_le
    omega
  · have hs := d.some_shrinks _h
    have ho := (advanceBy d (.inside c) f).owed_le
    omega
  · rename_i hfull
    have ho : (Position.inside c).owed = 1 := if_neg hfull
    have hw : Position.window.owed = 0 := rfl
    omega

variable {d d' : Decoder UInt8 Error Frame} {pos : Position} {b : Bytes}

theorem outcomeBy_stopped (d : Decoder UInt8 Error Frame) (r : Result Unit) (b : Bytes) :
    (stopped r).outcomeBy d b = ⟨[], r⟩ := by
  rw [outcomeBy]

theorem outcomeBy_full {c : Collect} (d : Decoder UInt8 Error Frame) (h : ¬ c.received < c.window)
    (b : Bytes) : (inside c).outcomeBy d b = (window.outcomeBy d b).after [c.dispatch] := by
  conv_lhs => rw [outcomeBy]
  exact if_neg h

theorem outcomeBy_frame (hopen : pos.Open) {f : Frame} {r : Bytes}
    (hd : d.decode b = (.ok (some f), r)) :
    pos.outcomeBy d b = (advanceBy d pos f).outcomeBy d r := by
  cases pos with
  | stopped res => rw [outcomeBy_stopped, advanceBy, outcomeBy_stopped]
  | window =>
    rw [outcomeBy]
    split <;> simp_all
  | inside c =>
    rw [outcomeBy]
    simp only [show c.received < c.window from hopen, if_true]
    split <;> simp_all

theorem outcomeBy_none (hopen : pos.Open) (hd : (d.decode b).1 = .ok none) :
    pos.outcomeBy d b = ⟨[], pos.ended (leftover d b)⟩ := by
  cases pos with
  | stopped res => exact outcomeBy_stopped d res b
  | window =>
    rw [outcomeBy]
    split <;> simp_all
  | inside c =>
    rw [outcomeBy]
    simp only [show c.received < c.window from hopen, if_true]
    split <;> simp_all

theorem outcomeBy_error (hopen : pos.Open) {e : Error} (hd : (d.decode b).1 = .error e) :
    pos.outcomeBy d b = ⟨[], pos.ended (some e)⟩ := by
  cases pos with
  | stopped res => exact outcomeBy_stopped d res b
  | window =>
    rw [outcomeBy]
    split <;> simp_all [ended]
  | inside c =>
    rw [outcomeBy]
    simp only [show c.received < c.window from hopen, if_true]
    split <;> simp_all [ended]

/-- Induction over the rounds of the loop. -/
theorem loop_induct (d : Decoder UInt8 Error Frame) {motive : Position → Bytes → Prop}
    (stopped : ∀ r b, motive (.stopped r) b)
    (full : ∀ {c b}, ¬ c.received < c.window → motive .window b → motive (.inside c) b)
    (frame : ∀ {pos b f r}, pos.Open → d.decode b = (.ok (some f), r) →
      motive (advanceBy d pos f) r → motive pos b)
    (ended : ∀ {pos b}, pos.Open → (∀ f r, d.decode b ≠ (.ok (some f), r)) → motive pos b)
    (pos : Position) (b : Bytes) : motive pos b := by
  induction hn : 2 * b.length + pos.owed using Nat.strongRecOn generalizing pos b with
  | ind n ih =>
    have waits (hopen : pos.Open) : motive pos b := by
      by_cases hd : ∃ f r, d.decode b = (.ok (some f), r)
      · obtain ⟨f, r, hd⟩ := hd
        have hs := d.some_shrinks hd
        have ho := (advanceBy d pos f).owed_le
        exact frame hopen hd (ih _ (by omega) _ r rfl)
      · exact ended hopen (by simpa using hd)
    cases pos with
    | stopped r => exact stopped r b
    | window => exact waits trivial
    | inside c =>
      by_cases hc : c.received < c.window
      · exact waits hc
      · have ho : (Position.inside c).owed = 1 := if_neg hc
        have hw : Position.window.owed = 0 := rfl
        exact full hc (ih _ (by omega) .window b rfl)

theorem advanceBy_decoder (z : Flate) (cfg : ConnectionConfig) (pos : Position) (f : Frame) :
    advanceBy (cfg.decoder z) pos f = pos.advance z cfg f := by
  cases pos with
  | window => cases f <;> rfl
  | stopped r => rfl
  | inside c =>
    cases hf : c.frame z cfg.maxFrameSize f with
    | error e => simp only [advanceBy, advance, Collect.frameBy_decoder, hf]
    | ok c' => simp only [advanceBy, advance, Collect.frameBy_decoder, hf]

/-- With the decoder of a connection it is the loop of the model. -/
theorem outcomeBy_decoder (z : Flate) (cfg : ConnectionConfig) (pos : Position) (b : Bytes) :
    pos.outcomeBy (cfg.decoder z) b = pos.outcome z cfg b := by
  refine loop_induct (cfg.decoder z)
    (motive := fun pos b => pos.outcomeBy (cfg.decoder z) b = pos.outcome z cfg b) ?_ ?_ ?_ ?_ pos b
  · intro r b
    exact outcomeBy_stopped _ r b
  · intro c b hc ih
    rw [outcomeBy_full _ hc, ih, outcome_full hc]
  · intro pos b f r hopen hd ih
    rw [outcomeBy_frame hopen hd, ih, outcome_frame hopen hd, advanceBy_decoder]
  · intro pos b hopen hd
    rcases hdec : (cfg.decoder z).decode b with ⟨e | _ | f, r⟩
    · have he : ((cfg.decoder z).decodeEof b).1 = (some e).map .error := by
        rw [Decoder.decodeEof_error _ hdec]
        rfl
      rw [outcomeBy_error hopen (congrArg Prod.fst hdec), outcome_end hopen he]
    · have he : ((cfg.decoder z).decodeEof b).1 = (leftover (cfg.decoder z) b).map .error := by
        rw [Decoder.decodeEof_none _ hdec, leftover]
        split <;> rfl
      rw [outcomeBy_none hopen (congrArg Prod.fst hdec), outcome_end hopen he]
    · exact absurd hdec (hd f r)

/-- More input can only add batches. -/
theorem outcomeBy_append (d : Decoder UInt8 Error Frame) (pos : Position) (b t : Bytes) :
    (pos.outcomeBy d b).batches <+: (pos.outcomeBy d (b ++ t)).batches := by
  refine loop_induct d (motive := fun pos b => (pos.outcomeBy d b).batches <+:
    (pos.outcomeBy d (b ++ t)).batches) ?_ ?_ ?_ ?_ pos b
  · intro r b
    have hsame : (stopped r).outcomeBy d (b ++ t) = (stopped r).outcomeBy d b := by
      rw [outcomeBy_stopped, outcomeBy_stopped]
    exact hsame ▸ List.prefix_refl _
  · intro c b hc ih
    rw [outcomeBy_full d hc, outcomeBy_full d hc]
    exact (List.prefix_append_right_inj _).mpr ih
  · intro pos b f r hopen hd ih
    rwa [outcomeBy_frame hopen hd, outcomeBy_frame hopen (d.some_append hd t)]
  · intro pos b hopen hd
    have hnil : (pos.outcomeBy d b).batches = [] := by
      rcases hdec : d.decode b with ⟨e | _ | f, r⟩
      · rw [outcomeBy_error hopen (congrArg Prod.fst hdec)]
      · rw [outcomeBy_none hopen (congrArg Prod.fst hdec)]
      · exact absurd hdec (hd f r)
    rw [hnil]
    exact List.nil_prefix

theorem advanceBy_within {odd : Error → Prop} (h : d.Within odd d') (pos : Position) (f : Frame) :
    advanceBy d pos f = advanceBy d' pos f ∨
      ∃ e, odd e ∧ advanceBy d pos f = .stopped (.error e) := by
  cases pos with
  | window => exact .inl (by cases f <;> rfl)
  | stopped r => exact .inl rfl
  | inside c =>
    rcases Collect.frameBy_within h c f with he | ⟨e, ho, he⟩
    · exact .inl (by simp only [advanceBy, he])
    · exact .inr ⟨e, ho, by simp only [advanceBy, he]⟩

/-- The loops dispatch the same batches and end the same way, unless the first stops
with one of its errors; then it has dispatched the first of the batches of the second. -/
theorem outcomeBy_within {odd : Error → Prop} (h : d.Within odd d') (pos : Position) (b : Bytes) :
    pos.outcomeBy d b = pos.outcomeBy d' b ∨
      ∃ e, odd e ∧ (pos.outcomeBy d b).result = .error e ∧
        (pos.outcomeBy d b).batches <+: (pos.outcomeBy d' b).batches := by
  refine loop_induct d (motive := fun pos b => pos.outcomeBy d b = pos.outcomeBy d' b ∨
    ∃ e, odd e ∧ (pos.outcomeBy d b).result = .error e ∧
      (pos.outcomeBy d b).batches <+: (pos.outcomeBy d' b).batches) ?_ ?_ ?_ ?_ pos b
  · intro r b
    exact .inl (by rw [outcomeBy_stopped, outcomeBy_stopped])
  · intro c b hc ih
    rw [outcomeBy_full d hc, outcomeBy_full d' hc]
    rcases ih with ih | ⟨e, ho, hr, hb⟩
    · exact .inl (by rw [ih])
    · exact .inr ⟨e, ho, hr, (List.prefix_append_right_inj _).mpr hb⟩
  · intro pos b f r hopen hd ih
    rw [outcomeBy_frame hopen hd, outcomeBy_frame hopen (h.rest hd)]
    rcases advanceBy_within h pos f with he | ⟨e, ho, he⟩
    · rwa [he] at ih ⊢
    · right
      rw [he, outcomeBy_stopped]
      exact ⟨e, ho, rfl, List.nil_prefix⟩
  · intro pos b hopen hd
    have hans := h.answer b
    rcases hdec : d.decode b with ⟨e | _ | f, r⟩
    · rw [outcomeBy_error hopen (congrArg Prod.fst hdec)]
      rcases hans.error (congrArg Prod.fst hdec) with ho | he
      · cases pos with
        | stopped r => exact .inl (outcomeBy_stopped d' r b).symm
        | _ => exact .inr ⟨e, ho, rfl, List.nil_prefix⟩
      · exact .inl (outcomeBy_error hopen he).symm
    · left
      rw [outcomeBy_none hopen (congrArg Prod.fst hdec),
        outcomeBy_none hopen (hans.ok (congrArg Prod.fst hdec)), leftover, leftover, h.remaining]
    · exact absurd hdec (hd f r)

end Position
end Lumberjack.Server
