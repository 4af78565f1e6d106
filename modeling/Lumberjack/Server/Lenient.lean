import Lumberjack.Server.Loop

/-!
# What a larger limit changes

`max_frame_size` is compared in three places: with the length field of an event frame,
with that of a compressed frame, and with what has been inflated so far. Under a larger
limit each of these comparisons passes whenever it passed before, so a connection goes
the same way up to the frame that was too large, and differs only from there on.
-/
namespace Lumberjack.Wire

open Lumberjack.Stream

/-- The errors the limit raises. -/
def TooLarge (max : Nat) (e : Error) : Prop := ∃ size, max < size ∧ e = .frameTooLarge size max

variable {z : Flate} {max max' : Nat}

theorem inflateLoop_lenient (hm : max ≤ max') (ending : Except String Unit) (cs : List Bytes)
    (out : Bytes) :
    UpTo (TooLarge max) (inflateLoop max ending cs out) (inflateLoop max' ending cs out) := by
  induction cs generalizing out with
  | nil => exact .refl _ _
  | cons c cs ih =>
    simp only [inflateLoop]
    by_cases hc : out.length + c.length > max
    · rw [if_pos hc]
      exact .stopped ⟨_, hc, rfl⟩ _
    · rw [if_neg hc, if_neg (by omega)]
      exact ih _

theorem zlibDecompress_lenient (hm : max ≤ max') (input : Bytes) :
    UpTo (TooLarge max) (zlibDecompress z input max) (zlibDecompress z input max') :=
  inflateLoop_lenient hm _ _ _

theorem WireForm.lenient (hm : max ≤ max') {f : Frame} {w : Bytes} (h : WireForm z max f w) :
    WireForm z max' f w := by
  cases h with
  | window n => exact .window n
  | ack seq => exact .ack seq
  | json seq len data hl hd => exact .json seq len data hl (Nat.le_trans hd hm)
  | compressed len payload inner hl hp hz =>
    exact .compressed len payload inner hl (Nat.le_trans hp hm) ((zlibDecompress_lenient hm payload).ok hz)

theorem decode_lenient (hm : max ≤ max') (b : Bytes) :
    UpTo (TooLarge max) (decodeWithLimit z b max).1 (decodeWithLimit z b max').1 := by
  cases header b with
  | short hs =>
    rw [decode_short z max hs, decode_short z max' hs]
    exact .refl _ _
  | version hv =>
    rw [decode_bad_version z max _ hv, decode_bad_version z max' _ hv]
    exact .refl _ _
  | unknown hw hj ha hc =>
    rw [decode_unknown z max _ hw hj ha hc, decode_unknown z max' _ hw hj ha hc]
    exact .refl _ _
  | window body =>
    rw [decode_window, decode_window]
    exact .refl _ _
  | ack body =>
    rw [decode_ack, decode_ack]
    exact .refl _ _
  | json body =>
    simp only [decode_json]
    by_cases hl : (getU32 (getU32 body).2).1.toNat > max
    · split
      · exact .refl _ _
      · exact .stopped ⟨_, hl, rfl⟩ _
    · rw [if_neg hl, if_neg (show ¬ (getU32 (getU32 body).2).1.toNat > max' by omega)]
      exact .refl _ _
  | compressed body =>
    simp only [decode_compressed]
    by_cases hl : (getU32 body).1.toNat > max
    · split
      · exact .refl _ _
      · exact .stopped ⟨_, hl, rfl⟩ _
    · rw [if_neg hl, if_neg (show ¬ (getU32 body).1.toNat > max' by omega)]
      split
      · exact .refl _ _
      · split
        · exact .refl _ _
        · rcases zlibDecompress_lenient (z := z) hm ((body.drop 4).take (getU32 body).1.toNat) with
            he | ⟨e, ho, he⟩
          · rw [he]
            exact .refl _ _
          · rw [he]
            exact .stopped ho _

theorem decode_lenient_some (hm : max ≤ max') {b r : Bytes} {f : Frame}
    (h : decodeWithLimit z b max = (.ok (some f), r)) : decodeWithLimit z b max' = (.ok (some f), r) := by
  obtain ⟨w, hw, rfl⟩ := wire_of_decode h
  exact decode_wire (hw.lenient hm) r

end Lumberjack.Wire

namespace Lumberjack.Server

open Lumberjack.Stream Lumberjack.Wire

/-- The decoder with the smaller limit is within the other. -/
theorem ConnectionConfig.lenient (z : Flate) (cfg cfg' : ConnectionConfig)
    (hm : cfg.maxFrameSize ≤ cfg'.maxFrameSize) :
    (cfg.decoder z).Within (TooLarge cfg.maxFrameSize) (cfg'.decoder z) :=
  ⟨decode_lenient hm, decode_lenient_some hm, rfl⟩

/-- The limit is not in the acknowledgements. -/
theorem ackStream_limit (max max' : Nat) (keepalive : Option Nat) (env : Nat → Nat × Release)
    (ds : List Dispatch) : ackStream ⟨max, keepalive⟩ env ds = ackStream ⟨max', keepalive⟩ env ds := by
  induction ds generalizing env with
  | nil => rfl
  | cons d ds ih =>
    simp only [ackStream, ih]
    rfl

theorem ackStream_front (cfg : ConnectionConfig) (env : Nat → Nat × Release) {ds es : List Dispatch}
    (h : ds <+: es) : ackStream cfg env ds <+: ackStream cfg env es := by
  induction ds generalizing env es with
  | nil => exact List.nil_prefix
  | cons d ds ih =>
    obtain ⟨t, rfl⟩ := h
    exact (List.prefix_append_right_inj _).mpr (ih _ (List.prefix_append ds t))

/-- **Raising `max_frame_size` loses nothing.** For every byte stream, however it arrives,
and any two limits of which the second is at least the first: the connection with the
larger limit dispatches the same batches, writes the same acknowledgements and ends with
the same result, unless the smaller limit was exceeded; then the first connection ends
with `FrameTooLarge`, naming its limit and a larger size, and its batches are the first
of those of the second. In particular a stream that is accepted stays accepted. -/
theorem larger_limit_keeps_batches (z : Flate) (max max' : Nat) (hm : max ≤ max')
    (keepalive : Option Nat) (env : Nat → Nat × Release) (reads reads' : List Bytes)
    (hr : reads.flatten = reads'.flatten) :
    let small := runConnection z ⟨max, keepalive⟩ env (.ofReads reads)
    let large := runConnection z ⟨max', keepalive⟩ env (.ofReads reads')
    small = large ∨
      (∃ size, max < size ∧ small.result = .error (.frameTooLarge size max)) ∧
        small.batches <+: large.batches ∧ small.written <+: large.written := by
  intro small large
  have hsmall : small = runConnection z ⟨max, keepalive⟩ env (.ofReads [reads.flatten]) :=
    runConnection_congr env (by simp [Source.pending, Source.ofReads])
  have hlarge : large = runConnection z ⟨max', keepalive⟩ env (.ofReads [reads.flatten]) :=
    runConnection_congr env (by simp [Source.pending, Source.ofReads, hr])
  rw [hsmall, hlarge, runConnection_outcome, runConnection_outcome, ackStream_limit max max',
    ← Position.outcomeBy_decoder, ← Position.outcomeBy_decoder]
  have hwithin := ConnectionConfig.lenient z ⟨max, keepalive⟩ ⟨max', keepalive⟩ hm
  rcases Position.outcomeBy_within hwithin .window reads.flatten with
    he | ⟨e, ⟨size, hlt, rfl⟩, hres, hb⟩
  · exact .inl (by rw [he])
  · exact .inr ⟨⟨size, hlt, hres⟩, hb, ackStream_front _ env hb⟩

/-- One window of one event of two bytes, under a limit of one byte and under the default. -/
theorem larger_limit_keeps_batches_sample :
    (runConnection .sample ⟨1, none⟩ prompt
        (.ofReads [encodeAll .sample [.window 1, .json 1 [123, 125]]])).batches <+:
      (runConnection .sample ⟨defaultMaxFrameSize, none⟩ prompt
        (.ofReads [encodeAll .sample [.window 1], encodeAll .sample [.json 1 [123, 125]]])).batches := by
  rcases larger_limit_keeps_batches .sample 1 defaultMaxFrameSize (by decide) none prompt
    [encodeAll .sample [.window 1, .json 1 [123, 125]]]
    [encodeAll .sample [.window 1], encodeAll .sample [.json 1 [123, 125]]] (by decide) with he | ⟨-, hb, -⟩
  · exact he ▸ List.prefix_refl _
  · exact hb

end Lumberjack.Server
