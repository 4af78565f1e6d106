import Mathlib.Data.List.Forall2
import Lumberjack.Wire.Codec

/-!
# One parse, and one spelling

The decoder accepts the wire forms and nothing else. Windows, events and
acknowledgements have a single wire form each, which is what `Frame::encode` writes;
a compressed frame has as many as there are zlib images of its bytes. No form is a
proper prefix of another, so a stream is cut into frames in at most one way.
-/
namespace Lumberjack.Wire

open Lumberjack.Stream

variable {z : Flate} {max : Nat}

/-- Frames that are not compressed have one wire form, their encoding. -/
theorem WireForm.eq_encode {f : Frame} {w : Bytes} (h : WireForm z max f w)
    (hf : ∀ inner, f ≠ .compressed inner) : w = f.encode z := by
  cases h with
  | window n => rfl
  | ack seq => rfl
  | json seq len data hl hm => rw [Frame.encode, hl, UInt32.ofNat_toNat]
  | compressed len payload inner hl hm hz => exact absurd rfl (hf inner)

/-- A compressed frame stands for an image within the limit of bytes within the limit. -/
theorem wireForm_compressed_iff {inner w : Bytes} :
    WireForm z max (.compressed inner) w ↔
      ∃ (len : UInt32) (image : Bytes),
        w = protocolVersion :: typeCompressed :: (putU32 len ++ image) ∧
        image.length = len.toNat ∧ len.toNat ≤ max ∧ z.Inflates image inner ∧ inner.length ≤ max := by
  constructor
  · intro h
    cases h with
    | compressed len image _ hl hm hz =>
      obtain ⟨hi, hn⟩ := zlibDecompress_iff.mp hz
      exact ⟨len, image, rfl, hl, hl ▸ hm, hi, hn⟩
  · rintro ⟨len, image, rfl, hl, hm, hi, hn⟩
    exact .compressed len image inner hl (hl ▸ hm) (zlibDecompress_iff.mpr ⟨hi, hn⟩)

/-- No wire form is a proper prefix of another. -/
theorem WireForm.eq_of_front {f f' : Frame} {w w' : Bytes} (h : WireForm z max f w)
    (h' : WireForm z max f' w') (hp : w <+: w') : w = w' := by
  obtain ⟨t, ht⟩ := hp
  have he : w ++ t = w' ++ [] := by rw [ht, List.append_nil]
  exact (h.unique h' he).2.1

/-- A stream is cut into frames in one way. -/
theorem parse_unique {fs fs' : List Frame} {ws ws' : List Bytes}
    (h : List.Forall₂ (WireForm z max) fs ws) (h' : List.Forall₂ (WireForm z max) fs' ws')
    (he : ws.flatten = ws'.flatten) : fs = fs' ∧ ws = ws' := by
  -- a frame against the end of the stream
  have nonempty {f : Frame} {w t : Bytes} (hw : WireForm z max f w) : [] ≠ w ++ t := by
    have hl := wire_length hw
    rintro heq
    simp [(List.append_eq_nil_iff.mp heq.symm).1] at hl
  induction h generalizing fs' ws' with
  | nil =>
    cases h' with
    | nil => exact ⟨rfl, rfl⟩
    | cons hw' h' => exact absurd he (nonempty hw')
  | cons hw h ih =>
    cases h' with
    | nil => exact absurd he.symm (nonempty hw)
    | cons hw' h' =>
      rw [List.flatten_cons, List.flatten_cons] at he
      obtain ⟨rfl, rfl, hrest⟩ := hw.unique hw' he
      obtain ⟨rfl, rfl⟩ := ih h' hrest
      exact ⟨rfl, rfl⟩

/-- Complete frames within the limit, up to a rest that may yet become one. -/
def Readable (z : Flate) (max : Nat) (b : Bytes) : Prop :=
  ∃ fs ws r, List.Forall₂ (WireForm z max) fs ws ∧ b = ws.flatten ++ r ∧
    (decodeWithLimit z r max).1 = .ok none

/-- Decoding a buffer to its end meets no error exactly when it is readable. -/
theorem drain_ok_iff (codec : LumberjackCodec) (b : Bytes) :
    ((codec.decoder z).drain b).error = none ↔ Readable z codec.maxFrameSize b := by
  constructor
  · intro h
    induction hn : b.length using Nat.strongRecOn generalizing b with
    | ind n ih =>
      rcases hd : (codec.decoder z).decode b with ⟨e | _ | f, r⟩
      · rw [Decoder.drain_error _ hd] at h
        cases h
      · exact ⟨[], [], b, .nil, rfl, congrArg Prod.fst hd⟩
      · have hlt := (codec.decoder z).some_shrinks hd
        rw [Decoder.drain_some _ hd, Drained.prepend_error] at h
        obtain ⟨w, hw, rfl⟩ := wire_of_decode hd
        obtain ⟨fs, ws, r', hws, rfl, hr⟩ := ih r.length (hn ▸ hlt) r h rfl
        exact ⟨f :: fs, w :: ws, r', .cons hw hws, by simp, hr⟩
  · rintro ⟨fs, ws, r, hws, rfl, hr⟩
    induction hws with
    | nil =>
      have hd : (codec.decoder z).decode r = (.ok none, _) := Prod.ext hr rfl
      rw [List.flatten_nil, List.nil_append, Decoder.drain_none _ hd]
    | @cons f w fs ws hw hws ih =>
      have hd : (codec.decoder z).decode (w ++ (ws.flatten ++ r)) = (.ok (some f), ws.flatten ++ r) :=
        decode_wire hw _
      rw [List.flatten_cons, List.append_assoc, Decoder.drain_some _ hd, Drained.prepend_error]
      exact ih

/-- **The decoder accepts exactly the wire grammar.** It returns a frame when its
buffer starts with a wire form of that frame, and only then, and leaves what stands
behind it. Other than for compressed frames, the bytes it took are those that the
encoder writes. Each frame takes at least six bytes, no form is a proper prefix of
another, and a stream has at most one parse. -/
theorem decode_exact (z : Flate) (max : Nat) :
    (∀ (b r : Bytes) (f : Frame), decodeWithLimit z b max = (.ok (some f), r) ↔
      ∃ w, WireForm z max f w ∧ b = w ++ r) ∧
    (∀ inner w : Bytes, WireForm z max (.compressed inner) w ↔
      ∃ (len : UInt32) (image : Bytes),
        w = protocolVersion :: typeCompressed :: (putU32 len ++ image) ∧
        image.length = len.toNat ∧ len.toNat ≤ max ∧ z.Inflates image inner ∧ inner.length ≤ max) ∧
    (∀ (b r : Bytes) (f : Frame), (∀ inner, f ≠ .compressed inner) →
      decodeWithLimit z b max = (.ok (some f), r) → b = f.encode z ++ r) ∧
    (∀ (b r : Bytes) (f : Frame), decodeWithLimit z b max = (.ok (some f), r) →
      r.length + 6 ≤ b.length) ∧
    (∀ (f f' : Frame) (w w' : Bytes), WireForm z max f w → WireForm z max f' w' → w <+: w' → w = w') ∧
    (∀ (fs fs' : List Frame) (ws ws' : List Bytes), List.Forall₂ (WireForm z max) fs ws →
      List.Forall₂ (WireForm z max) fs' ws' → ws.flatten = ws'.flatten → fs = fs' ∧ ws = ws') := by
  refine ⟨fun b r f => decode_some_iff, fun inner w => wireForm_compressed_iff, ?_, ?_, ?_, ?_⟩
  · intro b r f hf hd
    obtain ⟨w, hw, rfl⟩ := wire_of_decode hd
    rw [hw.eq_encode hf]
  · intro b r f hd
    exact decode_some_shrinks hd
  · intro f f' w w' hw hw' hp
    exact hw.eq_of_front hw' hp
  · intro fs fs' ws ws' h h' he
    exact parse_unique h h' he

/-- An empty event at a limit of 0, with the start of another frame behind it. -/
theorem decode_exact_sample :
    [50, 74, 0, 0, 0, 7, 0, 0, 0, 0, 50] = (Frame.json 7 []).encode .sample ++ [50] :=
  (decode_exact .sample 0).2.2.1 [50, 74, 0, 0, 0, 7, 0, 0, 0, 0, 50] [50] (.json 7 [])
    (fun inner h => by cases h) (by decide +kernel)

end Lumberjack.Wire
