import Lumberjack.Stream.Decoder
import Lumberjack.Wire.Frame

/-!
# The codec over whole streams

`LumberjackCodec` wraps the frame decoder with its limit. It is an incremental
decoder, so what a stream decodes to does not depend on how the socket cut it.
In the other direction, the encodings of frames that fit the limit are wire
forms, and decoding a concatenation of them gives the frames back.
-/
namespace Lumberjack.Wire

open Lumberjack.Stream

structure LumberjackCodec where
  maxFrameSize : Nat := defaultMaxFrameSize

namespace LumberjackCodec

/-- `Decoder::decode` -/
def decode (z : Flate) (codec : LumberjackCodec) (src : Bytes) : Result (Option Frame) × Bytes :=
  decodeWithLimit z src codec.maxFrameSize

/-- The codec as an incremental decoder. `tokio_util` reports bytes left over at
the end of the input with the error given here. -/
def decoder (z : Flate) (codec : LumberjackCodec) : Decoder UInt8 Error Frame where
  decode := codec.decode z
  remaining := .io "bytes remaining on stream"
  none_keeps := decode_none_keeps
  some_append := decode_some_append
  error_append := decode_error_append
  some_shrinks h := by
    have hs := decode_some_shrinks h
    omega

end LumberjackCodec

/-- **Chunking independence.** Two ways of cutting the same bytes into reads give
the same frames and the same outcome. A request for more bytes leaves the buffer
unchanged; a frame and an error stand whatever bytes follow. -/
theorem codec_chunking (z : Flate) (codec : LumberjackCodec) :
    (∀ s : Bytes, ∀ reads reads' : List Bytes, reads.flatten = s → reads'.flatten = s →
      (codec.decoder z).feed [] reads = (codec.decoder z).feed [] reads') ∧
    (∀ b r : Bytes, codec.decode z b = (.ok none, r) → r = b) ∧
    (∀ (b r : Bytes) (f : Frame), codec.decode z b = (.ok (some f), r) →
      ∀ t, codec.decode z (b ++ t) = (.ok (some f), r ++ t)) ∧
    (∀ (b r : Bytes) (e : Error), codec.decode z b = (.error e, r) →
      ∀ t, (codec.decode z (b ++ t)).1 = .error e) := by
  refine ⟨?_, ?_, ?_, ?_⟩
  · intro s reads reads' hs hs'
    rw [Decoder.feed_eq_drain, Decoder.feed_eq_drain, hs, hs']
  · intro b r h
    exact decode_none_keeps h
  · intro b r f h t
    exact decode_some_append h t
  · intro b r e h t
    exact decode_error_append h t

/-- A keepalive and a truncated window, read byte by byte or at once. -/
theorem codec_chunking_sample :
    (LumberjackCodec.decoder (.pinned [] []) {}).feed []
        [[50], [65, 0, 0], [0, 0, 50], [87, 0]] =
      (LumberjackCodec.decoder (.pinned [] []) {}).feed [] [[50, 65, 0, 0, 0, 0, 50, 87, 0]] :=
  (codec_chunking (.pinned [] []) {}).1 [50, 65, 0, 0, 0, 0, 50, 87, 0] _ _ rfl rfl

/-- The frame's payload, and for a compressed frame also its zlib image, is
within the limit. -/
def Frame.Fits (z : Flate) (max : Nat) : Frame → Prop
  | .json _ data => data.length ≤ max
  | .compressed inner => inner.length ≤ max ∧ (z.zlibCompress inner).length ≤ max
  | .window _ => True
  | .ack _ => True

instance (z : Flate) (max : Nat) : (f : Frame) → Decidable (f.Fits z max)
  | .json _ data => inferInstanceAs (Decidable (data.length ≤ max))
  | .compressed inner =>
    inferInstanceAs (Decidable (inner.length ≤ max ∧ (z.zlibCompress inner).length ≤ max))
  | .window _ => .isTrue trivial
  | .ack _ => .isTrue trivial

/-- The length fields hold the lengths. -/
def Frame.Narrow (z : Flate) : Frame → Prop
  | .json _ data => data.length < 2^32
  | .compressed inner => (z.zlibCompress inner).length < 2^32
  | .window _ => True
  | .ack _ => True

theorem Frame.Fits.narrow {z : Flate} {max : Nat} (hm : max < 2^32) {f : Frame}
    (h : f.Fits z max) : f.Narrow z := by
  cases f with
  | window n => trivial
  | ack seq => trivial
  | json seq data => exact Nat.lt_of_le_of_lt h hm
  | compressed inner => exact Nat.lt_of_le_of_lt h.2 hm

theorem wireForm_encode_json {z : Flate} {max : Nat} {seq : UInt32} {data : Bytes}
    (hf : data.length ≤ max) (hn : data.length < 2^32) :
    WireForm z max (.json seq data) ((Frame.json seq data).encode z) := by
  refine .json seq _ data ?_ hf
  rw [UInt32.toNat_ofNat', Nat.mod_eq_of_lt hn]

/-- The encoding of a frame that fits is a wire form of it. -/
theorem wireForm_encode {z : Flate} (hz : z.Lawful) {max : Nat} {f : Frame}
    (hf : f.Fits z max) (hn : f.Narrow z) : WireForm z max f (f.encode z) := by
  cases f with
  | window n => exact .window n
  | ack seq => exact .ack seq
  | json seq data => exact wireForm_encode_json hf hn
  | compressed inner =>
    refine .compressed _ _ inner ?_ hf.2 (zlibDecompress_compress hz hf.1)
    rw [UInt32.toNat_ofNat', Nat.mod_eq_of_lt hn]

/-- Concatenated encodings, as the client builds them in one buffer. -/
def encodeAll (z : Flate) (fs : List Frame) : Bytes := fs.flatMap (Frame.encode z)

@[simp] theorem encodeAll_nil (z : Flate) : encodeAll z [] = [] := rfl

@[simp] theorem encodeAll_cons (z : Flate) (f : Frame) (fs : List Frame) :
    encodeAll z (f :: fs) = f.encode z ++ encodeAll z fs := rfl

@[simp] theorem encodeAll_append (z : Flate) (fs gs : List Frame) :
    encodeAll z (fs ++ gs) = encodeAll z fs ++ encodeAll z gs := by
  simp [encodeAll]

/-- Draining a buffer that starts with encoded frames returns them first. -/
theorem drain_encodeAll (z : Flate) (codec : LumberjackCodec) (fs : List Frame)
    (hf : ∀ f ∈ fs, WireForm z codec.maxFrameSize f (f.encode z)) (t : Bytes) :
    (codec.decoder z).drain (encodeAll z fs ++ t) = ((codec.decoder z).drain t).prepend fs := by
  induction fs with
  | nil => rfl
  | cons f fs ih =>
    have hd : (codec.decoder z).decode (f.encode z ++ (encodeAll z fs ++ t)) =
        (.ok (some f), encodeAll z fs ++ t) := decode_wire (hf f (by simp)) _
    rw [encodeAll_cons, List.append_assoc, Decoder.drain_some _ hd,
      ih (fun g hg => hf g (by simp [hg]))]
    rfl

theorem drain_nil (z : Flate) (codec : LumberjackCodec) :
    (codec.decoder z).drain [] = ⟨[], none, []⟩ :=
  Decoder.drain_none _ (decode_nil z codec.maxFrameSize)

/-- An event frame with this length field. -/
def jsonWire (seq len : UInt32) (data : Bytes) : Bytes :=
  protocolVersion :: typeJson :: (putU32 seq ++ putU32 len ++ data)

/-- A compressed frame with this length field. -/
def zipWire (len : UInt32) (image : Bytes) : Bytes :=
  protocolVersion :: typeCompressed :: (putU32 len ++ image)

theorem jsonWire_length (seq len : UInt32) (data : Bytes) :
    (jsonWire seq len data).length = data.length + 10 := by
  simp only [jsonWire, List.length_cons, List.length_append, putU32_length]
  omega

theorem decode_jsonWire (z : Flate) (max : Nat) (seq : UInt32) {len : UInt32} {data : Bytes}
    (h : data.length = len.toNat) (t : Bytes) :
    decodeWithLimit z (jsonWire seq len data ++ t) max =
      if len.toNat > max then (.error (.frameTooLarge len.toNat max), jsonWire seq len data ++ t)
      else (.ok (some (.json seq data)), t) := by
  by_cases hm : len.toNat > max
  · have h8 : ¬ 4 + (4 + (data.length + t.length)) < 8 := by omega
    simp only [jsonWire, List.cons_append, List.append_assoc, decode_json, getU32_putU32,
      List.length_append, putU32_length, h8, if_false, hm, if_true]
  · rw [if_neg hm]
    exact decode_wire (.json seq len data h (by omega)) t

theorem decode_zipWire (z : Flate) (max : Nat) {len : UInt32} {image : Bytes}
    (h : image.length = len.toNat) (t : Bytes) :
    decodeWithLimit z (zipWire len image ++ t) max =
      if len.toNat > max then (.error (.frameTooLarge len.toNat max), zipWire len image ++ t)
      else
        match zlibDecompress z image max with
        | .ok inner => (.ok (some (.compressed inner)), t)
        | .error e => (.error e, t) := by
  have hd : (putU32 len ++ (image ++ t)).drop 4 = image ++ t := List.drop_left' (by simp)
  have h4 : ¬ 4 + (image.length + t.length) < 4 := by omega
  have h4' : ¬ 4 + (image.length + t.length) < 4 + image.length := by omega
  cases hz : zlibDecompress z image max <;>
    simp only [zipWire, List.cons_append, List.append_assoc, decode_compressed, getU32_putU32, hd, ← h,
      List.length_append, putU32_length, h4, h4', if_false, List.take_left, List.drop_left, hz]

/-- A compressed frame is refused for its size when its image, or what the image
inflates to, is over the limit. -/
theorem decode_oversized {z : Flate} (hz : z.Lawful) {max : Nat} {inner : Bytes}
    (hn : (z.zlibCompress inner).length < 2^32)
    (h : max < inner.length ∨ max < (z.zlibCompress inner).length) (t : Bytes) :
    ∃ size, max < size ∧ (decodeWithLimit z ((Frame.compressed inner).encode z ++ t) max).1 =
      .error (.frameTooLarge size max) := by
  have hlen := ofNat_exact_iff.mpr hn
  have hd := decode_zipWire z max hlen.symm t
  rw [hlen] at hd
  by_cases hm : (z.zlibCompress inner).length > max
  · rw [if_pos hm] at hd
    exact ⟨_, hm, congrArg Prod.fst hd⟩
  · obtain ⟨size, hs, he⟩ := zlibDecompress_bomb hz (h.resolve_right hm)
    rw [if_neg hm, he] at hd
    exact ⟨size, hs, congrArg Prod.fst hd⟩

theorem decode_json_oversized (z : Flate) {max : Nat} (seq : UInt32) {data : Bytes}
    (hn : data.length < 2^32) (h : max < data.length) (t : Bytes) :
    (decodeWithLimit z ((Frame.json seq data).encode z ++ t) max).1 =
      .error (.frameTooLarge data.length max) := by
  have hlen := ofNat_exact_iff.mpr hn
  have hd := decode_jsonWire z max seq hlen.symm t
  rw [hlen, if_pos h] at hd
  exact congrArg Prod.fst hd

/-- The encoding of a frame is accepted as that frame or refused. -/
theorem decode_encode {z : Flate} (hz : z.Lawful) (max : Nat) {f : Frame} (hn : f.Narrow z) :
    (f.Fits z max ∧ WireForm z max f (f.encode z)) ∨
    ∃ e, ∀ t, (decodeWithLimit z (f.encode z ++ t) max).1 = .error e := by
  by_cases hf : f.Fits z max
  · exact .inl ⟨hf, wireForm_encode hz hf hn⟩
  · right
    cases f with
    | window n => exact absurd trivial hf
    | ack seq => exact absurd trivial hf
    | json seq data => exact ⟨_, decode_json_oversized z seq hn (Nat.lt_of_not_le hf)⟩
    | compressed inner =>
      have hbig : max < inner.length ∨ max < (z.zlibCompress inner).length := by
        simp only [Frame.Fits, not_and_or, Nat.not_le] at hf
        exact hf
      obtain ⟨size, -, he⟩ := decode_oversized hz hn hbig []
      refine ⟨.frameTooLarge size max, fun t => ?_⟩
      rw [List.append_nil] at he
      exact decode_error_append (Prod.ext he rfl) t

/-- Call the decoder `n` times on one buffer. -/
def decodeTimes (z : Flate) (max : Nat) : Nat → Bytes → List (Result (Option Frame)) × Bytes
  | 0, src => ([], src)
  | n + 1, src =>
    let (r, src) := decodeWithLimit z src max
    let (rs, src) := decodeTimes z max n src
    (r :: rs, src)

/-- **Decoding undoes encoding.** One call for each frame returns the frames in
order and leaves what stood behind them, whatever it is. -/
theorem decodeTimes_encodeAll (z : Flate) (hz : z.Lawful) (max : Nat) (hm : max < 2^32)
    (fs : List Frame) (hf : ∀ f ∈ fs, f.Fits z max) (t : Bytes) :
    decodeTimes z max fs.length (encodeAll z fs ++ t) = (fs.map (fun f => .ok (some f)), t) := by
  induction fs with
  | nil => rfl
  | cons f fs ih =>
    have hfit := hf f (by simp)
    have hd := decode_wire (wireForm_encode hz hfit (hfit.narrow hm)) (encodeAll z fs ++ t)
    have hrest := ih (fun g hg => hf g (by simp [hg]))
    simp only [encodeAll_cons, List.append_assoc, List.length_cons, decodeTimes, hd, hrest,
      List.map_cons]

/-- One event frame `J(1, "{}")` and its zlib image at level 3. -/
def sampleInner : Bytes := [50, 74, 0, 0, 0, 1, 0, 0, 0, 2, 123, 125]

def sampleImage : Bytes :=
  [120, 94, 51, 242, 98, 96, 96, 96, 4, 98, 166, 234, 90, 0, 7, 18, 1, 120]

def Flate.sample : Flate := .pinned sampleInner sampleImage

theorem Flate.sample_lawful : Flate.sample.Lawful :=
  pinned_lawful _ _ (by simp [sampleImage])

/-- The image of the compressed frame has exactly as many bytes as the limit
admits, and the bytes behind the frames look like another header. -/
theorem decodeTimes_encodeAll_sample :
    decodeTimes .sample 18 4
        (encodeAll .sample [.window 2, .json 1 [123, 125], .compressed sampleInner, .ack 0] ++
          [50, 74]) =
      ([.ok (some (.window 2)), .ok (some (.json 1 [123, 125])),
        .ok (some (.compressed sampleInner)), .ok (some (.ack 0))], [50, 74]) :=
  decodeTimes_encodeAll .sample Flate.sample_lawful 18 (by decide)
    [.window 2, .json 1 [123, 125], .compressed sampleInner, .ack 0] (by decide) [50, 74]

end Lumberjack.Wire
