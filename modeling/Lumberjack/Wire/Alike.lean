import Mathlib.Data.List.Forall2
import Lumberjack.Wire.Codec

/-!
# Streams that differ in payloads only

Two byte strings built from the same frames, where the payloads of event frames may
differ at equal lengths, and zlib images as a second relation says. The decoder
answers both alike: the same frame up to its payload, an error on both sides, or a
request for more bytes on both. No answer depends on a byte of a payload.
-/
namespace Lumberjack.Wire

open Lumberjack.Stream

/-- A complete frame on the wire, whether or not it is within a limit. -/
inductive Whole : Bytes → Prop where
  | window (n : UInt32) : Whole (protocolVersion :: typeWindow :: putU32 n)
  | ack (seq : UInt32) : Whole (protocolVersion :: typeAck :: putU32 seq)
  | json (seq : UInt32) {len : UInt32} {data : Bytes} : data.length = len.toNat →
      Whole (jsonWire seq len data)
  | compressed {len : UInt32} {image : Bytes} : image.length = len.toNat → Whole (zipWire len image)

/-- The same frames up to payloads of event frames, which `R` relates, and zlib images,
which `C` relates; whatever is left at the end is the same. -/
inductive Alike (R C : Bytes → Bytes → Prop) : Bytes → Bytes → Prop where
  | rest (t : Bytes) : Alike R C t t
  | frame {w t t' : Bytes} : Whole w → Alike R C t t' → Alike R C (w ++ t) (w ++ t')
  | json (seq : UInt32) {len : UInt32} {data data' t t' : Bytes} : data.length = len.toNat →
      data'.length = len.toNat → R data data' → Alike R C t t' →
      Alike R C (jsonWire seq len data ++ t) (jsonWire seq len data' ++ t')
  | compressed {len len' : UInt32} {image image' t t' : Bytes} : image.length = len.toNat →
      image'.length = len'.toNat → C image image' → Alike R C t t' →
      Alike R C (zipWire len image ++ t) (zipWire len' image' ++ t')

/-- No zlib image is exchanged. -/
def NoImage (_ _ : Bytes) : Prop := False

/-- Images within the limit that inflate to the same event frames up to payloads. -/
def Images (z : Flate) (max : Nat) (R : Bytes → Bytes → Prop) (image image' : Bytes) : Prop :=
  image.length ≤ max ∧ image'.length ≤ max ∧ ∃ inner inner',
    z.Inflates image inner ∧ z.Inflates image' inner' ∧ Alike R NoImage inner inner'

/-- A complete frame decodes the same whatever stands behind it. -/
theorem decode_whole (z : Flate) (max : Nat) {w : Bytes} (h : Whole w) :
    (∃ f, ∀ t, decodeWithLimit z (w ++ t) max = (.ok (some f), t)) ∨
    ∃ e, ∀ t, (decodeWithLimit z (w ++ t) max).1 = .error e := by
  cases h with
  | window n => exact .inl ⟨_, decode_wire (.window n)⟩
  | ack seq => exact .inl ⟨_, decode_wire (.ack seq)⟩
  | @json seq len data hl =>
    by_cases hm : len.toNat > max
    · exact .inr ⟨_, fun t => by rw [decode_jsonWire z max seq hl, if_pos hm]⟩
    · exact .inl ⟨_, fun t => by rw [decode_jsonWire z max seq hl, if_neg hm]⟩
  | @compressed len image hl =>
    by_cases hm : len.toNat > max
    · exact .inr ⟨_, fun t => by rw [decode_zipWire z max hl, if_pos hm]⟩
    · cases hz : zlibDecompress z image max with
      | ok inner =>
        exact .inl ⟨.compressed inner, fun t => by rw [decode_zipWire z max hl, if_neg hm]; simp only [hz]⟩
      | error e => exact .inr ⟨e, fun t => by rw [decode_zipWire z max hl, if_neg hm]; simp only [hz]⟩

/-- Both succeed, with related values, or both fail, with related errors. -/
inductive Agree {α β : Type} (P : α → β → Prop) (E : Error → Error → Prop) :
    Result α → Result β → Prop where
  | ok {a : α} {b : β} : P a b → Agree P E (.ok a) (.ok b)
  | error {e e' : Error} : E e e' → Agree P E (.error e) (.error e')

theorem Agree.eq {α : Type} {x y : Result α} (h : Agree (· = ·) (· = ·) x y) : x = y := by
  cases h with
  | ok h => rw [h]
  | error h => rw [h]

/-- Equal, or refusals for the size at the same limit. -/
def SameButSize (max : Nat) (e e' : Error) : Prop :=
  e = e' ∨ ∃ size size', max < size ∧ max < size' ∧ e = .frameTooLarge size max ∧
    e' = .frameTooLarge size' max

/-- The same frame up to the payload of an event and the contents of a compressed frame. -/
inductive Frame.Alike (R K : Bytes → Bytes → Prop) : Frame → Frame → Prop where
  | same (f : Frame) : Frame.Alike R K f f
  | json (seq : UInt32) {data data' : Bytes} : data.length = data'.length → R data data' →
      Frame.Alike R K (.json seq data) (.json seq data')
  | compressed {inner inner' : Bytes} : K inner inner' →
      Frame.Alike R K (.compressed inner) (.compressed inner')

section Answers

variable {z : Flate} {max : Nat} {R C K : Bytes → Bytes → Prop} {E : Error → Error → Prop}
variable {b b' : Bytes}

theorem Alike.length_eq (h : Alike R NoImage b b') : b.length = b'.length := by
  induction h with
  | rest t => rfl
  | frame hw h ih => rw [List.length_append, List.length_append, ih]
  | json seq hl hl' hr h ih =>
    rw [List.length_append, List.length_append, jsonWire_length, jsonWire_length, hl, hl', ih]
  | compressed hl hl' hc h ih => cases hc

/-- The decoder gives both the same kind of answer. -/
theorem decode_alike (z : Flate) (max : Nat) (hE : ∀ e, E e e)
    (hC : ∀ {image image'}, C image image' → image.length ≤ max ∧ image'.length ≤ max ∧
      Agree K E (zlibDecompress z image max) (zlibDecompress z image' max))
    (h : Alike R C b b') :
    (∃ f f' r r', decodeWithLimit z b max = (.ok (some f), r) ∧
      decodeWithLimit z b' max = (.ok (some f'), r') ∧ f.Alike R K f' ∧ Alike R C r r') ∨
    (∃ e e', (decodeWithLimit z b max).1 = .error e ∧ (decodeWithLimit z b' max).1 = .error e' ∧
      E e e') ∨
    (b = b' ∧ (decodeWithLimit z b max).1 = .ok none) := by
  cases h with
  | rest t =>
    rcases hd : decodeWithLimit z b max with ⟨e | _ | f, r⟩
    · exact .inr (.inl ⟨e, e, rfl, rfl, hE e⟩)
    · exact .inr (.inr ⟨rfl, rfl⟩)
    · exact .inl ⟨f, f, r, r, rfl, rfl, .same f, .rest r⟩
  | @frame w t t' hw h =>
    rcases decode_whole z max hw with ⟨f, hf⟩ | ⟨e, he⟩
    · exact .inl ⟨f, f, t, t', hf t, hf t', .same f, h⟩
    · exact .inr (.inl ⟨e, e, he t, he t', hE e⟩)
  | @json seq len data data' t t' hl hl' hr h =>
    rw [decode_jsonWire z max seq hl, decode_jsonWire z max seq hl']
    by_cases hm : len.toNat > max
    · rw [if_pos hm, if_pos hm]
      exact .inr (.inl ⟨_, _, rfl, rfl, hE _⟩)
    · rw [if_neg hm, if_neg hm]
      exact .inl ⟨_, _, t, t', rfl, rfl, .json seq (hl.trans hl'.symm) hr, h⟩
  | @compressed len len' image image' t t' hl hl' hc h =>
    obtain ⟨hm, hm', hz⟩ := hC hc
    rw [decode_zipWire z max hl, decode_zipWire z max hl', if_neg (by omega), if_neg (by omega)]
    generalize zlibDecompress z image max = x at hz
    generalize zlibDecompress z image' max = x' at hz
    cases hz with
    | ok hk => exact .inl ⟨_, _, t, t', rfl, rfl, .compressed hk, h⟩
    | error he => exact .inr (.inl ⟨_, _, rfl, rfl, he⟩)

theorem Images.sizes {image image' : Bytes} (h : Images z max R image image') :
    image.length ≤ max ∧ image'.length ≤ max := ⟨h.1, h.2.1⟩

/-- Both images inflate, to contents that are alike, or both are refused for the size. -/
theorem Images.decompress {image image' : Bytes} (h : Images z max R image image') :
    Agree (Alike R NoImage) (SameButSize max) (zlibDecompress z image max)
      (zlibDecompress z image' max) := by
  obtain ⟨-, -, inner, inner', hi, hi', halike⟩ := h
  have hlen := halike.length_eq
  by_cases hm : inner.length ≤ max
  · rw [zlibDecompress_iff.mpr ⟨hi, hm⟩, zlibDecompress_iff.mpr ⟨hi', hlen ▸ hm⟩]
    exact .ok halike
  · obtain ⟨size, hs, he⟩ := hi.exceeds (Nat.lt_of_not_le hm)
    obtain ⟨size', hs', he'⟩ := hi'.exceeds (hlen ▸ Nat.lt_of_not_le hm)
    rw [he, he']
    exact .error (.inr ⟨size, size', hs, hs', rfl, rfl⟩)

/-- The contents are within the limit, or the library reads both images in pieces of the
same lengths. -/
def Even (z : Flate) (max : Nat) (image image' : Bytes) : Prop :=
  (z.zlibDecoder image).reads.flatten.length ≤ max ∨
    (z.zlibDecoder image).reads.map List.length = (z.zlibDecoder image').reads.map List.length

/-- Then a refusal is at the same size as well. -/
theorem Images.decompress_even {image image' : Bytes} (h : Images z max R image image')
    (heven : Even z max image image') :
    Agree (Alike R NoImage) (· = ·) (zlibDecompress z image max) (zlibDecompress z image' max) := by
  obtain ⟨-, -, inner, inner', hi, hi', halike⟩ := h
  have hlen := halike.length_eq
  rcases heven with hm | hr
  · rw [hi.content] at hm
    rw [zlibDecompress_iff.mpr ⟨hi, hm⟩, zlibDecompress_iff.mpr ⟨hi', hlen ▸ hm⟩]
    exact .ok halike
  · rw [hi.decompress, hi'.decompress, hr]
    cases overflowAt max ((z.zlibDecoder image').reads.map List.length) 0 with
    | none => exact .ok halike
    | some size => exact .error rfl

end Answers
/-- Cut a byte string into reads of these lengths. -/
def cutReads : List Nat → Bytes → List Bytes
  | [], _ => []
  | n :: ns, b => b.take n :: cutReads ns (b.drop n)

def total : List Nat → Nat
  | [] => 0
  | n :: ns => n + total ns

theorem cutReads_lengths {ns : List Nat} {b : Bytes} (h : total ns = b.length) :
    (cutReads ns b).map List.length = ns := by
  induction ns generalizing b with
  | nil => rfl
  | cons n ns ih =>
    rw [total] at h
    rw [cutReads, List.map_cons, ih (by rw [List.length_drop]; omega), List.length_take,
      Nat.min_eq_left (by omega)]

theorem cutReads_flatten {ns : List Nat} {b : Bytes} (h : total ns = b.length) :
    (cutReads ns b).flatten = b := by
  induction ns generalizing b with
  | nil => exact (List.eq_nil_of_length_eq_zero h.symm).symm
  | cons n ns ih =>
    rw [total] at h
    rw [cutReads, List.flatten_cons, ih (by rw [List.length_drop]; omega), List.take_append_drop]

/-- A reader that yields the bytes in pieces of these lengths. -/
def Reader.cut (ns : List Nat) (b : Bytes) (hb : total ns = b.length)
    (hn : ∀ n ∈ ns, 0 < n ∧ n ≤ 8192) : Reader where
  reads := cutReads ns b
  ending := .ok ()
  sized := by
    intro c hc
    apply hn
    rw [← cutReads_lengths hb]
    exact List.mem_map_of_mem hc

/-- An event frame of 40960 bytes. -/
def bulk (x : UInt8) : Bytes := jsonWire 1 40950 (List.replicate 40950 x)

theorem bulk_length (x : UInt8) : (bulk x).length = 40960 := by
  rw [bulk, jsonWire_length, List.length_replicate]

/-- The event of `b`s, deflated. -/
def deflated : Bytes :=
  [120, 218, 237, 193, 81, 17, 0, 16, 0, 64, 177, 167, 146, 24, 98, 40, 166, 165, 111, 57,
   220, 109, 155, 171, 26, 117, 238, 6, 0, 0, 0, 0, 0, 0, 0, 0, 0, 0, 0, 0, 0, 0, 0, 0, 0,
   0, 0, 0, 0, 0, 0, 0, 0, 0, 0, 0, 0, 0, 0, 0, 0, 0, 0, 0, 0, 0, 128, 111, 61, 33, 120, 65,
   210]

theorem deflated_length : deflated.length = 73 := rfl

/-- The event of `a`s, of which the first 33000 bytes are stored as they are. A decoder that
takes its input in pieces of 32768 bytes has inflated 32761 bytes of it after the first. -/
def stored : Bytes :=
  [120, 1, 0, 232, 128, 23, 127, 50, 74, 0, 0, 0, 1, 0, 0, 159, 246] ++
    List.replicate 32990 97 ++
    [237, 193, 1, 13, 0, 0, 0, 194, 160, 172, 239, 95, 194, 30, 14, 40, 0, 0, 0, 0, 0, 0, 0, 248, 53,
      35, 120, 161, 205]

theorem stored_length : stored.length = 33036 := by
  have hl {front mid back : Bytes} : (front ++ mid ++ back).length =
      front.length + mid.length + back.length := by
    rw [List.length_append, List.length_append]
  rw [stored, hl, List.length_replicate]
  rfl

def deflatedReads : List Nat := [8192, 8192, 8192, 8192, 8192]

def storedReads : List Nat := [8192, 8192, 8192, 8185, 8192, 7]

theorem deflatedReads_total : total deflatedReads = (bulk 98).length := by
  rw [bulk_length]
  rfl

theorem storedReads_total : total storedReads = (bulk 97).length := by
  rw [bulk_length]
  rfl

theorem deflatedReads_sized : ∀ n ∈ deflatedReads, 0 < n ∧ n ≤ 8192 := by decide

theorem storedReads_sized : ∀ n ∈ storedReads, 0 < n ∧ n ≤ 8192 := by decide

/-- A library that reads these two images as `flate2` does. -/
def Flate.buffered : Flate where
  zlibCompress := (Flate.pinned (bulk 98) deflated).zlibCompress
  zlibDecoder image :=
    if image = deflated then .cut deflatedReads (bulk 98) deflatedReads_total deflatedReads_sized
    else if image = stored then .cut storedReads (bulk 97) storedReads_total storedReads_sized
    else (Flate.pinned (bulk 98) deflated).zlibDecoder image

theorem buffered_deflated : Flate.buffered.zlibDecoder deflated =
    .cut deflatedReads (bulk 98) deflatedReads_total deflatedReads_sized := by
  simp only [Flate.buffered, if_true]

theorem buffered_stored : Flate.buffered.zlibDecoder stored =
    .cut storedReads (bulk 97) storedReads_total storedReads_sized := by
  have hne : stored ≠ deflated := by
    intro h
    have hl := congrArg List.length h
    rw [stored_length, deflated_length] at hl
    omega
  simp only [Flate.buffered, if_neg hne, if_true]

theorem inflates_deflated : Flate.buffered.Inflates deflated (bulk 98) := by
  constructor
  · rw [buffered_deflated]
    rfl
  · rw [buffered_deflated]
    exact cutReads_flatten deflatedReads_total

theorem inflates_stored : Flate.buffered.Inflates stored (bulk 97) := by
  constructor
  · rw [buffered_stored]
    rfl
  · rw [buffered_stored]
    exact cutReads_flatten storedReads_total

theorem decompress_deflated :
    zlibDecompress .buffered deflated 40000 = .error (.frameTooLarge 40960 40000) := by
  have hl : (Flate.buffered.zlibDecoder deflated).reads.map List.length = deflatedReads := by
    rw [buffered_deflated]
    exact cutReads_lengths deflatedReads_total
  rw [inflates_deflated.decompress, hl]
  rfl

theorem decompress_stored :
    zlibDecompress .buffered stored 40000 = .error (.frameTooLarge 40953 40000) := by
  have hl : (Flate.buffered.zlibDecoder stored).reads.map List.length = storedReads := by
    rw [buffered_stored]
    exact cutReads_lengths storedReads_total
  rw [inflates_stored.decompress, hl]
  rfl

end Lumberjack.Wire
