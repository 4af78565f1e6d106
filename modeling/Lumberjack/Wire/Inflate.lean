import Lumberjack.Stream.BigEndian

/-!
# Errors, and the bounded inflate loop

`zlib_decompress` reads a zlib stream in pieces of at most 8192 bytes and stops
as soon as the running total passes the frame limit. The zlib library itself is
a parameter: a compressor, and for every input the reads its decoder yields.
-/
namespace Lumberjack.Wire

open Lumberjack.Stream (Bytes)

/-- `error::Error`, with the texts the library puts into it. -/
inductive Error where
  | io (msg : String)
  | invalidFrame (msg : String)
  | frameTooLarge (size max : Nat)
  | compression (msg : String)
  | serialization (msg : String)
  | unexpectedFrame (msg : String)
  | seqOutOfOrder (got prev : UInt32)
  | writeTimeout
  | ackTimeout
  | connectionClosed
  | invalidConfig (msg : String)
  | noLocalPortAvailable
  deriving DecidableEq, Repr

abbrev Result (α : Type) := Except Error α

/-- What successive `read` calls with an 8192-byte buffer yield: non-empty reads,
then either a read of 0 bytes or an error. -/
structure Reader where
  reads : List Bytes
  ending : Except String Unit
  sized : ∀ c ∈ reads, 0 < c.length ∧ c.length ≤ 8192

/-- The zlib library: `zlib_compress`, and the reads of a `ZlibDecoder`. -/
structure Flate where
  zlibCompress : Bytes → Bytes
  zlibDecoder : Bytes → Reader

/-- Inflating undoes compressing, in whatever pieces the decoder reads. -/
structure Flate.Lawful (z : Flate) : Prop where
  ends : ∀ b, (z.zlibDecoder (z.zlibCompress b)).ending = .ok ()
  inflates : ∀ b, (z.zlibDecoder (z.zlibCompress b)).reads.flatten = b

/-- The loop of `zlib_decompress`, with its accumulated output. -/
def inflateLoop (max : Nat) (ending : Except String Unit) : List Bytes → Bytes → Result Bytes
  | [], out =>
    match ending with
    | .ok () => .ok out
    | .error e => .error (.compression e)
  | c :: cs, out =>
    if out.length + c.length > max then
      .error (.frameTooLarge (out.length + c.length) max)
    else
      inflateLoop max ending cs (out ++ c)

def zlibDecompress (z : Flate) (input : Bytes) (max : Nat) : Result Bytes :=
  inflateLoop max (z.zlibDecoder input).ending (z.zlibDecoder input).reads []

/-- The running total that passes the limit, for reads of these lengths. -/
def overflowAt (max : Nat) : List Nat → Nat → Option Nat
  | [], _ => none
  | n :: ns, total => if total + n > max then some (total + n) else overflowAt max ns (total + n)

/-- Whether the loop fails for the size, and with which, depends on the lengths of the
reads only. -/
theorem inflateLoop_eq (max : Nat) (ending : Except String Unit) (cs : List Bytes) (out : Bytes) :
    inflateLoop max ending cs out =
      match overflowAt max (cs.map List.length) out.length with
      | some size => .error (.frameTooLarge size max)
      | none =>
        match ending with
        | .ok () => .ok (out ++ cs.flatten)
        | .error e => .error (.compression e) := by
  induction cs generalizing out with
  | nil => simp [inflateLoop, overflowAt]
  | cons c cs ih =>
    simp only [inflateLoop, overflowAt, List.map_cons]
    split
    · rfl
    · rw [ih, List.length_append, List.append_assoc, List.flatten_cons]

/-- A zlib image that the library inflates to these bytes, in whatever pieces. -/
structure Flate.Inflates (z : Flate) (image inner : Bytes) : Prop where
  ends : (z.zlibDecoder image).ending = .ok ()
  content : (z.zlibDecoder image).reads.flatten = inner

/-- No total passes the limit exactly when all the reads fit it. -/
theorem overflowAt_none_iff {max : Nat} {cs : List Bytes} {total : Nat} (ht : total ≤ max) :
    overflowAt max (cs.map List.length) total = none ↔ total + cs.flatten.length ≤ max := by
  induction cs generalizing total with
  | nil => simpa [overflowAt] using ht
  | cons c cs ih =>
    simp only [List.map_cons, overflowAt, List.flatten_cons, List.length_append]
    by_cases hc : total + c.length > max
    · rw [if_pos hc]
      simp only [reduceCtorEq, false_iff]
      omega
    · rw [if_neg hc, ih (by omega)]
      omega

theorem overflowAt_some {max : Nat} {ns : List Nat} {total size : Nat}
    (h : overflowAt max ns total = some size) : max < size := by
  induction ns generalizing total with
  | nil => cases h
  | cons n ns ih =>
    simp only [overflowAt] at h
    split at h
    · cases h
      assumption
    · exact ih h

theorem Flate.Inflates.decompress {z : Flate} {image inner : Bytes} (h : z.Inflates image inner)
    (max : Nat) :
    zlibDecompress z image max =
      match overflowAt max ((z.zlibDecoder image).reads.map List.length) 0 with
      | some size => .error (.frameTooLarge size max)
      | none => .ok inner := by
  rw [zlibDecompress, inflateLoop_eq, h.ends, h.content]
  rfl

/-- The loop returns what the library inflates the image to, if that fits the limit,
and nothing else. -/
theorem zlibDecompress_iff {z : Flate} {input r : Bytes} {max : Nat} :
    zlibDecompress z input max = .ok r ↔ z.Inflates input r ∧ r.length ≤ max := by
  constructor
  · intro h
    rw [zlibDecompress, inflateLoop_eq] at h
    split at h
    · cases h
    · rename_i hnone
      have hfit := (overflowAt_none_iff (Nat.zero_le _)).mp hnone
      rw [Nat.zero_add] at hfit
      cases hend : (z.zlibDecoder input).ending with
      | error e => simp [hend] at h
      | ok u =>
        rw [hend] at h
        cases h
        exact ⟨⟨hend, rfl⟩, hfit⟩
  · rintro ⟨hi, hl⟩
    have hnone : overflowAt max ((z.zlibDecoder input).reads.map List.length) 0 = none :=
      (overflowAt_none_iff (Nat.zero_le max)).mpr (by rw [hi.content, Nat.zero_add]; exact hl)
    rw [hi.decompress, hnone]

/-- Bytes over the limit are refused, at a total over the limit. -/
theorem Flate.Inflates.exceeds {z : Flate} {image inner : Bytes} (h : z.Inflates image inner)
    {max : Nat} (hl : max < inner.length) :
    ∃ size, max < size ∧ zlibDecompress z image max = .error (.frameTooLarge size max) := by
  rw [h.decompress]
  cases ho : overflowAt max ((z.zlibDecoder image).reads.map List.length) 0 with
  | some size => exact ⟨size, overflowAt_some ho, rfl⟩
  | none =>
    have hfit := (overflowAt_none_iff (Nat.zero_le _)).mp ho
    rw [h.content] at hfit
    omega

/-- Whatever is inflated fits the limit. -/
theorem zlibDecompress_length {z : Flate} {input r : Bytes} {max : Nat}
    (h : zlibDecompress z input max = .ok r) : r.length ≤ max :=
  (zlibDecompress_iff.mp h).2

theorem Flate.Lawful.image {z : Flate} (hz : z.Lawful) (b : Bytes) :
    z.Inflates (z.zlibCompress b) b :=
  ⟨hz.ends b, hz.inflates b⟩

theorem zlibDecompress_compress {z : Flate} (hz : z.Lawful) {b : Bytes} {max : Nat}
    (h : b.length ≤ max) : zlibDecompress z (z.zlibCompress b) max = .ok b :=
  zlibDecompress_iff.mpr ⟨hz.image b, h⟩

/-- The bomb guard: an image of more than the limit is refused. -/
theorem zlibDecompress_bomb {z : Flate} (hz : z.Lawful) {b : Bytes} {max : Nat}
    (h : max < b.length) :
    ∃ size, max < size ∧ zlibDecompress z (z.zlibCompress b) max = .error (.frameTooLarge size max) :=
  (hz.image b).exceeds h

/-- Cut a byte string into reads of at most 8192 bytes. -/
def splitReads : Nat → Bytes → List Bytes
  | 0, _ => []
  | n + 1, b => if b = [] then [] else b.take 8192 :: splitReads n (b.drop 8192)

theorem splitReads_sized (n : Nat) (b : Bytes) :
    ∀ c ∈ splitReads n b, 0 < c.length ∧ c.length ≤ 8192 := by
  induction n generalizing b with
  | zero => simp [splitReads]
  | succ n ih =>
    intro c hc
    by_cases hb : b = []
    · simp [splitReads, hb] at hc
    · have hpos := List.length_pos_iff.mpr hb
      simp only [splitReads, hb, if_false, List.mem_cons] at hc
      rcases hc with rfl | hc
      · simp only [List.length_take]
        omega
      · exact ih _ c hc

theorem splitReads_flatten (n : Nat) (b : Bytes) (h : b.length ≤ n) :
    (splitReads n b).flatten = b := by
  induction n generalizing b with
  | zero =>
    have hb : b = [] := List.eq_nil_of_length_eq_zero (by omega)
    simp [splitReads, hb]
  | succ n ih =>
    by_cases hb : b = []
    · simp [splitReads, hb]
    · have hpos := List.length_pos_iff.mpr hb
      simp only [splitReads, hb, if_false, List.flatten_cons]
      rw [ih _ (by simp only [List.length_drop]; omega), List.take_append_drop]

def Reader.ofBytes (b : Bytes) : Reader where
  reads := splitReads b.length b
  ending := .ok ()
  sized := splitReads_sized b.length b

/-- A library that maps one payload to a given image and stores every other
input behind a zero byte. -/
def Flate.pinned (payload image : Bytes) : Flate where
  zlibCompress b := if b = payload then image else 0 :: b
  zlibDecoder s :=
    if s = image then .ofBytes payload
    else match s with
      | 0 :: b => .ofBytes b
      | _ => ⟨[], .error "corrupt deflate stream", by simp⟩

theorem Flate.pinned_decoder (payload image b : Bytes) (h : ∀ t, image ≠ 0 :: t) :
    (pinned payload image).zlibDecoder ((pinned payload image).zlibCompress b) = .ofBytes b := by
  by_cases hb : b = payload
  · simp [pinned, hb]
  · have hi : 0 :: b ≠ image := fun he => h b he.symm
    simp [pinned, hb, hi]

theorem Flate.pinned_lawful (payload image : Bytes) (h : ∀ t, image ≠ 0 :: t) :
    (pinned payload image).Lawful where
  ends b := by rw [pinned_decoder _ _ _ h]; rfl
  inflates b := by
    rw [pinned_decoder _ _ _ h]
    exact splitReads_flatten b.length b (Nat.le_refl _)

end Lumberjack.Wire
