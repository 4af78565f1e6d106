import Lumberjack.Wire.Inflate

/-!
# Frames: encoder, decoder, and the wire forms between them

`Frame.encode` and `decodeWithLimit` are the functions of `frame.rs` with the
`compression` feature on. `WireForm` states the frame format once, independently of
both; the decoder returns a frame exactly when its buffer starts with a wire
form of that frame (`decode_some_iff`). The remaining lemmas say what the other
two answers mean: a request for more bytes leaves the buffer alone, and an error
does not depend on bytes that have not arrived.
-/
namespace Lumberjack.Wire

open Lumberjack.Stream

def protocolVersion : UInt8 := '2'.toUInt8
def typeWindow : UInt8 := 'W'.toUInt8
def typeJson : UInt8 := 'J'.toUInt8
def typeCompressed : UInt8 := 'C'.toUInt8
def typeAck : UInt8 := 'A'.toUInt8

/-- Default ceiling for any single frame's payload, in bytes. -/
def defaultMaxFrameSize : Nat := 16 * 1024 * 1024

/-- A `compressed` frame holds the inflated bytes; only the wire carries the
zlib image. -/
inductive Frame where
  | window (n : UInt32)
  | json (seq : UInt32) (data : Bytes)
  | compressed (inner : Bytes)
  | ack (seq : UInt32)
  deriving DecidableEq, Repr

/-- The bytes `Frame::encode` appends to its destination. The length fields are
`len() as u32`, which truncates. -/
def Frame.encode (z : Flate) : Frame → Bytes
  | .window n => protocolVersion :: typeWindow :: putU32 n
  | .json seq data =>
    protocolVersion :: typeJson :: (putU32 seq ++ putU32 (.ofNat data.length) ++ data)
  | .ack seq => protocolVersion :: typeAck :: putU32 seq
  | .compressed inner =>
    let compressed := z.zlibCompress inner
    protocolVersion :: typeCompressed :: (putU32 (.ofNat compressed.length) ++ compressed)

/-- `src[lo..hi]` -/
def slice (src : Bytes) (lo hi : Nat) : Bytes := (src.drop lo).take (hi - lo)

/-- `Frame::decode_with_limit`: the result, and what is left of the buffer. -/
def decodeWithLimit (z : Flate) (src : Bytes) (maxFrameSize : Nat) :
    Result (Option Frame) × Bytes :=
  if h : src.length < 2 then (.ok none, src)
  else
    let version := src[0]
    if version ≠ protocolVersion then
      (.error (.invalidFrame "unsupported protocol version"), src)
    else
      let ty := src[1]
      if ty = typeWindow then
        if src.length < 2 + 4 then (.ok none, src)
        else
          let (n, src) := getU32 (src.drop 2)
          (.ok (some (.window n)), src)
      else if ty = typeJson then
        if src.length < 2 + 4 + 4 then (.ok none, src)
        else
          let len := (u32FromBeBytes (slice src 6 10)).toNat
          if len > maxFrameSize then (.error (.frameTooLarge len maxFrameSize), src)
          else if src.length < 2 + 4 + 4 + len then (.ok none, src)
          else
            let (seq, src) := getU32 (src.drop 2)
            let (_len, src) := getU32 src
            (.ok (some (.json seq (src.take len))), src.drop len)
      else if ty = typeAck then
        if src.length < 2 + 4 then (.ok none, src)
        else
          let (seq, src) := getU32 (src.drop 2)
          (.ok (some (.ack seq)), src)
      else if ty = typeCompressed then
        if src.length < 2 + 4 then (.ok none, src)
        else
          let len := (u32FromBeBytes (slice src 2 6)).toNat
          if len > maxFrameSize then (.error (.frameTooLarge len maxFrameSize), src)
          else if src.length < 2 + 4 + len then (.ok none, src)
          else
            -- the payload is split off before it is inflated, so a zlib error
            -- leaves the buffer behind the frame
            let src := src.drop (2 + 4)
            let payload := src.take len
            match zlibDecompress z payload maxFrameSize with
            | .ok inflated => (.ok (some (.compressed inflated)), src.drop len)
            | .error e => (.error e, src.drop len)
      else (.error (.invalidFrame "unknown frame type"), src)

/-- `Frame::decode` -/
def decode (z : Flate) (src : Bytes) : Result (Option Frame) × Bytes :=
  decodeWithLimit z src defaultMaxFrameSize

section Branches

variable (z : Flate) (max : Nat)

theorem decode_short {src : Bytes} (h : src.length < 2) :
    decodeWithLimit z src max = (.ok none, src) := by
  simp only [decodeWithLimit, h, ↓reduceDIte]

theorem decode_nil : decodeWithLimit z [] max = (.ok none, []) := rfl

theorem decode_bad_version {v ty : UInt8} (body : Bytes) (h : v ≠ protocolVersion) :
    decodeWithLimit z (v :: ty :: body) max =
      (.error (.invalidFrame "unsupported protocol version"), v :: ty :: body) := by
  simp [decodeWithLimit, h]

private theorem header_guard (body : Bytes) (k n : Nat) (h : k + 2 = n) :
    (body.length + 1 + 1 < n) = (body.length < k) := propext (by omega)

theorem decode_window (body : Bytes) :
    decodeWithLimit z (protocolVersion :: typeWindow :: body) max =
      if body.length < 4 then (.ok none, protocolVersion :: typeWindow :: body)
      else (.ok (some (.window (getU32 body).1)), (getU32 body).2) := by
  simp [decodeWithLimit, header_guard body 4 6 rfl, header_guard body 0 2 rfl]

theorem decode_ack (body : Bytes) :
    decodeWithLimit z (protocolVersion :: typeAck :: body) max =
      if body.length < 4 then (.ok none, protocolVersion :: typeAck :: body)
      else (.ok (some (.ack (getU32 body).1)), (getU32 body).2) := by
  have hw : typeAck ≠ typeWindow := by decide
  have hj : typeAck ≠ typeJson := by decide
  simp [decodeWithLimit, hw, hj, header_guard body 4 6 rfl, header_guard body 0 2 rfl]

theorem decode_json (body : Bytes) :
    decodeWithLimit z (protocolVersion :: typeJson :: body) max =
      if body.length < 8 then (.ok none, protocolVersion :: typeJson :: body)
      else
        let len := (getU32 (getU32 body).2).1.toNat
        if len > max then
          (.error (.frameTooLarge len max), protocolVersion :: typeJson :: body)
        else if body.length < 8 + len then (.ok none, protocolVersion :: typeJson :: body)
        else (.ok (some (.json (getU32 body).1 ((body.drop 8).take len))), (body.drop 8).drop len) := by
  have hw : typeJson ≠ typeWindow := by decide
  have hlen (len : Nat) := header_guard body (8 + len) (10 + len) (by omega)
  simp [decodeWithLimit, slice, getU32, hw, hlen, header_guard body 8 10 rfl,
    header_guard body 0 2 rfl]

theorem decode_compressed (body : Bytes) :
    decodeWithLimit z (protocolVersion :: typeCompressed :: body) max =
      if body.length < 4 then (.ok none, protocolVersion :: typeCompressed :: body)
      else
        let len := (getU32 body).1.toNat
        if len > max then
          (.error (.frameTooLarge len max), protocolVersion :: typeCompressed :: body)
        else if body.length < 4 + len then (.ok none, protocolVersion :: typeCompressed :: body)
        else
          match zlibDecompress z ((body.drop 4).take len) max with
          | .ok inflated => (.ok (some (.compressed inflated)), (body.drop 4).drop len)
          | .error e => (.error e, (body.drop 4).drop len) := by
  have hw : typeCompressed ≠ typeWindow := by decide
  have hj : typeCompressed ≠ typeJson := by decide
  have ha : typeCompressed ≠ typeAck := by decide
  have hlen (len : Nat) := header_guard body (4 + len) (6 + len) (by omega)
  simp [decodeWithLimit, slice, getU32, hw, hj, ha, hlen, header_guard body 4 6 rfl,
    header_guard body 0 2 rfl]

theorem decode_unknown {ty : UInt8} (body : Bytes) (hw : ty ≠ typeWindow) (hj : ty ≠ typeJson)
    (ha : ty ≠ typeAck) (hc : ty ≠ typeCompressed) :
    decodeWithLimit z (protocolVersion :: ty :: body) max =
      (.error (.invalidFrame "unknown frame type"), protocolVersion :: ty :: body) := by
  simp [decodeWithLimit, hw, hj, ha, hc]

end Branches

/-- Every buffer starts in one of these ways. -/
inductive Header : Bytes → Prop where
  | short {src : Bytes} : src.length < 2 → Header src
  | version {v ty : UInt8} {body : Bytes} : v ≠ protocolVersion → Header (v :: ty :: body)
  | window (body : Bytes) : Header (protocolVersion :: typeWindow :: body)
  | json (body : Bytes) : Header (protocolVersion :: typeJson :: body)
  | ack (body : Bytes) : Header (protocolVersion :: typeAck :: body)
  | compressed (body : Bytes) : Header (protocolVersion :: typeCompressed :: body)
  | unknown {ty : UInt8} {body : Bytes} : ty ≠ typeWindow → ty ≠ typeJson → ty ≠ typeAck →
      ty ≠ typeCompressed → Header (protocolVersion :: ty :: body)

theorem header (src : Bytes) : Header src := by
  match src with
  | [] => exact .short (by simp)
  | [_] => exact .short (by simp)
  | v :: ty :: body =>
    by_cases hv : v = protocolVersion
    · subst hv
      by_cases hw : ty = typeWindow
      · subst hw; exact .window body
      by_cases hj : ty = typeJson
      · subst hj; exact .json body
      by_cases ha : ty = typeAck
      · subst ha; exact .ack body
      by_cases hc : ty = typeCompressed
      · subst hc; exact .compressed body
      exact .unknown hw hj ha hc
    · exact .version hv

/-- The byte strings that stand for a frame within the limit. -/
inductive WireForm (z : Flate) (max : Nat) : Frame → Bytes → Prop where
  | window (n : UInt32) : WireForm z max (.window n) (protocolVersion :: typeWindow :: putU32 n)
  | ack (seq : UInt32) : WireForm z max (.ack seq) (protocolVersion :: typeAck :: putU32 seq)
  | json (seq len : UInt32) (data : Bytes) : data.length = len.toNat → data.length ≤ max →
      WireForm z max (.json seq data) (protocolVersion :: typeJson :: (putU32 seq ++ putU32 len ++ data))
  | compressed (len : UInt32) (payload inner : Bytes) : payload.length = len.toNat →
      payload.length ≤ max → zlibDecompress z payload max = .ok inner →
      WireForm z max (.compressed inner) (protocolVersion :: typeCompressed :: (putU32 len ++ payload))

section Spec

variable {z : Flate} {max : Nat}

theorem decode_wire {f : Frame} {w : Bytes} (h : WireForm z max f w) (r : Bytes) :
    decodeWithLimit z (w ++ r) max = (.ok (some f), r) := by
  cases h with
  | window n =>
    rw [List.cons_append, List.cons_append, decode_window, getU32_putU32]
    simp
  | ack seq =>
    rw [List.cons_append, List.cons_append, decode_ack, getU32_putU32]
    simp
  | json seq len data hl hm =>
    have hd : (putU32 seq ++ (putU32 len ++ (data ++ r))).drop 8 = data ++ r := by
      rw [← List.append_assoc]
      exact List.drop_left' (by simp)
    rw [List.cons_append, List.cons_append, decode_json]
    simp only [List.append_assoc, getU32_putU32, hd, ← hl, List.length_append, putU32_length,
      List.take_left, List.drop_left]
    have h8 : ¬ 4 + (4 + (data.length + r.length)) < 8 := by omega
    have h8' : ¬ 4 + (4 + (data.length + r.length)) < 8 + data.length := by omega
    simp only [h8, h8', show ¬ data.length > max by omega, if_false]
  | compressed len payload inner hl hm hz =>
    have hd : (putU32 len ++ (payload ++ r)).drop 4 = payload ++ r := List.drop_left' (by simp)
    rw [List.cons_append, List.cons_append, decode_compressed]
    simp only [List.append_assoc, getU32_putU32, hd, ← hl, List.length_append, putU32_length,
      List.take_left, List.drop_left, hz]
    have h4 : ¬ 4 + (payload.length + r.length) < 4 := by omega
    have h4' : ¬ 4 + (payload.length + r.length) < 4 + payload.length := by omega
    simp only [h4, h4', show ¬ payload.length > max by omega, if_false]

theorem wire_of_decode {b r : Bytes} {f : Frame}
    (h : decodeWithLimit z b max = (.ok (some f), r)) : ∃ w, WireForm z max f w ∧ b = w ++ r := by
  cases header b with
  | short hs => simp [decode_short z max hs] at h
  | version hv => simp [decode_bad_version z max _ hv] at h
  | unknown hw hj ha hc => simp [decode_unknown z max _ hw hj ha hc] at h
  | window body =>
    rw [decode_window] at h
    split at h
    · simp at h
    · rename_i hl
      cases h
      exact ⟨_, .window _, by rw [List.cons_append, List.cons_append, ← putU32_getU32 _ (by omega)]⟩
  | ack body =>
    rw [decode_ack] at h
    split at h
    · simp at h
    · rename_i hl
      cases h
      exact ⟨_, .ack _, by rw [List.cons_append, List.cons_append, ← putU32_getU32 _ (by omega)]⟩
  | json body =>
    simp only [decode_json] at h
    split at h
    · simp at h
    rename_i h8
    split at h
    · simp at h
    rename_i hm
    split at h
    · simp at h
    rename_i hl
    cases h
    have hb := putU32_getU32 body (by omega)
    have hb2 : 4 ≤ (getU32 body).2.length := by
      simp only [getU32, List.length_drop]
      omega
    have hc := putU32_getU32 _ hb2
    have hd : (getU32 (getU32 body).2).2 = body.drop 8 := by simp [getU32]
    rw [hd] at hc
    refine ⟨_, .json _ (getU32 (getU32 body).2).1 _ ?_ ?_, ?_⟩
    · simp only [List.length_take, List.length_drop]
      omega
    · simp only [List.length_take]
      omega
    · simp only [List.cons_append, List.append_assoc, List.take_append_drop]
      rw [← hc, ← hb]
  | compressed body =>
    simp only [decode_compressed] at h
    split at h
    · simp at h
    rename_i h4
    split at h
    · simp at h
    rename_i hm
    split at h
    · simp at h
    rename_i hl
    split at h
    · rename_i inner hz
      cases h
      have hb := putU32_getU32 body (by omega)
      have hd : (getU32 body).2 = body.drop 4 := rfl
      rw [hd] at hb
      refine ⟨_, .compressed (getU32 body).1 _ _ ?_ ?_ hz, ?_⟩
      · simp only [List.length_take, List.length_drop]
        omega
      · simp only [List.length_take]
        omega
      · simp only [List.cons_append, List.append_assoc, List.take_append_drop]
        rw [← hb]
    · simp at h

/-- A frame is returned exactly when the buffer starts with a wire form of it,
and what stands behind that form is what is left. -/
theorem decode_some_iff {b r : Bytes} {f : Frame} :
    decodeWithLimit z b max = (.ok (some f), r) ↔ ∃ w, WireForm z max f w ∧ b = w ++ r := by
  constructor
  · exact wire_of_decode
  · rintro ⟨w, hw, rfl⟩
    exact decode_wire hw r

/-- No wire form is a proper prefix of another: a stream has one first frame. -/
theorem WireForm.unique {f f' : Frame} {w w' r r' : Bytes} (h : WireForm z max f w)
    (h' : WireForm z max f' w') (he : w ++ r = w' ++ r') : f = f' ∧ w = w' ∧ r = r' := by
  have hd := decode_wire h r
  rw [he, decode_wire h' r'] at hd
  simp only [Prod.mk.injEq, Except.ok.injEq, Option.some.injEq] at hd
  obtain ⟨rfl, rfl⟩ := hd
  exact ⟨rfl, List.append_cancel_right he, rfl⟩

theorem wire_length {f : Frame} {w : Bytes} (h : WireForm z max f w) : 6 ≤ w.length := by
  cases h <;> simp

theorem decode_some_append {b r : Bytes} {f : Frame}
    (h : decodeWithLimit z b max = (.ok (some f), r)) (t : Bytes) :
    decodeWithLimit z (b ++ t) max = (.ok (some f), r ++ t) := by
  obtain ⟨w, hw, rfl⟩ := wire_of_decode h
  rw [List.append_assoc]
  exact decode_wire hw _

theorem decode_some_shrinks {b r : Bytes} {f : Frame}
    (h : decodeWithLimit z b max = (.ok (some f), r)) : r.length + 6 ≤ b.length := by
  obtain ⟨w, hw, rfl⟩ := wire_of_decode h
  have hl := wire_length hw
  rw [List.length_append]
  omega

/-- A request for more bytes leaves the buffer as it was. -/
theorem decode_none_keeps {b r : Bytes} (h : decodeWithLimit z b max = (.ok none, r)) : r = b := by
  cases header b with
  | short hs => simpa [decode_short z max hs] using h.symm
  | version hv => simp [decode_bad_version z max _ hv] at h
  | unknown hw hj ha hc => simp [decode_unknown z max _ hw hj ha hc] at h
  | window body =>
    rw [decode_window] at h
    split at h <;> simp_all
  | ack body =>
    rw [decode_ack] at h
    split at h <;> simp_all
  | json body =>
    simp only [decode_json] at h
    repeat' split at h
    all_goals simp_all
  | compressed body =>
    simp only [decode_compressed] at h
    repeat' split at h
    all_goals simp_all

private theorem getU32_append {b : Bytes} (h : 4 ≤ b.length) (t : Bytes) :
    getU32 (b ++ t) = ((getU32 b).1, (getU32 b).2 ++ t) := by
  simp [getU32, List.take_append_of_le_length h, List.drop_append_of_le_length h]

/-- An error is raised from the bytes at hand: more of them do not change it. -/
theorem decode_error_append {b r : Bytes} {e : Error}
    (h : decodeWithLimit z b max = (.error e, r)) (t : Bytes) :
    (decodeWithLimit z (b ++ t) max).1 = .error e := by
  cases header b with
  | short hs => simp [decode_short z max hs] at h
  | version hv =>
    rw [List.cons_append, List.cons_append, decode_bad_version z max _ hv]
    rw [decode_bad_version z max _ hv] at h
    cases h
    rfl
  | unknown hw hj ha hc =>
    rw [List.cons_append, List.cons_append, decode_unknown z max _ hw hj ha hc]
    rw [decode_unknown z max _ hw hj ha hc] at h
    cases h
    rfl
  | window body =>
    rw [decode_window] at h
    split at h <;> simp at h
  | ack body =>
    rw [decode_ack] at h
    split at h <;> simp at h
  | json body =>
    simp only [decode_json] at h
    split at h
    · simp at h
    rename_i h8
    have hb2 : 4 ≤ (getU32 body).2.length := by
      simp only [getU32, List.length_drop]
      omega
    have h8' : ¬ (body ++ t).length < 8 := by
      simp only [List.length_append]
      omega
    split at h
    · rename_i hm
      cases h
      simp only [List.cons_append, decode_json, h8', if_false]
      rw [getU32_append (by omega), getU32_append hb2]
      simp only [hm, if_true]
    · split at h <;> simp at h
  | compressed body =>
    simp only [decode_compressed] at h
    split at h
    · simp at h
    rename_i h4
    have h4' : ¬ (body ++ t).length < 4 := by
      simp only [List.length_append]
      omega
    simp only [List.cons_append, decode_compressed, h4', if_false]
    rw [getU32_append (by omega)]
    split at h
    · rename_i hm
      cases h
      simp only [hm, if_true]
    · rename_i hm
      split at h
      · simp at h
      rename_i hl
      -- the whole image is buffered, so the longer buffer inflates the same bytes
      have hl' : ¬ (body ++ t).length < 4 + (getU32 body).1.toNat := by
        simp only [List.length_append]
        omega
      have hp : ((body ++ t).drop 4).take (getU32 body).1.toNat =
          (body.drop 4).take (getU32 body).1.toNat := by
        rw [List.drop_append_of_le_length (by omega),
          List.take_append_of_le_length (by simp only [List.length_drop]; omega)]
      simp only [hm, hl', if_false, hp]
      split at h
      · simp at h
      · rename_i e' hz
        cases h
        rfl

end Spec
end Lumberjack.Wire
