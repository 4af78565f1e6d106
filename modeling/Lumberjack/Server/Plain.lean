import Lumberjack.Server.Lenient

/-!
# The build without the `compression` feature

Without the feature `decode_with_limit` refuses a compressed frame at its two header
bytes, before it looks at a length. Everything else is compiled from the same lines.
`Plain.decodeWithLimit` is the function of that build, and the loop over it agrees with
the loop of the default build up to the first compressed frame.
-/
namespace Lumberjack.Wire.Plain

open Lumberjack.Stream

theorem version_lt {src : Bytes} (h : ¬ src.length < 2) : 0 < src.length := by omega

theorem type_lt {src : Bytes} (h : ¬ src.length < 2) : 1 < src.length := by omega

/-- `Frame::decode_with_limit` under `not(feature = "compression")`. -/
def decodeWithLimit (src : Bytes) (maxFrameSize : Nat) : Result (Option Frame) × Bytes :=
  if h : src.length < 2 then (.ok none, src)
  else
    let version := src.get ⟨0, version_lt h⟩
    if version ≠ protocolVersion then
      (.error (.invalidFrame "unsupported protocol version"), src)
    else
      let ty := src.get ⟨1, type_lt h⟩
      if ty = typeWindow then
        if src.length < 2 + 4 then (.ok none, src)
        else
          let (n, src) := getU32 (src.drop 2)
          (.ok (some (.window n)), src)
      else if ty = typeJson then
        if src.length < 2 + 4 + 4 then (.ok none, src)
        else
          let len := (u32FromBeBytes (slice src 6 10)).toNat
          if len > maxFrameSize then (.error (.frameTooLarge len maxFrameSize), src)
          else if src.length < 2 + 4 + 4 + len then (.ok none, src)
          else
            let (seq, src) := getU32 (src.drop 2)
            let (_len, src) := getU32 src
            (.ok (some (.json seq (src.take len))), src.drop len)
      else if ty = typeAck then
        if src.length < 2 + 4 then (.ok none, src)
        else
          let (seq, src) := getU32 (src.drop 2)
          (.ok (some (.ack seq)), src)
      else if ty = typeCompressed then
        (.error (.invalidFrame "compression feature disabled"), src)
      else (.error (.invalidFrame "unknown frame type"), src)

/-- The buffer starts with the header of a compressed frame. -/
def startsCompressed (src : Bytes) : Prop := ∃ body, src = protocolVersion :: typeCompressed :: body

theorem decode_compressed {src : Bytes} (h : startsCompressed src) (max : Nat) :
    decodeWithLimit src max = (.error (.invalidFrame "compression feature disabled"), src) := by
  obtain ⟨body, rfl⟩ := h
  have hw : typeCompressed ≠ typeWindow := by decide
  have hj : typeCompressed ≠ typeJson := by decide
  have ha : typeCompressed ≠ typeAck := by decide
  simp [decodeWithLimit, hw, hj, ha]

/-- Everything else is decoded as in the default build, whatever the zlib library. -/
theorem decode_eq (z : Flate) {src : Bytes} (h : ¬ startsCompressed src) (max : Nat) :
    decodeWithLimit src max = Wire.decodeWithLimit z src max := by
  have hjw : typeJson ≠ typeWindow := by decide
  have haw : typeAck ≠ typeWindow := by decide
  have haj : typeAck ≠ typeJson := by decide
  cases header src with
  | short hs => simp only [decodeWithLimit, Wire.decodeWithLimit, hs, dif_pos]
  | version hv => simp [decodeWithLimit, Wire.decodeWithLimit, hv]
  | window body => simp [decodeWithLimit, Wire.decodeWithLimit]
  | json body => simp [decodeWithLimit, Wire.decodeWithLimit, hjw]
  | ack body => simp [decodeWithLimit, Wire.decodeWithLimit, haw, haj]
  | compressed body => exact absurd ⟨body, rfl⟩ h
  | unknown hw hj ha hc => simp [decodeWithLimit, Wire.decodeWithLimit, hw, hj, ha, hc]

/-- Two bytes decide whether a buffer starts so. -/
theorem startsCompressed_append {b : Bytes} (hl : 2 ≤ b.length) (t : Bytes) :
    startsCompressed (b ++ t) ↔ startsCompressed b := by
  match b, hl with
  | v :: ty :: body, _ => simp [startsCompressed]

theorem decode_some {b r : Bytes} {f : Frame} {max : Nat}
    (h : decodeWithLimit b max = (.ok (some f), r)) :
    ¬ startsCompressed b ∧ ∀ z, Wire.decodeWithLimit z b max = (.ok (some f), r) := by
  have hc : ¬ startsCompressed b := by
    intro hc
    rw [decode_compressed hc] at h
    cases h
  exact ⟨hc, fun z => by rw [← decode_eq z hc, h]⟩

/-- An answer is given from at least two bytes. -/
theorem two_le {b : Bytes} {max : Nat} (h : (decodeWithLimit b max).1 ≠ .ok none) : 2 ≤ b.length := by
  by_contra hl
  apply h
  simp only [decodeWithLimit, show b.length < 2 by omega, dif_pos]

theorem decode_append {b : Bytes} {max : Nat} (hl : 2 ≤ b.length) (hc : ¬ startsCompressed b) (t : Bytes)
    (z : Flate) : decodeWithLimit (b ++ t) max = Wire.decodeWithLimit z (b ++ t) max :=
  decode_eq z (by rwa [startsCompressed_append hl]) max

/-- Any library will do where nothing is inflated. -/
def noFlate : Flate := .pinned [] []

section Laws

variable {b r : Bytes} {f : Frame} {max : Nat}

theorem none_keeps (h : decodeWithLimit b max = (.ok none, r)) : r = b := by
  have hc : ¬ startsCompressed b := by
    intro hc
    rw [decode_compressed hc] at h
    cases h
  rw [decode_eq noFlate hc] at h
  exact decode_none_keeps h

theorem some_append (h : decodeWithLimit b max = (.ok (some f), r)) (t : Bytes) :
    decodeWithLimit (b ++ t) max = (.ok (some f), r ++ t) := by
  obtain ⟨hc, hz⟩ := decode_some h
  rw [decode_append (two_le (by rw [h]; simp)) hc t noFlate]
  exact decode_some_append (hz noFlate) t

theorem error_append {e : Error} (h : decodeWithLimit b max = (.error e, r)) (t : Bytes) :
    (decodeWithLimit (b ++ t) max).1 = .error e := by
  have hne : (decodeWithLimit b max).1 ≠ .ok none := by
    rw [h]
    simp
  have hl := two_le hne
  by_cases hc : startsCompressed b
  · rw [decode_compressed ((startsCompressed_append hl t).mpr hc)]
    rw [decode_compressed hc] at h
    cases h
    rfl
  · rw [decode_append hl hc t noFlate]
    rw [decode_eq noFlate hc] at h
    exact decode_error_append h t

theorem some_shrinks (h : decodeWithLimit b max = (.ok (some f), r)) : r.length < b.length := by
  have hs := decode_some_shrinks ((decode_some h).2 noFlate)
  omega

end Laws

/-- The codec of this build. -/
def decoder (codec : LumberjackCodec) : Decoder UInt8 Error Frame where
  decode src := decodeWithLimit src codec.maxFrameSize
  remaining := .io "bytes remaining on stream"
  none_keeps := none_keeps
  some_append := some_append
  error_append := error_append
  some_shrinks := some_shrinks

/-- The error of this build. -/
def Disabled (e : Error) : Prop := e = .invalidFrame "compression feature disabled"

theorem within (z : Flate) (codec : LumberjackCodec) :
    (decoder codec).Within Disabled (codec.decoder z) where
  answer b := by
    by_cases hc : startsCompressed b
    · have hd : ((decoder codec).decode b).1 = .error (.invalidFrame "compression feature disabled") :=
        congrArg Prod.fst (decode_compressed hc codec.maxFrameSize)
      rw [hd]
      exact .stopped (show Disabled _ from rfl) _
    · exact .inl (congrArg Prod.fst (decode_eq z hc codec.maxFrameSize))
  rest h := (decode_some h).2 z
  remaining := rfl

end Lumberjack.Wire.Plain

namespace Lumberjack.Server

open Lumberjack.Stream Lumberjack.Wire

/-- What `run_connection` of this build does on these bytes, and then the end of the stream. -/
def Plain.outcome (cfg : ConnectionConfig) (input : Bytes) : Outcome :=
  Position.window.outcomeBy (Wire.Plain.decoder ⟨cfg.maxFrameSize⟩) input

/-- **Without the feature, compressed frames are refused and nothing else changes.** For
every byte stream and every limit, the connection of a build without `compression`
dispatches the same batches and ends with the same result as that of the default build,
or it ends with `InvalidFrame("compression feature disabled")` and its batches are the
first of those of the default build. -/
theorem plain_build_agrees (z : Flate) (cfg : ConnectionConfig) (env : Nat → Nat × Release)
    (reads : List Bytes) :
    let plain := Plain.outcome cfg reads.flatten
    let full := runConnection z cfg env (.ofReads reads)
    plain = full.outcome ∨
      (plain.result = .error (.invalidFrame "compression feature disabled") ∧
        plain.batches <+: full.batches) := by
  intro plain full
  have hfull : full = runConnection z cfg env (.ofReads [reads.flatten]) :=
    runConnection_congr env (by simp [Source.pending, Source.ofReads])
  rw [hfull, runConnection_outcome, ← Position.outcomeBy_decoder]
  rcases Position.outcomeBy_within (Wire.Plain.within z ⟨cfg.maxFrameSize⟩) .window reads.flatten with
    he | ⟨e, rfl, hres, hb⟩
  · exact .inl he
  · exact .inr ⟨hres, hb⟩

end Lumberjack.Server
