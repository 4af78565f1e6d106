import Lumberjack.Client.Reject

/-!
# Counts and lengths in 32-bit fields

The send path narrows a `usize` to 32 bits in four places and adds one to an index
there. None of these is checked, and `Frame::encode` cannot fail. What is written is
what was meant exactly when every count and length is below 2^32; beyond that a
receiver takes payload bytes for frame headers.
-/
namespace Lumberjack

open Lumberjack.Stream Lumberjack.Wire Lumberjack.Server

theorem putU32_cancel {a b : UInt32} {r r' : Bytes} (h : putU32 a ++ r = putU32 b ++ r') : a = b := by
  have hg := congrArg (fun x => (getU32 x).1) h
  simpa only [getU32_putU32] using hg

namespace Wire

/-- Bytes that spell the frame, with every length field equal to the number of payload
bytes behind it. -/
def Frame.Declares (z : Flate) : Frame → Bytes → Prop
  | .window n, w => w = protocolVersion :: typeWindow :: putU32 n
  | .ack seq, w => w = protocolVersion :: typeAck :: putU32 seq
  | .json seq data, w => ∃ len : UInt32, len.toNat = data.length ∧
      w = protocolVersion :: typeJson :: (putU32 seq ++ putU32 len ++ data)
  | .compressed inner, w => ∃ len : UInt32, len.toNat = (z.zlibCompress inner).length ∧
      w = protocolVersion :: typeCompressed :: (putU32 len ++ z.zlibCompress inner)

theorem encode_declares_iff {z : Flate} (f : Frame) : f.Declares z (f.encode z) ↔ f.Narrow z := by
  cases f with
  | window n => exact iff_of_true rfl trivial
  | ack seq => exact iff_of_true rfl trivial
  | json seq data =>
    constructor
    · rintro ⟨len, hlen, h⟩
      simp only [Frame.encode, List.cons.injEq, true_and, List.append_assoc,
        List.append_cancel_left_eq] at h
      rw [← putU32_cancel h] at hlen
      exact ofNat_exact_iff.mp hlen
    · intro h
      exact ⟨_, ofNat_exact_iff.mpr h, rfl⟩
  | compressed inner =>
    constructor
    · rintro ⟨len, hlen, h⟩
      simp only [Frame.encode, List.cons.injEq, true_and] at h
      rw [← putU32_cancel h] at hlen
      exact ofNat_exact_iff.mp hlen
    · intro h
      exact ⟨_, ofNat_exact_iff.mpr h, rfl⟩

end Wire

namespace Client

variable {T : Type} {z : Flate} {toVec : T → Except String Bytes} {level : UInt32} {events : List T}

/-- One event frame for each event, in order: its serialization, and a number that
counts from 1 without wrapping. -/
structure Counted (toVec : T → Except String Bytes) (events : List T) (es : List Event) : Prop where
  serialized : Serialized toVec events (es.map Prod.snd)
  numbers : es.map (fun e => e.1.toNat) = List.range' 1 events.length

/-- The frames of a call announce what they carry: the number of events, their own
numbers, and the lengths of their payloads. -/
def Announces (z : Flate) (toVec : T → Except String Bytes) (level : UInt32) (events : List T) : Prop :=
  ∃ (n : UInt32) (es : List Event), n.toNat = events.length ∧ Counted toVec events es ∧
    (∀ f ∈ jsonFrames es, f.Declares z (f.encode z)) ∧
    (¬ level > 0 → (sendFrames z toVec level events).1 = .window n :: jsonFrames es) ∧
    (level > 0 →
      let zip := Frame.compressed (encodeAll z (jsonFrames es))
      (sendFrames z toVec level events).1 = [.window n, zip] ∧ zip.Declares z (zip.encode z))

theorem numbered_numbers (i : Nat) (bs : List Bytes) (h : i + bs.length < 2^32) :
    (numbered i bs).map (fun e => e.1.toNat) = List.range' (i + 1) bs.length := by
  induction bs generalizing i with
  | nil => rfl
  | cons b bs ih =>
    simp only [List.length_cons] at h
    rw [numbered, List.map_cons, ih (i + 1) (by omega), List.length_cons, List.range'_succ,
      index_succ, ofNat_exact_iff.mpr (by omega)]

/-- Counts and lengths that fit their fields are written exactly. -/
theorem announces_of_narrow (hne : events ≠ []) (hv : Serialized toVec events (payloads toVec events))
    (hn : Narrow z toVec level events) (hok : (sendFrames z toVec level events).2 = none) :
    Announces z toVec level events := by
  have hlen : events.length = (payloads toVec events).length := hv.length_eq
  have hcount := hn.count
  refine ⟨.ofNat events.length, numbered 0 (payloads toVec events), ofNat_exact_iff.mpr hcount,
    ⟨?_, ?_⟩, ?_, ?_, ?_⟩
  · rwa [numbered_snd]
  · rw [numbered_numbers 0 _ (by omega), hlen]
  · intro f hf
    obtain ⟨seq, b, hb, rfl⟩ := mem_jsonFrames_numbered hf
    exact (encode_declares_iff _).mpr (hn.payload b hb)
  · intro hl
    have hsmall := (readable_iff hn.payload 0).mp ((error_none_iff hv hne hl).mp hok)
    rw [sendFrames_decoded hv hne hl, drain_numbered hsmall]
  · intro hl
    refine ⟨?_, (encode_declares_iff _).mpr (hn.image hl)⟩
    rw [sendFrames_compressed hv hne hl]

/-- What is written exactly fits its fields. -/
theorem narrow_of_announces (hne : events ≠ []) (h : Announces z toVec level events) :
    Narrow z toVec level events := by
  obtain ⟨n, es, hn, hc, hdecl, -, hzip⟩ := h
  have hpay : payloads toVec events = es.map Prod.snd := payloads_eq hc.serialized
  have hlt := n.toNat_lt
  refine ⟨by omega, ?_, ?_⟩
  · rw [hpay]
    intro data hmem
    obtain ⟨e, he, rfl⟩ := List.mem_map.mp hmem
    have hd := hdecl _ (List.mem_map_of_mem (f := fun e : Event => Frame.json e.1 e.2) he)
    exact (encode_declares_iff _).mp hd
  · intro hl
    obtain ⟨hframes, hd⟩ := hzip hl
    rw [sendFrames_compressed hc.serialized hne hl] at hframes
    simp only [List.cons.injEq, Frame.compressed.injEq, and_true] at hframes
    rw [← hframes.2] at hd
    rw [hpay]
    exact (encode_declares_iff _).mp hd

/-- **When narrowing loses nothing.** `Frame::encode` writes a length field that equals
the payload behind it if and only if the payload, or the zlib image, is shorter than
2^32 bytes. A call returns an error or announces exactly what it carries if and only if
an event does not serialize, or the buffer is refused when it is decoded again at level
0, or there are fewer than 2^32 events, each serializes to fewer than 2^32 bytes and,
when the call compresses, so does their zlib image. -/
theorem narrowing_exact_iff (z : Flate) :
    (∀ f : Frame, f.Declares z (f.encode z) ↔ f.Narrow z) ∧
    ∀ (T : Type) (toVec : T → Except String Bytes) (level : UInt32) (events : List T), events ≠ [] →
      (((∃ e, (sendFrames z toVec level events).2 = some e) ∨ Announces z toVec level events) ↔
        (∃ ev ∈ events, ∃ msg, toVec ev = .error msg) ∨
        (¬ level > 0 ∧ ¬ Readable z defaultMaxFrameSize (payload z toVec events)) ∨
        Narrow z toVec level events) := by
  refine ⟨encode_declares_iff, ?_⟩
  intro T toVec level events hne
  rcases serialized_or z toVec events with hv | ⟨hfail, msg, he⟩
  · constructor
    · rintro (⟨e, he⟩ | h)
      · by_cases hl : level > 0
        · rw [sendFrames_compressed hv hne hl] at he
          cases he
        · refine .inr (.inl ⟨hl, fun hread => ?_⟩)
          rw [(error_none_iff hv hne hl).mpr hread] at he
          cases he
      · exact .inr (.inr (narrow_of_announces hne h))
    · intro h
      cases hok : (sendFrames z toVec level events).2 with
      | some e => exact .inl ⟨e, rfl⟩
      | none =>
        right
        rcases h with ⟨ev, hev, msg, hmsg⟩ | ⟨hl, hno⟩ | hn
        · exact absurd hmsg (serialized_all hv ev hev msg)
        · exact absurd ((error_none_iff hv hne hl).mp hok) hno
        · exact announces_of_narrow hne hv hn hok
  · refine iff_of_true (.inl ⟨.serialization msg, ?_⟩) (.inl hfail)
    simp only [sendFrames, List.isEmpty_iff, hne, if_false, he]

theorem narrowing_exact_sample :
    (∃ e, (sendFrames .sample (fun ev : Bytes => .ok ev) 3 [[123, 125]]).2 = some e) ∨
      Announces .sample (fun ev : Bytes => .ok ev) 3 [[123, 125]] :=
  ((narrowing_exact_iff .sample).2 Bytes (fun ev => .ok ev) 3 [[123, 125]] (by decide)).mpr
    (.inr (.inr (by decide +kernel)))

/-- A payload of 4 GiB is written behind a length field of 0, and 2^32 events are
announced as a window of 0. -/
theorem narrowing_loses :
    (let data : Bytes := List.replicate (2^32) 97
     (Frame.json 1 data).encode .sample = [50, 74, 0, 0, 0, 1, 0, 0, 0, 0] ++ data ∧
     ¬ (Frame.json 1 data).Declares .sample ((Frame.json 1 data).encode .sample)) ∧
    (let events : List Unit := List.replicate (2^32) ()
     let null : Unit → Except String Bytes := fun _ => .ok [110, 117, 108, 108]
     (∃ zip, sendFrames .sample null 3 events = ([.window 0, zip], none)) ∧
     ¬ Announces .sample null 3 events) := by
  constructor
  · intro data
    have hlen : data.length = 2^32 := List.length_replicate
    generalize data = data at hlen ⊢
    constructor
    · rw [Frame.encode, hlen]
      rfl
    · rw [encode_declares_iff]
      intro hn
      have hlt : data.length < 2^32 := hn
      omega
  · intro events null
    have hlen : events.length = 2^32 := List.length_replicate
    generalize events = events at hlen ⊢
    have hne : events ≠ [] := by
      rintro rfl
      cases hlen
    have hv : Serialized null events (payloads null events) := serialized_payloads (fun _ _ => rfl)
    refine ⟨?_, fun h => ?_⟩
    · rw [sendFrames_compressed hv hne (by decide), hlen]
      exact ⟨_, rfl⟩
    · have hcount := (narrow_of_announces hne h).count
      omega

end Client
end Lumberjack
