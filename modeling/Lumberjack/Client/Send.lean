import Mathlib.Data.List.Forall2
import Lumberjack.Server.Grammar

/-!
# What `Client::send` puts on the wire

Events are serialized and encoded into one buffer of event frames numbered from
1. Without compression that buffer is decoded again, frame by frame, and each
frame is written; with compression it is written as one compressed frame. Both
images are one complete window for the receiving loop. `toVec` stands for
`serde_json::to_vec` at the event type.
-/
namespace Lumberjack.Client

open Lumberjack.Stream Lumberjack.Wire Lumberjack.Server

section Encode

variable {T : Type} (z : Flate) (toVec : T → Except String Bytes)

/-- The loop over `events.iter().enumerate()`, from index `i` on. -/
def encodeEvents : Nat → List T → Bytes → Result Bytes
  | _, [], payload => .ok payload
  | i, ev :: events, payload =>
    match toVec ev with
    | .error e => .error (.serialization e)
    | .ok bytes =>
      encodeEvents (i + 1) events (payload ++ (Frame.json (.ofNat i + 1) bytes).encode z)

/-- Every event serializes, to these payloads. -/
abbrev Serialized (events : List T) (bs : List Bytes) : Prop :=
  List.Forall₂ (fun ev b => toVec ev = .ok b) events bs

/-- The frames one call feeds to the sink, and the error raised by the events
themselves if there is one. An empty list writes nothing and returns `Ok(0)`. -/
def sendFrames (level : UInt32) (events : List T) : List Frame × Option Error :=
  if events.isEmpty then ([], none)
  else
    match encodeEvents z toVec 0 events [] with
    | .error e => ([], some e)
    | .ok payload =>
      let n := UInt32.ofNat events.length
      if level > 0 then ([.window n, .compressed payload], none)
      else
        let frames := (LumberjackCodec.decoder z {}).drain payload
        (.window n :: frames.items, frames.error)

/-- The bytes of a call whose writes all succeed. -/
def sendBytes (level : UInt32) (events : List T) : Bytes :=
  encodeAll z (sendFrames z toVec level events).1

end Encode

/-- Payloads with the sequence numbers the client gives them. -/
def numbered : Nat → List Bytes → List Event
  | _, [] => []
  | i, b :: bs => (.ofNat i + 1, b) :: numbered (i + 1) bs

def jsonFrames (es : List Event) : List Frame := es.map (fun e => .json e.1 e.2)

theorem numbered_snd (i : Nat) (bs : List Bytes) : (numbered i bs).map Prod.snd = bs := by
  induction bs generalizing i with
  | nil => rfl
  | cons b bs ih => rw [numbered, List.map_cons, ih]

/-- An event frame of a numbered batch carries one of its payloads. -/
theorem mem_jsonFrames_numbered {i : Nat} {bs : List Bytes} {f : Frame}
    (h : f ∈ jsonFrames (numbered i bs)) : ∃ seq, ∃ b ∈ bs, f = .json seq b := by
  obtain ⟨e, he, hf⟩ := List.mem_map.mp h
  have hb : e.2 ∈ bs := by
    rw [← numbered_snd i bs]
    exact List.mem_map_of_mem he
  exact ⟨e.1, e.2, hb, hf.symm⟩

theorem numbered_length (i : Nat) (bs : List Bytes) : (numbered i bs).length = bs.length := by
  simpa using congrArg List.length (numbered_snd i bs)

theorem index_succ (i : Nat) : UInt32.ofNat i + 1 = UInt32.ofNat (i + 1) := by
  apply UInt32.toNat_inj.mp
  rw [UInt32.toNat_add, UInt32.toNat_ofNat', UInt32.toNat_ofNat', UInt32.toNat_one]
  omega

/-- The numbers climb by one from `i + 1`, so they are ascending and end at
`i + length`. -/
theorem numbered_ascending (i : Nat) (bs : List Bytes) (h : i + bs.length < 2^32) {prev : UInt32}
    (hp : prev.toNat = i) : Ascending prev (numbered i bs) ∧
      (((numbered i bs).map Prod.fst).getLastD prev).toNat = i + bs.length := by
  induction bs generalizing i prev with
  | nil => exact ⟨by simp [Ascending, numbered], by simpa [numbered] using hp⟩
  | cons b bs ih =>
    simp only [List.length_cons] at h
    have hi : (UInt32.ofNat i + 1).toNat = i + 1 := by
      rw [index_succ, ofNat_exact_iff.mpr (by omega)]
    obtain ⟨ha, hl⟩ := ih (i + 1) (by omega) hi
    refine ⟨Ascending.cons_iff.mpr ⟨?_, ha⟩, ?_⟩
    · rw [UInt32.lt_iff_toNat_lt, hi, hp]
      omega
    · simp only [numbered, List.map_cons, List.getLastD_cons]
      rw [hl, List.length_cons]
      omega

section Image

variable {T : Type} {z : Flate} {toVec : T → Except String Bytes}

theorem encodeEvents_ok {events : List T} {bs : List Bytes} (h : Serialized toVec events bs)
    (i : Nat) (payload : Bytes) :
    encodeEvents z toVec i events payload =
      .ok (payload ++ encodeAll z (jsonFrames (numbered i bs))) := by
  induction h generalizing i payload with
  | nil => simp [encodeEvents, numbered, jsonFrames]
  | cons hv h ih =>
    simp only [encodeEvents, hv, ih, numbered, jsonFrames, List.map_cons, encodeAll_cons,
      List.append_assoc]

/-- Event frames within the default limit decode back to what they were built from. -/
theorem drain_numbered {bs : List Bytes} (hs : ∀ b ∈ bs, b.length ≤ defaultMaxFrameSize) (i : Nat) :
    (LumberjackCodec.decoder z {}).drain (encodeAll z (jsonFrames (numbered i bs))) =
      ⟨jsonFrames (numbered i bs), none, []⟩ := by
  have hd := drain_encodeAll z {} (jsonFrames (numbered i bs)) ?_ []
  · rw [List.append_nil] at hd
    rw [hd, drain_nil]
    simp [Drained.prepend]
  · intro f hf
    obtain ⟨seq, b, hb, rfl⟩ := mem_jsonFrames_numbered hf
    have hl := hs b hb
    exact wireForm_encode_json hl (Nat.lt_of_le_of_lt hl (by decide))

/-- At level 0 the buffer is decoded again, and its error is the call's. -/
theorem sendFrames_decoded {events : List T} {bs : List Bytes} (h : Serialized toVec events bs)
    (hne : events ≠ []) {level : UInt32} (hl : ¬ level > 0) :
    sendFrames z toVec level events = (.window (.ofNat events.length) ::
        ((LumberjackCodec.decoder z {}).drain (encodeAll z (jsonFrames (numbered 0 bs)))).items,
      ((LumberjackCodec.decoder z {}).drain (encodeAll z (jsonFrames (numbered 0 bs)))).error) := by
  simp only [sendFrames, List.isEmpty_iff, hne, if_false, encodeEvents_ok h, hl, List.nil_append]

/-- At level 0 the buffer decodes back to the frames it was built from. -/
theorem sendFrames_raw {events : List T} {bs : List Bytes} (h : Serialized toVec events bs)
    (hne : events ≠ []) (hs : ∀ b ∈ bs, b.length ≤ defaultMaxFrameSize) :
    sendFrames z toVec 0 events =
      (.window (.ofNat events.length) :: jsonFrames (numbered 0 bs), none) := by
  rw [sendFrames_decoded h hne (UInt32.lt_irrefl 0), drain_numbered hs]

theorem sendFrames_compressed {events : List T} {bs : List Bytes} (h : Serialized toVec events bs)
    (hne : events ≠ []) {level : UInt32} (hl : level > 0) :
    sendFrames z toVec level events =
      ([.window (.ofNat events.length), .compressed (encodeAll z (jsonFrames (numbered 0 bs)))],
        none) := by
  simp only [sendFrames, List.isEmpty_iff, hne, if_false, encodeEvents_ok h, hl, if_true,
    List.nil_append]

variable {max : Nat}

theorem jFrames_numbered {bs : List Bytes} (hs : ∀ b ∈ bs, b.length ≤ max ∧ b.length < 2^32)
    (i : Nat) : JFrames z max (numbered i bs) (encodeAll z (jsonFrames (numbered i bs))) := by
  induction bs generalizing i with
  | nil => exact .nil
  | cons b bs ih =>
    obtain ⟨h1, h2⟩ := hs b (by simp)
    exact .cons (wireForm_encode_json h1 h2) (ih (fun x hx => hs x (by simp [hx])) (i + 1))

theorem fill_raw {es : List Event} {w : Bytes} (h : JFrames z max es w) :
    Fill z max es.length es [] w := by
  induction h with
  | nil => exact .full
  | @cons seq data w v es hw hj ih =>
    have hf := Fill.frame (Nat.succ_pos es.length) (.raw hw) ih
    exact hf

theorem fill_compressed {es : List Event} {p w : Bytes} (h : JFrames z max es p)
    (hw : WireForm z max (.compressed p) w) (hne : es ≠ []) : Fill z max es.length es [] w := by
  have hd : DataFrame z max es.length es [] w :=
    .compressed (by rwa [List.append_nil]) h (Nat.le_refl _) (.inl rfl)
  have hf := Fill.frame (List.length_pos_iff.mpr hne) hd (by rw [Nat.sub_self]; exact .full)
  simpa using hf

/-- What the receiver dispatches for these payloads. -/
def delivery (bs : List Bytes) : Dispatch := ⟨.ofNat bs.length, bs, .ofNat bs.length⟩

theorem window_of_fill {bs : List Bytes} {w : Bytes} (hn : bs.length < 2^32)
    (h : Fill z max bs.length (numbered 0 bs) [] w) :
    Window z max (delivery bs) [] ((Frame.window (.ofNat bs.length)).encode z ++ w) := by
  have hlen : (UInt32.ofNat bs.length).toNat = bs.length := by
    rw [UInt32.toNat_ofNat', Nat.mod_eq_of_lt hn]
  obtain ⟨ha, hl⟩ := numbered_ascending 0 bs (by omega) UInt32.toNat_zero
  have hf : Fill z max (UInt32.ofNat bs.length).toNat (numbered 0 bs) [] w := by rwa [hlen]
  have hw := Window.mk (.window (.ofNat bs.length)) hf ha
  rw [numbered_snd] at hw
  have hlast : ((numbered 0 bs).map Prod.fst).getLastD 0 = .ofNat bs.length := by
    apply UInt32.toNat_inj.mp
    rw [hl, hlen, Nat.zero_add]
  rw [hlast] at hw
  exact hw

end Image

section Compare

variable {z : Flate} {cfg : ConnectionConfig}

theorem run_nil (env : Nat → Nat × Release) {src : Source UInt8} (h : src.pending = []) :
    runConnection z cfg env src = ⟨[], [], .ok ()⟩ := by
  rcases run_cases z cfg env src with ⟨d, sk, w, r, hp, hw⟩ | ⟨-, he⟩ | ⟨e, hp, -⟩
  · rw [h] at hp
    exact absurd (List.append_eq_nil_iff.mp hp.symm).1 hw.ne_nil
  · exact he
  · exact absurd h hp

theorem run_single_window {d : Dispatch} {sk w : Bytes} (h : Window z cfg.maxFrameSize d sk w)
    (env : Nat → Nat × Release) {src : Source UInt8} (hp : src.pending = w) :
    runConnection z cfg env src = ⟨[d], ackFrames cfg (env 0).1 d.lastSeq, .ok ()⟩ := by
  obtain ⟨src', hp', hrun⟩ := run_window h env (hp.trans (List.append_nil w).symm)
  rw [hrun, run_nil _ hp']
  simp [Log.after]

/-- A window whose first data frame is refused dispatches nothing. -/
theorem run_refused (env : Nat → Nat × Release) {n : UInt32} (hn : 0 < n.toNat) {w : Bytes}
    {e : Error} (he : (decodeWithLimit z w cfg.maxFrameSize).1 = .error e) {src : Source UInt8}
    (hp : src.pending = (Frame.window n).encode z ++ w) :
    runConnection z cfg env src = ⟨[], [], .error e⟩ := by
  obtain ⟨src₁, hnext, hp₁⟩ := next_wire (WireForm.window n) hp
  have hstart : (Collect.start n).received < (Collect.start n).window := by
    rw [UInt32.lt_iff_toNat_lt]
    exact hn
  have hfail : ((cfg.decoder z).next src₁).1 = some (.error e) := by
    rw [Decoder.next_fst, hp₁, Decoder.decodeEof_error (d := cfg.decoder z) (Prod.ext he rfl)]
  have hc : (collect z cfg (.start n) src₁).1 = .error e := by
    rw [collect_eq z cfg src₁ hstart]
    split <;> simp_all
  rw [runConnection_eq, hnext]
  simp only [resume]
  split <;> simp_all

end Compare

/-- **Compression changes nothing that fits.** The uncompressed image of a batch
is always delivered. The compressed image leads to the same batch, frames and
result whenever the concatenated event frames and their zlib image are within
the server's limit, and is refused for its size, with nothing dispatched, when
one of them is not. -/
theorem compression_transparent {T : Type} (z : Flate) (hz : z.Lawful)
    (toVec : T → Except String Bytes) (cfg : ConnectionConfig) (hm : cfg.maxFrameSize < 2^32)
    (env : Nat → Nat × Release) (events : List T) (hne : events ≠ []) (hn : events.length < 2^32)
    (bs : List Bytes) (hv : Serialized toVec events bs)
    (hs : ∀ b ∈ bs, b.length ≤ min defaultMaxFrameSize cfg.maxFrameSize)
    (level : UInt32) (hl : level > 0) (rawReads zipReads : List Bytes)
    (hraw : rawReads.flatten = sendBytes z toVec 0 events)
    (hzip : zipReads.flatten = sendBytes z toVec level events) :
    let payload := encodeAll z (jsonFrames (numbered 0 bs))
    let raw := runConnection z cfg env (.ofReads rawReads)
    let zip := runConnection z cfg env (.ofReads zipReads)
    (raw.batches = [delivery bs] ∧ raw.result = .ok ()) ∧
    (payload.length ≤ cfg.maxFrameSize → (z.zlibCompress payload).length ≤ cfg.maxFrameSize →
      zip = raw) ∧
    ((z.zlibCompress payload).length < 2^32 →
      (cfg.maxFrameSize < payload.length ∨ cfg.maxFrameSize < (z.zlibCompress payload).length) →
      zip.batches = [] ∧ ∃ size, cfg.maxFrameSize < size ∧
        zip.result = .error (.frameTooLarge size cfg.maxFrameSize)) := by
  have hlen : bs.length = events.length := hv.length_eq.symm
  have hbs : bs ≠ [] := by
    rintro rfl
    exact hne (List.eq_nil_of_length_eq_zero hlen.symm)
  have hj : JFrames z cfg.maxFrameSize (numbered 0 bs) (encodeAll z (jsonFrames (numbered 0 bs))) :=
    jFrames_numbered (fun b hb => by have := hs b hb; omega) 0
  have hraws : sendBytes z toVec 0 events =
      (Frame.window (.ofNat bs.length)).encode z ++ encodeAll z (jsonFrames (numbered 0 bs)) := by
    rw [sendBytes, sendFrames_raw hv hne (fun b hb => by have := hs b hb; omega), hlen]
    rfl
  have hzips : sendBytes z toVec level events = (Frame.window (.ofNat bs.length)).encode z ++
      (Frame.compressed (encodeAll z (jsonFrames (numbered 0 bs)))).encode z := by
    rw [sendBytes, sendFrames_compressed hv hne hl, hlen]
    simp
  have hfill := fill_raw hj
  rw [numbered_length] at hfill
  have hp : (Source.ofReads rawReads).pending = _ := hraw.trans hraws
  have hrun := run_single_window (window_of_fill (by omega) hfill) env hp
  intro payload raw zip
  refine ⟨⟨by simp only [raw, hrun], by simp only [raw, hrun]⟩, ?_, ?_⟩
  · intro h1 h2
    have hw := wireForm_encode hz (f := .compressed payload) ⟨h1, h2⟩ (Nat.lt_of_le_of_lt h2 hm)
    have hne' : numbered 0 bs ≠ [] := by
      rintro he
      rw [← numbered_snd 0 bs, he] at hbs
      exact hbs rfl
    have hfill' := fill_compressed hj hw hne'
    rw [numbered_length] at hfill'
    have hp' : (Source.ofReads zipReads).pending = _ := hzip.trans hzips
    simp only [raw, zip, hrun, run_single_window (window_of_fill (by omega) hfill') env hp']
  · intro h1 h2
    obtain ⟨size, hsize, he⟩ := decode_oversized hz h1 h2 []
    rw [List.append_nil] at he
    have hpos : 0 < (UInt32.ofNat bs.length).toNat := by
      rw [UInt32.toNat_ofNat', Nat.mod_eq_of_lt (by omega)]
      exact List.length_pos_iff.mpr hbs
    have hp' : (Source.ofReads zipReads).pending = _ := hzip.trans hzips
    simp only [zip, run_refused env hpos he hp', true_and]
    exact ⟨size, hsize, rfl⟩

/-- A one-event batch at a limit that its payload meets and its compressed image
does not: delivered at level 0, refused at level 3. -/
theorem compression_refused_sample :
    (runConnection .sample ⟨2, none⟩ (fun _ => (0, .ack))
      (.ofReads [sendBytes .sample (fun b : Bytes => .ok b) 0 [[123, 125]]])).batches =
        [delivery [[123, 125]]] ∧
    (runConnection .sample ⟨2, none⟩ (fun _ => (0, .ack))
      (.ofReads [sendBytes .sample (fun b : Bytes => .ok b) 3 [[123, 125]]])).batches = [] ∧
    (runConnection .sample ⟨2, none⟩ (fun _ => (0, .ack))
      (.ofReads [sendBytes .sample (fun b : Bytes => .ok b) 3 [[123, 125]]])).result =
        .error (.frameTooLarge 18 2) := by
  decide +kernel

/-- The same batch at the smallest limit that admits the compressed image. -/
theorem compression_transparent_sample :
    runConnection .sample ⟨18, some 15000⟩ (fun _ => (2, .drop))
        (.ofReads [sendBytes .sample (fun b : Bytes => .ok b) 3 [[123, 125]]]) =
      runConnection .sample ⟨18, some 15000⟩ (fun _ => (2, .drop))
        (.ofReads [sendBytes .sample (fun b : Bytes => .ok b) 0 [[123, 125]]]) :=
  (compression_transparent .sample Flate.sample_lawful (fun b : Bytes => .ok b) ⟨18, some 15000⟩
    (by decide) (fun _ => (2, .drop)) [[123, 125]] (by decide) (by decide) [[123, 125]]
    (.cons rfl .nil) (by decide) 3 (by decide) _ _ (List.append_nil _) (List.append_nil _)).2.1
    (by decide) (by decide)

end Lumberjack.Client
