import Lumberjack.Client.Machine
import Lumberjack.Server.Position

/-!
# What a client's stream means to the receiving loop

A client's sends follow each other on one stream, and a send may be given up at
any point. The receiving loop then stands between windows, inside a window that
was never finished, or it has refused the stream. Only batches of which every
frame was fed are ever dispatched, in order and unchanged, however the sends
before them ended.
-/
namespace Lumberjack.Client

open Lumberjack.Stream Lumberjack.Wire Lumberjack.Server

section Frames

variable {T : Type} {z : Flate} {toVec : T → Except String Bytes} {max : Nat}

/-- The serializations of the events. -/
def payloads (toVec : T → Except String Bytes) (events : List T) : List Bytes :=
  events.filterMap (fun ev => (toVec ev).toOption)

theorem payloads_eq {events : List T} {bs : List Bytes} (h : Serialized toVec events bs) :
    payloads toVec events = bs := by
  induction h with
  | nil => rfl
  | cons hv h ih =>
    have hone : (toVec _).toOption = some _ := congrArg Except.toOption hv
    rw [payloads, List.filterMap_cons, hone]
    exact congrArg _ ih

/-- The batch that is dispatched for these events. -/
def deliver (toVec : T → Except String Bytes) (events : List T) : Dispatch :=
  delivery (payloads toVec events)

/-- Counts and lengths fit the 32-bit fields they are written to. -/
structure Narrow (z : Flate) (toVec : T → Except String Bytes) (level : UInt32) (events : List T) :
    Prop where
  count : events.length < 2^32
  payload : ∀ b ∈ payloads toVec events, b.length < 2^32
  image : level > 0 →
    (z.zlibCompress (encodeAll z (jsonFrames (numbered 0 (payloads toVec events))))).length < 2^32

instance (z : Flate) (toVec : T → Except String Bytes) (level : UInt32) (events : List T) :
    Decidable (Narrow z toVec level events) :=
  decidable_of_iff (events.length < 2^32 ∧ (∀ b ∈ payloads toVec events, b.length < 2^32) ∧
      (level > 0 → (z.zlibCompress (encodeAll z
        (jsonFrames (numbered 0 (payloads toVec events))))).length < 2^32))
    ⟨fun h => ⟨h.1, h.2.1, h.2.2⟩, fun h => ⟨h.count, h.payload, h.image⟩⟩

/-- Events that do not serialize stop a call before it feeds anything. -/
theorem encodeEvents_cases (z : Flate) (toVec : T → Except String Bytes) (events : List T) (i : Nat)
    (payload : Bytes) :
    (∃ bs, Serialized toVec events bs) ∨
    ∃ e, encodeEvents z toVec i events payload = .error (.serialization e) := by
  induction events generalizing i payload with
  | nil => exact .inl ⟨[], .nil⟩
  | cons ev events ih =>
    cases hv : toVec ev with
    | error e => exact .inr ⟨e, by simp [encodeEvents, hv]⟩
    | ok b =>
      rcases ih (i + 1) (payload ++ (Frame.json (.ofNat i + 1) b).encode z) with ⟨bs, hbs⟩ | ⟨e, he⟩
      · exact .inl ⟨b :: bs, .cons hv hbs⟩
      · exact .inr ⟨e, by simp only [encodeEvents, hv, he]⟩

/-- Decoding the client's own buffer returns its event frames, up to the first that
is over the default limit. -/
theorem drain_jsonFrames {bs : List Bytes} (hn : ∀ b ∈ bs, b.length < 2^32) (i : Nat) :
    let x := (LumberjackCodec.decoder z {}).drain (encodeAll z (jsonFrames (numbered i bs)))
    (x.error = none ∧ x.items = jsonFrames (numbered i bs) ∧
      ∀ b ∈ bs, b.length ≤ defaultMaxFrameSize) ∨
    ∃ e k, x.error = some e ∧ k < bs.length ∧ x.items = jsonFrames (numbered i (bs.take k)) := by
  induction bs generalizing i with
  | nil =>
    left
    show (Decoder.drain _ []).error = none ∧ (Decoder.drain _ []).items = [] ∧ _
    rw [drain_nil]
    exact ⟨rfl, rfl, by simp⟩
  | cons b bs ih =>
    have hb := hn b List.mem_cons_self
    intro x
    have hx : x = (LumberjackCodec.decoder z {}).drain ((Frame.json (.ofNat i + 1) b).encode z ++
        encodeAll z (jsonFrames (numbered (i + 1) bs))) := rfl
    by_cases hfit : b.length ≤ defaultMaxFrameSize
    · have hd : (LumberjackCodec.decoder z {}).decode ((Frame.json (.ofNat i + 1) b).encode z ++
          encodeAll z (jsonFrames (numbered (i + 1) bs))) = (.ok (some (.json (.ofNat i + 1) b)), _) :=
        decode_wire (wireForm_encode_json hfit hb) _
      rw [Decoder.drain_some _ hd] at hx
      rcases ih (fun b' hb' => hn b' (List.mem_cons_of_mem _ hb')) (i + 1) with
        ⟨he, hit, hall⟩ | ⟨e, k, he, hk, hit⟩
      · left
        rw [hx, Drained.prepend_error, Drained.prepend_items, hit]
        exact ⟨he, rfl, by simpa using ⟨hfit, hall⟩⟩
      · right
        refine ⟨e, k + 1, ?_, Nat.succ_lt_succ hk, ?_⟩
        · rw [hx, Drained.prepend_error]
          exact he
        · rw [hx, Drained.prepend_items, hit]
          rfl
    · right
      have he := decode_json_oversized z (.ofNat i + 1) hb (Nat.lt_of_not_le hfit)
        (encodeAll z (jsonFrames (numbered (i + 1) bs)))
      rw [Decoder.drain_error (LumberjackCodec.decoder z {}) (Prod.ext he rfl)] at hx
      exact ⟨_, 0, by rw [hx], Nat.succ_pos _, by rw [hx]; rfl⟩

/-- Frames that fill the window from `c` on. If they are all accepted the window
ends with the last of them, as the given batch; `none` when it does not end. -/
def Leads (z : Flate) (max : Nat) (c : Collect) : List Frame → Option Dispatch → Prop
  | [], o => o = none
  | f :: fs, o => f.Fits z max → ∃ c', c.frame z max f = .ok c' ∧
    ((c'.received < c'.window ∧ Leads z max c' fs o) ∨
      (¬ c'.received < c'.window ∧ fs = [] ∧ o = some c'.dispatch))

/-- Event frames numbered from where the window stands. -/
theorem leads_json {bs : List Bytes} {i : Nat} {c : Collect} (hi : i + bs.length < 2^32)
    (hp : c.prevSeq.toNat = i) (hlen : bs.length ≤ c.room) (hroom : 0 < c.room)
    {o : Option Dispatch}
    (ho : o = if bs.length = c.room then some (c.storeAll (numbered i bs)).dispatch else none) :
    Leads z max c (jsonFrames (numbered i bs)) o := by
  induction bs generalizing i c with
  | nil =>
    rw [ho, if_neg (by simp only [List.length_nil]; omega)]
    rfl
  | cons b bs ih =>
    simp only [List.length_cons] at hi hlen
    have hseq : (UInt32.ofNat i + 1).toNat = i + 1 := by
      rw [UInt32.toNat_add, UInt32.toNat_ofNat', UInt32.toNat_one]
      omega
    have hlt : c.prevSeq < UInt32.ofNat i + 1 := by
      rw [UInt32.lt_iff_toNat_lt, hseq, hp]
      omega
    have hst := Collect.room_store hroom (.ofNat i + 1) b
    intro _
    refine ⟨c.store (.ofNat i + 1) b, Collect.push_ok.mpr ⟨hlt, rfl⟩, ?_⟩
    rw [Collect.received_lt_iff, hst]
    by_cases hlast : c.room = 1
    · right
      have hnil : bs = [] := List.eq_nil_of_length_eq_zero (by omega)
      subst hnil
      exact ⟨by omega, rfl, by rw [ho, hlast]; rfl⟩
    · left
      refine ⟨by omega, ih (by omega) hseq (by omega) (by omega) ?_⟩
      rw [ho]
      have hiff : ((b :: bs).length = c.room) =
          (bs.length = (c.store (.ofNat i + 1) b).room) := propext (by
        rw [hst, List.length_cons]
        omega)
      simp only [hiff]
      rfl

theorem room_start {n : Nat} (hn : n < 2^32) : (Collect.start (.ofNat n)).room = n := by
  simp only [Collect.room, Collect.start, UInt32.toNat_zero, Nat.sub_zero]
  rw [UInt32.toNat_ofNat', Nat.mod_eq_of_lt hn]

theorem length_le_encodeAll {bs : List Bytes} {b : Bytes} (hb : b ∈ bs) (i : Nat) :
    b.length ≤ (encodeAll z (jsonFrames (numbered i bs))).length := by
  induction bs generalizing i with
  | nil => cases hb
  | cons b' bs ih =>
    show b.length ≤ ((Frame.json (.ofNat i + 1) b').encode z ++
      encodeAll z (jsonFrames (numbered (i + 1) bs))).length
    rw [List.length_append]
    rcases List.mem_cons.mp hb with rfl | hb
    · simp only [Frame.encode, List.length_cons, List.length_append]
      omega
    · have := ih hb (i + 1)
      omega

theorem leads_compressed {bs : List Bytes} (hn : bs.length < 2^32)
    (hs : ∀ b ∈ bs, b.length < 2^32) :
    Leads z max (.start (.ofNat bs.length)) [.compressed (encodeAll z (jsonFrames (numbered 0 bs)))]
      (some ((Collect.start (.ofNat bs.length)).storeAll (numbered 0 bs)).dispatch) := by
  intro hfit
  have hroom := room_start hn
  have hsmall : ∀ b ∈ bs, b.length ≤ max := by
    intro b hb
    exact Nat.le_trans (length_le_encodeAll hb 0) hfit.1
  have hj : JFrames z max (numbered 0 bs) _ :=
    jFrames_numbered (fun b hb => ⟨hsmall b hb, hs b hb⟩) 0
  obtain ⟨ha, -⟩ := numbered_ascending 0 bs (by omega) UInt32.toNat_zero
  have hl : (numbered 0 bs).length = bs.length := numbered_length 0 bs
  have hin := Collect.inner_complete [] (c := .start (.ofNat bs.length)) hj (by omega) (.inl rfl) ha
  rw [List.append_nil] at hin
  refine ⟨_, hin, .inr ⟨?_, rfl, rfl⟩⟩
  rw [Collect.received_lt_iff, Collect.storeAll_room (by omega)]
  omega

theorem dispatch_numbered {bs : List Bytes} (hn : bs.length < 2^32) :
    ((Collect.start (.ofNat bs.length)).storeAll (numbered 0 bs)).dispatch = delivery bs := by
  have hlast : ((numbered 0 bs).map Prod.fst).getLastD 0 = .ofNat bs.length := by
    apply UInt32.toNat_inj.mp
    rw [(numbered_ascending 0 bs (by omega) UInt32.toNat_zero).2, UInt32.toNat_ofNat',
      Nat.mod_eq_of_lt hn, Nat.zero_add]
  rw [Collect.dispatch_start, numbered_snd, hlast]
  rfl

/-- What a call feeds: nothing, when its events do not serialize; otherwise a window
and frames that fill it with the batch of the call, unless an error of the call's
own stops them short. -/
theorem sendFrames_cases {level : UInt32} {events : List T} (hne : events ≠ [])
    (hn : Narrow z toVec level events) (max : Nat) :
    (∃ e, sendFrames z toVec level events = ([], some e)) ∨
    ∃ fs err, sendFrames z toVec level events = (.window (count events) :: fs, err) ∧
      (∀ f ∈ fs, f.Narrow z) ∧
      Leads z max (.start (count events)) fs
        (if err.isNone then some (deliver toVec events) else none) := by
  rcases encodeEvents_cases z toVec events 0 [] with ⟨bs, hbs⟩ | ⟨e, he⟩
  · right
    have hpay := payloads_eq hbs
    have hlen : events.length = bs.length := hbs.length_eq
    have hbne : bs ≠ [] := by
      intro hnil
      rw [hnil] at hlen
      exact hne (List.eq_nil_of_length_eq_zero hlen)
    have hcount := hn.count
    have hsmall := hn.payload
    have himage := hn.image
    rw [hpay] at hsmall himage
    rw [hlen] at hcount
    have hc : count events = .ofNat bs.length := by rw [count, hlen]
    have hd : deliver toVec events = ((Collect.start (.ofNat bs.length)).storeAll
        (numbered 0 bs)).dispatch := by
      rw [deliver, hpay, dispatch_numbered hcount]
    by_cases hl : level > 0
    · refine ⟨_, none, sendFrames_compressed hbs hne hl, ?_, ?_⟩
      · intro f hf
        cases List.mem_singleton.mp hf
        exact himage hl
      · rw [hc, hd]
        exact leads_compressed hcount hsmall
    · have hsend := sendFrames_decoded (z := z) hbs hne hl
      have hroom := room_start hcount
      have hpos := List.length_pos_iff.mpr hbne
      have hnarrow {ds : List Bytes} (hds : ∀ b ∈ ds, b.length < 2^32) :
          ∀ f ∈ jsonFrames (numbered 0 ds), f.Narrow z := by
        intro f hf
        obtain ⟨seq, b, hb, rfl⟩ := mem_jsonFrames_numbered hf
        exact hds b hb
      refine ⟨_, _, hsend, ?_, ?_⟩
      · rcases drain_jsonFrames (z := z) hsmall 0 with ⟨-, hit, -⟩ | ⟨e, k, -, -, hit⟩
        · rw [hit]
          exact hnarrow hsmall
        · rw [hit]
          exact hnarrow (fun b hb => hsmall b (List.mem_of_mem_take hb))
      · rw [hc, hd]
        rcases drain_jsonFrames (z := z) hsmall 0 with ⟨he, hit, -⟩ | ⟨e, k, he, hk, hit⟩
        · rw [he, hit]
          apply leads_json (by omega) UInt32.toNat_zero (by omega) (by omega)
          rw [if_pos hroom.symm]
          rfl
        · rw [he, hit]
          have hlk : (bs.take k).length = k := List.length_take_of_le (Nat.le_of_lt hk)
          apply leads_json (by omega) UInt32.toNat_zero (by omega) (by omega)
          have hshort : (bs.take k).length ≠ (Collect.start (.ofNat bs.length)).room := by omega
          rw [if_neg hshort]
          rfl
  · left
    refine ⟨.serialization e, ?_⟩
    simp only [sendFrames, List.isEmpty_iff, hne, if_false, he]

end Frames

section Stream

variable {T : Type} {z : Flate} {toVec : T → Except String Bytes} {cfg : ConnectionConfig}
variable {fed : Bytes} {ds : List Dispatch}

/-- A refused stream stays refused. -/
theorem reads_stopped {r : Result Unit} (h : Reads z cfg fed ds (.stopped r) []) (w : Bytes) :
    Reads z cfg (fed ++ w) ds (.stopped r) [] := h.more w

/-- A window frame opens a window between windows, and ends the stream inside one. -/
theorem reads_window {pos : Position} (h : Reads z cfg fed ds pos []) (hopen : pos.Open)
    (hpos : ∀ r, pos ≠ .stopped r) (n : UInt32) :
    (pos = .window ∧ Reads z cfg (fed ++ (Frame.window n).encode z) ds (.inside (.start n)) []) ∨
    ∃ e, Reads z cfg (fed ++ (Frame.window n).encode z) ds (.stopped (.error e)) [] := by
  have hf := h.frame hopen (WireForm.window n)
  cases pos with
  | window => exact .inl ⟨rfl, hf⟩
  | inside c => exact .inr ⟨_, hf⟩
  | stopped r => exact absurd rfl (hpos r)

/-- The next frame of a window is collected, completes the window, or is refused. -/
theorem reads_leads (hz : z.Lawful) {c : Collect} (h : Reads z cfg fed ds (.inside c) [])
    (hopen : c.received < c.window) {f : Frame} {todo : List Frame} {o : Option Dispatch}
    (hn : f.Narrow z) (hl : Leads z cfg.maxFrameSize c (f :: todo) o) :
    (∃ c', Reads z cfg (fed ++ f.encode z) ds (.inside c') [] ∧ c'.received < c'.window ∧
      Leads z cfg.maxFrameSize c' todo o) ∨
    (∃ d, Reads z cfg (fed ++ f.encode z) (ds ++ [d]) .window [] ∧ todo = [] ∧ o = some d) ∨
    (¬ f.Fits z cfg.maxFrameSize ∧
      ∃ e, Reads z cfg (fed ++ f.encode z) ds (.stopped (.error e)) []) := by
  by_cases hfit : f.Fits z cfg.maxFrameSize
  · obtain ⟨c', hc, hrest⟩ := hl hfit
    have hf := h.frame hopen (wireForm_encode hz hfit hn)
    simp only [Position.advance, hc] at hf
    rcases hrest with ⟨hlt, hl'⟩ | ⟨hfull, htodo, ho⟩
    · exact .inl ⟨c', hf, hlt, hl'⟩
    · exact .inr (.inl ⟨_, hf.dispatched hfull, htodo, ho⟩)
  · right
    right
    refine ⟨hfit, ?_⟩
    rcases decode_encode hz cfg.maxFrameSize hn with ⟨hfit', -⟩ | ⟨e, he⟩
    · exact absurd hfit' hfit
    · have hd : ((cfg.decoder z).decode ([] ++ f.encode z)).1 = .error e := by
        have := he []
        rwa [List.append_nil] at this
      exact ⟨e, (h.more (f.encode z)).refused hopen (Prod.ext hd rfl) (fun r hr => by cases hr) []⟩

/-- A call in progress and the position of the receiving loop after all that was
fed. `fresh` is a call that has fed nothing; a window left open by an earlier call
may still stand there. -/
inductive Stage (z : Flate) (toVec : T → Except String Bytes) (level : UInt32) (max : Nat) :
    Phase T → Position → Prop
  | resting {p : Phase T} {pos : Position} (hp : ∀ events todo err, p ≠ .feeding events todo err) :
      Stage z toVec level max p pos
  | fresh {events : List T} {todo : List Frame} {err : Option Error} {pos : Position}
      (hne : events ≠ []) (hn : Narrow z toVec level events)
      (hs : sendFrames z toVec level events = (todo, err)) :
      Stage z toVec level max (.feeding events todo err) pos
  | inside {events : List T} {todo : List Frame} {err : Option Error} {c : Collect}
      (hl : Leads z max c todo (if err.isNone then some (deliver toVec events) else none))
      (hn : ∀ f ∈ todo, f.Narrow z) : Stage z toVec level max (.feeding events todo err) (.inside c)
  | fed {events : List T} : Stage z toVec level max (.feeding events [] none) .window

/-- The receiving loop never dispatches anything but complete batches, in order. As
long as it has not refused the stream, all of them are dispatched. -/
def Streams (z : Flate) (toVec : T → Except String Bytes) (level : UInt32) (cfg : ConnectionConfig)
    (cl : Client T) : Prop :=
  ∃ ds pos, Reads z cfg cl.fed ds pos [] ∧ pos.Open ∧ ds <+: cl.complete.map (deliver toVec) ∧
    ((∃ e, pos = .stopped (.error e)) ∨
      (ds = cl.complete.map (deliver toVec) ∧ (∀ r, pos ≠ .stopped r) ∧
        Stage z toVec level cfg.maxFrameSize cl.phase pos))

namespace Streams

variable {level : UInt32} {cl cl' : Client T}

theorem init (z : Flate) (toVec : T → Except String Bytes) (level : UInt32) (cfg : ConnectionConfig) :
    Streams z toVec level cfg (Client.init T) := by
  refine ⟨[], .window, .start z cfg, trivial, List.prefix_refl _, .inr ⟨rfl, ?_, ?_⟩⟩
  · intro r hr
    cases hr
  · exact .resting (fun events todo err hp => by cases hp)

/-- The stream is untouched, and the call is over, has begun, or waits. -/
theorem of_still (h : Streams z toVec level cfg cl) (hf : cl'.fed = cl.fed)
    (hc : cl'.complete = cl.complete)
    (hs : ∀ pos, Stage z toVec level cfg.maxFrameSize cl.phase pos →
      Stage z toVec level cfg.maxFrameSize cl'.phase pos) : Streams z toVec level cfg cl' := by
  obtain ⟨ds, pos, hr, ho, hd, hpos⟩ := h
  refine ⟨ds, pos, ?_, ho, ?_, hpos.imp id (fun hst => ⟨?_, hst.2.1, hs pos hst.2.2⟩)⟩
  · rwa [hf]
  · rwa [hc]
  · rw [hc]
    exact hst.1

theorem of_stopped {e : Error} (hr : Reads z cfg cl.fed ds (.stopped (.error e)) [])
    (hd : ds <+: cl.complete.map (deliver toVec)) : Streams z toVec level cfg cl :=
  ⟨ds, _, hr, trivial, hd, .inl ⟨e, rfl⟩⟩

theorem of_stage (pos : Position) (hr : Reads z cfg cl.fed (cl.complete.map (deliver toVec)) pos [])
    (ho : pos.Open) (hpos : ∀ r, pos ≠ .stopped r)
    (hs : Stage z toVec level cfg.maxFrameSize cl.phase pos) : Streams z toVec level cfg cl :=
  ⟨_, pos, hr, ho, List.prefix_refl _, .inr ⟨rfl, hpos, hs⟩⟩

end Streams

/-- Frames that leave the window open are not the last of their call. -/
theorem unfinished_of_leads {max : Nat} {c : Collect} {todo : List Frame} (err : Option Error)
    {d : Dispatch} (hl : Leads z max c todo (if err.isNone then some d else none)) :
    (todo.isEmpty && err.isNone) = false := by
  cases todo with
  | cons f todo => rfl
  | nil =>
    cases err with
    | some e => rfl
    | none => cases hl

/-- One more frame of the call is fed. -/
theorem Streams.feed (hz : z.Lawful) {level : UInt32} {cl cl' : Client T} {events : List T}
    {f : Frame} {todo : List Frame} {err : Option Error} (h : Streams z toVec level cfg cl)
    (hp : cl.phase = .feeding events (f :: todo) err) (hp' : cl'.phase = .feeding events todo err)
    (hf : cl'.fed = cl.fed ++ f.encode z)
    (hc : cl'.complete =
      if todo.isEmpty && err.isNone then cl.complete ++ [events] else cl.complete) :
    Streams z toVec level cfg cl' := by
  obtain ⟨ds, pos, hr, ho, hd, hpos⟩ := h
  have hfront : cl.complete.map (deliver toVec) <+: cl'.complete.map (deliver toVec) := by
    rw [hc]
    split
    · rw [List.map_append]
      exact List.prefix_append _ _
    · exact List.prefix_refl _
  have stop {e : Error} (hs : Reads z cfg (cl.fed ++ f.encode z) ds (.stopped (.error e)) []) :
      Streams z toVec level cfg cl' :=
    .of_stopped (by rwa [hf]) (hd.trans hfront)
  rcases hpos with ⟨e, rfl⟩ | ⟨rfl, hns, hst⟩
  · exact stop (reads_stopped hr _)
  · -- a frame after which the window is still open completes no batch
    have go {c : Collect} (hr' : Reads z cfg (cl.fed ++ f.encode z)
        (cl.complete.map (deliver toVec)) (.inside c) []) (hlt : c.received < c.window)
        (hl : Leads z cfg.maxFrameSize c todo (if err.isNone then some (deliver toVec events) else none))
        (hn : ∀ f ∈ todo, f.Narrow z) : Streams z toVec level cfg cl' := by
      rw [unfinished_of_leads err hl] at hc
      refine .of_stage (.inside c) ?_ hlt (fun r hr => by cases hr) ?_
      · rw [hf, hc]
        exact hr'
      · rw [hp']
        exact .inside hl hn
    rw [hp] at hst
    cases hst with
    | resting hp => exact absurd rfl (hp _ _ _)
    | fresh hne hn hs =>
      rcases sendFrames_cases hne hn cfg.maxFrameSize with ⟨e, he⟩ | ⟨fs, err', he, hnf, hl⟩
      · rw [hs] at he
        cases he
      · rw [hs] at he
        cases he
        rcases reads_window hr ho hns (count events) with ⟨rfl, hr'⟩ | ⟨e, hr'⟩
        · apply go hr' _ hl hnf
          rw [Collect.received_lt_iff, count, room_start hn.count]
          exact List.length_pos_iff.mpr hne
        · exact stop hr'
    | @inside _ _ _ c hl hn =>
      rcases reads_leads hz hr ho (hn f List.mem_cons_self) hl with
        ⟨c', hr', hlt, hl'⟩ | ⟨d, hr', htodo, hod⟩ | ⟨-, e, hr'⟩
      · exact go hr' hlt hl' (fun g hg => hn g (List.mem_cons_of_mem _ hg))
      · cases err with
        | some e => cases hod
        | none =>
          obtain rfl : deliver toVec events = d := Option.some.inj hod
          subst htodo
          refine .of_stage .window ?_ trivial (fun r hr => by cases hr) ?_
          · rw [hf, hc]
            show Reads z cfg _ ((cl.complete ++ [events]).map (deliver toVec)) .window []
            rw [List.map_append]
            exact hr'
          · rw [hp']
            exact .fed
      · exact stop hr'

theorem Step.streams (hz : z.Lawful) {b : ClientBuilder} {cl cl' : Client T} {a : Act T}
    (hs : Step z toVec b cl a cl')
    (hok : ∀ events, a = .start events → events ≠ [] → Narrow z toVec b.compressionLevel events)
    (h : Streams z toVec b.compressionLevel cfg cl) : Streams z toVec b.compressionLevel cfg cl' := by
  have rest {p : Phase T} (hp : ∀ events todo err, p ≠ .feeding events todo err) (pos : Position) :
      Stage z toVec b.compressionLevel cfg.maxFrameSize p pos := .resting hp
  cases hs with
  | empty hp => exact h.of_still rfl rfl (fun pos _ => rest (fun _ _ _ hq => by cases hq) pos)
  | @start events hp hne =>
    exact h.of_still rfl rfl (fun pos _ => .fresh hne (hok events rfl hne) rfl)
  | feed hp hb => exact h.feed hz hp rfl rfl rfl
  | flush hp => exact h.of_still rfl rfl (fun pos _ => rest (fun _ _ _ hq => by cases hq) pos)
  | write hw hk hl => exact h.of_still rfl rfl (fun pos hst => hst)
  | flushed hp hw => exact h.of_still rfl rfl (fun pos _ => rest (fun _ _ _ hq => by cases hq) pos)
  | read hp hc hst => exact h.of_still rfl rfl (fun pos hst => hst)
  | ended hp => exact h.of_still rfl rfl (fun pos hst => hst)
  | @next events f r hp he hr hd =>
    apply h.of_still
    · cases f with
      | ack seq =>
        simp only [onFrame]
        split <;> rfl
      | _ => rfl
    · cases f with
      | ack seq =>
        simp only [onFrame]
        split <;> rfl
      | _ => rfl
    · intro pos hst
      apply rest
      intro ev todo err hq
      cases f with
      | ack seq =>
        simp only [onFrame] at hq
        split at hq
        · cases hq
        · rw [hp] at hq
          cases hq
      | _ => cases hq
  | undecodable hp he hd => exact h.of_still rfl rfl (fun pos _ => rest (fun _ _ _ hq => by cases hq) pos)
  | exhausted hp he => exact h.of_still rfl rfl (fun pos _ => rest (fun _ _ _ hq => by cases hq) pos)
  | truncated hp he => exact h.of_still rfl rfl (fun pos _ => rest (fun _ _ _ hq => by cases hq) pos)
  | paused hp he => exact h.of_still rfl rfl (fun pos _ => rest (fun _ _ _ hq => by cases hq) pos)
  | unfed hp => exact h.of_still rfl rfl (fun pos _ => rest (fun _ _ _ hq => by cases hq) pos)
  | closed hp => exact h.of_still rfl rfl (fun pos _ => rest (fun _ _ _ hq => by cases hq) pos)
  | giveUp ha => exact h.of_still rfl rfl (fun pos _ => rest (fun _ _ _ hq => by cases hq) pos)

/-- What the receiving loop has dispatched by the end of what was fed. -/
theorem Streams.batches {level : UInt32} {cl : Client T} (h : Streams z toVec level cfg cl) :
    (Position.window.outcome z cfg cl.fed).batches <+: cl.complete.map (deliver toVec) := by
  obtain ⟨ds, pos, hr, ho, hd, -⟩ := h
  rwa [hr.outcome_end ho]

end Stream
end Lumberjack.Client
