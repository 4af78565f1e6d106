import Lumberjack.Server.Connection

/-!
# The grammar of a conversation

What a connection accepts, stated over bytes and without the loops: a window
frame, then data frames until the window is full, then the next window. A
compressed frame contributes the event frames at the front of its inflated bytes
and may leave the rest of them unread; the grammar keeps those bytes as `skipped`.
`run_connection` dispatches the windows of the longest prefix of this form, and
succeeds exactly when that prefix is everything.
-/
namespace Lumberjack.Server

open Lumberjack.Stream Lumberjack.Wire

/-- A sequence number and a payload. -/
abbrev Event := UInt32 × Bytes

/-- A concatenation of event frames. -/
inductive JFrames (z : Flate) (max : Nat) : List Event → Bytes → Prop where
  | nil : JFrames z max [] []
  | cons {seq : UInt32} {data w v : Bytes} {es : List Event} :
      WireForm z max (.json seq data) w → JFrames z max es v →
      JFrames z max ((seq, data) :: es) (w ++ v)

/-- A data frame met with `room` events still missing: its events, the inflated
bytes that are not read, and its wire form. -/
inductive DataFrame (z : Flate) (max room : Nat) : List Event → Bytes → Bytes → Prop where
  | raw {seq : UInt32} {data w : Bytes} :
      WireForm z max (.json seq data) w → DataFrame z max room [(seq, data)] [] w
  | compressed {es : List Event} {p skipped w : Bytes} :
      WireForm z max (.compressed (p ++ skipped)) w → JFrames z max es p → es.length ≤ room →
      (skipped = [] ∨ es.length = room) → DataFrame z max room es skipped w

/-- Data frames, read only until `room` events are there. -/
inductive Fill (z : Flate) (max : Nat) : Nat → List Event → Bytes → Bytes → Prop where
  | full : Fill z max 0 [] [] []
  | frame {room : Nat} {es fs : List Event} {sk sk' w v : Bytes} : 0 < room →
      DataFrame z max room es sk w → Fill z max (room - es.length) fs sk' v →
      Fill z max room (es ++ fs) (sk ++ sk') (w ++ v)

/-- Strictly increasing, and greater than `prev` from the first on. -/
def Ascending (prev : UInt32) (es : List Event) : Prop :=
  (prev :: es.map Prod.fst).Pairwise (· < ·)

/-- A complete window. -/
inductive Window (z : Flate) (max : Nat) : Dispatch → Bytes → Bytes → Prop where
  | mk {n : UInt32} {es : List Event} {skipped head body : Bytes} :
      WireForm z max (.window n) head → Fill z max n.toNat es skipped body → Ascending 0 es →
      Window z max ⟨n, es.map Prod.snd, (es.map Prod.fst).getLastD 0⟩ skipped (head ++ body)

/-- A concatenation of complete windows. -/
inductive Windows (z : Flate) (max : Nat) : List Dispatch → Bytes → Bytes → Prop where
  | nil : Windows z max [] [] []
  | cons {d : Dispatch} {ds : List Dispatch} {sk sk' w v : Bytes} : Window z max d sk w →
      Windows z max ds sk' v → Windows z max (d :: ds) (sk ++ sk') (w ++ v)

section Unique

variable {z : Flate} {max : Nat}

theorem JFrames.front {es es' : List Event} {p p' t t' : Bytes} (h : JFrames z max es p)
    (h' : JFrames z max es' p') (he : p ++ t = p' ++ t') (hl : es.length ≤ es'.length) :
    ∃ fs q, es' = es ++ fs ∧ p' = p ++ q ∧ JFrames z max fs q := by
  induction h generalizing es' p' with
  | nil => exact ⟨es', p', rfl, rfl, h'⟩
  | @cons seq data w v es hw hj ih =>
    cases h' with
    | nil => simp at hl
    | @cons seq' data' w' v' es' hw' hj' =>
      simp only [List.append_assoc] at he
      obtain ⟨hf, rfl, hv⟩ := hw.unique hw' he
      cases hf
      obtain ⟨fs, q, rfl, rfl, hq⟩ := ih hj' hv (by simpa using hl)
      exact ⟨fs, q, rfl, by simp, hq⟩

theorem JFrames.length_le {es : List Event} {p : Bytes} (h : JFrames z max es p) :
    es.length ≤ p.length := by
  induction h with
  | nil => simp
  | cons hw hj ih =>
    have hl := wire_length hw
    simp only [List.length_cons, List.length_append]
    omega

/-- The events of a compressed frame and what it leaves unread are determined by
its inflated bytes and the room in the window. -/
theorem JFrames.unique_of_le {room : Nat} {es es' : List Event} {p p' sk sk' : Bytes}
    (h : JFrames z max es p) (h' : JFrames z max es' p') (he : p ++ sk = p' ++ sk')
    (hl' : es'.length ≤ room) (hs : sk = [] ∨ es.length = room) (hle : es.length ≤ es'.length) :
    es = es' ∧ sk = sk' := by
  obtain ⟨fs, q, rfl, rfl, hq⟩ := h.front h' he hle
  rw [List.append_assoc] at he
  have he := List.append_cancel_left he
  have hfs : fs = [] := by
    rcases hs with rfl | hs
    · have hq' := List.append_eq_nil_iff.mp he.symm
      have hlen := hq.length_le
      simpa [hq'.1] using hlen
    · simp only [List.length_append] at hl'
      exact List.eq_nil_of_length_eq_zero (by omega)
  subst hfs
  cases hq
  exact ⟨by simp, by simpa using he⟩

theorem DataFrame.length_le {room : Nat} (hr : 0 < room) {es : List Event} {skipped w : Bytes}
    (h : DataFrame z max room es skipped w) : es.length ≤ room := by
  cases h with
  | raw hw => exact hr
  | compressed hw hj hl hs => exact hl

theorem DataFrame.unique {room : Nat} {es es' : List Event} {sk sk' w w' r r' : Bytes}
    (h : DataFrame z max room es sk w) (h' : DataFrame z max room es' sk' w')
    (he : w ++ r = w' ++ r') : es = es' ∧ sk = sk' ∧ w = w' ∧ r = r' := by
  cases h with
  | raw hw =>
    cases h' with
    | raw hw' =>
      obtain ⟨hf, rfl, rfl⟩ := hw.unique hw' he
      cases hf
      exact ⟨rfl, rfl, rfl, rfl⟩
    | compressed hw' hj' hl' hs' => cases (hw.unique hw' he).1
  | @compressed es p sk w hw hj hl hs =>
    cases h' with
    | raw hw' => cases (hw.unique hw' he).1
    | @compressed es' p' sk' w' hw' hj' hl' hs' =>
      obtain ⟨hf, rfl, rfl⟩ := hw.unique hw' he
      simp only [Frame.compressed.injEq] at hf
      rcases Nat.le_total es.length es'.length with hle | hle
      · obtain ⟨rfl, rfl⟩ := hj.unique_of_le hj' hf hl' hs hle
        exact ⟨rfl, rfl, rfl, rfl⟩
      · obtain ⟨rfl, rfl⟩ := hj'.unique_of_le hj hf.symm hl hs' hle
        exact ⟨rfl, rfl, rfl, rfl⟩

theorem Fill.unique {room : Nat} {es es' : List Event} {sk sk' w w' r r' : Bytes}
    (h : Fill z max room es sk w) (h' : Fill z max room es' sk' w') (he : w ++ r = w' ++ r') :
    es = es' ∧ sk = sk' ∧ w = w' ∧ r = r' := by
  induction h generalizing es' sk' w' with
  | full =>
    cases h' with
    | full => exact ⟨rfl, rfl, rfl, he⟩
    | frame hpos => omega
  | frame hpos hd hfill ih =>
    cases h' with
    | full => omega
    | frame hpos' hd' hfill' =>
      simp only [List.append_assoc] at he
      obtain ⟨rfl, rfl, rfl, hv⟩ := hd.unique hd' he
      obtain ⟨rfl, rfl, rfl, rfl⟩ := ih hfill' hv
      exact ⟨rfl, rfl, rfl, rfl⟩

theorem Window.unique {d d' : Dispatch} {sk sk' w w' r r' : Bytes} (h : Window z max d sk w)
    (h' : Window z max d' sk' w') (he : w ++ r = w' ++ r') : d = d' ∧ sk = sk' ∧ w = w' ∧ r = r' := by
  cases h with
  | mk hw hf ha =>
    cases h' with
    | mk hw' hf' ha' =>
      simp only [List.append_assoc] at he
      obtain ⟨hn, rfl, hv⟩ := hw.unique hw' he
      cases hn
      obtain ⟨rfl, rfl, rfl, rfl⟩ := hf.unique hf' hv
      exact ⟨rfl, rfl, rfl, rfl⟩

theorem Window.ne_nil {d : Dispatch} {sk w : Bytes} (h : Window z max d sk w) : w ≠ [] := by
  cases h with
  | mk hw hf ha =>
    intro he
    have hl := wire_length hw
    simp [List.append_eq_nil_iff.mp he] at hl

theorem Fill.length {room : Nat} {es : List Event} {sk w : Bytes} (h : Fill z max room es sk w) :
    es.length = room := by
  induction h with
  | full => rfl
  | frame hpos hd hfill ih =>
    have hl := hd.length_le hpos
    rw [List.length_append, ih]
    omega

/-- A window holds exactly as many events as it announces. -/
theorem Window.events_length {d : Dispatch} {sk w : Bytes} (h : Window z max d sk w) :
    d.events.length = d.window.toNat := by
  cases h with
  | mk hw hf ha => simpa using hf.length

theorem Window.lastSeq_zero {d : Dispatch} {sk w : Bytes} (h : Window z max d sk w)
    (h0 : d.window = 0) : d.lastSeq = 0 := by
  cases h with
  | @mk n es _ _ _ hw hf ha =>
    have hl := hf.length
    simp only at h0
    rw [h0] at hl
    simp [List.eq_nil_of_length_eq_zero hl]

/-- Windows read off the front of a stream agree as far as both go. -/
theorem Windows.front {ds ds' : List Dispatch} {sk sk' p p' r : Bytes} (h : Windows z max ds sk p)
    (h' : Windows z max ds' sk' p') (hp : p' <+: p ++ r)
    (hr : ∀ d s w, Window z max d s w → ¬ w <+: r) : ds' <+: ds ∧ sk' <+: sk ∧ p' <+: p := by
  induction h' generalizing ds sk p with
  | nil => exact ⟨⟨ds, rfl⟩, ⟨sk, rfl⟩, ⟨p, rfl⟩⟩
  | @cons d' ds' s' sk' w' v' hw' hws' ih =>
    obtain ⟨t, ht⟩ := hp
    cases h with
    | nil => exact absurd ⟨v' ++ t, by simpa using ht⟩ (hr _ _ _ hw')
    | @cons d ds s sk w v hw hws =>
      simp only [List.append_assoc] at ht
      obtain ⟨rfl, rfl, rfl, he⟩ := hw'.unique hw ht
      obtain ⟨h1, h2, h3⟩ := ih hws ⟨t, he⟩
      exact ⟨(List.prefix_cons_inj _).mpr h1, (List.prefix_append_right_inj _).mpr h2,
        (List.prefix_append_right_inj _).mpr h3⟩

theorem Windows.complete {ds : List Dispatch} {sk p : Bytes} (h : Windows z max ds sk p) :
    ∀ d ∈ ds, d.events.length = d.window.toNat ∧ (d.window = 0 → d.lastSeq = 0) := by
  induction h with
  | nil => simp
  | cons hw hws ih =>
    intro d hd
    rcases List.mem_cons.mp hd with rfl | hd
    · exact ⟨hw.events_length, hw.lastSeq_zero⟩
    · exact ih d hd

end Unique

theorem Ascending.cons_iff {prev seq : UInt32} {data : Bytes} {es : List Event} :
    Ascending prev ((seq, data) :: es) ↔ prev < seq ∧ Ascending seq es := by
  unfold Ascending
  rw [← List.isChain_iff_pairwise, ← List.isChain_iff_pairwise]
  exact List.isChain_cons_cons

theorem Ascending.append_iff {prev : UInt32} {es fs : List Event} :
    Ascending prev (es ++ fs) ↔
      Ascending prev es ∧ Ascending ((es.map Prod.fst).getLastD prev) fs := by
  induction es generalizing prev with
  | nil => simp [Ascending]
  | cons e es ih =>
    obtain ⟨seq, data⟩ := e
    rw [List.cons_append, cons_iff, cons_iff, ih, and_assoc]
    simp only [List.map_cons, List.getLastD_cons]

namespace Collect

def storeAll (c : Collect) (es : List Event) : Collect := es.foldl (fun c e => c.store e.1 e.2) c

@[simp] theorem storeAll_nil (c : Collect) : c.storeAll [] = c := rfl

@[simp] theorem storeAll_cons (c : Collect) (e : Event) (es : List Event) :
    c.storeAll (e :: es) = (c.store e.1 e.2).storeAll es := rfl

theorem storeAll_append (c : Collect) (es fs : List Event) :
    c.storeAll (es ++ fs) = (c.storeAll es).storeAll fs := List.foldl_append

theorem received_lt_iff (c : Collect) : c.received < c.window ↔ 0 < c.room := by
  rw [UInt32.lt_iff_toNat_lt, room]
  omega

theorem room_store {c : Collect} (h : 0 < c.room) (seq : UInt32) (data : Bytes) :
    (c.store seq data).room = c.room - 1 := by
  have h1 := received_succ ((received_lt_iff c).mpr h)
  simp only [room, store, h1]
  omega

theorem storeAll_window (c : Collect) (es : List Event) : (c.storeAll es).window = c.window := by
  induction es generalizing c with
  | nil => rfl
  | cons e es ih => exact (ih _).trans rfl

theorem storeAll_events (c : Collect) (es : List Event) :
    (c.storeAll es).events = c.events ++ es.map Prod.snd := by
  induction es generalizing c with
  | nil => simp
  | cons e es ih => rw [storeAll_cons, ih]; simp [store]

theorem storeAll_prevSeq (c : Collect) (es : List Event) :
    (c.storeAll es).prevSeq = (es.map Prod.fst).getLastD c.prevSeq := by
  induction es generalizing c with
  | nil => rfl
  | cons e es ih => rw [storeAll_cons, ih, List.map_cons, List.getLastD_cons]; rfl

theorem storeAll_lastSeq (c : Collect) (es : List Event) :
    (c.storeAll es).lastSeq = (es.map Prod.fst).getLastD c.lastSeq := by
  induction es generalizing c with
  | nil => rfl
  | cons e es ih => rw [storeAll_cons, ih, List.map_cons, List.getLastD_cons]; rfl

theorem storeAll_room {c : Collect} {es : List Event} (h : es.length ≤ c.room) :
    (c.storeAll es).room = c.room - es.length := by
  induction es generalizing c with
  | nil => rfl
  | cons e es ih =>
    simp only [List.length_cons] at h
    have hr := room_store (c := c) (by omega) e.1 e.2
    rw [storeAll_cons, ih (by omega), hr, List.length_cons]
    omega

theorem dispatch_start (n : UInt32) (es : List Event) :
    ((start n).storeAll es).dispatch = ⟨n, es.map Prod.snd, (es.map Prod.fst).getLastD 0⟩ := by
  rw [dispatch, storeAll_window, storeAll_events, storeAll_lastSeq]
  rfl

section Frames

variable {z : Flate} {max : Nat}

theorem inner_complete {c : Collect} {es : List Event} {p : Bytes} (skipped : Bytes)
    (hj : JFrames z max es p) (hl : es.length ≤ c.room)
    (hs : skipped = [] ∨ es.length = c.room) (ha : Ascending c.prevSeq es) :
    c.inner z max (p ++ skipped) = .ok (c.storeAll es) := by
  induction hj generalizing c with
  | nil =>
    apply inner_stop
    rcases hs with rfl | hs
    · exact .inl rfl
    · rw [received_lt_iff]
      exact .inr (by rw [← hs]; simp)
  | @cons seq data w v es hw hj ih =>
    obtain ⟨hlt, ha⟩ := Ascending.cons_iff.mp ha
    simp only [List.length_cons] at hl hs
    have hr : 0 < c.room := by omega
    have hroom := room_store hr seq data
    have hd := decode_wire hw (v ++ skipped)
    rw [List.append_assoc, inner_json z max ((received_lt_iff c).mpr hr) hd,
      push_ok.mpr ⟨hlt, rfl⟩]
    exact ih (by omega) (hs.imp id (by omega)) ha

theorem inner_sound {c c' : Collect} {buf : Bytes} (h : c.inner z max buf = .ok c') :
    ∃ es p skipped, buf = p ++ skipped ∧ JFrames z max es p ∧ es.length ≤ c.room ∧
      (skipped = [] ∨ es.length = c.room) ∧ Ascending c.prevSeq es ∧ c' = c.storeAll es := by
  refine inner_induct (motive := fun c buf => ∃ es p skipped, buf = p ++ skipped ∧
    JFrames z max es p ∧ es.length ≤ c.room ∧ (skipped = [] ∨ es.length = c.room) ∧
    Ascending c.prevSeq es ∧ c' = c.storeAll es) ?_ ?_ h
  · intro buf hb
    rw [received_lt_iff] at hb
    exact ⟨[], [], buf, rfl, .nil, Nat.zero_le _, hb.imp id (by simp only [List.length_nil]; omega),
      by simp [Ascending], rfl⟩
  · rintro c buf seq data rest hr hd hlt ⟨es, p, skipped, rfl, hj, hl, hsk, ha, rfl⟩
    have hpos := (received_lt_iff c).mp hr
    have hroom := room_store hpos seq data
    obtain ⟨w, hw, rfl⟩ := wire_of_decode hd
    refine ⟨(seq, data) :: es, w ++ p, skipped, by simp, .cons hw hj, ?_, hsk.imp id ?_,
      Ascending.cons_iff.mpr ⟨hlt, ha⟩, rfl⟩
    · simp only [List.length_cons]
      omega
    · simp only [List.length_cons]
      omega

/-- A frame accepted inside a window is a data frame whose numbers continue the
sequence. -/
theorem frame_sound {c c' : Collect} {f : Frame} {w : Bytes} (hw : WireForm z max f w)
    (h : c.frame z max f = .ok c') :
    ∃ es skipped, DataFrame z max c.room es skipped w ∧ Ascending c.prevSeq es ∧
      c' = c.storeAll es := by
  cases f with
  | json seq data =>
    obtain ⟨hlt, rfl⟩ := push_ok.mp h
    exact ⟨[(seq, data)], [], .raw hw, by simpa [Ascending] using hlt, rfl⟩
  | compressed bytes =>
    obtain ⟨es, p, skipped, rfl, hj, hl, hs, ha, rfl⟩ := inner_sound h
    exact ⟨es, skipped, .compressed hw hj hl hs, ha, rfl⟩
  | window n => cases h
  | ack seq => cases h

theorem frame_complete {c : Collect} {es : List Event} {skipped w : Bytes}
    (h : DataFrame z max c.room es skipped w) (ha : Ascending c.prevSeq es) :
    ∃ f, WireForm z max f w ∧ c.frame z max f = .ok (c.storeAll es) := by
  cases h with
  | @raw seq data w hw =>
    have hlt : c.prevSeq < seq := by simpa [Ascending] using ha
    exact ⟨_, hw, push_ok.mpr ⟨hlt, rfl⟩⟩
  | compressed hw hj hl hs => exact ⟨_, hw, inner_complete skipped hj hl hs ha⟩

end Frames
end Collect

section Run

variable {z : Flate} {cfg : ConnectionConfig}

theorem next_wire {f : Frame} {w r : Bytes} (hw : WireForm z cfg.maxFrameSize f w)
    {src : Source UInt8} (h : src.pending = w ++ r) :
    ∃ src', (cfg.decoder z).next src = (some (.ok f), src') ∧ src'.pending = r := by
  apply Decoder.next_of_decode
  rw [h]
  exact decode_wire hw r

theorem wire_of_next {f : Frame} {src src' : Source UInt8}
    (h : (cfg.decoder z).next src = (some (.ok f), src')) :
    ∃ w, WireForm z cfg.maxFrameSize f w ∧ src.pending = w ++ src'.pending :=
  wire_of_decode (Decoder.next_ok _ h)

theorem collect_complete {es : List Event} {skipped w : Bytes} {c : Collect}
    (h : Fill z cfg.maxFrameSize c.room es skipped w) (ha : Ascending c.prevSeq es)
    {src : Source UInt8} {r : Bytes} (hp : src.pending = w ++ r) :
    ∃ src', collect z cfg c src = (.ok (c.storeAll es), src') ∧ src'.pending = r := by
  generalize hroom : c.room = room at h
  induction h generalizing c src with
  | full =>
    have hr : ¬ c.received < c.window := by
      rw [Collect.received_lt_iff]
      omega
    exact ⟨src, collect_full src hr, by simpa using hp⟩
  | @frame room es fs sk sk' w v hpos hd hfill ih =>
    subst hroom
    obtain ⟨ha, hb⟩ := Ascending.append_iff.mp ha
    obtain ⟨f, hw, hf⟩ := Collect.frame_complete hd ha
    obtain ⟨src₁, hn, hp₁⟩ := next_wire hw (by rw [hp, List.append_assoc])
    have hl := hd.length_le hpos
    obtain ⟨src₂, hc, hp₂⟩ := ih (c := c.storeAll es) (by rw [Collect.storeAll_prevSeq]; exact hb)
      hp₁ (Collect.storeAll_room hl)
    refine ⟨src₂, ?_, hp₂⟩
    rw [collect_eq z cfg src ((Collect.received_lt_iff c).mpr hpos), hn]
    simp only [hf, hc, Collect.storeAll_append]

theorem collect_sound {c c' : Collect} {src src' : Source UInt8}
    (h : collect z cfg c src = (.ok c', src')) :
    ∃ es skipped w, Fill z cfg.maxFrameSize c.room es skipped w ∧ Ascending c.prevSeq es ∧
      src.pending = w ++ src'.pending ∧ c' = c.storeAll es := by
  induction hn : src.pending.length using Nat.strongRecOn generalizing c src with
  | ind n ih =>
    by_cases hr : c.received < c.window
    · have hpos := (Collect.received_lt_iff c).mp hr
      rw [collect_eq z cfg src hr] at h
      split at h
      · rename_i f src₁ hf
        have hs := Decoder.next_shrinks _ hf
        obtain ⟨w, hw, hp⟩ := wire_of_next hf
        split at h
        · rename_i c₁ hc
          obtain ⟨es, sk, hd, ha, rfl⟩ := Collect.frame_sound hw hc
          have hl := hd.length_le hpos
          obtain ⟨fs, sk', v, hfill, hb, hp₁, rfl⟩ := ih _ (hn ▸ hs) h rfl
          rw [Collect.storeAll_room hl] at hfill
          rw [Collect.storeAll_prevSeq] at hb
          exact ⟨es ++ fs, sk ++ sk', w ++ v, .frame hpos hd hfill,
            Ascending.append_iff.mpr ⟨ha, hb⟩, by rw [hp, hp₁, List.append_assoc],
            (Collect.storeAll_append c es fs).symm⟩
        · cases h
      · cases h
      · cases h
    · rw [collect_full src hr] at h
      simp only [Prod.mk.injEq, Except.ok.injEq] at h
      obtain ⟨rfl, rfl⟩ := h
      have hroom : c.room = 0 := by
        rw [Collect.received_lt_iff] at hr
        omega
      exact ⟨[], [], [], hroom ▸ .full, by simp [Ascending], rfl, rfl⟩

/-- The frames written for these batches, in order. -/
def ackStream (cfg : ConnectionConfig) (env : Nat → Nat × Release) : List Dispatch → List Frame
  | [] => []
  | d :: ds => ackFrames cfg (env 0).1 d.lastSeq ++ ackStream cfg (fun k => env (k + 1)) ds

theorem run_window {d : Dispatch} {skipped w r : Bytes} (h : Window z cfg.maxFrameSize d skipped w)
    (env : Nat → Nat × Release) {src : Source UInt8} (hp : src.pending = w ++ r) :
    ∃ src', src'.pending = r ∧ runConnection z cfg env src =
      (runConnection z cfg (fun k => env (k + 1)) src').after d (ackFrames cfg (env 0).1 d.lastSeq) := by
  cases h with
  | @mk n es _ head body hw hfill ha =>
    obtain ⟨src₁, hn, hp₁⟩ := next_wire hw (by rw [hp, List.append_assoc])
    obtain ⟨src₂, hc, hp₂⟩ := collect_complete (c := .start n) hfill ha hp₁
    have hd := Collect.dispatch_start n es
    refine ⟨src₂, hp₂, ?_⟩
    rw [runConnection_eq, hn]
    simp only [resume, hc, hd]
    rw [Collect.storeAll_lastSeq]
    rfl

/-- A first window is dispatched, or there is none. -/
theorem run_cases (z : Flate) (cfg : ConnectionConfig) (env : Nat → Nat × Release)
    (src : Source UInt8) :
    (∃ d skipped w r, src.pending = w ++ r ∧ Window z cfg.maxFrameSize d skipped w) ∨
    (src.pending = [] ∧ runConnection z cfg env src = ⟨[], [], .ok ()⟩) ∨
    (∃ e, src.pending ≠ [] ∧ runConnection z cfg env src = ⟨[], [], .error e⟩) := by
  rw [runConnection_eq]
  rcases hs : (cfg.decoder z).next src with ⟨_ | _ | f, src₁⟩
  · exact .inr (.inl ⟨Decoder.next_none _ hs, rfl⟩)
  · refine .inr (.inr ⟨_, ?_, rfl⟩)
    intro he
    have h1 : ((cfg.decoder z).next src).1 = none := by
      rw [Decoder.next_fst, he]
      rfl
    simp [hs] at h1
  · obtain ⟨w, hw, hp⟩ := wire_of_next hs
    have hne : src.pending ≠ [] := by
      have hl := wire_length hw
      rw [hp]
      rintro he
      simp [List.append_eq_nil_iff.mp he] at hl
    cases f with
    | json seq data => exact .inr (.inr ⟨_, hne, rfl⟩)
    | compressed inner => exact .inr (.inr ⟨_, hne, rfl⟩)
    | ack seq => exact .inr (.inr ⟨_, hne, rfl⟩)
    | window n =>
      rcases hc : collect z cfg (.start n) src₁ with ⟨e | c, src₂⟩
      · exact .inr (.inr ⟨e, hne, by simp only [resume, hc]⟩)
      · obtain ⟨es, sk, v, hfill, ha, hp₁, -⟩ := collect_sound hc
        exact .inl ⟨_, sk, w ++ v, src₂.pending, by rw [hp, hp₁, List.append_assoc],
          .mk hw hfill ha⟩

/-- Batches, frames written and result, against the longest prefix of complete
windows. -/
theorem run_spec (z : Flate) (cfg : ConnectionConfig) (env : Nat → Nat × Release)
    (src : Source UInt8) :
    ∃ ds skipped p r, src.pending = p ++ r ∧ Windows z cfg.maxFrameSize ds skipped p ∧
      (∀ d s w, Window z cfg.maxFrameSize d s w → ¬ w <+: r) ∧
      (runConnection z cfg env src).batches = ds ∧
      (runConnection z cfg env src).written = ackStream cfg env ds ∧
      ((runConnection z cfg env src).result = .ok () ↔ r = []) := by
  induction hn : src.pending.length using Nat.strongRecOn generalizing env src with
  | ind n ih =>
    -- no window at the front: the run stops here, so none can be a prefix
    have stop (l : Log) (hl : l.batches = []) (he : runConnection z cfg env src = l) :
        ∀ d s w, Window z cfg.maxFrameSize d s w → ¬ w <+: src.pending := by
      rintro d s w hw ⟨t, ht⟩
      obtain ⟨src', -, hrun⟩ := run_window hw env ht.symm
      rw [hrun] at he
      simp [← he, Log.after] at hl
    rcases run_cases z cfg env src with ⟨d, sk, w, r, hp, hw⟩ | ⟨hp, he⟩ | ⟨e, hp, he⟩
    · obtain ⟨src₁, hp₁, hrun⟩ := run_window hw env hp
      have hlt : src₁.pending.length < src.pending.length := by
        have hpos := List.length_pos_iff.mpr hw.ne_nil
        rw [hp, hp₁, List.length_append]
        omega
      obtain ⟨ds, sk', p, r', hp', hws, hr, hb, hwr, hres⟩ :=
        ih _ (hn ▸ hlt) (fun k => env (k + 1)) src₁ rfl
      refine ⟨d :: ds, sk ++ sk', w ++ p, r', ?_, .cons hw hws, hr, ?_, ?_, ?_⟩
      · rw [hp, ← hp₁, hp', List.append_assoc]
      · rw [hrun, Log.after, hb]
      · rw [hrun, Log.after, hwr]
        rfl
      · rw [hrun]
        exact hres
    · exact ⟨[], [], [], src.pending, rfl, .nil, stop _ rfl he, by rw [he], by rw [he]; rfl,
        by simp [he, hp]⟩
    · exact ⟨[], [], [], src.pending, rfl, .nil, stop _ rfl he, by rw [he], by rw [he]; rfl,
        by simp [he, hp]⟩

/-- **The connection accepts exactly the grammar, window by window.** It returns
`Ok` when the bytes are a concatenation of complete windows and only then. In
every case the batches are the complete windows of the longest prefix of that
form and the frames written are the acknowledgements of these. -/
theorem runConnection_accepts (z : Flate) (cfg : ConnectionConfig) (env : Nat → Nat × Release)
    (reads : List Bytes) :
    ((runConnection z cfg env (.ofReads reads)).result = .ok () ↔
      ∃ ds skipped, Windows z cfg.maxFrameSize ds skipped reads.flatten) ∧
    ∃ ds skipped p, Windows z cfg.maxFrameSize ds skipped p ∧ p <+: reads.flatten ∧
      (∀ ds' skipped' p', Windows z cfg.maxFrameSize ds' skipped' p' → p' <+: reads.flatten →
        p' <+: p) ∧
      (runConnection z cfg env (.ofReads reads)).batches = ds ∧
      (runConnection z cfg env (.ofReads reads)).written = ackStream cfg env ds ∧
      (∀ d ∈ ds, d.events.length = d.window.toNat ∧ (d.window = 0 → d.lastSeq = 0)) := by
  obtain ⟨ds, sk, p, r, hp, hws, hr, hb, hwr, hres⟩ := run_spec z cfg env (.ofReads reads)
  rw [Source.pending_ofReads] at hp
  have longest {ds' : List Dispatch} {sk' p' : Bytes}
      (h' : Windows z cfg.maxFrameSize ds' sk' p') (hp' : p' <+: reads.flatten) : p' <+: p := by
    rw [hp] at hp'
    exact (hws.front h' hp' hr).2.2
  constructor
  · rw [hres]
    constructor
    · rintro rfl
      exact ⟨ds, sk, by rwa [hp, List.append_nil]⟩
    · rintro ⟨ds', sk', hws'⟩
      have hle := (longest hws' (List.prefix_refl _)).length_le
      rw [hp, List.length_append] at hle
      exact List.eq_nil_of_length_eq_zero (by omega)
  · exact ⟨ds, sk, p, hws, ⟨r, hp.symm⟩, fun _ _ _ => longest, hb, hwr, hws.complete⟩

end Run
end Lumberjack.Server
