import Lumberjack.Server.Follow

/-!
# What a peer can make the server hold

The frame limit bounds the buffer a peer can keep waiting, every payload, every
event, and together with their headers the events of one compressed frame. It
does not bound the storage asked for at the start of a window: that is the number
in the window frame, whatever it is.
-/
namespace Lumberjack.Wire

open Lumberjack.Stream

section Sizes

variable {z : Flate} {max : Nat} {b r : Bytes}

/-- A buffer that waits for more bytes is at most one short of a full event frame. -/
theorem decode_none_length (h : decodeWithLimit z b max = (.ok none, r)) : b.length < max + 10 := by
  cases header b with
  | short hs => omega
  | version hv => simp [decode_bad_version z max _ hv] at h
  | unknown hw hj ha hc => simp [decode_unknown z max _ hw hj ha hc] at h
  | window body =>
    rw [decode_window] at h
    split at h
    · simp only [List.length_cons]
      omega
    · simp at h
  | ack body =>
    rw [decode_ack] at h
    split at h
    · simp only [List.length_cons]
      omega
    · simp at h
  | json body =>
    simp only [decode_json] at h
    repeat' split at h
    all_goals simp only [List.length_cons] at h ⊢
    · omega
    · simp at h
    · omega
    · simp at h
  | compressed body =>
    simp only [decode_compressed] at h
    repeat' split at h
    all_goals simp only [List.length_cons] at h ⊢
    · omega
    · simp at h
    · omega
    · simp at h
    · simp at h

/-- An event frame takes its payload and ten bytes. -/
theorem decode_json_length {seq : UInt32} {data : Bytes}
    (h : decodeWithLimit z b max = (.ok (some (.json seq data)), r)) :
    data.length ≤ max ∧ data.length + 10 + r.length = b.length := by
  obtain ⟨w, hw, rfl⟩ := wire_of_decode h
  cases hw with
  | json seq len data hl hm =>
    refine ⟨hm, ?_⟩
    simp only [List.length_append, List.length_cons, putU32_length]
    omega

theorem decode_compressed_length {inner : Bytes}
    (h : decodeWithLimit z b max = (.ok (some (.compressed inner)), r)) : inner.length ≤ max := by
  obtain ⟨w, hw, rfl⟩ := wire_of_decode h
  cases hw with
  | compressed len payload inner hl hm hz => exact zlibDecompress_length hz

end Sizes
end Lumberjack.Wire

namespace Lumberjack.Server

open Lumberjack.Stream Lumberjack.Wire Lumberjack.Process

/-- Rounds of the loop over inflated bytes, from the locals and bytes at the top of one to
those at the top of another. The loop returns or fails at the top of a round. -/
inductive Collect.Loop (z : Flate) (max : Nat) (c : Collect) (buf : Bytes) : Collect → Bytes → Prop
  | top : Loop z max c buf c buf
  | round {c₁ c₂ : Collect} {b₁ b₂ : Bytes} {seq : UInt32} {data : Bytes} : Loop z max c buf c₁ b₁ →
      c₁.received < c₁.window → decodeWithLimit z b₁ max = (.ok (some (.json seq data)), b₂) →
      c₁.push seq data = .ok c₂ → Loop z max c buf c₂ b₂

/-- Events with ten bytes of header each. -/
def framedLength : List Bytes → Nat
  | [] => 0
  | e :: es => e.length + 10 + framedLength es

theorem framedLength_concat (es : List Bytes) (e : Bytes) :
    framedLength (es ++ [e]) = framedLength es + (e.length + 10) := by
  induction es with
  | nil => simp [framedLength]
  | cons d es ih =>
    rw [List.cons_append, framedLength, framedLength, ih]
    omega

theorem framedLength_mem {es : List Bytes} {e : Bytes} (h : e ∈ es) :
    e.length + 10 ≤ framedLength es := by
  induction h with
  | head es =>
    rw [framedLength]
    omega
  | tail d _ ih =>
    rw [framedLength]
    omega

namespace Collect

variable {z : Flate} {max : Nat} {c c' : Collect} {buf rest : Bytes}

/-- The events taken so far and the bytes left make up the inflated bytes. -/
theorem Loop.events (h : Loop z max c buf c' rest) :
    ∃ es, c'.events = c.events ++ es ∧ framedLength es + rest.length = buf.length := by
  induction h with
  | top => exact ⟨[], by simp, by simp [framedLength]⟩
  | @round c₁ c₂ b₁ b₂ seq data _ hr hd hp ih =>
    obtain ⟨es, he, hl⟩ := ih
    obtain ⟨-, rfl⟩ := push_ok.mp hp
    have hb := (decode_json_length hd).2
    refine ⟨es ++ [data], ?_, ?_⟩
    · rw [store, he, List.append_assoc]
    · rw [framedLength_concat]
      omega

theorem Loop.cons {c₁ : Collect} {b₁ : Bytes} {seq : UInt32} {data : Bytes}
    (hr : c.received < c.window) (hd : decodeWithLimit z buf max = (.ok (some (.json seq data)), b₁))
    (hp : c.push seq data = .ok c₁) (h : Loop z max c₁ b₁ c' rest) : Loop z max c buf c' rest := by
  induction h with
  | top => exact .round .top hr hd hp
  | round _ hr' hd' hp' ih => exact .round ih hr' hd' hp'

/-- What the loop returns is the locals at the top of a round. -/
theorem loop_of_inner (h : c.inner z max buf = .ok c') : ∃ rest, Loop z max c buf c' rest := by
  refine inner_induct (motive := fun c buf => ∃ rest, Loop z max c buf c' rest) ?_ ?_ h
  · intro buf _
    exact ⟨buf, .top⟩
  · rintro c buf seq data b₁ hr hd hlt ⟨rest, hl⟩
    exact ⟨rest, hl.cons hr hd (push_ok.mpr ⟨hlt, rfl⟩)⟩

/-- What a frame within the limit adds to the events is within the limit. -/
theorem frame_events {f : Frame} {b r : Bytes} (hd : decodeWithLimit z b max = (.ok (some f), r))
    (h : c.frame z max f = .ok c') :
    ∃ es, c'.events = c.events ++ es ∧ ∀ e ∈ es, e.length ≤ max := by
  cases f with
  | json seq data =>
    obtain ⟨-, rfl⟩ := push_ok.mp h
    have hm := (decode_json_length hd).1
    exact ⟨[data], rfl, by simpa using hm⟩
  | compressed inner =>
    obtain ⟨rest, hl⟩ := loop_of_inner h
    obtain ⟨es, he, hsum⟩ := hl.events
    have hm := decode_compressed_length hd
    refine ⟨es, he, fun e hmem => ?_⟩
    have := framedLength_mem hmem
    omega
  | window n => cases h
  | ack seq => cases h

end Collect

/-- The events of the window at hand. -/
def Phase.held : Phase → List Bytes
  | .collecting c | .dispatching c => c.events
  | _ => []

theorem Phase.held_ofCollect (c : Collect) : (ofCollect c).held = c.events := by
  unfold ofCollect
  split <;> rfl

namespace Handler

/-- No event of this handler is over the limit. -/
structure Within (max : Nat) (h : Handler) : Prop where
  held : ∀ e ∈ h.phase.held, e.length ≤ max
  sent : ∀ d ∈ h.dispatched, ∀ e ∈ d.events, e.length ≤ max

variable {z : Flate} {cfg : ConnectionConfig} {h h' : Handler} {a : Act}

theorem Step.within (hs : Step z cfg h a h') (hw : h.Within cfg.maxFrameSize) :
    h'.Within cfg.maxFrameSize := by
  have quiet {p : Phase} (hp : p.held = []) : ∀ e ∈ p.held, e.length ≤ cfg.maxFrameSize := by
    simp [hp]
  cases hs with
  | read hr hc hd => exact ⟨hw.held, hw.sent⟩
  | window hp hd => exact ⟨quiet (Phase.held_ofCollect _), hw.sent⟩
  | stray hp hf hd => exact ⟨quiet rfl, hw.sent⟩
  | @collected c c' f r hp hd hf =>
    obtain ⟨es, he, hes⟩ := Collect.frame_events hd hf
    have hold := hw.held
    rw [hp] at hold
    refine ⟨?_, hw.sent⟩
    show ∀ e ∈ (Phase.ofCollect c').held, _
    rw [Phase.held_ofCollect, he]
    intro e hmem
    rcases List.mem_append.mp hmem with hmem | hmem
    · exact hold e hmem
    · exact hes e hmem
  | rejected hp hd hf => exact ⟨quiet rfl, hw.sent⟩
  | undecodable hr hd => exact ⟨quiet rfl, hw.sent⟩
  | eof hr hd => exact ⟨quiet rfl, hw.sent⟩
  | @dispatch c hp =>
    have hold := hw.held
    rw [hp] at hold
    refine ⟨quiet rfl, ?_⟩
    intro d hd
    rcases List.mem_append.mp hd with hd | hd
    · exact hw.sent d hd
    · rw [List.mem_singleton.mp hd]
      exact hold
  | shutdown hp => exact ⟨quiet rfl, hw.sent⟩
  | release hrx hl => exact ⟨hw.held, hw.sent⟩
  | tick hp hk hrx => exact ⟨quiet rfl, hw.sent⟩
  | acked hp hv => exact ⟨quiet rfl, hw.sent⟩
  | write hwr hk hl =>
    refine ⟨?_, hw.sent⟩
    have hq : h.phase.held = [] ∧ h.phase.flushed.held = [] := by
      cases hp : h.phase <;> simp_all [Phase.writing, Phase.held, Phase.flushed]
    dsimp only
    split
    · exact quiet hq.2
    · exact quiet hq.1
  | fail hio => exact ⟨quiet rfl, hw.sent⟩

end Handler

/-- **The limit bounds what is held.** On any input, in any state of a connection: a buffer
the decoder asks to extend is shorter than the limit and ten bytes; a payload, raw or
inflated, is within the limit; so is every event held or dispatched; and the events taken
from one compressed frame, at the top of every round of its loop and when it is done, are
within the limit with ten bytes of header each. -/
theorem limit_bounds_held (z : Flate) (cfg : ConnectionConfig) (as : List Handler.Act) (h : Handler)
    (hr : Run (Handler.step z cfg) anything .init as h) :
    (∀ b r, decodeWithLimit z b cfg.maxFrameSize = (.ok none, r) → b.length < cfg.maxFrameSize + 10) ∧
    (∀ b seq data r, decodeWithLimit z b cfg.maxFrameSize = (.ok (some (.json seq data)), r) →
      data.length ≤ cfg.maxFrameSize) ∧
    (∀ b inner r, decodeWithLimit z b cfg.maxFrameSize = (.ok (some (.compressed inner)), r) →
      inner.length ≤ cfg.maxFrameSize) ∧
    (∀ e ∈ h.phase.held, e.length ≤ cfg.maxFrameSize) ∧
    (∀ d ∈ h.dispatched, ∀ e ∈ d.events, e.length ≤ cfg.maxFrameSize) ∧
    (∀ c inner r, h.phase = .collecting c →
      (cfg.decoder z).decode h.buffer = (.ok (some (.compressed inner)), r) →
      (∀ c₁ rest, Collect.Loop z cfg.maxFrameSize c inner c₁ rest →
        ∃ es, c₁.events = c.events ++ es ∧ framedLength es ≤ cfg.maxFrameSize) ∧
      (∀ c', c.frame z cfg.maxFrameSize (.compressed inner) = .ok c' →
        ∃ es, c'.events = c.events ++ es ∧ framedLength es ≤ cfg.maxFrameSize)) := by
  have hw : h.Within cfg.maxFrameSize :=
    hr.invariant ⟨by simp [Handler.init, Phase.held], by simp [Handler.init]⟩
      (fun hw _ hs => (Handler.step_cases hs).within hw)
  refine ⟨fun b r => decode_none_length, fun b seq data r hd => (decode_json_length hd).1,
    fun b inner r => decode_compressed_length, hw.held, hw.sent, ?_⟩
  intro c inner r hp hd
  have hm : inner.length ≤ cfg.maxFrameSize := decode_compressed_length hd
  have bound {c₁ : Collect} {rest : Bytes} (hl : Collect.Loop z cfg.maxFrameSize c inner c₁ rest) :
      ∃ es, c₁.events = c.events ++ es ∧ framedLength es ≤ cfg.maxFrameSize := by
    obtain ⟨es, he, hsum⟩ := hl.events
    exact ⟨es, he, by omega⟩
  refine ⟨fun c₁ rest hl => bound hl, ?_⟩
  intro c' hf
  obtain ⟨rest, hl⟩ := Collect.loop_of_inner hf
  exact bound hl

/-- A connection that holds one event. -/
theorem limit_bounds_held_sample :
    ∃ h, Run (Handler.step .sample ⟨1024, none⟩) anything .init
        [.read [50, 87, 0, 0, 0, 1, 50, 74, 0, 0, 0, 1, 0, 0, 0, 2, 123, 125], .next, .next] h ∧
      h.phase.held = [[123, 125]] ∧ ∀ e ∈ h.phase.held, e.length ≤ 1024 := by
  obtain ⟨h, hr, hh⟩ : ∃ h, Run (Handler.step .sample ⟨1024, none⟩) anything .init
      [.read [50, 87, 0, 0, 0, 1, 50, 74, 0, 0, 0, 1, 0, 0, 0, 2, 123, 125], .next, .next] h ∧
      h.phase.held = [[123, 125]] :=
    Run.exists_of_exec (by decide +kernel)
  exact ⟨h, hr, hh, (limit_bounds_held .sample ⟨1024, none⟩ _ h hr).2.2.2.1⟩

namespace Handler

/-- The event slots asked for the batch that is collected, or was dispatched and is not
acknowledged yet. -/
def requested (h : Handler) : Nat :=
  match h.phase with
  | .collecting c | .dispatching c => c.capacity
  | .awaitAck _ | .keepalive _ | .acking => (h.dispatched.getLast?.map fun d => d.window.toNat).getD 0
  | _ => 0

/-- No more slots than bytes received and one frame of the largest size. -/
def Proportionate (max : Nat) (h : Handler) : Prop := h.requested ≤ h.input.length + max

/-- The window frame that is decoded next, if there is one, announces no more than that. -/
def Modest (z : Flate) (cfg : ConnectionConfig) (h : Handler) (a : Act) : Prop :=
  a = .next → h.phase = .expectWindow → ∀ n r,
    (cfg.decoder z).decode h.buffer = (.ok (some (.window n)), r) →
    n.toNat ≤ h.input.length + cfg.maxFrameSize

variable {z : Flate} {cfg : ConnectionConfig} {h h' : Handler} {a : Act}

theorem requested_ofCollect {c : Collect} (hp : h.phase = .ofCollect c) :
    h.requested = c.capacity := by
  unfold Phase.ofCollect at hp
  split at hp <;> simp [requested, hp]

/-- Only a window frame asks for storage. -/
theorem Step.requested (hs : Step z cfg h a h') (hf : h.Follows z cfg) :
    (a = .next ∧ h.phase = .expectWindow ∧ ∃ n r,
      (cfg.decoder z).decode h.buffer = (.ok (some (.window n)), r) ∧ h'.requested = n.toNat ∧
      h'.input = h.input) ∨
    ((∀ n r, a = .next → h.phase = .expectWindow →
      (cfg.decoder z).decode h.buffer ≠ (.ok (some (.window n)), r)) ∧
      h'.requested ≤ h.requested ∧ h.input.length ≤ h'.input.length) := by
  cases hs with
  | @window n r hp hd =>
    exact .inl ⟨rfl, hp, n, r, hd, requested_ofCollect (c := .start n) rfl, rfl⟩
  | read hr hc hd =>
    refine .inr ⟨fun _ _ ha => (by cases ha), Nat.le_refl _, ?_⟩
    simp only [List.length_append]
    omega
  | @stray f r hp hn hd =>
    refine .inr ⟨fun n r _ _ hd' => ?_, Nat.zero_le _, Nat.le_refl _⟩
    rw [hd] at hd'
    cases hd'
    exact hn n rfl
  | @collected c c' f r hp hd hc =>
    have hsound := hf.sound
    rw [hp] at hsound
    obtain ⟨hg, hw⟩ := Collect.frame_good hsound.1 hsound.2 hc
    refine .inr ⟨fun _ _ _ hw => (by rw [hp] at hw; cases hw), ?_, Nat.le_refl _⟩
    rw [requested_ofCollect rfl, hg.capacity, hw, ← hsound.1.capacity]
    simp only [requested, hp, Nat.le_refl]
  | rejected hp hd hc =>
    exact .inr ⟨fun _ _ _ hw => (by rw [hp] at hw; cases hw), Nat.zero_le _, Nat.le_refl _⟩
  | undecodable hr hd =>
    exact .inr ⟨fun _ _ _ _ hd' => (by rw [hd] at hd'; cases hd'), Nat.zero_le _, Nat.le_refl _⟩
  | eof hr hd => exact .inr ⟨fun _ _ ha => (by cases ha), Nat.zero_le _, Nat.le_refl _⟩
  | @dispatch c hp =>
    have hsound := hf.sound
    rw [hp] at hsound
    refine .inr ⟨fun _ _ ha => (by cases ha), ?_, Nat.le_refl _⟩
    simp only [requested, hp, List.getLast?_concat, hsound.1.capacity]
    exact Nat.le_refl _
  | shutdown hp => exact .inr ⟨fun _ _ ha => (by cases ha), Nat.zero_le _, Nat.le_refl _⟩
  | release hrx hl => exact .inr ⟨fun _ _ ha => (by cases ha), Nat.le_refl _, Nat.le_refl _⟩
  | tick hp hk hrx =>
    refine .inr ⟨fun _ _ ha => (by cases ha), ?_, Nat.le_refl _⟩
    simp only [requested, send, hp, Nat.le_refl]
  | acked hp hv =>
    refine .inr ⟨fun _ _ ha => (by cases ha), ?_, Nat.le_refl _⟩
    simp only [requested, send, hp, Nat.le_refl]
  | @write k hw hk hl =>
    refine .inr ⟨fun _ _ ha => (by cases ha), ?_, Nat.le_refl _⟩
    by_cases hall : h.out.length = k
    · cases hp : h.phase with
      | keepalive lastSeq => simp [requested, hp, hall, Phase.flushed]
      | acking => simp [requested, hp, hall, Phase.flushed]
      | _ => simp [hp, Phase.writing] at hw
    · rw [if_neg hall]
      exact Nat.le_refl _
  | fail hio => exact .inr ⟨fun _ _ ha => (by cases ha), Nat.zero_le _, Nat.le_refl _⟩

theorem Step.modest_iff (hs : Step z cfg h a h') (hf : h.Follows z cfg)
    (hp : h.Proportionate cfg.maxFrameSize) :
    Modest z cfg h a ↔ h'.Proportionate cfg.maxFrameSize := by
  rcases hs.requested hf with ⟨rfl, hw, n, r, hd, hn, hi⟩ | ⟨hno, hle, hlen⟩
  · unfold Proportionate
    rw [hn, hi]
    constructor
    · intro hm
      exact hm rfl hw n r hd
    · intro hm _ _ n' r' hd'
      rw [hd] at hd'
      cases hd'
      exact hm
  · unfold Proportionate at *
    exact iff_of_true (fun ha hw n r hd => absurd hd (hno n r ha hw)) (by omega)

end Handler

/-- **When a reservation is in proportion.** In every run of a connection: every window
frame it decodes announces at most as many events as bytes were received by then, and one
frame of the largest size, exactly when in every state it passes the slots asked for the
current batch are at most that many. -/
theorem reservation_bounded_iff (z : Flate) (cfg : ConnectionConfig) (as : List Handler.Act)
    (h : Handler) (hr : Run (Handler.step z cfg) anything .init as h) :
    Run (Handler.step z cfg) (Handler.Modest z cfg) .init as h ↔
      ∀ bs h', bs <+: as → Run (Handler.step z cfg) anything .init bs h' →
        h'.Proportionate cfg.maxFrameSize := by
  have hinit : Handler.init.Proportionate cfg.maxFrameSize := Nat.zero_le _
  exact hr.guarded_iff (.init z cfg) (fun hf hs => (Handler.step_cases hs).follows hf) hinit
    (fun hf hp hs => (Handler.step_cases hs).modest_iff hf hp)

/-- A window of one event, decoded after six bytes. -/
theorem reservation_bounded_sample :
    ∃ h, Run (Handler.step .sample ⟨1024, none⟩) anything .init
      [.read [50, 87, 0, 0, 0, 1], .next] h ∧ h.requested = 1 ∧ h.Proportionate 1024 := by
  let s : Handler := { Handler.init with
    buffer := [50, 87, 0, 0, 0, 1], input := [50, 87, 0, 0, 0, 1] }
  let t : Handler := { s with buffer := [], phase := .collecting (.start 1) }
  have hs : Handler.init.step .sample ⟨1024, none⟩ (.read [50, 87, 0, 0, 0, 1]) = some s := by
    decide +kernel
  have ht : s.step .sample ⟨1024, none⟩ .next = some t := by decide +kernel
  have hmodest : Handler.Modest .sample ⟨1024, none⟩ s .next := by
    intro _ _ n r hd
    have hone : (ConnectionConfig.decoder .sample ⟨1024, none⟩).decode s.buffer =
        (.ok (some (.window 1)), []) := by rfl
    rw [hone] at hd
    cases hd
    decide
  have hr : Run (Handler.step .sample ⟨1024, none⟩) (Handler.Modest .sample ⟨1024, none⟩) .init
      [.read [50, 87, 0, 0, 0, 1], .next] t :=
    .tail (.single (fun ha => by cases ha) hs) hmodest ht
  have hany := hr.mono (fun _ _ _ => trivial)
  exact ⟨t, hany, rfl, (reservation_bounded_iff .sample ⟨1024, none⟩ _ t hany).mp hr _ t List.prefix_rfl hany⟩

/-- Six bytes ask for 4294967295 slots. -/
theorem reservation_exceeds_received :
    ∃ h, Run (Handler.step .sample ⟨defaultMaxFrameSize, some 15000⟩) anything .init
        [.read [50, 87, 255, 255, 255, 255], .next] h ∧
      h.requested = 4294967295 ∧ h.input.length + defaultMaxFrameSize = 16777222 ∧
      ¬ h.Proportionate defaultMaxFrameSize := by
  obtain ⟨h, hr, hreq⟩ : ∃ h, Run (Handler.step .sample ⟨defaultMaxFrameSize, some 15000⟩) anything
      .init [.read [50, 87, 255, 255, 255, 255], .next] h ∧
      (h.requested, h.input.length + defaultMaxFrameSize) = (4294967295, 16777222) :=
    Run.exists_of_exec (by decide +kernel)
  simp only [Prod.mk.injEq] at hreq
  refine ⟨h, hr, hreq.1, hreq.2, ?_⟩
  unfold Handler.Proportionate
  omega

end Lumberjack.Server
