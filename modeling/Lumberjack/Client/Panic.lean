import Lumberjack.Client.Plain

/-!
# The panic of `Frame::encode`

What a client of the build without `compression` does at any `compression_level` but 0.
Each call feeds its window frame and then a frame that cannot be encoded. The call is
unwound there, before it flushes, so no call comes to wait for an acknowledgement, and
all that can ever reach a server is a stream of window frames.
-/
namespace Lumberjack.Client

open Lumberjack.Stream Lumberjack.Wire Lumberjack.Server Lumberjack.Process

namespace Plain

variable {T : Type}

/-- What a call may have left to do: nothing beyond the frame it cannot encode. -/
inductive Doomed : List Frame → Option Error → Prop
  | fresh (n : UInt32) (payload : Bytes) : Doomed [.window n, .compressed payload] none
  | opened (payload : Bytes) : Doomed [.compressed payload] none
  | unserialized (e : Error) : Doomed [] (some e)

theorem doomed_of_send {toVec : T → Except String Bytes} {level : UInt32} {events : List T}
    (hl : level > 0) (hne : events ≠ []) :
    Doomed (sendFrames toVec level events).1 (sendFrames toVec level events).2 := by
  simp only [sendFrames, List.isEmpty_iff, hne, if_false]
  split
  · exact .unserialized _
  · rw [if_pos hl]
    exact .fresh _ _

/-- A call without events returns `Ok(0)`, and no other call succeeds. -/
def Fruitless (p : List T × Result UInt32) : Prop :=
  (p.1 = [] ∧ p.2 = .ok 0) ∨ (p.1 ≠ [] ∧ ∃ e, p.2 = .error e)

/-- A stream of window frames. -/
def windows (ns : List UInt32) : Bytes := encodeAll Wire.Plain.noFlate (ns.map .window)

/-- A client that never gets past the feeding of its first frame. -/
structure Stuck (s : Plain T) : Prop where
  phase : s.client.phase = .idle ∨ ∃ events todo err, s.client.phase = .feeding events todo err ∧
    events ≠ [] ∧ Doomed todo err
  results : ∀ p ∈ s.client.results, Fruitless p
  windows : ∃ ns, s.client.fed = windows ns
  heard : s.client.heard = []

namespace Stuck

variable {toVec : T → Except String Bytes} {b : ClientBuilder} {s s' : Plain T} {a : Act T}

theorem init (T : Type) : Stuck (Plain.init T) :=
  ⟨.inl rfl, by simp [Plain.init, of, Client.init], ⟨[], rfl⟩, rfl⟩

theorem doomed (h : Stuck s) {events : List T} {todo : List Frame} {err : Option Error}
    (hp : s.client.phase = .feeding events todo err) : events ≠ [] ∧ Doomed todo err := by
  rcases h.phase with hi | ⟨ev, todo', err', hf, hne, hd⟩
  · rw [hi] at hp
    cases hp
  · rw [hf] at hp
    cases hp
    exact ⟨hne, hd⟩

/-- No call flushes or waits. -/
theorem not_later (h : Stuck s) {p : Phase T} (hp : s.client.phase = p) :
    p = .idle ∨ ∃ events todo err, p = .feeding events todo err := by
  rcases h.phase with hi | ⟨events, todo, err, hf, -⟩
  · exact .inl (hp.symm.trans hi)
  · exact .inr ⟨events, todo, err, hp.symm.trans hf⟩

/-- The call returns. -/
theorem finish (h : Stuck s) {er : Bool} {events : List T} {r : Result UInt32}
    (hr : Fruitless (events, r)) : Stuck (s.put ({ s.client with errored := er }.finish events r)) := by
  refine ⟨.inl rfl, ?_, h.windows, h.heard⟩
  intro p hp
  rcases List.mem_append.mp hp with hp | hp
  · exact h.results p hp
  · rw [List.mem_singleton.mp hp]
    exact hr

theorem other (h : Stuck s) {cl : Client T} (ha : ∀ events, a ≠ .start events) (hf : a ≠ .feed)
    (hs : s.client.step Wire.Plain.noFlate toVec b a = some cl) : Stuck (s.put cl) := by
  have later {p : Phase T} (hp : s.client.phase = p) (hi : p ≠ .idle)
      (hq : ∀ events todo err, p ≠ .feeding events todo err) : Stuck (s.put cl) := by
    rcases h.not_later hp with he | ⟨events, todo, err, he⟩
    · exact absurd he hi
    · exact absurd he (hq events todo err)
  cases Client.step_cases hs with
  | empty => exact absurd rfl (ha [])
  | start => exact absurd rfl (ha _)
  | feed => exact absurd rfl hf
  | flush hp => cases (h.doomed hp).2
  | write hw hk hle => exact ⟨h.phase, h.results, h.windows, h.heard⟩
  | flushed hp hw => exact later hp (by simp) (by simp)
  | read hp hc hst => exact later hp (by simp) (by simp)
  | next hp he hr hd => exact later hp (by simp) (by simp)
  | undecodable hp he hd => exact later hp (by simp) (by simp)
  | exhausted hp he => exact later hp (by simp) (by simp)
  | truncated hp he => exact later hp (by simp) (by simp)
  | paused hp he => exact later hp (by simp) (by simp)
  | ended hp => exact later hp (by simp) (by simp)
  | closed hp => exact later hp (by simp) (by simp)
  | unfed hp => exact h.finish (.inr ⟨(h.doomed hp).1, _, rfl⟩)
  | giveUp hg =>
    obtain ⟨events, e, er, hp, -, he⟩ := giveUp_of hg hs
    rw [he]
    refine h.finish (.inr ⟨?_, e, rfl⟩)
    rcases h.phase with hi | ⟨ev, todo, err, hq, hne, -⟩
    · rw [hi] at hp
      exact hp.elim
    · rw [hq] at hp
      cases hp
      exact hne

theorem step (h : Stuck s) (hl : b.compressionLevel > 0) (hs : Plain.step toVec b s a = some s') :
    Stuck s' := by
  cases Plain.step_cases hs with
  | empty hp => exact h.finish (.inl ⟨rfl, rfl⟩)
  | start hp hne =>
    exact ⟨.inr ⟨_, _, _, rfl, hne, doomed_of_send hl hne⟩, h.results, h.windows, h.heard⟩
  | @feed events f todo err w hp hw =>
    obtain ⟨ns, hns⟩ := h.windows
    obtain ⟨hne, hd⟩ := h.doomed hp
    cases hd with
    | fresh n payload =>
      cases hw
      refine ⟨.inr ⟨_, _, _, rfl, hne, .opened payload⟩, h.results, ⟨ns ++ [n], ?_⟩, h.heard⟩
      show s.client.fed ++ _ = _
      rw [hns, Plain.windows, Plain.windows, List.map_append, encodeAll_append]
      simp [Frame.encode]
    | opened payload => cases hw
  | panic hp hw => exact ⟨.inl rfl, h.results, h.windows, h.heard⟩
  | waits hp hq =>
    rcases h.not_later hp with he | ⟨events, todo, err, he⟩ <;> cases he
  | other ha hf hcl => exact h.other ha hf hcl

end Stuck

section Windows

variable {z : Flate} {cfg : ConnectionConfig}

/-- What arrived of a stream of window frames: a piece of the first, or all of it and more. -/
theorem windows_front (z : Flate) (cfg : ConnectionConfig) {ns : List UInt32} {p : Bytes} (h : p <+: windows ns) :
    (cfg.decoder z).decode p = (.ok none, p) ∨
      ∃ n ms q, ns = n :: ms ∧ (cfg.decoder z).decode p = (.ok (some (.window n)), q) ∧ q <+: windows ms := by
  cases ns with
  | nil => exact .inl (by rw [List.prefix_nil.mp h]; rfl)
  | cons n ns =>
    have hw : windows (n :: ns) = (protocolVersion :: typeWindow :: putU32 n) ++ windows ns := rfl
    rw [hw] at h
    by_cases hl : p.length < 6
    · left
      match p with
      | [] => rfl
      | [v] => rfl
      | v :: ty :: body =>
        obtain ⟨hv, h⟩ := List.cons_prefix_cons.mp h
        obtain ⟨ht, -⟩ := List.cons_prefix_cons.mp h
        simp only [List.length_cons] at hl
        rw [hv, ht, ConnectionConfig.decode_eq, decode_window, if_pos (by omega)]
    · obtain ⟨q, rfl⟩ := List.prefix_of_prefix_length_le (List.prefix_append _ _) h (by simp; omega)
      have hd : (cfg.decoder z).decode (protocolVersion :: typeWindow :: putU32 n ++ q) =
          (.ok (some (.window n)), q) := by
        rw [ConnectionConfig.decode_eq]
        exact decode_wire (.window n) q
      exact .inr ⟨n, ns, q, rfl, hd, (List.prefix_append_right_inj _).mp h⟩

/-- A stream that ends before the next frame is complete leads to no further batch. -/
theorem outcome_cut {pos : Position} (hopen : pos.Open) {p r : Bytes}
    (hd : (cfg.decoder z).decode p = (.ok none, r)) : (pos.outcome z cfg p).batches = [] := by
  have he : ((cfg.decoder z).decodeEof p).1 =
      (if p.isEmpty then none else some (cfg.decoder z).remaining).map .error := by
    rw [Decoder.decodeEof_none _ hd]
    split <;> rfl
  rw [Position.outcome_end hopen he]

/-- A second window frame inside a window ends the connection; nothing is dispatched. -/
theorem inside_windows {c : Collect} (hc : c.received < c.window) {ns : List UInt32} {p : Bytes}
    (h : p <+: windows ns) : ((Position.inside c).outcome z cfg p).batches = [] := by
  have hopen : (Position.inside c).Open := hc
  rcases windows_front z cfg h with hd | ⟨n, ms, q, -, hd, -⟩
  · exact outcome_cut hopen hd
  · rw [Position.outcome_frame hopen hd]
    rfl

/-- No event is dispatched for a stream of window frames. -/
theorem window_windows {ns : List UInt32} {p : Bytes} (h : p <+: windows ns) :
    ∀ d ∈ (Position.window.outcome z cfg p).batches, d.events = [] := by
  have hopen : Position.window.Open := trivial
  induction ns generalizing p with
  | nil =>
    rcases windows_front z cfg h with hd | ⟨n, ms, q, hns, -⟩
    · rw [outcome_cut hopen hd]
      simp
    · cases hns
  | cons n ns ih =>
    rcases windows_front z cfg h with hd | ⟨m, ms, q, hns, hd, hq⟩
    · rw [outcome_cut hopen hd]
      simp
    · cases hns
      rw [Position.outcome_frame hopen hd]
      show ∀ d ∈ ((Position.inside (.start n)).outcome z cfg q).batches, _
      by_cases hc : (Collect.start n).received < (Collect.start n).window
      · rw [inside_windows hc hq]
        simp
      · rw [Position.outcome_full hc]
        intro d hmem
        rcases List.mem_cons.mp hmem with rfl | hmem
        · rfl
        · exact ih hq d hmem

end Windows

section Reached

variable {toVec : T → Except String Bytes} {b : ClientBuilder} {s : Plain T} {events : List T}
variable {f : Frame} {todo : List Frame} {err : Option Error}

/-- A feed waits for the write buffer at most once. -/
theorem run_unblocked (toVec : T → Except String Bytes) (b : ClientBuilder)
    (hp : s.client.phase = .feeding events (f :: todo) err) :
    ∃ as s', Run (step toVec b) anything s as s' ∧
      s'.client.phase = .feeding events (f :: todo) err ∧ s'.client.blocked = false ∧
      s'.panicked = s.panicked := by
  cases hb : s.client.blocked with
  | false => exact ⟨[], s, .refl, hp, hb, rfl⟩
  | true =>
    have hw : s.client.writing := by simp [writing, hp, hb]
    have hlen : 0 < s.client.wbuf.length := by
      rw [List.length_pos_iff]
      intro hnil
      simp [blocked, hnil, backpressureBoundary] at hb
    have hs : step toVec b s (.write s.client.wbuf.length) =
        some (s.put { s.client with wbuf := s.client.wbuf.drop s.client.wbuf.length, draining := true }) := by
      simp only [step, Client.step]
      rw [if_pos ⟨hw, hlen, Nat.le_refl _⟩]
      rfl
    refine ⟨_, _, .single trivial hs, hp, ?_, rfl⟩
    simp [put, blocked, backpressureBoundary]

/-- The next frame of the call in progress gets its turn. -/
theorem run_fed {P : Plain T → Prop} (hp : s.client.phase = .feeding events (f :: todo) err)
    (hs : ∀ s₁, s₁.client.phase = .feeding events (f :: todo) err → s₁.client.blocked = false →
      s₁.panicked = s.panicked → ∃ s₂, step toVec b s₁ .feed = some s₂ ∧ P s₂) :
    ∃ as s', Run (step toVec b) anything s as s' ∧ P s' := by
  obtain ⟨as, s₁, hrun, hp₁, hb, hpan⟩ := run_unblocked toVec b hp
  obtain ⟨s₂, hs₂, hP⟩ := hs s₁ hp₁ hb hpan
  exact ⟨as ++ [.feed], s₂, .tail hrun trivial hs₂, hP⟩

/-- A call whose next frame is compressed runs into the panic. -/
theorem run_panics (toVec : T → Except String Bytes) (b : ClientBuilder) {payload : Bytes}
    (hp : s.client.phase = .feeding events (.compressed payload :: todo) err) :
    ∃ as s', Run (step toVec b) anything s as s' ∧ s'.panicked = s.panicked ++ [events] := by
  apply run_fed hp
  intro s' hp' hb hpan
  refine ⟨⟨{ s'.client with phase := .idle, draining := false }, s'.panicked ++ [events]⟩, ?_, by rw [hpan]⟩
  simp only [step, hp', hb]
  rfl

/-- Every call whose events serialize reaches the panic, if the socket takes what is buffered. -/
theorem call_panics (hl : b.compressionLevel > 0) (hidle : s.client.phase = .idle) (hne : events ≠ [])
    {bs : List Bytes} (hv : Serialized toVec events bs) :
    ∃ as s', Run (step toVec b) anything s (.start events :: as) s' ∧
      s'.panicked = s.panicked ++ [events] := by
  obtain ⟨payload, hsend⟩ : ∃ payload, sendFrames toVec b.compressionLevel events =
      ([.window (.ofNat events.length), .compressed payload], none) := by
    simp only [sendFrames, List.isEmpty_iff, hne, if_false, encodeEvents_ok hv, if_pos hl]
    exact ⟨_, rfl⟩
  obtain ⟨s₁, hs₁, hp₁, hpan₁⟩ : ∃ s₁, step toVec b s (.start events) = some s₁ ∧
      s₁.client.phase = .feeding events [.window (.ofNat events.length), .compressed payload] none ∧
      s₁.panicked = s.panicked := by
    simp only [step, hidle, List.isEmpty_iff, hne, if_false, hsend]
    exact ⟨_, rfl, rfl, rfl⟩
  obtain ⟨as, s₂, hrun, hp₂, hpan₂⟩ : ∃ as s', Run (step toVec b) anything s₁ as s' ∧
      s'.client.phase = .feeding events [.compressed payload] none ∧ s'.panicked = s₁.panicked := by
    apply run_fed hp₁
    intro s' hp' hb hpan
    simp only [step, hp', hb]
    exact ⟨_, rfl, rfl, hpan⟩
  obtain ⟨as', s₃, hrun', hpan₃⟩ := run_panics toVec b hp₂
  refine ⟨as ++ as', s₃, ?_, by rw [hpan₃, hpan₂, hpan₁]⟩
  have hstart : Run (step toVec b) anything s [.start events] s₁ := .single trivial hs₁
  exact hstart.trans (hrun.trans hrun')

end Reached
end Plain

section Levels

variable {T : Type}

/-- **At any other level the build without the feature sends nothing.** With a
`compression_level` above 0, and 3 is the default, no call of a client without
`compression` that is given events ever returns `Ok`, in any run, even when the panics
are caught and the client is used again, and no acknowledgement is ever read. All it
feeds to its sink are window frames: a server that receives them, in whatever build and
however much of them arrives, dispatches no event. From every state between calls,
a call whose events serialize can run into the panic. -/
theorem plain_client_panics (z : Flate) (toVec : T → Except String Bytes) (b : ClientBuilder)
    (hl : b.compressionLevel > 0) (as : List (Act T)) (s : Plain T)
    (hrun : Run (Plain.step toVec b) anything (Plain.init T) as s) :
    (∀ p ∈ s.client.results, (p.1 = [] ∧ p.2 = .ok 0) ∨ (p.1 ≠ [] ∧ ∃ e, p.2 = .error e)) ∧
    s.client.heard = [] ∧
    (∃ ns, s.client.fed = Plain.windows ns) ∧
    (∀ (cfg : ConnectionConfig) (env : Nat → Nat × Release) (reads : List Bytes),
      reads.flatten <+: s.client.fed →
        (∀ d ∈ (runConnection z cfg env (.ofReads reads)).batches, d.events = []) ∧
        ∀ d ∈ (Plain.outcome cfg reads.flatten).batches, d.events = []) ∧
    (s.client.phase = .idle → ∀ events ≠ [], (∃ bs, Serialized toVec events bs) →
      ∃ cs s', Run (Plain.step toVec b) anything s (.start events :: cs) s' ∧
        s'.panicked = s.panicked ++ [events]) := by
  have hst : Plain.Stuck s := hrun.invariant (Plain.Stuck.init T) (fun h _ hs => h.step hl hs)
  refine ⟨hst.results, hst.heard, hst.windows, ?_, ?_⟩
  · intro cfg env reads hr
    obtain ⟨ns, hns⟩ := hst.windows
    rw [hns] at hr
    have hfull : ∀ d ∈ (Position.window.outcome z cfg reads.flatten).batches, d.events = [] :=
      Plain.window_windows hr
    constructor
    · have hlog : runConnection z cfg env (.ofReads reads) =
          runConnection z cfg env (.ofReads [reads.flatten]) :=
        runConnection_congr env (by simp [Source.pending, Source.ofReads])
      rw [hlog, runConnection_outcome]
      exact hfull
    · rw [← Position.outcomeBy_decoder] at hfull
      rcases Position.outcomeBy_within (Wire.Plain.within z ⟨cfg.maxFrameSize⟩) .window reads.flatten with
        he | ⟨e, -, -, hb⟩
      · rw [Plain.outcome, he]
        exact hfull
      · exact fun d hd => hfull d (hb.subset hd)
  · rintro hidle events hne ⟨bs, hv⟩
    exact Plain.call_panics hl hidle hne hv

/-- The window frame of a batch of one event. -/
def sampleWindow : Bytes := [50, 87, 0, 0, 0, 1]

/-- A client with the default level after its first call: the panic, and the window frame
that was fed before it. -/
def samplePanicked : Plain Bytes :=
  ⟨{ init Bytes with wbuf := sampleWindow, fed := sampleWindow }, [[[123, 125]]]⟩

/-- A caller that catches the panic and calls again gets the next one, and a server that
receives the window frame dispatches nothing. -/
theorem plain_client_panics_sample :
    (∀ d ∈ (runConnection .sample ⟨defaultMaxFrameSize, none⟩ prompt (.ofReads [sampleWindow])).batches,
      d.events = []) ∧
    ∃ cs s', Run (Plain.step .ok {}) anything samplePanicked (.start [[91, 93]] :: cs) s' ∧
      s'.panicked = [[[123, 125]], [[91, 93]]] := by
  have hrun : Run (Plain.step .ok {}) anything (Plain.init Bytes) [.start [[123, 125]], .feed, .feed]
      samplePanicked := .tail (.tail (.tail .refl trivial rfl) trivial rfl) trivial rfl
  obtain ⟨-, -, -, hserver, hagain⟩ := plain_client_panics .sample .ok {} (by decide) _ _ hrun
  exact ⟨(hserver _ prompt [sampleWindow] (List.prefix_refl _)).1,
    hagain rfl [[91, 93]] (by simp) ⟨[[91, 93]], .cons rfl .nil⟩⟩

end Levels
end Lumberjack.Client
