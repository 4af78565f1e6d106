import Lumberjack.Server.Follow

/-!
# The acknowledgements a handler writes

The frames a handler has written are a function of the batches it dispatched and
of the keepalive intervals it counted: for every acknowledged batch the keepalives
and the acknowledgement `run_connection` writes for it, then the keepalives of
the one batch that may still be out. The invariant is local to one handler;
`Server.Hub` adds who released what.
-/
namespace Lumberjack.Server

open Lumberjack.Stream Lumberjack.Wire

/-- Counted keepalives as the environment of `run_connection`. -/
def paced (rounds : List Nat) : Nat → Nat × Release := fun k => (rounds.getD k 0, .ack)

theorem ackStream_concat (cfg : ConnectionConfig) (env : Nat → Nat × Release) (ds : List Dispatch)
    (d : Dispatch) : ackStream cfg env (ds ++ [d]) =
      ackStream cfg env ds ++ ackFrames cfg (env ds.length).1 d.lastSeq := by
  induction ds generalizing env with
  | nil => simp [ackStream]
  | cons e ds ih => simp [ackStream, ih]

/-- Only the counts of the batches at hand matter. -/
theorem ackStream_congr (cfg : ConnectionConfig) {env env' : Nat → Nat × Release}
    {ds : List Dispatch} (h : ∀ k < ds.length, (env k).1 = (env' k).1) :
    ackStream cfg env ds = ackStream cfg env' ds := by
  induction ds generalizing env env' with
  | nil => rfl
  | cons d ds ih =>
    have h0 := h 0 (Nat.succ_pos _)
    have hrest : ackStream cfg (fun k => env (k + 1)) ds = ackStream cfg (fun k => env' (k + 1)) ds :=
      ih (fun k hk => h (k + 1) (Nat.succ_lt_succ hk))
    simp only [ackStream, h0, hrest]

theorem ackFrames_eq {cfg : ConnectionConfig} {ticks : Nat} (h : cfg.keepalive = none → ticks = 0)
    (seq : UInt32) : List.replicate ticks (.ack 0) ++ [Frame.ack seq] = ackFrames cfg ticks seq := by
  unfold ackFrames
  cases hk : cfg.keepalive with
  | some i => rfl
  | none => simp [h hk]

namespace Phase

/-- The last sequence number of the batch the handler waits for. -/
def awaits : Phase → Option UInt32
  | .awaitAck lastSeq | .keepalive lastSeq => some lastSeq
  | _ => none

/-- No batch of this handler is out, and none was left behind by a failure. -/
def settled : Phase → Bool
  | .awaitAck _ | .keepalive _ | .failed _ => false
  | _ => true

theorem settled_of_reading {p : Phase} (h : p.reading) : p.settled := by
  cases p <;> simp_all [reading, settled]

theorem writing_of_reading {p : Phase} (h : p.reading) : p.writing = false := by
  cases p <;> simp_all [reading, writing]

theorem settled_ofCollect (c : Collect) : (ofCollect c).settled := by
  unfold ofCollect
  split <;> rfl

theorem writing_ofCollect (c : Collect) : (ofCollect c).writing = false := by
  unfold ofCollect
  split <;> rfl

theorem awaits_of_settled {p : Phase} (h : p.settled) : p.awaits = none := by
  cases p <;> simp_all [settled, awaits]

theorem flushed_settled (p : Phase) : p.flushed.settled = p.settled := by
  cases p <;> rfl

theorem flushed_awaits (p : Phase) : p.flushed.awaits = p.awaits := by
  cases p <;> rfl

theorem flushed_writing (p : Phase) : p.flushed.writing = false := by
  cases p <;> rfl

end Phase

namespace Handler

/-- The frames written, the batches out and the acknowledgement channel agree. -/
structure Logged (cfg : ConnectionConfig) (h : Handler) : Prop where
  written : h.written = ackStream cfg (paced h.rounds) (h.dispatched.take h.rounds.length) ++
    List.replicate h.ticks (.ack 0)
  silent : cfg.keepalive = none → h.ticks = 0
  count : h.rounds.length ≤ h.dispatched.length ∧ h.dispatched.length ≤ h.rounds.length + 1
  settled : h.phase.settled → h.dispatched.length = h.rounds.length
  quiet : h.dispatched.length = h.rounds.length → h.ticks = 0
  awaits : ∀ l, h.phase.awaits = some l → h.dispatched.length = h.rounds.length + 1 ∧
    ∃ d, h.dispatched.getLast? = some d ∧ d.lastSeq = l
  pending : h.ackRx = .pending → h.dispatched.length = h.rounds.length + 1
  sent : ∀ v, h.ackRx = .sent v → ∃ d, h.dispatched.getLast? = some d ∧ d.lastSeq = v
  closed : h.ackRx = .closed → h.dispatched = []
  flushing : h.phase.writing → h.out ≠ []
  flushed : h.phase.live → h.phase.writing = false → h.out = []

variable {z : Flate} {cfg : ConnectionConfig} {h h' : Handler} {a : Act}

namespace Logged

theorem init (cfg : ConnectionConfig) : Logged cfg .init := by
  constructor <;> simp [Handler.init, ackStream, Phase.awaits, Phase.writing]

/-- A step that neither dispatches nor writes, from a settled phase to another. -/
theorem of_settled (hl : h.Logged cfg) (hp : h.phase.settled) (hw : h.phase.writing = false)
    (hv : h.phase.live)
    (hr : h'.rounds = h.rounds ∧ h'.ticks = h.ticks ∧ h'.dispatched = h.dispatched ∧
      h'.written = h.written ∧ h'.ackRx = h.ackRx ∧ h'.out = h.out)
    (hp' : h'.phase.settled) (hw' : h'.phase.writing = false) : h'.Logged cfg := by
  obtain ⟨h1, h2, h3, h4, h5, h6⟩ := hr
  have hcount := hl.settled hp
  have hout := hl.flushed hv hw
  constructor
  · rw [h4, h1, h2, h3]
    exact hl.written
  · rw [h2]
    exact hl.silent
  · rw [h1, h3]
    exact hl.count
  · intro _
    rw [h1, h3]
    exact hcount
  · rw [h1, h2, h3]
    exact hl.quiet
  · intro l hal
    rw [Phase.awaits_of_settled hp'] at hal
    cases hal
  · rw [h5, h3, h1]
    exact hl.pending
  · rw [h5, h3]
    exact hl.sent
  · rw [h5, h3]
    exact hl.closed
  · intro hc
    rw [hw'] at hc
    cases hc
  · intro _ _
    rw [h6]
    exact hout

/-- A step of a handler that reads. -/
theorem of_reading (hl : h.Logged cfg) (hr : h.phase.reading)
    (hs : h'.rounds = h.rounds ∧ h'.ticks = h.ticks ∧ h'.dispatched = h.dispatched ∧
      h'.written = h.written ∧ h'.ackRx = h.ackRx ∧ h'.out = h.out)
    (hp' : h'.phase.settled) (hw' : h'.phase.writing = false) : h'.Logged cfg :=
  hl.of_settled (Phase.settled_of_reading hr) (Phase.writing_of_reading hr) (Phase.live_of_reading hr)
    hs hp' hw'

/-- The value the wait breaks with is the batch's last sequence number. -/
theorem acked_eq (hl : h.Logged cfg) {l v : UInt32} (hp : h.phase.awaits = some l)
    (hv : h.ackRx.acked l = some v) : v = l := by
  obtain ⟨-, d, hd, hlast⟩ := hl.awaits l hp
  cases hrx : h.ackRx with
  | pending =>
    rw [hrx] at hv
    cases hv
  | closed =>
    rw [hrx] at hv
    cases hv
    rfl
  | sent w =>
    obtain ⟨d', hd', hw⟩ := hl.sent w hrx
    rw [hrx] at hv
    cases hv
    rw [hd] at hd'
    cases hd'
    rw [← hlast, ← hw]

/-- Acknowledging completes the frames of the batch that was out. -/
theorem written_acked (hl : h.Logged cfg) {l : UInt32} (hp : h.phase.awaits = some l) :
    h.written ++ [.ack l] = ackStream cfg (paced (h.rounds ++ [h.ticks])) h.dispatched := by
  obtain ⟨hlen, d, hd, rfl⟩ := hl.awaits l hp
  obtain ⟨ds, hds⟩ := List.getLast?_eq_some_iff.mp hd
  have hn : ds.length = h.rounds.length := by
    rw [hds, List.length_append, List.length_singleton] at hlen
    omega
  have htake : h.dispatched.take h.rounds.length = ds := by
    rw [hds, ← hn, List.take_left]
  have hpace : ackStream cfg (paced (h.rounds ++ [h.ticks])) ds = ackStream cfg (paced h.rounds) ds := by
    apply ackStream_congr
    intro k hk
    simp only [paced]
    rw [List.getD_eq_getElem?_getD, List.getD_eq_getElem?_getD, List.getElem?_append_left (by omega)]
  have hlast : (paced (h.rounds ++ [h.ticks]) ds.length).1 = h.ticks := by
    simp [paced, hn]
  rw [hl.written, htake, hds, ackStream_concat, hpace, hlast, List.append_assoc,
    ackFrames_eq hl.silent]

/-- A batch goes out, with a fresh channel. -/
theorem dispatch (hl : h.Logged cfg) {c : Collect} (hp : h.phase = .dispatching c) :
    Logged cfg { h with
      phase := .awaitAck c.lastSeq, ackRx := .pending, dispatched := h.dispatched ++ [c.dispatch] } := by
  have hlen := hl.settled (by rw [hp]; rfl)
  have hout := hl.flushed (by rw [hp]; rfl) (by rw [hp]; rfl)
  constructor
  · show h.written = ackStream cfg (paced h.rounds)
      ((h.dispatched ++ [c.dispatch]).take h.rounds.length) ++ List.replicate h.ticks (.ack 0)
    rw [List.take_append_of_le_length (by omega)]
    exact hl.written
  · exact hl.silent
  · simp only [List.length_append, List.length_singleton]
    omega
  · intro hc
    cases hc
  · intro hc
    simp only [List.length_append, List.length_singleton] at hc
    omega
  · intro l hal
    cases hal
    exact ⟨by simp [hlen], c.dispatch, by simp, rfl⟩
  · intro _
    simp [hlen]
  · intro v hv
    cases hv
  · intro hc
    cases hc
  · intro hc
    cases hc
  · intro _ _
    exact hout

/-- The batch that is out is released, with its last sequence number. -/
theorem release (hl : h.Logged cfg) {d : Dispatch} (hlast : h.dispatched.getLast? = some d) :
    Logged cfg { h with ackRx := .sent d.lastSeq } := by
  refine ⟨hl.written, hl.silent, hl.count, hl.settled, hl.quiet, hl.awaits, ?_, ?_, ?_,
    hl.flushing, hl.flushed⟩
  · intro hc
    cases hc
  · intro v hv
    cases hv
    exact ⟨d, hlast, rfl⟩
  · intro hc
    cases hc

/-- One more keepalive for the batch that is out. -/
theorem tick (hl : h.Logged cfg) {lastSeq : UInt32} {i : Nat} (hp : h.phase = .awaitAck lastSeq)
    (hk : cfg.keepalive = some i) :
    Logged cfg ({ h with phase := .keepalive lastSeq, ticks := h.ticks + 1 }.send z (.ack 0)) := by
  have hlen := (hl.awaits lastSeq (by rw [hp]; rfl)).1
  refine ⟨?_, ?_, hl.count, ?_, ?_, ?_, hl.pending, hl.sent, hl.closed, ?_, ?_⟩
  · show h.written ++ [.ack 0] = _ ++ List.replicate (h.ticks + 1) (.ack 0)
    rw [hl.written, List.replicate_succ', ← List.append_assoc]
    rfl
  · intro hc
    rw [hk] at hc
    cases hc
  · intro hc
    cases hc
  · intro hc
    have hc' : h.dispatched.length = h.rounds.length := hc
    omega
  · intro l hal
    exact hl.awaits l (by rw [hp]; exact hal)
  · intro _
    show h.out ++ (Frame.ack 0).encode z ≠ []
    simp [Frame.encode]
  · intro _ hc
    cases hc

/-- The batch that is out is acknowledged, and with it its keepalives are over. -/
theorem acked (hl : h.Logged cfg) {lastSeq seq : UInt32} (hp : h.phase = .awaitAck lastSeq)
    (hv : h.ackRx.acked lastSeq = some seq) :
    Logged cfg ({ h with phase := .acking, rounds := h.rounds ++ [h.ticks], ticks := 0 }.send z
      (.ack seq)) := by
  have haw : h.phase.awaits = some lastSeq := by rw [hp]; rfl
  obtain rfl := hl.acked_eq haw hv
  obtain ⟨hlen, d, hd, -⟩ := hl.awaits _ haw
  have hwr := hl.written_acked haw
  refine ⟨?_, fun _ => rfl, ?_, ?_, fun _ => rfl, ?_, ?_, hl.sent, hl.closed, ?_, ?_⟩
  · show h.written ++ [.ack seq] = ackStream cfg (paced (h.rounds ++ [h.ticks]))
      (h.dispatched.take (h.rounds ++ [h.ticks]).length) ++ List.replicate 0 (.ack 0)
    rw [hwr, List.take_of_length_le (by simp [hlen]), List.replicate_zero, List.append_nil]
  · simp only [send, List.length_append, List.length_singleton]
    omega
  · intro _
    simp [send, hlen]
  · intro l hal
    cases hal
  · intro hc
    have hc' : h.ackRx = .pending := hc
    rw [hc'] at hv
    cases hv
  · intro _
    show h.out ++ (Frame.ack seq).encode z ≠ []
    simp [Frame.encode]
  · intro _ hc
    cases hc

/-- The phase moves on exactly when the write buffer is empty. -/
theorem write (hl : h.Logged cfg) {k : Nat} (hw : h.phase.writing) (hle : k ≤ h.out.length) :
    Logged cfg { h with
      out := h.out.drop k, phase := if h.out.length = k then h.phase.flushed else h.phase } := by
  refine ⟨hl.written, hl.silent, hl.count, ?_, hl.quiet, ?_, hl.pending, hl.sent, hl.closed, ?_, ?_⟩
  · intro hc
    apply hl.settled
    dsimp only at hc
    split at hc
    · rwa [Phase.flushed_settled] at hc
    · exact hc
  · intro l hal
    apply hl.awaits
    dsimp only at hal
    split at hal
    · rwa [Phase.flushed_awaits] at hal
    · exact hal
  · intro hc
    dsimp only at hc ⊢
    split at hc
    · rw [Phase.flushed_writing] at hc
      cases hc
    · rename_i hne
      intro hnil
      have hlen := congrArg List.length hnil
      simp only [List.length_drop, List.length_nil] at hlen
      omega
  · intro _ hc
    dsimp only at hc ⊢
    split at hc
    · rename_i heq
      rw [List.drop_eq_nil_of_le (by omega)]
    · rw [hw] at hc
      cases hc

end Logged

theorem encode_ack_length (seq : UInt32) : ((Frame.ack seq).encode z).length = 6 := by
  simp [Frame.encode]

theorem Step.logged (hs : Step z cfg h a h') (hl : h.Logged cfg) : h'.Logged cfg := by
  cases hs with
  | read hr hc hd =>
    exact ⟨hl.written, hl.silent, hl.count, hl.settled, hl.quiet, hl.awaits, hl.pending, hl.sent,
      hl.closed, hl.flushing, hl.flushed⟩
  | window hp hd =>
    exact hl.of_reading (by rw [hp]; rfl) ⟨rfl, rfl, rfl, rfl, rfl, rfl⟩ (Phase.settled_ofCollect _)
      (Phase.writing_ofCollect _)
  | stray hp hf hd => exact hl.of_reading (by rw [hp]; rfl) ⟨rfl, rfl, rfl, rfl, rfl, rfl⟩ rfl rfl
  | collected hp hd hf =>
    exact hl.of_reading (by rw [hp]; rfl) ⟨rfl, rfl, rfl, rfl, rfl, rfl⟩ (Phase.settled_ofCollect _)
      (Phase.writing_ofCollect _)
  | rejected hp hd hf => exact hl.of_reading (by rw [hp]; rfl) ⟨rfl, rfl, rfl, rfl, rfl, rfl⟩ rfl rfl
  | undecodable hr hd => exact hl.of_reading hr ⟨rfl, rfl, rfl, rfl, rfl, rfl⟩ rfl rfl
  | eof hr hd => exact hl.of_reading hr ⟨rfl, rfl, rfl, rfl, rfl, rfl⟩ rfl rfl
  | shutdown hp =>
    refine hl.of_settled ?_ ?_ ?_ ⟨rfl, rfl, rfl, rfl, rfl, rfl⟩ rfl rfl <;>
      simp [hp, Phase.settled, Phase.writing, Phase.live]
  | dispatch hp => exact hl.dispatch hp
  | release hrx hlast => exact hl.release hlast
  | tick hp hk hrx => exact hl.tick hp hk
  | acked hp hv => exact hl.acked hp hv
  | write hw hk hle => exact hl.write hw hle
  | fail hio =>
    refine ⟨hl.written, hl.silent, hl.count, ?_, hl.quiet, ?_, hl.pending, hl.sent, hl.closed, ?_, ?_⟩
    · intro hc
      cases hc
    · intro l hal
      cases hal
    · intro hc
      cases hc
    · intro hc
      cases hc

theorem Logged.of_run {ok : Handler → Act → Prop} {as : List Act}
    (hr : Process.Run (step z cfg) ok .init as h) : h.Logged cfg :=
  hr.invariant (.init cfg) (fun hl _ hs => (step_cases hs).logged hl)

end Handler
end Lumberjack.Server
