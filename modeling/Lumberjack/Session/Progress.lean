import Lumberjack.Session.Lockstep

/-!
# A call in progress can always return

On a connection without faults some step is always enabled that brings the call in
progress nearer to its return, whatever the sizes of the sockets and of the batch
channel. While the client writes, the handler has nothing to answer and reads; while
the handler answers, the client has written everything and reads. Neither waits for
room in a socket that the other does not empty.
-/
namespace Lumberjack

open Lumberjack.Stream Lumberjack.Wire Lumberjack.Server Lumberjack.Process Lumberjack.Client

namespace Client

variable {T : Type}

namespace Phase

/-- The events of the call in progress. -/
def call : Phase T → Option (List T)
  | .idle => none
  | .feeding events _ _ | .flushing events | .awaiting events => some events

def rank : Phase T → Nat
  | .idle => 0
  | .awaiting _ => 1
  | .flushing _ => 2
  | .feeding _ _ _ => 3

def unfed : Phase T → List Frame
  | .feeding _ todo _ => todo
  | _ => []

end Phase

/-- The batches of all calls so far, that of the call in progress last. -/
def calls (cl : Client T) : List (List T) := cl.results.map Prod.fst ++ cl.phase.call.toList

theorem call_eq_none {p : Phase T} : p.call = none ↔ p = .idle := by
  cases p <;> simp [Phase.call]

theorem pending_front (p : Phase T) : p.pending.toList <+: p.call.toList := by
  cases p with
  | feeding events todo err => cases todo <;> cases err <;> simp [Phase.pending, Phase.call]
  | _ => simp [Phase.pending, Phase.call]

theorem calls_finish {cl : Client T} {events : List T} (h : cl.phase.call = some events)
    (r : Result UInt32) : (cl.finish events r).calls = cl.calls := by
  show (cl.results ++ [(events, r)]).map Prod.fst ++ [] = cl.results.map Prod.fst ++ _
  rw [h, List.map_append, List.append_nil]
  rfl

theorem calls_onFrame {cl : Client T} {events : List T} (h : cl.phase.call = some events) (f : Frame) :
    (cl.onFrame events f).calls = cl.calls := by
  cases f with
  | ack seq =>
    simp only [onFrame]
    split
    · exact calls_finish h _
    · rfl
  | _ => exact calls_finish h _

/-- A frame that can be decoded is taken, and the call goes on or returns. -/
theorem next_enabled {z : Flate} {toVec : T → Except String Bytes} {b : ClientBuilder} {cl : Client T}
    {events : List T} (hp : cl.phase = .awaiting events) (hf : cl.Framing) {f : Frame} {r : Bytes}
    (hd : (LumberjackCodec.decoder z {}).decode cl.rbuf = (.ok (some f), r)) :
    ∃ cl', cl.step z toVec b .next = some cl' ∧ cl'.calls = cl.calls ∧ cl'.rbuf = r ∧
      cl'.wbuf = cl.wbuf ∧ (cl'.phase = .awaiting events ∨ cl'.phase = .idle) := by
  obtain ⟨-, h2, h3, -, hph⟩ := onFrame_keeps
    { cl with rbuf := r, heard := cl.heard ++ [f] } events f
  have hs : cl.step z toVec b .next = some (cl.onItem events r (.ok f)) := by
    simp [step, hp, hf.1, hf.2.1, hf.readable hd, hd]
  refine ⟨_, hs, ?_, h3, h2, ?_⟩
  · exact calls_onFrame (by simp [hp, Phase.call]) f
  · rw [← hp]
    exact hph

end Client

/-- A frame that can be decoded is taken; nothing is dispatched or written for it. -/
theorem Server.Handler.next_enabled {z : Flate} {cfg : ConnectionConfig} {h : Handler}
    (hr : h.phase.reading) {f : Frame} {r : Bytes}
    (hd : (cfg.decoder z).decode h.buffer = (.ok (some f), r)) :
    ∃ h', h.step z cfg .next = some h' ∧ h'.buffer = r ∧ h'.dispatched = h.dispatched ∧
      h'.rounds = h.rounds ∧ h'.out = h.out := by
  refine ⟨{ h with buffer := r }.onFrame z cfg f, by simp [step, hr, hd], ?_⟩
  unfold onFrame
  split
  · exact ⟨rfl, rfl, rfl, rfl⟩
  · exact ⟨rfl, rfl, rfl, rfl⟩
  · split <;> exact ⟨rfl, rfl, rfl, rfl⟩
  · exact ⟨rfl, rfl, rfl, rfl⟩

variable {ι T : Type}

/-- What is left to do until the call in progress has returned. A byte counts for
less the further it has come, and a batch for more than its acknowledgement. -/
def Link.work (z : Flate) (l : Link T) : Nat :=
  l.client.phase.rank + 4 * (encodeAll z l.client.phase.unfed).length +
  3 * l.client.wbuf.length + 2 * l.up.length + l.handler.buffer.length +
  4 * (l.client.calls.length - l.handler.dispatched.length) +
  30 * (l.client.calls.length - l.handler.rounds.length) +
  3 * l.handler.out.length + 2 * l.down.length + l.client.rbuf.length

namespace Session

variable [DecidableEq ι] {S : Setup ι T} {s : Session ι T} {c : ι}

def work (z : Flate) (c : ι) (s : Session ι T) : Nat :=
  (s.link c).work z + 2 * s.hub.queue.length + s.hub.held.length

/-- Some step starts no call and leaves less to do. -/
def Advances (S : Setup ι T) (c : ι) (s : Session ι T) : Prop :=
  ∃ a s', Faultless S c s a ∧ step S s a = some s' ∧
    (s'.clients c).calls = (s.clients c).calls ∧ s'.work S.z c < s.work S.z c

theorem advances_client {a : Client.Act T} {cl : Client T}
    (ha : a = .feed ∨ a = .flush ∨ a = .flushed ∨ a = .next)
    (hs : (s.clients c).step S.z S.toVec (S.client c) a = some cl)
    (hc : cl.calls = (s.clients c).calls)
    (hw : (Link.mk cl (s.hub.handlers c) (s.up c) (s.down c)).work S.z < (s.link c).work S.z) :
    Advances S c s := by
  have hl : (s.setClient c cl).link c = ⟨cl, s.hub.handlers c, s.up c, s.down c⟩ := by
    simp [link, setClient]
  refine ⟨.client c a, s.setClient c cl, ?_, ?_, ?_, ?_⟩
  · obtain rfl | rfl | rfl | rfl := ha <;> exact fun _ => trivial
  · obtain rfl | rfl | rfl | rfl := ha <;> simp [step, clientStep, hs]
  · simpa [setClient] using hc
  · rw [work, hl]
    show _ + 2 * s.hub.queue.length + s.hub.held.length < _
    simp only [work]
    omega

theorem advances_feed {events : List T} {f : Frame} {todo : List Frame} {err : Option Error}
    (hp : (s.clients c).phase = .feeding events (f :: todo) err)
    (hb : (s.clients c).blocked = false) (hf : f.encode S.z ≠ []) : Advances S c s := by
  have hpos := List.length_pos_iff.mpr hf
  refine advances_client (.inl rfl) (by simp only [Client.step, hp, hb]; rfl) ?_ ?_
  · simp [Client.calls, hp, Client.Phase.call]
  · simp only [Link.work, link, Client.calls, hp, Client.Phase.call, Client.Phase.rank,
      Client.Phase.unfed, encodeAll_cons, List.length_append]
    omega

theorem advances_flush {events : List T} (hp : (s.clients c).phase = .feeding events [] none) :
    Advances S c s := by
  refine advances_client (.inr (.inl rfl)) (by simp only [Client.step, hp]; rfl) ?_ ?_
  · simp [Client.calls, hp, Client.Phase.call]
  · simp only [Link.work, link, Client.calls, hp, Client.Phase.call, Client.Phase.rank,
      Client.Phase.unfed]
    omega

theorem advances_flushed {events : List T} (hp : (s.clients c).phase = .flushing events)
    (hw : (s.clients c).wbuf = []) : Advances S c s := by
  refine advances_client (.inr (.inr (.inl rfl))) (by simp only [Client.step, hp, hw]; rfl) ?_ ?_
  · simp [Client.calls, hp, Client.Phase.call]
  · simp only [Link.work, link, Client.calls, hp, hw, Client.Phase.call, Client.Phase.rank,
      Client.Phase.unfed]
    omega

theorem advances_next {events : List T} (hp : (s.clients c).phase = .awaiting events)
    (hf : (s.clients c).Framing) {f : Frame} {r : Bytes}
    (hd : (LumberjackCodec.decoder S.z {}).decode (s.clients c).rbuf = (.ok (some f), r)) :
    Advances S c s := by
  have hlt := (LumberjackCodec.decoder S.z {}).some_shrinks hd
  obtain ⟨cl, hs, hcalls, hrb, hwb, hph⟩ := Client.next_enabled hp hf hd
  refine advances_client (.inr (.inr (.inr rfl))) hs hcalls ?_
  simp only [Link.work, link, hcalls, hrb, hwb, hp]
  rcases hph with hph | hph
  · simp only [hph]
    omega
  · simp only [hph, Client.Phase.rank, Client.Phase.unfed]
    omega

theorem advances_write (hw : (s.clients c).writing) (hne : (s.clients c).wbuf ≠ [])
    (hroom : (s.up c).length < S.upRoom c) : Advances S c s := by
  have hpos := List.length_pos_iff.mpr hne
  have hs : step S s (.client c (.write 1)) = some
      { s.setClient c { s.clients c with wbuf := (s.clients c).wbuf.drop 1, draining := true } with
        up := Function.update s.up c (s.up c ++ (s.clients c).wbuf.take 1) } := by
    simp only [step, clientStep, Client.step]
    rw [if_pos (by omega), if_pos ⟨hw, by omega, by omega⟩]
    rfl
  refine ⟨.client c (.write 1), _, fun _ => trivial, hs, ?_, ?_⟩
  · simp [setClient, Client.calls]
  · simp only [work, link, setClient, Link.work, Function.update_self, Client.calls, List.length_append,
      List.length_take, List.length_drop]
    omega

theorem advances_read {events : List T} (hp : (s.clients c).phase = .awaiting events)
    (hst : (s.clients c).starved S.z) (hne : s.down c ≠ []) : Advances S c s := by
  obtain ⟨x, rest, hd⟩ := List.exists_cons_of_ne_nil hne
  have hs : step S s (.client c (.read [x])) = some
      { s.setClient c { s.clients c with rbuf := (s.clients c).rbuf ++ [x], readable := true, eof := false } with
        down := Function.update s.down c ((s.down c).drop 1) } := by
    simp only [step, clientStep, Client.step, hp]
    rw [if_pos (by simp [hd]), if_pos ⟨by simp, hst⟩]
    rfl
  refine ⟨.client c (.read [x]), _, fun _ => trivial, hs, ?_, ?_⟩
  · simp [setClient, Client.calls]
  · simp only [work, link, setClient, Link.work, Function.update_self, Client.calls, List.length_append,
      List.length_drop, hd, List.length_cons, List.length_nil]
    omega

theorem advances_handler {a : Handler.Act} {h : Handler} (ha : a = .next ∨ a = .acked)
    (hs : (s.hub.handlers c).step S.z S.server a = some h)
    (hw : (Link.mk (s.clients c) h (s.up c) (s.down c)).work S.z < (s.link c).work S.z) :
    Advances S c s := by
  have hl : (s.setHub (s.hub.setHandler c h)).link c = ⟨s.clients c, h, s.up c, s.down c⟩ := by
    simp [link, setHub, Hub.setHandler]
  refine ⟨.server (.handler c a), s.setHub (s.hub.setHandler c h), ?_, ?_, rfl, ?_⟩
  · obtain rfl | rfl := ha <;> simp [Faultless]
  · obtain rfl | rfl := ha <;> simp [step, hubStep, Hub.step, hs]
  · rw [work, hl]
    show _ + 2 * s.hub.queue.length + s.hub.held.length < _
    simp only [work]
    omega

theorem advances_decode (hr : (s.hub.handlers c).phase.reading) {f : Frame} {r : Bytes}
    (hd : (S.server.decoder S.z).decode (s.hub.handlers c).buffer = (.ok (some f), r)) :
    Advances S c s := by
  have hlt := (S.server.decoder S.z).some_shrinks hd
  obtain ⟨h, hs, hb, hdis, hrnd, hout⟩ := Handler.next_enabled hr hd
  refine advances_handler (.inl rfl) hs ?_
  simp only [Link.work, link, hb, hdis, hrnd, hout]
  omega

theorem advances_serverRead (hr : (s.hub.handlers c).phase.reading)
    (hd : ((S.server.decoder S.z).decode (s.hub.handlers c).buffer).1 = .ok none)
    (hne : s.up c ≠ []) : Advances S c s := by
  obtain ⟨x, rest, hu⟩ := List.exists_cons_of_ne_nil hne
  have hs : step S s (.server (.handler c (.read [x]))) = some
      { s.setHub (s.hub.setHandler c { s.hub.handlers c with
          buffer := (s.hub.handlers c).buffer ++ [x], input := (s.hub.handlers c).input ++ [x] }) with
        up := Function.update s.up c ((s.up c).drop 1) } := by
    simp only [step, hubStep, Hub.step, Handler.step]
    rw [if_pos (by simp [hu]), if_pos ⟨hr, by simp, hd⟩]
    rfl
  refine ⟨.server (.handler c (.read [x])), _, by simp [Faultless], hs, rfl, ?_⟩
  simp only [work, link, setHub, Hub.setHandler, Link.work, Function.update_self, List.length_append,
    List.length_drop, hu, List.length_cons, List.length_nil]
  omega

theorem advances_serverWrite (hw : (s.hub.handlers c).phase.writing)
    (hne : (s.hub.handlers c).out ≠ []) (hroom : (s.down c).length < S.downRoom c) :
    Advances S c s := by
  have hpos := List.length_pos_iff.mpr hne
  obtain ⟨h, hs, hout, hb, hdis, hrnd⟩ : ∃ h, (s.hub.handlers c).step S.z S.server (.write 1) = some h ∧
      h.out = (s.hub.handlers c).out.drop 1 ∧ h.buffer = (s.hub.handlers c).buffer ∧
      h.dispatched = (s.hub.handlers c).dispatched ∧ h.rounds = (s.hub.handlers c).rounds := by
    refine ⟨_, (Handler.Step.write hw (by omega) (by omega)).enabled, rfl, rfl, rfl, rfl⟩
  have hs' : step S s (.server (.handler c (.write 1))) = some
      { s.setHub (s.hub.setHandler c h) with
        down := Function.update s.down c (s.down c ++ (s.hub.handlers c).out.take 1) } := by
    simp only [step, hubStep, Hub.step, hs]
    rw [if_pos (by omega)]
    rfl
  refine ⟨.server (.handler c (.write 1)), _, by simp [Faultless], hs', rfl, ?_⟩
  simp only [work, link, setHub, Hub.setHandler, Link.work, Function.update_self, List.length_append,
    List.length_take, List.length_drop, hout, hb, hdis, hrnd]
  omega

theorem advances_dispatch {w : Collect} (hp : (s.hub.handlers c).phase = .dispatching w)
    (hopen : s.hub.closed = false) (hroom : s.hub.queue.length < S.capacity)
    (hlt : (s.hub.handlers c).dispatched.length < (s.clients c).calls.length) : Advances S c s := by
  obtain ⟨h, hs, hb, hdis, hrnd, hout⟩ : ∃ h, (s.hub.handlers c).step S.z S.server .dispatch = some h ∧
      h.buffer = (s.hub.handlers c).buffer ∧
      h.dispatched = (s.hub.handlers c).dispatched ++ [w.dispatch] ∧
      h.rounds = (s.hub.handlers c).rounds ∧ h.out = (s.hub.handlers c).out :=
    ⟨_, (Handler.Step.dispatch hp).enabled, rfl, rfl, rfl, rfl⟩
  have hs' : step S s (.server (.handler c .dispatch)) = some (s.setHub { s.hub.setHandler c h with
      queue := s.hub.queue ++
        [.new w.events w.lastSeq (c, (s.hub.handlers c).dispatched.length)] }) := by
    simp only [step, hubStep, Hub.step, hp, hs]
    rw [if_pos ⟨hopen, hroom⟩]
    rfl
  refine ⟨.server (.handler c .dispatch), _, by simp [Faultless], hs', rfl, ?_⟩
  simp only [work, link, setHub, Hub.setHandler, Link.work, Function.update_self, List.length_append,
    List.length_singleton, hb, hdis, hrnd, hout]
  omega

theorem advances_recv (hopen : s.hub.closed = false) (hne : s.hub.queue ≠ []) : Advances S c s := by
  obtain ⟨b, queue, hq⟩ := List.exists_cons_of_ne_nil hne
  have hs : step S s (.server .recv) = some (s.setHub { s.hub with
      queue := queue, held := s.hub.held ++ [b], received := s.hub.received ++ [b] }) := by
    simp only [step, hubStep, Hub.step, hopen, hq]
    rfl
  refine ⟨.server .recv, _, by simp [Faultless], hs, rfl, ?_⟩
  simp only [work, link, setHub, hq, List.length_append, List.length_cons, List.length_nil]
  omega

/-- A release reaches a handler and changes nothing that counts as work. -/
theorem release_frame (hinv : s.hub.Inv S.z S.server) {tx : ι × Nat} {how : Release} {hub : Hub ι}
    (hs : s.hub.step S.z S.server S.capacity (.release tx how) = some hub) :
    (hub.handlers c).buffer = (s.hub.handlers c).buffer ∧
    (hub.handlers c).dispatched = (s.hub.handlers c).dispatched ∧
    (hub.handlers c).rounds = (s.hub.handlers c).rounds ∧
    (hub.handlers c).out = (s.hub.handlers c).out := by
  cases (Hub.step_cases hs).view hinv.owned c with
  | unchanged he =>
    rw [he]
    exact ⟨rfl, rfl, rfl, rfl⟩
  | own ha => cases ha
  | dropped ha => cases ha
  | released ha hm hb hstep =>
    generalize s.hub.handlers c = h at hstep
    generalize hub.handlers c = h' at hstep
    cases hstep
    exact ⟨rfl, rfl, rfl, rfl⟩

theorem advances_release (hinv : s.hub.Inv S.z S.server) (hne : s.hub.held ≠ []) : Advances S c s := by
  obtain ⟨b, rest, hh⟩ := List.exists_cons_of_ne_nil hne
  obtain ⟨tx, hack⟩ := hinv.owned.stamped b (by rw [hh]; simp)
  obtain ⟨hub, hs⟩ : ∃ hub, s.hub.step S.z S.server S.capacity (.release tx .ack) = some hub := by
    simp [Hub.step, hh, hack]
  obtain ⟨h1, h2, h3, h4⟩ := release_frame (c := c) hinv hs
  have hlen : hub.queue = s.hub.queue ∧ hub.held.length + 1 = s.hub.held.length := by
    cases Hub.step_cases hs with
    | release hb hheld =>
      rw [hheld]
      refine ⟨rfl, ?_⟩
      simp only [List.length_append, List.length_cons]
      omega
  refine ⟨.server (.release tx .ack), s.setHub hub, by simp [Faultless], ?_, rfl, ?_⟩
  · simp only [step, hubStep, hs]
    rfl
  · simp only [work, link, setHub, Link.work, h1, h2, h3, h4, hlen.1]
    omega

theorem advances_acked {seq v : UInt32} (hp : (s.hub.handlers c).phase = .awaitAck seq)
    (hv : (s.hub.handlers c).ackRx.acked seq = some v)
    (hlt : (s.hub.handlers c).rounds.length < (s.clients c).calls.length) : Advances S c s := by
  obtain ⟨h, hs, hb, hdis, hrnd, hout⟩ : ∃ h, (s.hub.handlers c).step S.z S.server .acked = some h ∧
      h.buffer = (s.hub.handlers c).buffer ∧ h.dispatched = (s.hub.handlers c).dispatched ∧
      h.rounds.length = (s.hub.handlers c).rounds.length + 1 ∧
      h.out.length = (s.hub.handlers c).out.length + 6 := by
    refine ⟨_, (Handler.Step.acked hp hv).enabled, rfl, rfl, ?_, ?_⟩
    · simp [Handler.send]
    · simp [Handler.send, Handler.encode_ack_length]
  refine advances_handler (.inr rfl) hs ?_
  simp only [Link.work, link, hb, hdis, hrnd, hout]
  omega

end Session

namespace Link.Lockstep

variable {z : Flate} {toVec : T → Except String Bytes} {b : ClientBuilder} {cfg : ConnectionConfig}
variable {l : Link T}

/-- A handler that reads never meets bytes it cannot decode. -/
theorem decodes (hz : z.Lawful) (hm : cfg.maxFrameSize < 2^32)
    (h : Lockstep z toVec b.compressionLevel cfg l) (hr : l.handler.phase.reading) (e : Error) (r : Bytes) :
    (cfg.decoder z).decode l.handler.buffer ≠ (.error e, r) := by
  intro hd
  have hs : Step z toVec b cfg l (.handler .next) _ := .handler trivial (.undecodable hr hd)
  have hl := (hs.lockstep hz hm trivial h).live hz
  cases hl

/-- A batch that is about to be dispatched is that of a call. -/
theorem dispatching_lt (hz : z.Lawful) (hm : cfg.maxFrameSize < 2^32)
    (h : Lockstep z toVec b.compressionLevel cfg l) {w : Collect}
    (hp : l.handler.phase = .dispatching w) :
    l.handler.dispatched.length < l.client.complete.length := by
  have hs : Step z toVec b cfg l (.handler .dispatch) _ := .handler trivial (.dispatch hp)
  have hd := (hs.lockstep hz hm trivial h).counts.2.2.1
  simp only [List.length_append, List.length_singleton] at hd
  omega

/-- While the client has something to write, the handler has nothing to answer. -/
theorem unanswered (hz : z.Lawful) (h : Lockstep z toVec b.compressionLevel cfg l)
    (hp : l.client.phase.pending = none ∨
      ((∃ events, l.client.phase = .flushing events) ∧ l.client.wbuf ≠ [])) :
    l.handler.phase.writing = false := by
  have hcounts := h.counts
  have hle : l.handler.dispatched.length ≤ l.client.results.length := by
    rcases hp with hp | ⟨⟨events, hp⟩, hne⟩
    · rw [hp] at hcounts
      exact Nat.le_trans hcounts.2.2.1 (Nat.le_of_eq hcounts.2.2.2)
    · have hlt : l.handler.dispatched.length ≠ l.client.complete.length := by
        intro heq
        exact hne (h.consumed hz heq (fun _ _ _ hq => by rw [hp] at hq; cases hq)).2.2.2
      have hone : l.client.phase.pending.toList.length = 1 := by
        rw [hp]
        rfl
      omega
  rcases (h.silent hz hle).2.2.2 with hr | ⟨c, hc⟩
  · exact Phase.writing_of_reading hr
  · rw [hc]
    rfl

/-- When the client waits for its answer, the handler has something to read, to do
or to say. -/
theorem unstalled (h : Lockstep z toVec b.compressionLevel cfg l) {events : List T}
    (hp : l.client.phase = .awaiting events)
    (hc : ((LumberjackCodec.decoder z {}).decode l.client.rbuf).1 = .ok none) (hdown : l.down = [])
    (hr : l.handler.phase.reading) (hd : ((cfg.decoder z).decode l.handler.buffer).1 = .ok none) :
    l.up ≠ [] := by
  intro hup
  have hcounts := h.counts
  have hone : l.client.phase.pending.toList.length = 1 := by
    rw [hp]
    rfl
  -- the handler has decoded all that was fed, and dispatched it
  have hall : l.handler.dispatched = l.client.complete.map (deliver toVec) := by
    have hout := h.follows.here (Phase.live_of_reading hr) []
    have hsent := h.carried.sent
    rw [hup, h.exact.flushed events hp, List.append_nil, List.append_nil] at hsent
    rw [List.append_nil, ← hsent, List.append_nil,
      (h.clean.at_rest (fun _ _ _ hq => by rw [hp] at hq; cases hq)).outcome_end trivial,
      Handler.atEof_outcome hr h.follows.sound (Prod.ext hd rfl)] at hout
    have hb := congrArg Outcome.batches hout
    simpa [Outcome.after] using hb.symm
  have hdis := congrArg List.length hall
  rw [List.length_map] at hdis
  have hsettled := h.logged.settled (Phase.settled_of_reading hr)
  -- so its acknowledgement has been written, and the client has not read it
  obtain ⟨rest, -, hacks, hb, hlen⟩ := h.unread
  cases rest with
  | nil =>
    simp only [finals, List.filterMap_nil, List.length_nil] at hlen
    omega
  | cons f rest =>
    obtain ⟨v, rfl⟩ := hacks f List.mem_cons_self
    rw [hdown, h.logged.flushed (Phase.live_of_reading hr) (Phase.writing_of_reading hr),
      List.append_nil, List.append_nil] at hb
    rw [← hb, encodeAll_cons, decode_ack_encode] at hc
    cases hc

theorem complete_le (h : Lockstep z toVec b.compressionLevel cfg l) :
    l.client.complete.length ≤ l.client.calls.length := by
  have hc := h.counts.2.2.2
  rw [hc, Client.calls, List.length_append, List.length_map]
  exact Nat.add_le_add_left (pending_front l.client.phase).length_le _

end Link.Lockstep

namespace Session

variable [DecidableEq ι] {S : Setup ι T} {s : Session ι T} {c : ι} {as : List (Act ι T)}

/-- The handler gets on unless it waits for bytes, or for room in its socket. -/
theorem server_advances (hz : S.z.Lawful) (hm : S.server.maxFrameSize < 2^32) (hcap : 0 < S.capacity)
    (hrun : Run (step S) (Faultless S c) (init ι T) as s)
    (hread : (s.hub.handlers c).phase.reading →
      ((S.server.decoder S.z).decode (s.hub.handlers c).buffer).1 = .ok none → s.up c ≠ [])
    (hroom : (s.hub.handlers c).phase.writing → (s.down c).length < S.downRoom c) :
    Advances S c s := by
  have hlock := run_lockstep hz hm hrun
  have hinv := run_hub_inv hrun
  have hopen := run_open hrun
  have hcalls : (s.clients c).complete.length ≤ (s.clients c).calls.length := hlock.complete_le
  have hcounts := hlock.counts
  have hlive : (s.hub.handlers c).phase.live := hlock.live hz
  have reading (hr : (s.hub.handlers c).phase.reading) : Advances S c s := by
    rcases hd : (S.server.decoder S.z).decode (s.hub.handlers c).buffer with ⟨e | _ | f, r⟩
    · exact absurd hd (hlock.decodes hz hm hr e r)
    · exact advances_serverRead hr (by rw [hd]) (hread hr (by rw [hd]))
    · exact advances_decode hr hd
  have writing (hw : (s.hub.handlers c).phase.writing) : Advances S c s :=
    advances_serverWrite hw (hlock.logged.flushing hw) (hroom hw)
  cases hp : (s.hub.handlers c).phase with
  | expectWindow => exact reading (by rw [hp]; rfl)
  | collecting w => exact reading (by rw [hp]; rfl)
  | dispatching w =>
    by_cases hfull : s.hub.queue.length < S.capacity
    · have hlt : (s.hub.handlers c).dispatched.length < (s.clients c).complete.length :=
        hlock.dispatching_lt hz hm hp
      exact advances_dispatch hp hopen hfull (by omega)
    · refine advances_recv hopen (List.length_pos_iff.mp ?_)
      omega
  | awaitAck seq =>
    obtain ⟨hlen, d, hd, -⟩ := (hinv.logged c).awaits seq (by rw [hp]; rfl)
    have hlt : (s.hub.handlers c).rounds.length < (s.clients c).calls.length := by
      have : (s.hub.handlers c).dispatched.length ≤ (s.clients c).complete.length := hcounts.2.2.1
      omega
    cases hrx : (s.hub.handlers c).ackRx with
    | sent v => exact advances_acked hp (by rw [hrx]; rfl) hlt
    | closed => exact advances_acked hp (by rw [hrx]; rfl) hlt
    | pending =>
      -- the batch is queued or held, so the consumer has something to take or to release
      obtain ⟨bs, hhub⟩ := run_hub (fun s a hok => hok.noDrop) hrun
      rcases Hub.run_outstanding hhub hd hlen with hmem | ⟨-, hsent⟩
      · rcases List.mem_append.mp hmem with hq | hh
        · exact advances_recv hopen (List.ne_nil_of_mem hq)
        · exact advances_release hinv (List.ne_nil_of_mem hh)
      · rw [hrx] at hsent
        cases hsent
  | keepalive seq => exact writing (by rw [hp]; rfl)
  | acking => exact writing (by rw [hp]; rfl)
  | _ => simp [hp, Phase.live] at hlive

/-- A client with bytes to write gets on, or the handler does. -/
theorem writer_advances (hz : S.z.Lawful) (hm : S.server.maxFrameSize < 2^32) (hcap : 0 < S.capacity)
    (hup : 0 < S.upRoom c) (hrun : Run (step S) (Faultless S c) (init ι T) as s)
    (hw : (s.clients c).writing) (hne : (s.clients c).wbuf ≠ [])
    (hp : (s.clients c).phase.pending = none ∨ ∃ events, (s.clients c).phase = .flushing events) :
    Advances S c s := by
  by_cases hroom : (s.up c).length < S.upRoom c
  · exact advances_write hw hne hroom
  · apply server_advances hz hm hcap hrun
    · intro _ _
      exact List.length_pos_iff.mp (by omega)
    · intro hwr
      have hno : (s.hub.handlers c).phase.writing = false :=
        (run_lockstep hz hm hrun).unanswered hz (hp.imp_right fun hf => ⟨hf, hne⟩)
      rw [hno] at hwr
      cases hwr

/-- **Some step is always enabled that brings the call in progress nearer to its
return.** -/
theorem run_advances (hz : S.z.Lawful) (hm : S.server.maxFrameSize < 2^32) (hcap : 0 < S.capacity)
    (hup : 0 < S.upRoom c) (hdown : 0 < S.downRoom c)
    (hrun : Run (step S) (Faultless S c) (init ι T) as s) (hne : (s.clients c).phase ≠ .idle) :
    Advances S c s := by
  have hlock := run_lockstep hz hm hrun
  cases hp : (s.clients c).phase with
  | idle => exact absurd hp hne
  | feeding events todo err =>
    obtain rfl := hlock.clean.no_error hm hp
    cases todo with
    | nil => exact advances_flush hp
    | cons f todo =>
      cases hb : (s.clients c).blocked with
      | false => exact advances_feed hp hb (by cases f <;> simp [Frame.encode])
      | true =>
        apply writer_advances hz hm hcap hup hrun
        · simp [Client.writing, hp, hb]
        · intro hnil
          simp [Client.blocked, hnil, backpressureBoundary] at hb
        · exact .inl (by rw [hp]; rfl)
  | flushing events =>
    by_cases hw : (s.clients c).wbuf = []
    · exact advances_flushed hp hw
    · exact writer_advances hz hm hcap hup hrun (by simp [Client.writing, hp]) hw (.inr ⟨events, hp⟩)
  | awaiting events =>
    have hf : (s.clients c).Framing := hlock.exact.framing
    rcases hd : (LumberjackCodec.decoder S.z {}).decode (s.clients c).rbuf with ⟨x, r⟩
    rcases hlock.answered events x r hp hd with rfl | rfl | rfl
    · by_cases hempty : s.down c = []
      · apply server_advances hz hm hcap hrun
        · intro hr hdec
          exact hlock.unstalled hp (by rw [show (s.link c).client = s.clients c from rfl, hd]) hempty hr hdec
        · intro _
          rw [hempty]
          exact hdown
      · exact advances_read hp (hf.starved hd) hempty
    · exact advances_next hp hf hd
    · exact advances_next hp hf hd

/-- The call in progress can return from wherever it is. -/
theorem run_returns (hz : S.z.Lawful) (hm : S.server.maxFrameSize < 2^32) (hcap : 0 < S.capacity)
    (hup : 0 < S.upRoom c) (hdown : 0 < S.downRoom c)
    (hrun : Run (step S) (Faultless S c) (init ι T) as s) :
    ∃ bs s', Run (step S) (Faultless S c) s bs s' ∧ (s'.clients c).phase = .idle ∧
      (s'.clients c).calls = (s.clients c).calls := by
  have hstep : ∀ t : Session ι T,
      ((∃ as, Run (step S) (Faultless S c) (init ι T) as t) ∧
        (t.clients c).calls = (s.clients c).calls) →
      (t.clients c).phase = .idle ∨ ∃ a t', Faultless S c t a ∧ step S t a = some t' ∧
        ((∃ as, Run (step S) (Faultless S c) (init ι T) as t') ∧
          (t'.clients c).calls = (s.clients c).calls) ∧ t'.work S.z c < t.work S.z c := by
    intro t ht
    obtain ⟨⟨as, hrt⟩, hct⟩ := ht
    by_cases hp : (t.clients c).phase = .idle
    · exact .inl hp
    · obtain ⟨a, t', hok, hs, hc, hlt⟩ := run_advances hz hm hcap hup hdown hrt hp
      exact .inr ⟨a, t', hok, hs, ⟨⟨_, .tail hrt hok hs⟩, hc.trans hct⟩, hlt⟩
  obtain ⟨bs, s', hr, ⟨-, hcalls⟩, hidle⟩ := Run.reaches (work S.z c) hstep ⟨⟨as, hrun⟩, rfl⟩
  exact ⟨bs, s', hr, hidle, hcalls⟩

end Session
end Lumberjack
