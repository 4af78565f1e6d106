import Mathlib.Data.List.Dedup
import Lumberjack.Process.Measure
import Lumberjack.Session.Deadlock

/-!
# Every session comes to rest

Apart from new calls and keepalives, every step of a session without faults leaves less
to do: bytes move towards their reader, frames are decoded, batches go through the queue
and the hands of the consumer. A call brings in its frames and its answer, a keepalive
the six bytes of its frame. So a session cannot go on for ever without them, and where
it stops every call has returned and every batch has been received and released.
-/
namespace Lumberjack

open Lumberjack.Stream Lumberjack.Wire Lumberjack.Server Lumberjack.Process Lumberjack.Client

namespace Link

variable {T : Type} {z : Flate} {toVec : T → Except String Bytes} {b : ClientBuilder}
variable {cfg : ConnectionConfig} {l l' : Link T} {m : Move T}

/-- The most that a move adds to the work of its connection. -/
def Move.cost (z : Flate) (toVec : T → Except String Bytes) (level : UInt32) : Move T → Nat
  | .client (.start events) => 4 * (sendBytes z toVec level events).length + 38
  | .handler .tick => 19
  | _ => 0

/-- What a move takes off: a dispatch also pays for the batch in the queue, a release is
paid for by the batch in the hands of the consumer. -/
def Move.gain : Move T → Nat
  | .handler .dispatch => 3
  | .handler .release => 0
  | _ => 1

theorem Step.spends_client {a : Client.Act T} (hz : z.Lawful) (hm : cfg.maxFrameSize < 2^32)
    (hs : Step z toVec b cfg l (.client a) l')
    (hg : Gentle z toVec b.compressionLevel cfg.maxFrameSize (.client a))
    (h : Lockstep z toVec b.compressionLevel cfg l) :
    l'.work z + 1 ≤ l.work z + (Move.client a).cost z toVec b.compressionLevel := by
  have gentle {a : Client.Act T} (ha : a = .ackTimeout ∨ a = .writeTimeout ∨ ∃ msg, a = .fail msg)
      (hg : Gentle z toVec b.compressionLevel cfg.maxFrameSize (.client a)) : False := by
    obtain rfl | rfl | ⟨msg, rfl⟩ := ha <;> exact hg
  cases hs with
  | client ha he hstep =>
    cases hstep with
    | empty hp => exact absurd rfl (Sendable.ne hg)
    | @start events hp hne =>
      simp only [work, calls, Phase.call, Phase.rank, Phase.unfed, hp, Move.cost, sendBytes,
        List.length_append, Option.toList, List.length_cons, List.length_nil]
      omega
    | @feed events f todo err hp hb =>
      have hpos : 0 < (f.encode z).length := List.length_pos_iff.mpr (by cases f <;> simp [Frame.encode])
      simp only [work, calls, Phase.call, Phase.rank, Phase.unfed, hp, Move.cost, encodeAll_cons,
        List.length_append]
      omega
    | flush hp =>
      simp only [work, calls, Phase.call, Phase.rank, Phase.unfed, hp, Move.cost]
      omega
    | write hw hk hl => cases ha
    | flushed hp hw =>
      simp only [work, calls, Phase.call, Phase.rank, Phase.unfed, hp, Move.cost]
      omega
    | read hp hc hst => cases ha
    | @next events f r hp hne hr hd =>
      have hlt := (LumberjackCodec.decoder z {}).some_shrinks hd
      obtain ⟨-, hw, hr, -, hph⟩ := onFrame_keeps
        { l.client with rbuf := r, heard := l.client.heard ++ [f] } events f
      have hcalls : (onFrame { l.client with rbuf := r, heard := l.client.heard ++ [f] } events f).calls =
          l.client.calls := calls_onFrame (by simp [hp, Phase.call]) f
      generalize onFrame { l.client with rbuf := r, heard := l.client.heard ++ [f] } events f = cl
        at hcalls hw hr hph ⊢
      simp only [work, hcalls, hw, hr, Move.cost]
      rcases hph with hph | hph
      · have hsame : cl.phase = l.client.phase := hph
        rw [hsame]
        omega
      · rw [hph, hp]
        simp only [Phase.rank, Phase.unfed]
        omega
    | undecodable hp hne hd => rcases h.answered _ _ _ hp hd with hx | hx | hx <;> cases hx
    | exhausted hp hne => cases hne.symm.trans h.exact.framing.1
    | unfed hp => cases h.clean.no_error hm hp
    | truncated hp heof => cases heof.symm.trans h.exact.framing.2.1
    | paused hp heof => cases heof.symm.trans h.exact.framing.2.1
    | ended hp => cases (he rfl).symm.trans (h.live hz)
    | closed hp => cases (he rfl).symm.trans (h.live hz)
    | giveUp ha => exact (gentle ha hg).elim
  | clientWrite hstep =>
    cases hstep with
    | write hw hk hl =>
      simp only [work, calls, Move.cost, List.length_append, List.length_take, List.length_drop]
      omega
    | giveUp ha => exact (gentle ha hg).elim
  | clientRead hstep hd =>
    cases hstep with
    | read hp hc hst =>
      have := List.length_pos_iff.mpr hc
      simp only [work, calls, Move.cost, List.length_append, hd]
      omega
    | giveUp ha => exact (gentle ha hg).elim

theorem Step.spends_handler {a : Handler.Act} (hz : z.Lawful) (hm : cfg.maxFrameSize < 2^32)
    (hs : Step z toVec b cfg l (.handler a) l')
    (hg : Gentle z toVec b.compressionLevel cfg.maxFrameSize (.handler a))
    (h : Lockstep z toVec b.compressionLevel cfg l) :
    l'.work z + (Move.handler (T := T) a).gain ≤
      l.work z + (Move.handler (T := T) a).cost z toVec b.compressionLevel := by
  have hcounts := h.counts
  have hcalls := h.complete_le
  -- a frame taken from the buffer
  have decoded {f : Frame} {r : Bytes} (hd : (cfg.decoder z).decode l.handler.buffer = (.ok (some f), r))
      (p : Phase) : Link.work z { l with handler := { l.handler with buffer := r, phase := p } } + 1 ≤
        l.work z := by
    have hlt := (cfg.decoder z).some_shrinks hd
    simp only [work]
    omega
  cases hs with
  | handler ha hstep =>
    cases hstep with
    | read hr hc hd => cases ha
    | write hw hk hl => cases ha
    | eof hr hd => cases ha
    | shutdown hp => cases hg
    | fail hio => cases hg
    | release hrx hl => exact Nat.le_refl _
    | window hp hd => exact decoded hd _
    | stray hp hf hd => exact decoded hd _
    | collected hp hd hf => exact decoded hd _
    | rejected hp hd hf => exact decoded hd _
    | undecodable hr hd => exact absurd hd (h.decodes hz hm hr _ _)
    | dispatch hp =>
      have hlt := h.dispatching_lt hz hm hp
      simp only [work, Move.gain, Move.cost, List.length_append, List.length_singleton]
      omega
    | tick hp hk hrx =>
      simp only [work, Move.gain, Move.cost, Handler.send, List.length_append, Handler.encode_ack_length]
      omega
    | @acked seq v hp hv =>
      have hout := (h.logged.awaits seq (by rw [hp]; rfl)).1
      simp only [work, Move.gain, Move.cost, Handler.send, List.length_append, List.length_singleton,
        Handler.encode_ack_length]
      omega
  | serverRead hstep hu =>
    cases hstep with
    | read hr hc hd =>
      have := List.length_pos_iff.mpr hc
      simp only [work, Move.gain, Move.cost, List.length_append, hu]
      omega
  | serverWrite hstep =>
    cases hstep with
    | write hw hk hl =>
      simp only [work, Move.gain, Move.cost, List.length_append, List.length_take, List.length_drop]
      omega

end Link

/-- The batch of a new call. -/
def Client.Act.started {T : Type} : Client.Act T → List (List T)
  | .start events => [events]
  | _ => []

/-- A call stays in the list of calls from its start on. -/
theorem Client.Step.calls {T : Type} {z : Flate} {toVec : T → Except String Bytes} {b : ClientBuilder}
    {cl cl' : Client T} {a : Client.Act T} (hs : Client.Step z toVec b cl a cl')
    (hfault : ¬ (a = .ackTimeout ∨ a = .writeTimeout ∨ ∃ msg, a = .fail msg)) :
    cl'.calls = cl.calls ++ a.started := by
  cases hs with
  | empty hp => simp [Client.calls, Client.finish, hp, Phase.call, Client.Act.started]
  | start hp hne => simp [Client.calls, hp, Phase.call, Client.Act.started]
  | giveUp ha => exact absurd ha hfault
  | feed hp hb | flush hp | flushed hp hw => simp [Client.calls, hp, Phase.call, Client.Act.started]
  | write hw hk hl | read hp hc hst | ended hp => exact (List.append_nil _).symm
  | next hp he hr hd =>
    exact (calls_onFrame (by simp [hp, Phase.call]) _).trans (List.append_nil _).symm
  | undecodable hp he hd | exhausted hp he | truncated hp he | paused hp he | unfed hp | closed hp =>
    exact (calls_finish (by simp [hp, Phase.call]) _).trans (List.append_nil _).symm

namespace Session

variable {ι T : Type} [DecidableEq ι] {S : Setup ι T} {s s' : Session ι T} {a : Act ι T}
variable {as : List (Act ι T)} {cs : List ι}

/-- Everything but a new call and a keepalive. -/
def Act.Onward : Act ι T → Prop
  | .client _ (.start _) | .server (.handler _ .tick) => False
  | _ => True

/-- What a step brings in: a call four steps for each byte it sends and 38 for the rest,
a keepalive 19. -/
def Act.cost (S : Setup ι T) : Act ι T → Nat
  | .client c (.start events) =>
    4 * (sendBytes S.z S.toVec (S.client c).compressionLevel events).length + 38
  | .server (.handler _ .tick) => 19
  | _ => 0

/-- The connection a step belongs to. -/
def Act.party : Act ι T → Option ι
  | .client c _ | .server (.handler c _) => some c
  | _ => none

/-- What is left to do on these connections, in the queue and for the consumer. -/
def effort (z : Flate) (cs : List ι) (s : Session ι T) : Nat :=
  tally (fun c => (s.link c).work z) cs + 2 * s.hub.queue.length + s.hub.held.length

omit [DecidableEq ι] in
theorem effort_move {z : Flate} {c : ι} (hn : cs.Nodup) (hc : c ∈ cs)
    (hother : ∀ d, d ≠ c → s'.link d = s.link d) :
    s'.effort z cs + (s.link c).work z + 2 * s.hub.queue.length + s.hub.held.length =
      s.effort z cs + (s'.link c).work z + 2 * s'.hub.queue.length + s'.hub.held.length := by
  have hmove : tally (fun c => (s'.link c).work z) cs + (s.link c).work z =
      tally (fun c => (s.link c).work z) cs + (s'.link c).work z :=
    tally_move hn hc (fun d hd => congrArg (Link.work z) (hother d hd))
  simp only [effort]
  omega

omit [DecidableEq ι] in
/-- A step that moves batches only, towards their release. -/
theorem effort_lt {z : Flate} (hl : ∀ c, (s'.link c).work z = (s.link c).work z)
    (hq : 2 * s'.hub.queue.length + s'.hub.held.length < 2 * s.hub.queue.length + s.hub.held.length) :
    s'.effort z cs < s.effort z cs := by
  have hsame : tally (fun c => (s'.link c).work z) cs = tally (fun c => (s.link c).work z) cs :=
    tally_congr (fun c _ => hl c)
  simp only [effort, hsame]
  omega

/-- A step of a client moves its own connection only. -/
theorem client_moves {c : ι} {x : Client.Act T} (hs : step S s (.client c x) = some s') :
    s'.hub = s.hub ∧ (∀ d, d ≠ c → s'.link d = s.link d) ∧
    Link.Step S.z S.toVec (S.client c) S.server (s.link c) (.client x) (s'.link c) := by
  cases step_cases hs with
  | @client _ _ cl ha he hstep =>
    refine ⟨rfl, fun d hd => by simp [link, setClient, hd], ?_⟩
    have hl : (s.setClient c cl).link c = { s.link c with client := cl } := by simp [link, setClient]
    rw [hl]
    exact .client ha he hstep
  | @clientWrite _ k cl hstep =>
    refine ⟨rfl, fun d hd => by simp [link, setClient, hd], ?_⟩
    simp only [link, setClient, Function.update_self]
    exact .clientWrite hstep
  | @clientRead _ chunk rest cl hstep hdown =>
    refine ⟨rfl, fun d hd => by simp [link, setClient, hd], ?_⟩
    simp only [link, setClient, Function.update_self]
    exact .clientRead hstep hdown

/-- A handler of an open hub takes its own step, and a dispatch goes into the queue. -/
theorem hub_handler {c : ι} {x : Handler.Act} {hub : Hub ι} (hopen : s.hub.closed = false)
    (hs : s.hub.step S.z S.server S.capacity (.handler c x) = some hub) :
    ∃ h, Handler.Step S.z S.server (s.hub.handlers c) x h ∧
      hub.handlers = Function.update s.hub.handlers c h ∧ hub.held = s.hub.held ∧
      2 * hub.queue.length + 1 = 2 * s.hub.queue.length + (Link.Move.handler (T := T) x).gain ∧
      x ≠ .shutdown := by
  cases Hub.step_cases hs with
  | own ha hstep =>
    refine ⟨_, hstep, rfl, rfl, ?_, ?_⟩
    · cases x <;> first | rfl | exact ha.elim
    · rintro rfl
      exact ha
  | dispatch hp hstep ho hroom =>
    refine ⟨_, hstep, rfl, rfl, ?_, by simp⟩
    simp only [List.length_append, List.length_singleton, Link.Move.gain]
    omega
  | shutdown hstep hclosed =>
    rw [hopen] at hclosed
    cases hclosed

/-- So does a step of a handler. -/
theorem handler_moves {c : ι} {x : Handler.Act} (hopen : s.hub.closed = false)
    (hs : step S s (.server (.handler c x)) = some s') :
    (∀ d, d ≠ c → s'.link d = s.link d) ∧ s'.hub.held = s.hub.held ∧
    2 * s'.hub.queue.length + 1 = 2 * s.hub.queue.length + (Link.Move.handler (T := T) x).gain ∧
    x ≠ .shutdown ∧
    Link.Step S.z S.toVec (S.client c) S.server (s.link c) (.handler x) (s'.link c) := by
  cases step_cases hs with
  | @serverRead _ chunk rest hub hh hu =>
    obtain ⟨h, hstep, hhs, hheld, hq, hx⟩ := hub_handler hopen hh
    refine ⟨fun d hd => by simp [link, setHub, hhs, hd], hheld, hq, hx, ?_⟩
    simp only [link, setHub, hhs, Function.update_self]
    exact .serverRead hstep hu
  | @serverWrite _ k hub hh =>
    obtain ⟨h, hstep, hhs, hheld, hq, hx⟩ := hub_handler hopen hh
    refine ⟨fun d hd => by simp [link, setHub, hhs, hd], hheld, hq, hx, ?_⟩
    simp only [link, setHub, hhs, Function.update_self]
    exact .serverWrite hstep
  | server ha hh =>
    obtain ⟨h, hstep, hhs, hheld, hq, hx⟩ := hub_handler hopen hh
    refine ⟨fun d hd => by simp [link, setHub, hhs, hd], hheld, hq, hx, ?_⟩
    simp only [link, setHub, hhs, Function.update_self]
    exact .handler ha hstep

theorem step_effort [Nonempty ι] (hz : S.z.Lawful) (hm : S.server.maxFrameSize < 2^32) (hn : cs.Nodup)
    (hrun : Run (step S) (Calm S) (init ι T) as s) (hok : Calm S s a) (hs : step S s a = some s')
    (hparty : ∀ c, a.party = some c → c ∈ cs) :
    s'.effort S.z cs < s.effort S.z cs + a.cost S := by
  have hrun' (c : ι) : Run (step S) (Faultless S c) (init ι T) as s := hrun.mono (fun _ _ h => h c)
  have hlock (c : ι) := run_lockstep hz hm (hrun' c)
  have hinv := run_hub_inv hrun
  cases a with
  | client c x =>
    obtain ⟨hhub, hother, hstep⟩ := client_moves hs
    have hmove := effort_move (z := S.z) hn (hparty c rfl) hother
    have hspend := hstep.spends_client hz hm (hok c rfl) (hlock c)
    have hcost : (Link.Move.client x).cost S.z S.toVec (S.client c).compressionLevel =
        (Act.client c x).cost S := by cases x <;> rfl
    rw [hhub] at hmove
    omega
  | server x =>
    cases x with
    | handler c x =>
      have hopen : s.hub.closed = false := run_open (hrun' c)
      obtain ⟨hother, hheld, hq, hx, hstep⟩ := handler_moves hopen hs
      have hmove := effort_move (z := S.z) hn (hparty c rfl) hother
      have hg : Link.Gentle S.z S.toVec (S.client c).compressionLevel S.server.maxFrameSize
          (.handler x) := by
        cases x with
        | fail msg => exact absurd rfl (hok c)
        | shutdown => exact absurd rfl hx
        | eof => cases hs
        | _ => trivial
      have hspend := hstep.spends_handler hz hm hg (hlock c)
      have hcost : (Link.Move.handler (T := T) x).cost S.z S.toVec (S.client c).compressionLevel =
          (Act.server (T := T) (.handler c x)).cost S := by cases x <;> rfl
      rw [hheld] at hmove
      omega
    | recv =>
      cases step_cases hs with
      | server ha hh =>
        cases Hub.step_cases hh with
        | recv hopen hq =>
          refine effort_lt (fun c => ?_) ?_
          · rfl
          · simp only [setHub, hq, List.length_append, List.length_cons, List.length_nil]
            omega
    | release tx how =>
      cases step_cases hs with
      | @server _ hub ha hh =>
        apply effort_lt
        · intro c
          obtain ⟨h1, h2, h3, h4⟩ := release_frame (c := c) hinv hh
          simp only [link, setHub, Link.work, h1, h2, h3, h4]
        · cases Hub.step_cases hh with
          | release hb hheld =>
            simp only [setHub, hheld, List.length_append, List.length_cons]
            omega
    | dropServer => exact absurd rfl (hok (Classical.arbitrary ι))

/-- The connections that take part in a run. -/
def parties (as : List (Act ι T)) : List ι := (as.filterMap Act.party).dedup

theorem mem_parties {c : ι} (ha : a ∈ as) (hc : a.party = some c) : c ∈ parties as :=
  List.mem_dedup.mpr (List.mem_filterMap.mpr ⟨a, ha, hc⟩)

omit [DecidableEq ι] in
theorem effort_init (z : Flate) (cs : List ι) : (init ι T).effort z cs = 0 := by
  have hzero : ∀ c ∈ cs, ((init ι T).link c).work z = 0 := fun c _ => rfl
  rw [effort, tally_congr hzero, tally_zero]
  rfl

/-- A run without faults is no longer than what its calls and keepalives bring in. -/
theorem run_length [Nonempty ι] (hz : S.z.Lawful) (hm : S.server.maxFrameSize < 2^32)
    (hrun : Run (step S) (Calm S) (init ι T) as s) : as.length ≤ tally (Act.cost S) as := by
  have hown : ∀ a ∈ as, ∀ c, a.party = some c → c ∈ parties as := fun a ha c hc => mem_parties ha hc
  obtain ⟨-, hlen⟩ := (hrun.restrict hown).amortized
    (P := fun s => ∃ as, Run (step S) (Calm S) (init ι T) as s) (effort S.z (parties as)) (Act.cost S)
    ⟨[], .refl⟩ (fun ⟨bs, hbs⟩ hok hs =>
      ⟨⟨_, hbs.tail hok.1 hs⟩, step_effort hz hm (List.nodup_dedup _) hbs hok.1 hs hok.2⟩)
  rw [effort_init] at hlen
  omega

theorem release_enabled (hinv : s.hub.Inv S.z S.server) (hne : s.hub.held ≠ []) :
    ∃ tx s', step S s (.server (.release tx .ack)) = some s' := by
  obtain ⟨x, rest, hh⟩ := List.exists_cons_of_ne_nil hne
  obtain ⟨tx, hack⟩ := hinv.owned.stamped x (by rw [hh]; simp)
  obtain ⟨hub, hs⟩ : ∃ hub, s.hub.step S.z S.server S.capacity (.release tx .ack) = some hub := by
    simp [Hub.step, hh, hack]
  refine ⟨tx, s.setHub hub, ?_⟩
  simp only [step, hubStep, hs]
  rfl

theorem recv_enabled (hopen : s.hub.closed = false) (hne : s.hub.queue ≠ []) :
    ∃ s', step S s (.server .recv) = some s' := by
  obtain ⟨x, rest, hq⟩ := List.exists_cons_of_ne_nil hne
  refine ⟨s.setHub { s.hub with
    queue := rest, held := s.hub.held ++ [x], received := s.hub.received ++ [x] }, ?_⟩
  simp only [step, hubStep, Hub.step, hopen, hq]
  rfl

/-- A step that brings a call nearer to its return is no step of another connection, and
neither a fault, a new call nor a keepalive. -/
theorem Advances.own {c : ι} (h : Advances S c s) (hopen : s.hub.closed = false) :
    ∃ a s', Calm S s a ∧ a.Onward ∧ step S s a = some s' ∧ ∀ d, a.party = some d → d = c := by
  obtain ⟨a, s', hok, hs, hcalls, hlt⟩ := h
  have hown : ∀ d, a.party = some d → d = c := by
    intro d hd
    by_contra hne
    cases a with
    | client e x =>
      cases hd
      rw [work_other_client (Ne.symm hne) hs] at hlt
      exact Nat.lt_irrefl _ hlt
    | server x =>
      cases x with
      | handler e x =>
        cases hd
        obtain ⟨hother, hheld, hq, -⟩ := handler_moves hopen hs
        simp only [work, hother c (Ne.symm hne), hheld] at hlt
        omega
      | _ => cases hd
  refine ⟨a, s', ?_, ?_, hs, hown⟩
  · intro d
    cases a with
    | client e x =>
      rintro rfl
      obtain rfl := hown e rfl
      exact hok rfl
    | server x =>
      cases x with
      | handler e x =>
        cases x with
        | fail msg => exact absurd (hown e rfl) hok
        | _ => simp [Faultless]
      | dropServer => exact hok
      | _ => simp [Faultless]
  · cases a with
    | client e x =>
      cases x with
      | start events =>
        obtain rfl := hown e rfl
        have hone := calls_start hs
        rw [hcalls] at hone
        omega
      | _ => trivial
    | server x =>
      cases x with
      | handler e x =>
        cases x with
        | tick => exact absurd (work_tick hs) (Nat.not_le.mpr hlt)
        | _ => trivial
      | _ => trivial

/-- Where nothing but a new call or a keepalive is left, no call is in progress, and no
batch is queued or held. -/
theorem stuck_idle (hz : S.z.Lawful) (hm : S.server.maxFrameSize < 2^32) (hcap : 1 ≤ S.capacity)
    (hup : ∀ c, 0 < S.upRoom c) (hdown : ∀ c, 0 < S.downRoom c)
    (hrun : Run (step S) (Calm S) (init ι T) as s)
    (hstuck : ∀ a s', Calm S s a → a.Onward → step S s a ≠ some s') (c : ι) :
    (s.clients c).phase = .idle ∧ s.hub.queue = [] ∧ s.hub.held = [] := by
  have hrun' : Run (step S) (Faultless S c) (init ι T) as s := hrun.mono (fun _ _ h => h c)
  have hopen : s.hub.closed = false := run_open hrun'
  have hheld : s.hub.held = [] := by
    by_contra hne
    obtain ⟨tx, s', hs⟩ := release_enabled (run_hub_inv hrun) hne
    exact hstuck (.server (.release tx .ack)) s' (fun _ => by simp [Faultless]) trivial hs
  have hqueue : s.hub.queue = [] := by
    by_contra hne
    obtain ⟨s', hs⟩ := recv_enabled (S := S) hopen hne
    exact hstuck (.server .recv) s' (fun _ => by simp [Faultless]) trivial hs
  refine ⟨?_, hqueue, hheld⟩
  by_contra hne
  obtain ⟨a, s', hok, hon, hs, -⟩ := (run_advances hz hm hcap (hup c) (hdown c) hrun' hne).own hopen
  exact hstuck a s' hok hon hs

/-- The batches of the calls made on connection `c`, in order. -/
def started (c : ι) (as : List (Act ι T)) : List (List T) :=
  as.flatMap fun
    | .client d a => if d = c then a.started else []
    | .server _ => []

theorem run_started (hrun : Run (step S) (Calm S) (init ι T) as s) (c : ι) :
    (s.clients c).calls = started c as := by
  induction hrun with
  | refl => rfl
  | @tail as s s' a hrun hok hs ih =>
    rw [started, List.flatMap_append, ← started, ← ih]
    cases a with
    | client d x =>
      obtain ⟨-, hother, hstep⟩ := client_moves hs
      by_cases hd : d = c
      · subst hd
        have hgentle := hok d rfl
        have hcalls := hstep.client_step.1.calls (by
          rintro (rfl | rfl | ⟨msg, rfl⟩) <;> exact hgentle)
        simpa [link] using hcalls
      · have hsame := congrArg Link.client (hother c (Ne.symm hd))
        simp only [link] at hsame
        simp [hsame, hd]
    | server x =>
      have hsame : s'.clients c = s.clients c := by
        cases step_cases hs <;> rfl
      simp [hsame]

/-- Between two calls, every call made has returned `Ok` and its batch was received. -/
theorem idle_settled (hz : S.z.Lawful) (hm : S.server.maxFrameSize < 2^32)
    (hrun : Run (step S) (Calm S) (init ι T) as s) {c : ι} (hidle : (s.clients c).phase = .idle) :
    (s.clients c).results = (started c as).map (fun events => (events, .ok (count events))) ∧
    s.receivedFrom c = stamped c ((started c as).map (deliver S.toVec)) := by
  have hrun' : Run (step S) (Faultless S c) (init ι T) as s := hrun.mono (fun _ _ h => h c)
  have hlock := run_lockstep hz hm hrun'
  obtain ⟨hlen, hphase, -⟩ := hlock.drained hz hidle
  have hcalls : (s.clients c).results.map Prod.fst = started c as := by
    rw [← run_started hrun c, Client.calls, hidle]
    exact (List.append_nil _).symm
  have hall : (s.hub.handlers c).dispatched = (started c as).map (deliver S.toVec) := by
    rw [← run_started hrun c]
    apply hlock.dispatched_calls.eq_of_length
    rw [show (s.link c).handler.dispatched.length = _ from hlen, List.length_map, Client.calls]
    simp [link, hidle, Phase.call]
  constructor
  · rw [← hcalls, List.map_map]
    refine (List.map_id _).symm.trans (List.map_congr_left ?_)
    intro p hp
    exact Prod.ext rfl (hlock.exact.results p hp)
  · rw [receivedFrom_settled (run_hub_inv hrun) (run_open hrun') hphase, hall]

/-- Between two calls there is nothing left to do on a connection. -/
theorem idle_work (hz : S.z.Lawful) (hm : S.server.maxFrameSize < 2^32)
    (hrun : Run (step S) (Calm S) (init ι T) as s) {c : ι} (hidle : (s.clients c).phase = .idle) :
    (s.link c).work S.z = 0 := by
  have hlock := run_lockstep hz hm (hrun.mono (fun _ _ h => h c))
  obtain ⟨hlen, -, hbuf, hout, hup, hdown, hwb, hrb⟩ := hlock.drained hz hidle
  have hcalls : (s.link c).client.calls.length = (s.link c).client.results.length := by
    simp [Client.calls, link, hidle, Phase.call]
  have hrounds := hlock.counts.1
  have hp : (s.link c).client.phase = .idle := hidle
  simp only [Link.work, hp, hbuf, hout, hup, hdown, hwb, hrb, hcalls, hlen, Phase.rank, Phase.unfed,
    encodeAll_nil, List.length_nil]
  omega

omit [DecidableEq ι] in
theorem Act.Onward.cost (h : a.Onward) : a.cost S = 0 := by
  cases a with
  | client c x =>
    cases x with
    | start events => exact h.elim
    | _ => rfl
  | server x =>
    cases x with
    | handler c x =>
      cases x with
      | tick => exact h.elim
      | _ => rfl
    | _ => rfl

/-- Between the calls of all clients, with no batch queued or held, nothing is left. -/
theorem idle_effort (hz : S.z.Lawful) (hm : S.server.maxFrameSize < 2^32)
    (hrun : Run (step S) (Calm S) (init ι T) as s) (hidle : ∀ c, (s.clients c).phase = .idle)
    (hq : s.hub.queue = []) (hh : s.hub.held = []) (cs : List ι) : s.effort S.z cs = 0 := by
  have hwork : tally (fun c => (s.link c).work S.z) cs = 0 :=
    (tally_congr (fun c _ => idle_work hz hm hrun (hidle c))).trans (tally_zero cs)
  simp only [effort, hwork, hq, hh]
  rfl

/-- Then no step is enabled but a new call or a keepalive. -/
theorem idle_still [Nonempty ι] (hz : S.z.Lawful) (hm : S.server.maxFrameSize < 2^32)
    (hrun : Run (step S) (Calm S) (init ι T) as s) (hidle : ∀ c, (s.clients c).phase = .idle)
    (hq : s.hub.queue = []) (hh : s.hub.held = []) (hok : Calm S s a) (hon : a.Onward) :
    step S s a ≠ some s' := by
  intro hs
  have hnodup : a.party.toList.Nodup := by
    cases a.party <;> simp
  have hlt := step_effort hz hm hnodup hrun hok hs (fun c hc => by simp [hc])
  rw [idle_effort hz hm hrun hidle hq hh, hon.cost] at hlt
  exact Nat.not_lt_zero _ hlt

/-- **Every session comes to rest.** In every run without faults, with batches within
the limits, the number of steps is at most what its calls and keepalives bring in: four
for each byte of a call and 38 besides, and 19 for each keepalive. Where no step is
enabled but a new call or a keepalive, every call made has returned `Ok` with its number
of events, the consumer has received the batches of each connection once and in order,
and none is queued or held. -/
theorem session_comes_to_rest [Nonempty ι] (S : Setup ι T) (hz : S.z.Lawful)
    (hm : S.server.maxFrameSize < 2^32) (hcap : 1 ≤ S.capacity) (hup : ∀ c, 0 < S.upRoom c)
    (hdown : ∀ c, 0 < S.downRoom c) (as : List (Act ι T)) (s : Session ι T)
    (hrun : Run (step S) (Calm S) (init ι T) as s) :
    as.length ≤ tally (Act.cost S) as ∧
    ((∀ a s', Calm S s a → a.Onward → step S s a ≠ some s') → ∀ c,
      (s.clients c).results = (started c as).map (fun events => (events, .ok (count events))) ∧
      s.receivedFrom c = stamped c ((started c as).map (deliver S.toVec)) ∧
      s.hub.queue = [] ∧ s.hub.held = []) := by
  refine ⟨run_length hz hm hrun, fun hstuck c => ?_⟩
  obtain ⟨hidle, hqueue, hheld⟩ := stuck_idle hz hm hcap hup hdown hrun hstuck c
  obtain ⟨hresults, hreceived⟩ := idle_settled hz hm hrun hidle
  exact ⟨hresults, hreceived, hqueue, hheld⟩

/-- One call with a keepalive, to its end, where nothing more can happen. -/
theorem session_comes_to_rest_sample :
    ∃ (S : Setup Unit Bytes) (as : List (Act Unit Bytes)) (s : Session Unit Bytes),
      Run (step S) (Calm S) (init Unit Bytes) as s ∧ as.length ≤ tally (Act.cost S) as ∧
      (∀ a s', Calm S s a → a.Onward → step S s a ≠ some s') ∧
      (s.clients ()).results = [([[123, 125]], .ok 1)] ∧
      s.receivedFrom () = stamped () [delivery [[123, 125]]] := by
  let S : Setup Unit Bytes := { sampleSetup with server := ⟨1024, some 50⟩ }
  let as : List (Act Unit Bytes) := sampleCall [[123, 125]] ++ sampleServe [[123, 125]] ++
    [.server (.handler () .tick), .server (.handler () (.write 6)),
      .client () (.read ((Frame.ack 0).encode .sample)), .client () .next] ++ sampleRelease 0 1
  obtain ⟨s, hown, hf⟩ : ∃ s : Session Unit Bytes, Run (step S) (Faultless S ()) (init Unit Bytes) as s ∧
      decide ((s.clients ()).phase.call = none ∧ s.hub.queue = [] ∧ s.hub.held = []) = true :=
    Run.exists_of_exec (by decide +kernel)
  obtain ⟨hcall, hq, hh⟩ := of_decide_eq_true hf
  have hrun := hown.mono (fun s a h => show Calm S s a from fun _ => h)
  have hroom (_ : Unit) : 0 < 4096 := by decide
  have hstuck : ∀ a s', Calm S s a → a.Onward → step S s a ≠ some s' := fun _ _ hok hon =>
    idle_still Flate.sample_lawful (by decide) hrun (fun _ => call_eq_none.mp hcall) hq hh hok hon
  obtain ⟨hlen, hrest⟩ :=
    session_comes_to_rest S Flate.sample_lawful (by decide) (by decide) hroom hroom as s hrun
  obtain ⟨hres, hrec, -, -⟩ := hrest hstuck ()
  exact ⟨S, as, s, hrun, hlen, hstuck, hres, hrec⟩

end Session
end Lumberjack
