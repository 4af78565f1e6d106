import Mathlib.Data.Fintype.Basic
import Lumberjack.Session.Network
import Lumberjack.Session.Quiesce

/-!
# Where the whole program stops

Without faults, the network seen without listener and tasks is a session without faults,
and a session comes to rest. What the listener and the tasks add is bounded too, a few
steps for each connection, and they never stand in the way: a connection in the backlog
can be accepted, one that was accepted can shake hands, and from then on its handler can
do what it can do in a session.
-/
namespace Lumberjack

open Lumberjack.Stream Lumberjack.Wire Lumberjack.Server Lumberjack.Process Lumberjack.Client

namespace Server

/-- Steps the accept loop and the tasks still have to take by themselves. -/
def AcceptLoop.due : AcceptLoop → Nat
  | .selecting => 1
  | _ => 0

def Task.due : Task → Nat
  | .handshaking => 1
  | _ => 0

namespace Service

variable {ι : Type} [DecidableEq ι] {z : Flate} {b : ServerBuilder} {s s' : Service ι} {a : Act ι}

/-- The listener and the handshakes do not fail, and the `Server` stays. -/
def Act.Smooth : Act ι → Prop
  | .acceptFailed | .handshake _ false | .dropServer | .dropRx => False
  | _ => True

structure Open (s : Service ι) : Prop where
  loop : s.loop.ended = false
  handle : s.handle = .alive
  tasks : ∀ c, s.tasks c = .absent ∨ s.tasks c = .handshaking ∨ s.tasks c = .serving

theorem Open.setTask (h : s.Open) (c : ι) {t : Task} (ht : t = .handshaking ∨ t = .serving) (d : ι) :
    (s.setTask c t).tasks d = .absent ∨ (s.setTask c t).tasks d = .handshaking ∨
      (s.setTask c t).tasks d = .serving := by
  by_cases hd : d = c
  · subst hd
    simp only [Service.setTask, Function.update_self]
    exact .inr ht
  · simp only [Service.setTask, Function.update_of_ne hd]
    exact h.tasks d

/-- A server whose handlers do not return stays open. -/
theorem Step.stays_open (hs : Step z b s a s') (ha : a.Smooth)
    (hlive : ∀ c, (s.hub.handlers c).phase.live) (h : s.Open) : s'.Open := by
  cases hs with
  | select hl hh => exact ⟨rfl, h.handle, h.tasks⟩
  | stop hl hh => exact absurd h.handle hh
  | @accept c hl ht =>
    refine ⟨rfl, h.handle, h.setTask c ?_⟩
    split
    · exact .inl rfl
    · exact .inr rfl
  | pending hl => exact ⟨rfl, h.handle, h.tasks⟩
  | @handshake c ok ht =>
    cases ok with
    | false => exact ha.elim
    | true => exact ⟨h.loop, h.handle, h.setTask c (.inr rfl)⟩
  | @ret c ht hp =>
    have hl := hlive c
    rw [hp] at hl
    cases hl
  | @finish c ht => rcases h.tasks c with hc | hc | hc <;> cases ht.symm.trans hc
  | handler ht hs => exact ⟨h.loop, h.handle, h.tasks⟩
  | recv hh hs => exact ⟨h.loop, h.handle, h.tasks⟩
  | release hs => exact ⟨h.loop, h.handle, h.tasks⟩
  | acceptFailed hl => exact ha.elim
  | dropServer hh => exact ha.elim
  | dropRx hh hs => exact ha.elim

/-- What loop and tasks have to do by themselves. -/
def due (cs : List ι) (s : Service ι) : Nat :=
  s.loop.due + tally (fun c => (s.tasks c).due) cs

/-- The connection a step belongs to. -/
def Act.party : Act ι → Option ι
  | .handler c _ | .accept c | .handshake c _ => some c
  | _ => none

/-- A step adds less than this to what is due. -/
def Act.gain : Act ι → Nat
  | .accept _ => 3
  | .pending => 2
  | .handler _ _ | .recv | .release _ _ => 1
  | _ => 0

theorem due_setTask {cs : List ι} {c : ι} (hn : cs.Nodup) (hc : c ∈ cs) (t : Task) :
    (s.setTask c t).due cs + (s.tasks c).due = s.due cs + t.due := by
  have hother : ∀ d, d ≠ c → ((s.setTask c t).tasks d).due = (s.tasks d).due := by
    intro d hd
    simp only [setTask, Function.update_of_ne hd]
  have hmove := tally_move hn hc hother
  simp only [setTask, Function.update_self] at hmove
  simp only [due, setTask]
  omega

theorem Step.due {cs : List ι} (hs : Step z b s a s') (ha : a.Smooth)
    (hlive : ∀ c, (s.hub.handlers c).phase.live) (h : s.Open) (hn : cs.Nodup)
    (hparty : ∀ c, a.party = some c → c ∈ cs) : s'.due cs < s.due cs + a.gain := by
  cases hs with
  | select hl hh =>
    simp only [Service.due, Act.gain, hl, AcceptLoop.due]
    omega
  | stop hl hh => exact absurd h.handle hh
  | @accept c hl ht =>
    have hmove := due_setTask (s := s) hn (hparty c rfl) (if b.tls then Task.handshaking else Task.serving)
    have hone : (if b.tls then Task.handshaking else Task.serving).due ≤ 1 := by
      split <;> simp [Task.due]
    simp only [Service.due, setTask, Act.gain, hl, AcceptLoop.due] at hmove ⊢
    omega
  | pending hl =>
    simp only [Service.due, Act.gain, hl, AcceptLoop.due]
    omega
  | @handshake c ok ht =>
    have hmove := due_setTask (s := s) hn (hparty c rfl) (if ok then Task.serving else Task.returned)
    have hnone : (if ok then Task.serving else Task.returned).due = 0 := by
      split <;> rfl
    rw [ht, hnone] at hmove
    simp only [Task.due] at hmove
    simp only [Act.gain]
    omega
  | @ret c ht hp =>
    have hl := hlive c
    rw [hp] at hl
    cases hl
  | @finish c ht => rcases h.tasks c with hc | hc | hc <;> cases ht.symm.trans hc
  | handler ht hs => exact Nat.lt_succ_self _
  | recv hh hs => exact Nat.lt_succ_self _
  | release hs => exact Nat.lt_succ_self _
  | acceptFailed hl => exact ha.elim
  | dropServer hh => exact ha.elim
  | dropRx hh hs => exact ha.elim

end Service
end Server

namespace Network

variable {ι T : Type} [DecidableEq ι] {S : Setup ι T} {tls : Bool} {n n' : Network ι T}
variable {a : Act ι T} {as : List (Act ι T)}

/-- No fault in the listener, in a handshake or on any connection, and the `Server`
stays. -/
def Calm (S : Setup ι T) (n : Network ι T) : Act ι T → Prop
  | .connect _ => True
  | .client c a => Session.Calm S n.session (.client c a)
  | .server (.handler c a) => Session.Calm S n.session (.server (.handler c a))
  | .server a => a.Smooth

instance [Fintype ι] (S : Setup ι T) (n : Network ι T) : (a : Act ι T) → Decidable (Calm S n a)
  | .connect _ => .isTrue trivial
  | .client c a => inferInstanceAs (Decidable (∀ d, Session.Faultless S d n.session (.client c a)))
  | .server (.handler c a) =>
    inferInstanceAs (Decidable (∀ d, Session.Faultless S d n.session (.server (.handler c a))))
  | .server .acceptFailed | .server (.handshake _ false) | .server .dropServer | .server .dropRx =>
    .isFalse id
  | .server .select | .server (.accept _) | .server .pending | .server (.handshake _ true)
  | .server (.ret _) | .server (.finish _) | .server .recv | .server (.release _ _) => .isTrue trivial

omit [DecidableEq ι] in
theorem Calm.smooth {x : Service.Act ι} (h : Calm S n (.server x)) : x.Smooth := by
  cases x with
  | handler c a => trivial
  | _ => exact h

omit [DecidableEq ι] in
theorem Calm.session {x : Session.Act ι T} (h : Calm S n a) (hx : a.session = some x) :
    Session.Calm S n.session x := by
  cases a with
  | connect c => cases hx
  | client c a =>
    cases hx
    exact h
  | server a =>
    cases a with
    | handler c a =>
      cases hx
      exact h
    | recv | release tx how =>
      cases hx
      exact fun _ => by simp [Session.Faultless]
    | dropRx => exact h.elim
    | _ => cases hx

theorem run_session (hrun : Run (step S tls) (Calm S) (init ι T) as n) :
    Run (Session.step S) (Session.Calm S) (Session.init ι T) (as.filterMap Act.session) n.session :=
  run_share (fun hok hx => hok.session hx) hrun

theorem run_live (hz : S.z.Lawful) (hm : S.server.maxFrameSize < 2^32)
    (hrun : Run (step S tls) (Calm S) (init ι T) as n) (c : ι) :
    (n.service.hub.handlers c).phase.live :=
  (Session.run_lockstep hz hm ((run_session hrun).mono (fun _ _ h => h c))).live hz

theorem run_open (hz : S.z.Lawful) (hm : S.server.maxFrameSize < 2^32)
    (hrun : Run (step S tls) (Calm S) (init ι T) as n) : n.service.Open := by
  induction hrun with
  | refl => exact ⟨rfl, rfl, fun _ => .inl rfl⟩
  | tail hrun hok hs ih =>
    rcases (step_cases hs).service with he | ⟨x, rfl, hx⟩
    · rwa [he]
    · exact (Service.step_cases hx).stays_open hok.smooth (run_live hz hm hrun) ih

/-- What a step brings in. A connection is taken, its handshake is done, and the loop
turns once more; a turn of the loop without a connection is one for itself. -/
def Act.cost (S : Setup ι T) : Act ι T → Nat
  | .connect _ => 4
  | .client c a => Session.Act.cost S (.client c a)
  | .server (.handler c a) => Session.Act.cost S (.server (.handler c a))
  | .server .pending => 2
  | .server _ => 0

/-- The connection a step belongs to. -/
def Act.party : Act ι T → Option ι
  | .connect _ => none
  | .client c _ => some c
  | .server a => a.party

omit [DecidableEq ι] in
theorem Act.of_session {x : Session.Act ι T} (hx : a.session = some x) :
    x.cost S = a.cost S ∧ x.party = a.party := by
  cases a with
  | connect c => cases hx
  | client c a =>
    cases hx
    exact ⟨rfl, rfl⟩
  | server a =>
    cases a with
    | handler c a | recv | release tx how | dropRx =>
      cases hx
      exact ⟨rfl, rfl⟩
    | _ => cases hx

/-- What is left to do in the session, in the backlog, and for loop and tasks. -/
def effort (z : Flate) (cs : List ι) (n : Network ι T) : Nat :=
  n.session.effort z cs + 3 * n.backlog.length + n.service.due cs

theorem step_effort [Nonempty ι] {cs : List ι} (hz : S.z.Lawful) (hm : S.server.maxFrameSize < 2^32)
    (hn : cs.Nodup) (hrun : Run (step S tls) (Calm S) (init ι T) as n) (hok : Calm S n a)
    (hs : n.step S tls a = some n') (hparty : ∀ c, a.party = some c → c ∈ cs) :
    n'.effort S.z cs < n.effort S.z cs + a.cost S := by
  have hses := (step_cases hs).session
  have hopen := run_open hz hm hrun
  have hlive := run_live hz hm hrun
  have inner {x : Session.Act ι T} (hx : a.session = some x) :
      n'.session.effort S.z cs < n.session.effort S.z cs + a.cost S := by
    simp only [hx] at hses
    obtain ⟨hcost, hown⟩ := Act.of_session (S := S) hx
    rw [← hcost]
    exact Session.step_effort hz hm hn (run_session hrun) (hok.session hx) hses
      (fun c hc => hparty c (hown ▸ hc))
  cases step_cases hs with
  | @connect c hc hl =>
    show n.session.effort S.z cs + 3 * (n.backlog ++ [c]).length + n.service.due cs < _
    simp only [effort, List.length_append, List.length_singleton, Act.cost]
    omega
  | @client c x s hr hs =>
    have hlt := inner rfl
    show (n.join n.service s).session.effort S.z cs + 3 * n.backlog.length + n.service.due cs < _
    simp only [effort]
    omega
  | @accept c rest sv hb hsv =>
    have hdue := (Service.step_cases hsv).due hok.smooth hlive hopen hn hparty
    show Session.effort S.z cs (Network.session _) + 3 * rest.length + sv.due cs < _
    rw [show Network.session _ = n.session from hses]
    simp only [effort, hb, List.length_cons, Service.Act.gain] at hdue ⊢
    omega
  | @hub x y sv s ha hsv hs =>
    have hlt := inner (x := .server y) (by simp [Act.session, ha])
    obtain ⟨hl, ht, -⟩ := (Service.step_cases hsv).of_hub ha
    show (n.join sv s).session.effort S.z cs + 3 * n.backlog.length + sv.due cs < _
    rw [Service.due, hl, ht, ← Service.due]
    simp only [effort]
    omega
  | @quiet x sv ha hna hsv =>
    have hdue := (Service.step_cases hsv).due hok.smooth hlive hopen hn hparty
    have hgain : x.gain = (Act.server (T := T) x).cost S := by
      cases x with
      | accept c => exact absurd rfl (hna c)
      | handler c a | recv | release tx how => cases ha
      | _ => rfl
    simp only [Act.session, ha, Option.map_none] at hses
    show Session.effort S.z cs (Network.session _) + 3 * n.backlog.length + sv.due cs < _
    rw [hses]
    simp only [effort]
    omega

/-- The connections that take part in a run. -/
def parties (as : List (Act ι T)) : List ι := (as.filterMap Act.party).dedup

/-- A run without faults is no longer than what its calls, connections, keepalives and
idle turns of the loop bring in. -/
theorem run_length [Nonempty ι] (hz : S.z.Lawful) (hm : S.server.maxFrameSize < 2^32)
    (hrun : Run (step S tls) (Calm S) (init ι T) as n) : as.length ≤ tally (Act.cost S) as + 1 := by
  have hown : ∀ a ∈ as, ∀ c, a.party = some c → c ∈ parties as :=
    fun a ha c hc => List.mem_dedup.mpr (List.mem_filterMap.mpr ⟨a, ha, hc⟩)
  obtain ⟨-, hlen⟩ := (hrun.restrict hown).amortized
    (P := fun n => ∃ as, Run (step S tls) (Calm S) (init ι T) as n) (effort S.z (parties as)) (Act.cost S)
    ⟨[], .refl⟩ (fun ⟨bs, hbs⟩ hok hs =>
      ⟨⟨_, hbs.tail hok.1 hs⟩, step_effort hz hm (List.nodup_dedup _) hbs hok.1 hs hok.2⟩)
  have hinit : (init ι T).effort S.z (parties as) = 1 := by
    have hses : (init ι T).session.effort S.z (parties as) = 0 := Session.effort_init _ _
    have hnone : tally (fun c => ((init ι T).service.tasks c).due) (parties as) = 0 := tally_zero _
    simp only [effort, Service.due, hses, hnone]
    rfl
  omega

/-- Everything but a new connection, a new call, a keepalive and an idle turn of the
accept loop. -/
def Act.Onward : Act ι T → Prop
  | .connect _ | .client _ (.start _) | .server .pending | .server (.handler _ .tick) => False
  | _ => True

/-- No such step is enabled. -/
def Stuck (S : Setup ι T) (tls : Bool) (n : Network ι T) : Prop :=
  ∀ a n', Calm S n a → a.Onward → n.step S tls a ≠ some n'

/-- What a session can do the network can do, once the connection has been accepted and
its handshake is done. -/
theorem session_enabled [Nonempty ι] {x : Session.Act ι T} {s : Session ι T} (hopen : n.service.Open)
    (hok : Session.Calm S n.session x) (hon : x.Onward) (hs : n.session.step S x = some s)
    (hown : ∀ c, x.party = some c → n.Ready tls c ∧ n.service.tasks c = .serving) :
    ∃ a n', Calm S n a ∧ a.Onward ∧ n.step S tls a = some n' := by
  cases x with
  | client c x =>
    refine ⟨.client c x, n.join n.service s, hok, ?_, ?_⟩
    · cases x with
      | start events => exact hon.elim
      | _ => trivial
    · simp only [step, hs, if_pos (hown c rfl).1, Option.map_some]
  | server x =>
    have hhub := session_hub hs
    have serves {y : Service.Act ι} (hy : y.hub = some x)
        (hsv : n.serve S tls y = some (n.service.setHub s.hub)) :
        n.step S tls (.server y) = some (n.join (n.service.setHub s.hub) s) := by
      cases y with
      | accept c => cases hy
      | _ => simp only [step, hsv, hy, hs, Option.bind_some, Option.map_some]
    cases x with
    | handler c x =>
      refine ⟨.server (.handler c x), _, hok, ?_, serves rfl ?_⟩
      · cases x with
        | tick => exact hon.elim
        | _ => trivial
      · have hh : n.service.hub.step S.z (S.builder tls).config (S.builder tls).channelCapacity
            (.handler c x) = some s.hub := hhub
        simp only [serve, Service.step, hh, if_pos (hown c rfl).2, Option.map_some]
    | recv =>
      refine ⟨.server .recv, _, trivial, trivial, serves rfl ?_⟩
      have hh : n.service.hub.step S.z (S.builder tls).config (S.builder tls).channelCapacity
          .recv = some s.hub := hhub
      simp only [serve, Service.step, hh, if_pos hopen.handle, Option.map_some]
    | release tx how =>
      refine ⟨.server (.release tx how), _, trivial, trivial, serves rfl ?_⟩
      have hh : n.service.hub.step S.z (S.builder tls).config (S.builder tls).channelCapacity
          (.release tx how) = some s.hub := hhub
      simp only [serve, Service.step, hh, Option.map_some]
    | dropServer => exact absurd rfl (hok (Classical.arbitrary ι))

/-- The accept loop waits for a connection. -/
theorem Stuck.loop (h : Stuck S tls n) (hopen : n.service.Open) : n.service.loop = .accepting := by
  have hrunning := hopen.loop
  cases hl : n.service.loop with
  | accepting => rfl
  | selecting =>
    refine absurd ?_ (h (.server .select) { n with service := { n.service with loop := .accepting } }
      trivial trivial)
    simp only [step, serve, Service.step, hl, hopen.handle]
    rfl
  | stopped | failed =>
    rw [hl] at hrunning
    cases hrunning

/-- There is none left to accept. -/
theorem Stuck.accepted (h : Stuck S tls n) (hopen : n.service.Open) (hstand : n.Standing)
    (hinv : n.service.Inv S.z (S.builder tls)) : n.backlog = [] := by
  have hloop := h.loop hopen
  cases hb : n.backlog with
  | nil => rfl
  | cons c rest =>
    have hfresh : n.service.tasks c = .absent := by
      have hnodup := hstand.nodup
      rw [← hstand.order, hb] at hnodup
      have hout : c ∉ n.service.accepted := fun hc =>
        (List.nodup_append.mp hnodup).2.2 c hc c List.mem_cons_self rfl
      by_contra hne
      exact hout ((hinv.present c).mpr hne)
    obtain ⟨sv, hsv⟩ : ∃ sv, n.serve S tls (.accept c) = some sv := by
      simp [serve, Service.step, hloop, hfresh]
    refine absurd ?_ (h (.server (.accept c)) { n with service := sv, backlog := rest } trivial trivial)
    simp only [step, hb, List.head?_cons, hsv]
    rfl

/-- Every connection is served. -/
theorem Stuck.serving (h : Stuck S tls n) (hopen : n.service.Open) (hstand : n.Standing)
    (hinv : n.service.Inv S.z (S.builder tls)) {c : ι} (hc : c ∈ n.connected) :
    n.service.tasks c = .serving := by
  have hacc : c ∈ n.service.accepted := by
    rw [← hstand.order, h.accepted hopen hstand hinv, List.append_nil] at hc
    exact hc
  rcases hopen.tasks c with ht | ht | ht
  · exact absurd ht ((hinv.present c).mp hacc)
  · refine absurd ?_ (h (.server (.handshake c true))
      { n with service := n.service.setTask c .serving } trivial trivial)
    simp only [step, serve, Service.step, ht]
    rfl
  · exact ht

/-- Then no call is in progress, and no batch is queued or held. -/
theorem Stuck.idle [Nonempty ι] (h : Stuck S tls n) (hz : S.z.Lawful) (hm : S.server.maxFrameSize < 2^32)
    (hcap : 1 ≤ S.capacity) (hup : ∀ c, 0 < S.upRoom c) (hdown : ∀ c, 0 < S.downRoom c)
    (hrun : Run (step S tls) (Calm S) (init ι T) as n) :
    n.service.hub.queue = [] ∧ n.service.hub.held = [] ∧ ∀ c, (n.clients c).phase = .idle := by
  have hopen := run_open hz hm hrun
  have hstand := run_standing hrun
  have hinv := run_service_inv hrun
  have hses := run_session hrun
  have hhub : n.session.hub.closed = false :=
    Session.run_open (hses.mono (fun _ _ hc => hc (Classical.arbitrary ι)))
  have never {x : Session.Act ι T} {s : Session ι T} (hok : Session.Calm S n.session x) (hon : x.Onward)
      (hs : n.session.step S x = some s)
      (hown : ∀ c, x.party = some c → n.Ready tls c ∧ n.service.tasks c = .serving) : False := by
    obtain ⟨a, n', hcalm, honward, hstep⟩ := session_enabled hopen hok hon hs hown
    exact h a n' hcalm honward hstep
  refine ⟨?_, ?_, ?_⟩
  · by_contra hne
    obtain ⟨s, hs⟩ := Session.recv_enabled (S := S) hhub hne
    exact never (x := .server .recv) (fun _ => by simp [Session.Faultless]) trivial hs
      (fun c hc => by cases hc)
  · by_contra hne
    obtain ⟨tx, s, hs⟩ := Session.release_enabled (s := n.session) hinv.hub hne
    exact never (x := .server (.release tx .ack)) (fun _ => by simp [Session.Faultless]) trivial hs
      (fun c hc => by cases hc)
  · intro c
    by_contra hne
    have hc : c ∈ n.connected := by
      by_contra hout
      exact hne (hstand.unborn c hout)
    have hserv := h.serving hopen hstand hinv hc
    have hadv := Session.run_advances hz hm hcap (hup c) (hdown c) (hses.mono (fun _ _ hc => hc c)) hne
    obtain ⟨x, s, hok, hon, hs, hown⟩ := hadv.own hhub
    refine never hok hon hs (fun d hd => ?_)
    obtain rfl := hown d hd
    exact ⟨⟨hc, fun _ => by simp [hserv]⟩, hserv⟩

/-- The accept loop waits for a connection, the backlog is empty and no handshake is
under way; no call is in progress, and no batch is queued or held. -/
structure AtRest (n : Network ι T) : Prop where
  loop : n.service.loop = .accepting
  backlog : n.backlog = []
  tasks : ∀ c, n.service.tasks c ≠ .handshaking
  queue : n.service.hub.queue = []
  held : n.service.hub.held = []
  idle : ∀ c, (n.clients c).phase = .idle

omit [DecidableEq ι] in
theorem Act.Onward.cost (h : a.Onward) : a.cost S = 0 := by
  cases a with
  | connect c => exact h.elim
  | client c x =>
    cases x with
    | start events => exact h.elim
    | _ => rfl
  | server x =>
    cases x with
    | pending => exact h.elim
    | handler c x =>
      cases x with
      | tick => exact h.elim
      | _ => rfl
    | _ => rfl

/-- Nothing is left to do in a network at rest. -/
theorem AtRest.effort (h : n.AtRest) (hz : S.z.Lawful) (hm : S.server.maxFrameSize < 2^32)
    (hrun : Run (step S tls) (Calm S) (init ι T) as n) (cs : List ι) : n.effort S.z cs = 0 := by
  have hses : n.session.effort S.z cs = 0 :=
    Session.idle_effort hz hm (run_session hrun) h.idle h.queue h.held cs
  have hdue : tally (fun c => (n.service.tasks c).due) cs = 0 := by
    refine (tally_congr (fun c _ => ?_)).trans (tally_zero cs)
    have hne := h.tasks c
    cases ht : n.service.tasks c with
    | handshaking => exact absurd ht hne
    | _ => rfl
  simp only [Network.effort, Service.due, hses, hdue, h.backlog, h.loop]
  rfl

theorem stuck_iff [Nonempty ι] (hz : S.z.Lawful) (hm : S.server.maxFrameSize < 2^32)
    (hcap : 1 ≤ S.capacity) (hup : ∀ c, 0 < S.upRoom c) (hdown : ∀ c, 0 < S.downRoom c)
    (hrun : Run (step S tls) (Calm S) (init ι T) as n) : Stuck S tls n ↔ n.AtRest := by
  constructor
  · intro h
    have hopen := run_open hz hm hrun
    have hstand := run_standing hrun
    have hinv := run_service_inv hrun
    obtain ⟨hqueue, hheld, hidle⟩ := h.idle hz hm hcap hup hdown hrun
    refine ⟨h.loop hopen, h.accepted hopen hstand hinv, fun c hc => ?_, hqueue, hheld, hidle⟩
    have hmem : c ∈ n.connected := by
      rw [← hstand.order]
      exact List.mem_append_left _ ((hinv.present c).mpr (by simp [hc]))
    rw [h.serving hopen hstand hinv hmem] at hc
    cases hc
  · intro h a n' hok hon hs
    have hnodup : a.party.toList.Nodup := by
      cases a.party <;> simp
    have hlt := step_effort hz hm hnodup hrun hok hs (fun c hc => by simp [hc])
    rw [h.effort hz hm hrun, hon.cost] at hlt
    exact Nat.not_lt_zero _ hlt

/-- **The whole program comes to rest.** Clients connect and call in any order, with
batches within the limits, and no fault occurs. Then the number of steps is bounded by
what the calls, connections, keepalives and idle turns of the accept loop bring in, and
nothing but these is enabled exactly where the network is at rest. There, every
connection made was accepted, in order, and is on the gauge; every call of every client
has returned `Ok` with its number of events; and the consumer has received the batches
of each connection once and in order. -/
theorem network_comes_to_rest [Nonempty ι] (S : Setup ι T) (tls : Bool) (hz : S.z.Lawful)
    (hm : S.server.maxFrameSize < 2^32) (hcap : 1 ≤ S.capacity) (hup : ∀ c, 0 < S.upRoom c)
    (hdown : ∀ c, 0 < S.downRoom c) (as : List (Act ι T)) (n : Network ι T)
    (hrun : Run (step S tls) (Calm S) (init ι T) as n) :
    as.length ≤ tally (Act.cost S) as + 1 ∧
    ((∀ a n', Calm S n a → a.Onward → n.step S tls a ≠ some n') ↔ n.AtRest) ∧
    (n.AtRest →
      n.service.accepted = n.connected ∧
      n.service.activeConnections = .ofNat n.connected.length ∧
      ∀ c, (n.clients c).results = (started c as).map (fun events => (events, .ok (count events))) ∧
        n.session.receivedFrom c = stamped c ((started c as).map (deliver S.toVec))) := by
  have hopen := run_open hz hm hrun
  have hstand := run_standing hrun
  have hinv := run_service_inv hrun
  refine ⟨run_length hz hm hrun, stuck_iff hz hm hcap hup hdown hrun, fun hrest => ?_⟩
  have hall : n.service.accepted = n.connected := by
    rw [← hstand.order, hrest.backlog, List.append_nil]
  have hguards : n.service.guards = n.connected.length := by
    rw [Service.guards, ← hall]
    apply List.countP_eq_length.mpr
    intro c hc
    have hserv : n.service.tasks c = .serving :=
      ((hopen.tasks c).resolve_left ((hinv.present c).mp hc)).resolve_left (hrest.tasks c)
    simp [hserv, Task.guarded]
  refine ⟨hall, ?_, fun c => Session.idle_settled hz hm (run_session hrun) (hrest.idle c)⟩
  rw [← hguards]
  exact hinv.gauge

/-- The answered client rests. -/
theorem network_comes_to_rest_sample :
    ∃ n : Network Unit Bytes, n.AtRest ∧
      (∀ a n', Calm Session.sampleSetup n a → a.Onward → n.step Session.sampleSetup true a ≠ some n') ∧
      n.service.activeConnections = 1 ∧ (n.clients ()).results = [([[123, 125]], .ok 1)] := by
  obtain ⟨n, hrun, hf⟩ : ∃ n : Network Unit Bytes, Run (step Session.sampleSetup true)
      (Calm Session.sampleSetup) (init Unit Bytes)
      sampleActs n ∧
      decide (n.service.loop = .accepting ∧ n.backlog = [] ∧ n.service.tasks () = .serving ∧
        n.service.hub.queue = [] ∧ n.service.hub.held = [] ∧ (n.clients ()).phase.call = none ∧
        n.service.activeConnections = 1 ∧ (n.clients ()).results = [([[123, 125]], .ok 1)]) = true :=
    Run.exists_of_exec (by decide +kernel)
  obtain ⟨hloop, hback, htask, hqueue, hheld, hcall, hactive, hres⟩ := of_decide_eq_true hf
  have hrest : n.AtRest := ⟨hloop, hback, fun _ => by simp [htask], hqueue, hheld,
    fun _ => call_eq_none.mp hcall⟩
  have hroom (_ : Unit) : 0 < 4096 := by decide
  obtain ⟨-, hstuck, -⟩ := network_comes_to_rest Session.sampleSetup true Flate.sample_lawful (by decide)
    (by decide) hroom hroom _ n hrun
  exact ⟨n, hrest, hstuck.mpr hrest, hactive, hres⟩

end Network
end Lumberjack
