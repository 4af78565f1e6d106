import Lumberjack.Server.Lifecycle
import Lumberjack.Session.Paid

/-!
# The whole program

A `Session` has both ends of every connection from the start. Here a client connects, its
connection waits in the backlog of the listener until the accept loop takes it, and
nothing the client wrote is read before its task has shaken hands. The server is the
whole `Service`, and a step of it that is also a step of the hub moves bytes as in a
session. Whatever a session guarantees carries over, since the network seen without
listener and tasks runs as a session does.
-/
namespace Lumberjack

open Lumberjack.Stream Lumberjack.Wire Lumberjack.Server Lumberjack.Process Lumberjack.Client

/-- The builder of the server in a setup. -/
def Setup.builder {ι T : Type} (S : Setup ι T) (tls : Bool) : ServerBuilder where
  keepalive := S.server.keepalive
  channelCapacity := S.capacity
  maxFrameSize := S.server.maxFrameSize
  tls := tls

structure Network (ι T : Type) where
  service : Service ι
  clients : ι → Client T
  up : ι → Bytes
  down : ι → Bytes
  /-- the connections made, in order -/
  connected : List ι
  /-- those the accept loop has not taken -/
  backlog : List ι

namespace Network

variable {ι T : Type} [DecidableEq ι]

/-- After `ServerBuilder::bind`. -/
def init (ι T : Type) : Network ι T := ⟨.bind ι, fun _ => .init T, fun _ => [], fun _ => [], [], []⟩

/-- The network without listener and tasks. -/
def session (n : Network ι T) : Session ι T := ⟨n.service.hub, n.clients, n.up, n.down⟩

def join (n : Network ι T) (service : Service ι) (s : Session ι T) : Network ι T :=
  { n with service := service, clients := s.clients, up := s.up, down := s.down }

inductive Act (ι T : Type) where
  | connect (c : ι)
  | client (c : ι) (a : Client.Act T)
  | server (a : Service.Act ι)
  deriving DecidableEq

def serve (S : Setup ι T) (tls : Bool) (n : Network ι T) (a : Service.Act ι) : Option (Service ι) :=
  n.service.step S.z (S.builder tls) a

/-- `ClientBuilder::connect` may have returned: the listener has the connection, and with
TLS a task has taken up the handshake. -/
def Ready (tls : Bool) (n : Network ι T) (c : ι) : Prop :=
  c ∈ n.connected ∧ (tls = true → n.service.tasks c ≠ .absent)

instance (tls : Bool) (n : Network ι T) (c : ι) : Decidable (n.Ready tls c) :=
  inferInstanceAs (Decidable (_ ∧ _))

def step (S : Setup ι T) (tls : Bool) (n : Network ι T) : Act ι T → Option (Network ι T)
  | .connect c =>
    -- the listener goes with the accept loop
    if c ∈ n.connected ∨ n.service.loop.ended then none
    else some { n with connected := n.connected ++ [c], backlog := n.backlog ++ [c] }
  | .client c a =>
    if n.Ready tls c then (n.session.step S (.client c a)).map (n.join n.service) else none
  | .server (.accept c) =>
    if n.backlog.head? = some c then
      (n.serve S tls (.accept c)).map fun sv => { n with service := sv, backlog := n.backlog.tail }
    else none
  | .server a =>
    (n.serve S tls a).bind fun sv =>
      match a.hub with
      | some x => (n.session.step S (.server x)).map (n.join sv)
      | none => some { n with service := sv }

inductive Step (S : Setup ι T) (tls : Bool) (n : Network ι T) : Act ι T → Network ι T → Prop
  | connect {c : ι} (hc : c ∉ n.connected) (hl : n.service.loop.ended = false) :
      Step S tls n (.connect c) { n with connected := n.connected ++ [c], backlog := n.backlog ++ [c] }
  | client {c : ι} {a : Client.Act T} {s : Session ι T} (hr : n.Ready tls c)
      (hs : n.session.step S (.client c a) = some s) :
      Step S tls n (.client c a) (n.join n.service s)
  | accept {c : ι} {rest : List ι} {sv : Service ι} (hb : n.backlog = c :: rest)
      (hsv : n.serve S tls (.accept c) = some sv) :
      Step S tls n (.server (.accept c)) { n with service := sv, backlog := rest }
  | hub {a : Service.Act ι} {x : Hub.Act ι} {sv : Service ι} {s : Session ι T} (ha : a.hub = some x)
      (hsv : n.serve S tls a = some sv) (hs : n.session.step S (.server x) = some s) :
      Step S tls n (.server a) (n.join sv s)
  | quiet {a : Service.Act ι} {sv : Service ι} (ha : a.hub = none) (hna : ∀ c, a ≠ .accept c)
      (hsv : n.serve S tls a = some sv) : Step S tls n (.server a) { n with service := sv }

variable {S : Setup ι T} {tls : Bool} {n n' : Network ι T} {a : Act ι T} {as : List (Act ι T)}

private theorem server_cases {a : Service.Act ι} (hna : ∀ c, a ≠ .accept c)
    (hs : ((n.serve S tls a).bind fun sv =>
      match a.hub with
      | some x => (n.session.step S (.server x)).map (n.join sv)
      | none => some { n with service := sv }) = some n') : Step S tls n (.server a) n' := by
  obtain ⟨sv, hsv, hs⟩ := Option.bind_eq_some_iff.mp hs
  split at hs
  · rename_i x hx
    obtain ⟨s, hses, rfl⟩ := Option.map_eq_some_iff.mp hs
    exact .hub hx hsv hses
  · rename_i hx
    cases hs
    exact .quiet hx hna hsv

theorem step_cases (hs : n.step S tls a = some n') : Step S tls n a n' := by
  cases a with
  | connect c =>
    simp only [step] at hs
    split at hs
    · cases hs
    · rename_i hc
      cases hs
      rw [not_or] at hc
      exact .connect hc.1 (by simpa using hc.2)
  | client c a =>
    simp only [step] at hs
    split at hs
    · rename_i hr
      obtain ⟨s, hses, rfl⟩ := Option.map_eq_some_iff.mp hs
      exact .client hr hses
    · cases hs
  | server a =>
    cases a with
    | accept c =>
      simp only [step] at hs
      split at hs
      · rename_i hb
        obtain ⟨sv, hsv, rfl⟩ := Option.map_eq_some_iff.mp hs
        obtain ⟨rest, hb⟩ := List.head?_eq_some_iff.mp hb
        rw [hb]
        exact .accept hb hsv
      · cases hs
    | _ => exact server_cases (fun c => by simp) hs

/-- The service takes the step that is its own, and no other. -/
theorem Step.service (hs : Step S tls n a n') :
    n'.service = n.service ∨ ∃ x, a = .server x ∧ n.serve S tls x = some n'.service := by
  cases hs with
  | accept hb hsv => exact .inr ⟨_, rfl, hsv⟩
  | hub ha hsv hs => exact .inr ⟨_, rfl, hsv⟩
  | quiet ha hna hsv => exact .inr ⟨_, rfl, hsv⟩
  | _ => exact .inl rfl

/-- The step of the session inside a step of the network. -/
def Act.session : Act ι T → Option (Session.Act ι T)
  | .connect _ => none
  | .client c a => some (.client c a)
  | .server a => a.hub.map .server

theorem session_hub {s s' : Session ι T} {x : Hub.Act ι} (hs : s.step S (.server x) = some s') :
    s.hub.step S.z S.server S.capacity x = some s'.hub := by
  cases Session.step_cases hs with
  | serverRead hh hu => exact hh
  | serverWrite hh => exact hh
  | server ha hh => exact hh

/-- Listener and tasks apart, the network takes the steps of a session. -/
theorem Step.session (hs : Step S tls n a n') :
    match a.session with
    | some x => n.session.step S x = some n'.session
    | none => n'.session = n.session := by
  cases hs with
  | connect hc hl => rfl
  | client hr hs =>
    have hhub := (Session.step_cases hs).hub
    rcases hhub with hhub | ⟨b, hb, -⟩
    · refine hs.trans (congrArg some ?_)
      simp only [Network.session, join]
      exact congrArg (fun hub => (⟨hub, _, _, _⟩ : Session ι T)) hhub
    · cases hb
  | accept hb hsv =>
    rcases Service.step_hub hsv with ⟨x, hx, -⟩ | ⟨-, hhub⟩
    · cases hx
    · exact congrArg (fun hub => (⟨hub, _, _, _⟩ : Session ι T)) hhub
  | @hub b x sv s ha hsv hs =>
    simp only [Act.session, ha, Option.map_some]
    refine hs.trans (congrArg some ?_)
    rcases Service.step_hub hsv with ⟨y, hy, hstep⟩ | ⟨hy, -⟩
    · rw [ha] at hy
      cases hy
      have heq : s.hub = sv.hub := Option.some.inj ((session_hub hs).symm.trans hstep)
      simp only [Network.session, join, ← heq]
    · rw [ha] at hy
      cases hy
  | quiet ha hna hsv =>
    simp only [Act.session, ha, Option.map_none]
    rcases Service.step_hub hsv with ⟨x, hx, -⟩ | ⟨-, hhub⟩
    · rw [ha] at hx
      cases hx
    · exact congrArg (fun hub => (⟨hub, _, _, _⟩ : Session ι T)) hhub

/-- The accept loop takes the connections in the order they were made. A client that has
not connected has made no call. -/
structure Standing (n : Network ι T) : Prop where
  order : n.service.accepted ++ n.backlog = n.connected
  nodup : n.connected.Nodup
  unborn : ∀ c, c ∉ n.connected → (n.clients c).phase = .idle

omit [DecidableEq ι] in
theorem init_standing : (init ι T).Standing := ⟨rfl, List.nodup_nil, fun _ _ => rfl⟩

theorem Step.standing (hs : Step S tls n a n') (h : n.Standing) : n'.Standing := by
  cases hs with
  | @connect c hc hl =>
    refine ⟨?_, ?_, ?_⟩
    · show n.service.accepted ++ (n.backlog ++ [c]) = n.connected ++ [c]
      rw [← List.append_assoc, h.order]
    · exact List.nodup_append.mpr ⟨h.nodup, by simp, by
        intro d hd e he hde
        rw [List.mem_singleton.mp he] at hde
        rw [hde] at hd
        exact hc hd⟩
    · intro d hd
      exact h.unborn d (fun hmem => hd (List.mem_append_left _ hmem))
  | @client c x s hr hs =>
    refine ⟨h.order, h.nodup, fun d hd => ?_⟩
    have hdc : d ≠ c := by
      rintro rfl
      exact hd hr.1
    have hsame := congrArg Link.client ((Session.client_moves hs).2.1 d hdc)
    show (s.clients d).phase = .idle
    rw [show s.clients d = n.clients d from hsame]
    exact h.unborn d hd
  | @accept c rest sv hb hsv =>
    refine ⟨?_, h.nodup, h.unborn⟩
    show sv.accepted ++ rest = n.connected
    cases Service.step_cases hsv with
    | accept hl ht =>
      show (n.service.accepted ++ [c]) ++ rest = n.connected
      rw [List.append_assoc, ← h.order, hb]
      rfl
  | @hub x y sv s ha hsv hs =>
    refine ⟨?_, h.nodup, fun d hd => ?_⟩
    · show sv.accepted ++ n.backlog = n.connected
      rw [((Service.step_cases hsv).of_hub ha).2.2]
      exact h.order
    · have hsame : s.clients = n.clients := by cases Session.step_cases hs <;> rfl
      show (s.clients d).phase = .idle
      rw [hsame]
      exact h.unborn d hd
  | @quiet x sv ha hna hsv =>
    refine ⟨?_, h.nodup, h.unborn⟩
    show sv.accepted ++ n.backlog = n.connected
    rcases (Service.step_cases hsv).accepted with ⟨hacc, -⟩ | ⟨c, hx, -⟩
    · rw [hacc]
      exact h.order
    · exact absurd hx (hna c)

theorem run_standing {ok : Network ι T → Act ι T → Prop} (hrun : Run (step S tls) ok (init ι T) as n) :
    n.Standing :=
  hrun.invariant init_standing (fun h _ hs => (step_cases hs).standing h)

theorem run_service_inv {ok : Network ι T → Act ι T → Prop}
    (hrun : Run (step S tls) ok (init ι T) as n) : n.service.Inv S.z (S.builder tls) := by
  apply hrun.invariant (P := fun n => n.service.Inv S.z (S.builder tls)) (Service.bind_inv _ _)
  intro n a n' hinv _ hs
  rcases (step_cases hs).service with he | ⟨x, -, hx⟩
  · rwa [he]
  · exact (Service.step_cases hx).inv hinv

/-- A guard on the network that is one on the session. -/
theorem run_share {ok : Network ι T → Act ι T → Prop} {okS : Session ι T → Session.Act ι T → Prop}
    (hok : ∀ {n : Network ι T} {a : Act ι T} {x : Session.Act ι T}, ok n a → a.session = some x →
      okS n.session x)
    (hrun : Run (step S tls) ok (init ι T) as n) :
    Run (Session.step S) okS (Session.init ι T) (as.filterMap Act.session) n.session := by
  apply hrun.share (f := Network.session)
  intro n a n' ha hs
  have hses := (step_cases hs).session
  cases hx : a.session with
  | none => simpa only [hx] using hses
  | some x =>
    simp only [hx] at hses
    exact ⟨hok ha hx, hses⟩

/-- The batches of the calls made on connection `c`, in order. -/
def started (c : ι) (as : List (Act ι T)) : List (List T) := Session.started c (as.filterMap Act.session)

/-- The batches of one client fit the 32-bit fields of their frames. -/
def Narrowly (S : Setup ι T) (c : ι) (n : Network ι T) : Act ι T → Prop
  | .client d a => Session.Narrowly S c n.session (.client d a)
  | _ => True

instance (S : Setup ι T) (c : ι) (n : Network ι T) : (a : Act ι T) → Decidable (Narrowly S c n a)
  | .client d a => inferInstanceAs (Decidable (Session.Narrowly S c n.session (.client d a)))
  | .connect _ | .server _ => .isTrue trivial

omit [DecidableEq ι] in
theorem Narrowly.session {c : ι} {x : Session.Act ι T} (h : Narrowly S c n a) (hx : a.session = some x) :
    Session.Narrowly S c n.session x := by
  cases a with
  | connect d => cases hx
  | client d a =>
    cases hx
    exact h
  | server a =>
    obtain ⟨y, -, rfl⟩ := Option.map_eq_some_iff.mp hx
    trivial

/-- A handler that has dispatched something has a task that was accepted and has shaken
hands. -/
theorem served {ok : Network ι T → Act ι T → Prop} (hrun : Run (step S tls) ok (init ι T) as n) {c : ι}
    (hne : (n.service.hub.handlers c).dispatched ≠ []) :
    c ∈ n.service.accepted ∧ n.service.tasks c ≠ .handshaking := by
  have hinv := run_service_inv hrun
  have fresh (ht : n.service.tasks c = .absent ∨ n.service.tasks c = .handshaking) : False := by
    rw [hinv.fresh c ht] at hne
    exact hne rfl
  exact ⟨(hinv.present c).mpr (fun ht => fresh (.inl ht)), fun ht => fresh (.inr ht)⟩

/-- **Nothing without service.** In every run of the whole program, whatever fails in the
listener, in handshakes and on the connections, and whenever the `Server` is dropped:
connections are accepted in the order they were made; of a client whose batches fit the
32-bit fields, the consumer has received the first of the batches completely fed; the
calls that returned `Ok` are no more than the batches its handler acknowledged; and both
are none before the connection was accepted and its handshake done. -/
theorem nothing_without_service (S : Setup ι T) (tls : Bool) (hz : S.z.Lawful) (c : ι)
    (as : List (Act ι T)) (n : Network ι T) (hrun : Run (step S tls) (Narrowly S c) (init ι T) as n) :
    n.service.accepted <+: n.connected ∧
    n.session.receivedFrom c <+: stamped c ((n.clients c).complete.map (deliver S.toVec)) ∧
    (n.clients c).complete.Sublist (started c as) ∧
    (granted (n.clients c).results).length ≤ (n.service.hub.handlers c).rounds.length ∧
    (n.session.receivedFrom c ≠ [] ∨ granted (n.clients c).results ≠ [] →
      c ∈ n.service.accepted ∧ n.service.tasks c ≠ .handshaking) := by
  have hses : Run (Session.step S) (Session.Narrowly S c) (Session.init ι T)
      (as.filterMap Act.session) n.session := run_share (fun hok hx => hok.session hx) hrun
  have hrounds : (granted (n.clients c).results).length ≤ (n.service.hub.handlers c).rounds.length :=
    Session.granted_rounds hses
  have hcomplete := (List.sublist_append_left _ _).trans (Session.run_complete hses c)
  refine ⟨⟨_, (run_standing hrun).order⟩, Session.received_front hz hses, hcomplete, hrounds, ?_⟩
  intro hsome
  apply served hrun
  intro hnil
  have hhub := Session.run_hub_inv hses
  rcases hsome with hrec | hok
  · obtain ⟨lost, hord, -⟩ := hhub.order c
    have hempty : stamped c (n.session.hub.handlers c).dispatched = [] := by
      rw [show (n.session.hub.handlers c).dispatched = [] from hnil]
      rfl
    rw [hempty, List.filter_append, List.append_assoc] at hord
    exact hrec (List.append_eq_nil_iff.mp hord).1
  · have hcount : (n.service.hub.handlers c).rounds.length ≤ (n.service.hub.handlers c).dispatched.length :=
      (hhub.logged c).count.1
    rw [hnil, List.length_nil] at hcount
    exact hok (List.eq_nil_of_length_eq_zero (by omega))

/-- A step of a session as a step of the network. -/
def sampleAct : Session.Act Unit Bytes → Act Unit Bytes
  | .client c a => .client c a
  | .server (.handler c a) => .server (.handler c a)
  | .server .recv => .server .recv
  | .server (.release tx how) => .server (.release tx how)
  | .server .dropServer => .server .dropRx

/-- A client connects over TLS, calls while the server still shakes hands, and gets its
answer. -/
def sampleActs : List (Act Unit Bytes) :=
  [.connect (), .server .select, .server (.accept ())] ++
    (Session.sampleCall [[123, 125]]).map sampleAct ++
    [.server (.handshake () true), .server .select] ++
    (Session.sampleServe [[123, 125]] ++ Session.sampleRelease 0 1).map sampleAct

/-- The same, and then the `Server` is dropped. -/
theorem nothing_without_service_sample :
    ∃ n : Network Unit Bytes, n.service.handle = .dropped ∧
      (n.clients ()).results = [([[123, 125]], .ok 1)] ∧
      () ∈ n.service.accepted ∧ (n.service.hub.handlers ()).rounds ≠ [] := by
  obtain ⟨n, hrun, hf⟩ : ∃ n : Network Unit Bytes, Run (step Session.sampleSetup true)
      (Narrowly Session.sampleSetup ()) (init Unit Bytes)
      (sampleActs ++ [.server .dropServer, .server .dropRx]) n ∧
      (n.service.handle, (n.clients ()).results) = (.dropped, [([[123, 125]], .ok 1)]) :=
    Run.exists_of_exec (by decide +kernel)
  have hres : (n.clients ()).results = _ := congrArg Prod.snd hf
  obtain ⟨-, -, -, hrounds, hserved⟩ :=
    nothing_without_service Session.sampleSetup true Flate.sample_lawful () _ n hrun
  rw [hres] at hrounds hserved
  refine ⟨n, congrArg Prod.fst hf, hres, (hserved (.inr (by decide))).1, ?_⟩
  intro hnil
  rw [hnil] at hrounds
  exact absurd hrounds (by decide)

end Network
end Lumberjack
