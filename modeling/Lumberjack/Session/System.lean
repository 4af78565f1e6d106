import Lumberjack.Client.Machine
import Lumberjack.Server.Release

/-!
# Clients, sockets and one server

Every connection has a `Client` at one end and a handler at the other, with a
bounded socket in each direction between them. A step of the session is a step
of a client or of the hub; writes put bytes into a socket and reads take them out.
`Link` is the part of the session that belongs to one connection, and `Link.Step`
what any step of the session can do to it.
-/
namespace Lumberjack

open Lumberjack.Stream Lumberjack.Wire Lumberjack.Server Lumberjack.Process

/-- What stays fixed during a session: libraries, configuration, socket sizes. -/
structure Setup (ι T : Type) where
  z : Flate
  toVec : T → Except String Bytes
  server : ConnectionConfig
  capacity : Nat
  client : ι → Client.ClientBuilder
  upRoom : ι → Nat
  downRoom : ι → Nat

structure Session (ι T : Type) where
  hub : Hub ι
  clients : ι → Client T
  up : ι → Bytes
  down : ι → Bytes

namespace Session

variable {ι T : Type} [DecidableEq ι]

def init (ι T : Type) : Session ι T := ⟨.init ι, fun _ => .init T, fun _ => [], fun _ => []⟩

inductive Act (ι T : Type) where
  | client (c : ι) (a : Client.Act T)
  | server (a : Hub.Act ι)
  deriving DecidableEq

def setClient (s : Session ι T) (c : ι) (cl : Client T) : Session ι T :=
  { s with clients := Function.update s.clients c cl }

def setHub (s : Session ι T) (hub : Hub ι) : Session ι T := { s with hub := hub }

def clientStep (S : Setup ι T) (s : Session ι T) (c : ι) (a : Client.Act T) : Option (Client T) :=
  (s.clients c).step S.z S.toVec (S.client c) a

def hubStep (S : Setup ι T) (s : Session ι T) (a : Hub.Act ι) : Option (Hub ι) :=
  s.hub.step S.z S.server S.capacity a

/-- A client sees the end of its stream when the handler has returned and every
byte it wrote has been read. The handler sees none: its client stays connected. -/
def step (S : Setup ι T) (s : Session ι T) : Act ι T → Option (Session ι T)
  | .client c (.write k) =>
    if (s.up c).length + k ≤ S.upRoom c then
      (s.clientStep S c (.write k)).map fun cl => { s.setClient c cl with
        up := Function.update s.up c (s.up c ++ (s.clients c).wbuf.take k) }
    else none
  | .client c (.read chunk) =>
    if (s.down c).take chunk.length = chunk then
      (s.clientStep S c (.read chunk)).map fun cl => { s.setClient c cl with
        down := Function.update s.down c ((s.down c).drop chunk.length) }
    else none
  | .client c .eof =>
    if (s.hub.handlers c).phase.live = false ∧ s.down c = [] then
      (s.clientStep S c .eof).map (s.setClient c)
    else none
  | .client c a => (s.clientStep S c a).map (s.setClient c)
  | .server (.handler c (.read chunk)) =>
    if (s.up c).take chunk.length = chunk then
      (s.hubStep S (.handler c (.read chunk))).map fun hub => { s.setHub hub with
        up := Function.update s.up c ((s.up c).drop chunk.length) }
    else none
  | .server (.handler c (.write k)) =>
    if (s.down c).length + k ≤ S.downRoom c then
      (s.hubStep S (.handler c (.write k))).map fun hub => { s.setHub hub with
        down := Function.update s.down c (s.down c ++ (s.hub.handlers c).out.take k) }
    else none
  | .server (.handler _ .eof) => none
  | .server a => (s.hubStep S a).map s.setHub

end Session

/-- Both ends of a connection and the sockets between them. -/
structure Link (T : Type) where
  client : Client T
  handler : Handler
  up : Bytes
  down : Bytes

def Session.link {ι T : Type} (s : Session ι T) (c : ι) : Link T :=
  ⟨s.clients c, s.hub.handlers c, s.up c, s.down c⟩

namespace Link

variable {T : Type}

/-- A step of one of the two ends. -/
inductive Move (T : Type) where
  | client (a : Client.Act T)
  | handler (a : Handler.Act)

/-- Steps of a client that do not move bytes through a socket. -/
def QuietClient : Client.Act T → Prop
  | .write _ | .read _ => False
  | _ => True

def QuietHandler : Handler.Act → Prop
  | .read _ | .write _ | .eof => False
  | _ => True

inductive Step (z : Flate) (toVec : T → Except String Bytes) (b : Client.ClientBuilder)
    (cfg : ConnectionConfig) (l : Link T) : Move T → Link T → Prop
  | client {a : Client.Act T} {cl : Client T} (ha : QuietClient a)
      (he : a = .eof → l.handler.phase.live = false) (hs : Client.Step z toVec b l.client a cl) :
      Step z toVec b cfg l (.client a) { l with client := cl }
  | clientWrite {k : Nat} {cl : Client T} (hs : Client.Step z toVec b l.client (.write k) cl) :
      Step z toVec b cfg l (.client (.write k))
        { l with client := cl, up := l.up ++ l.client.wbuf.take k }
  | clientRead {chunk rest : Bytes} {cl : Client T}
      (hs : Client.Step z toVec b l.client (.read chunk) cl) (hd : l.down = chunk ++ rest) :
      Step z toVec b cfg l (.client (.read chunk)) { l with client := cl, down := rest }
  | handler {a : Handler.Act} {h : Handler} (ha : QuietHandler a)
      (hs : Handler.Step z cfg l.handler a h) :
      Step z toVec b cfg l (.handler a) { l with handler := h }
  | serverRead {chunk rest : Bytes} {h : Handler}
      (hs : Handler.Step z cfg l.handler (.read chunk) h) (hu : l.up = chunk ++ rest) :
      Step z toVec b cfg l (.handler (.read chunk)) { l with handler := h, up := rest }
  | serverWrite {k : Nat} {h : Handler} (hs : Handler.Step z cfg l.handler (.write k) h) :
      Step z toVec b cfg l (.handler (.write k))
        { l with handler := h, down := l.down ++ l.handler.out.take k }

variable {z : Flate} {toVec : T → Except String Bytes} {b : Client.ClientBuilder}
variable {cfg : ConnectionConfig} {l l' : Link T}

theorem Step.client_step {a : Client.Act T} (hs : Step z toVec b cfg l (.client a) l') :
    Client.Step z toVec b l.client a l'.client ∧ l'.handler = l.handler := by
  cases hs with
  | client ha he hs => exact ⟨hs, rfl⟩
  | clientWrite hs => exact ⟨hs, rfl⟩
  | clientRead hs hd => exact ⟨hs, rfl⟩

theorem Step.handler_step {a : Handler.Act} (hs : Step z toVec b cfg l (.handler a) l') :
    Handler.Step z cfg l.handler a l'.handler ∧ l'.client = l.client := by
  cases hs with
  | handler ha hs => exact ⟨hs, rfl⟩
  | serverRead hs hu => exact ⟨hs, rfl⟩
  | serverWrite hs => exact ⟨hs, rfl⟩

end Link

namespace Session

variable {ι T : Type} [DecidableEq ι] {S : Setup ι T} {s s' : Session ι T} {a : Act ι T}

/-- Steps of the hub that do not move bytes through a socket. -/
def QuietHub : Hub.Act ι → Prop
  | .handler _ a => Link.QuietHandler a
  | _ => True

/-- The steps, by what they do to the sockets. -/
inductive Step (S : Setup ι T) (s : Session ι T) : Act ι T → Session ι T → Prop
  | client {c : ι} {a : Client.Act T} {cl : Client T} (ha : Link.QuietClient a)
      (he : a = .eof → (s.hub.handlers c).phase.live = false)
      (hs : Client.Step S.z S.toVec (S.client c) (s.clients c) a cl) :
      Step S s (.client c a) (s.setClient c cl)
  | clientWrite {c : ι} {k : Nat} {cl : Client T}
      (hs : Client.Step S.z S.toVec (S.client c) (s.clients c) (.write k) cl) :
      Step S s (.client c (.write k)) { s.setClient c cl with
        up := Function.update s.up c (s.up c ++ (s.clients c).wbuf.take k) }
  | clientRead {c : ι} {chunk rest : Bytes} {cl : Client T}
      (hs : Client.Step S.z S.toVec (S.client c) (s.clients c) (.read chunk) cl)
      (hd : s.down c = chunk ++ rest) :
      Step S s (.client c (.read chunk)) { s.setClient c cl with down := Function.update s.down c rest }
  | serverRead {c : ι} {chunk rest : Bytes} {hub : Hub ι}
      (hs : s.hub.step S.z S.server S.capacity (.handler c (.read chunk)) = some hub)
      (hu : s.up c = chunk ++ rest) :
      Step S s (.server (.handler c (.read chunk))) { s.setHub hub with
        up := Function.update s.up c rest }
  | serverWrite {c : ι} {k : Nat} {hub : Hub ι}
      (hs : s.hub.step S.z S.server S.capacity (.handler c (.write k)) = some hub) :
      Step S s (.server (.handler c (.write k))) { s.setHub hub with
        down := Function.update s.down c (s.down c ++ (s.hub.handlers c).out.take k) }
  | server {a : Hub.Act ι} {hub : Hub ι} (ha : QuietHub a)
      (hs : s.hub.step S.z S.server S.capacity a = some hub) : Step S s (.server a) (s.setHub hub)

private theorem client_cases {c : ι} {a : Client.Act T} (ha : Link.QuietClient a)
    (he : a = .eof → (s.hub.handlers c).phase.live = false)
    (hs : (s.clientStep S c a).map (s.setClient c) = some s') : Step S s (.client c a) s' := by
  obtain ⟨cl, hcl, rfl⟩ := Option.map_eq_some_iff.mp hs
  exact .client ha he (Client.step_cases hcl)

private theorem server_cases {a : Hub.Act ι} (ha : QuietHub a)
    (hs : (s.hubStep S a).map s.setHub = some s') : Step S s (.server a) s' := by
  obtain ⟨hub, hh, rfl⟩ := Option.map_eq_some_iff.mp hs
  exact .server ha hh

private theorem take_split {w chunk : Bytes} (h : w.take chunk.length = chunk) :
    w = chunk ++ w.drop chunk.length := by
  nth_rewrite 1 [← List.take_append_drop chunk.length w]
  rw [h]

theorem step_cases (hs : s.step S a = some s') : Step S s a s' := by
  cases a with
  | client c b =>
    cases b with
    | write k =>
      simp only [step] at hs
      split at hs
      · obtain ⟨cl, hcl, rfl⟩ := Option.map_eq_some_iff.mp hs
        exact .clientWrite (Client.step_cases hcl)
      · cases hs
    | read chunk =>
      simp only [step] at hs
      split at hs
      · rename_i hd
        obtain ⟨cl, hcl, rfl⟩ := Option.map_eq_some_iff.mp hs
        exact .clientRead (Client.step_cases hcl) (take_split hd)
      · cases hs
    | eof =>
      simp only [step] at hs
      split at hs
      · rename_i hc
        exact client_cases trivial (fun _ => hc.1) hs
      · cases hs
    | _ => exact client_cases trivial (fun he => by cases he) hs
  | server b =>
    cases b with
    | handler c b =>
      cases b with
      | read chunk =>
        simp only [step] at hs
        split at hs
        · rename_i hu
          obtain ⟨hub, hh, rfl⟩ := Option.map_eq_some_iff.mp hs
          exact .serverRead hh (take_split hu)
        · cases hs
      | write k =>
        simp only [step] at hs
        split at hs
        · obtain ⟨hub, hh, rfl⟩ := Option.map_eq_some_iff.mp hs
          exact .serverWrite hh
        · cases hs
      | eof => cases hs
      | _ => exact server_cases trivial hs
    | _ => exact server_cases trivial hs

/-- The hub takes the step that is its own, and no other. -/
theorem Step.hub (hs : Step S s a s') :
    s'.hub = s.hub ∨ ∃ b, a = .server b ∧ s.hub.step S.z S.server S.capacity b = some s'.hub := by
  cases hs with
  | serverRead hs hu => exact .inr ⟨_, rfl, hs⟩
  | serverWrite hs => exact .inr ⟨_, rfl, hs⟩
  | server ha hs => exact .inr ⟨_, rfl, hs⟩
  | _ => exact .inl rfl

/-- The move a step of the session is for one connection. -/
inductive Moves (S : Setup ι T) (s : Session ι T) (a : Act ι T) (s' : Session ι T) (c : ι) : Prop
  | still (he : s'.link c = s.link c) (hne : ∀ b, a ≠ .client c b)
  | client {b : Client.Act T} (ha : a = .client c b)
      (hs : Link.Step S.z S.toVec (S.client c) S.server (s.link c) (.client b) (s'.link c))
  | handler {b : Handler.Act} (hb : b = .release ∨ a = .server (.handler c b))
      (hs : Link.Step S.z S.toVec (S.client c) S.server (s.link c) (.handler b) (s'.link c))

/-- A step of a handler that leaves the sockets alone. -/
private theorem quiet_moves {b : Hub.Act ι} (ha : QuietHub b)
    (hs : s.hub.step S.z S.server S.capacity b = some s'.hub) (hinv : s.hub.Inv S.z S.server) (c : ι)
    (hl : s'.link c = { s.link c with handler := s'.hub.handlers c }) :
    Moves S s (.server b) s' c := by
  cases (Hub.step_cases hs).view hinv.owned c with
  | unchanged he hne hnr =>
    refine .still ?_ (fun b hb => by cases hb)
    rw [hl, he]
    rfl
  | own hab hb hstep =>
    subst hab
    refine .handler (.inr rfl) ?_
    rw [hl]
    exact .handler ha hstep
  | released hab hm hb hstep =>
    refine .handler (.inl rfl) ?_
    rw [hl]
    exact .handler trivial hstep
  | dropped hab hm hb hstep =>
    refine .handler (.inl rfl) ?_
    rw [hl]
    exact .handler trivial hstep

/-- A step of another connection's handler. -/
private theorem view_other {b : Handler.Act} {hub : Hub ι} {c c₀ : ι} (hc : c ≠ c₀)
    (hs : s.hub.step S.z S.server S.capacity (.handler c₀ b) = some hub)
    (hinv : s.hub.Inv S.z S.server) : hub.handlers c = s.hub.handlers c := by
  cases (Hub.step_cases hs).view hinv.owned c with
  | unchanged he => exact he
  | own hab => cases hab; exact absurd rfl hc
  | released hab => cases hab
  | dropped hab => cases hab

private theorem view_self {b : Handler.Act} {hub : Hub ι} {c : ι}
    (hs : s.hub.step S.z S.server S.capacity (.handler c b) = some hub)
    (hinv : s.hub.Inv S.z S.server) :
    Handler.Step S.z S.server (s.hub.handlers c) b (hub.handlers c) := by
  cases (Hub.step_cases hs).view hinv.owned c with
  | unchanged he hne => exact absurd rfl (hne b)
  | own hab hb hstep => cases hab; exact hstep
  | released hab => cases hab
  | dropped hab => cases hab

theorem Step.moves (hs : Step S s a s') (hinv : s.hub.Inv S.z S.server) (c : ι) :
    Moves S s a s' c := by
  have other {c₀ : ι} {b : Client.Act T} (hc : c ≠ c₀) (he : s'.link c = s.link c) :
      Moves S s (.client c₀ b) s' c :=
    .still he (fun b hb => by cases hb; exact hc rfl)
  cases hs with
  | @client c₀ b cl ha he hs =>
    by_cases hc : c = c₀
    · subst hc
      refine .client rfl ?_
      have hl : (s.setClient c cl).link c = { s.link c with client := cl } := by
        simp [link, setClient]
      rw [hl]
      exact .client ha he hs
    · exact other hc (by simp [link, setClient, hc])
  | @clientWrite c₀ k cl hs =>
    by_cases hc : c = c₀
    · subst hc
      refine .client rfl ?_
      have hl : ({ s.setClient c cl with
          up := Function.update s.up c (s.up c ++ (s.clients c).wbuf.take k) } : Session ι T).link c =
          { s.link c with client := cl, up := s.up c ++ (s.clients c).wbuf.take k } := by
        simp [link, setClient]
      rw [hl]
      exact .clientWrite hs
    · exact other hc (by simp [link, setClient, hc])
  | @clientRead c₀ chunk rest cl hs hd =>
    by_cases hc : c = c₀
    · subst hc
      refine .client rfl ?_
      have hl : ({ s.setClient c cl with down := Function.update s.down c rest } : Session ι T).link c =
          { s.link c with client := cl, down := rest } := by
        simp [link, setClient]
      rw [hl]
      exact .clientRead hs hd
    · exact other hc (by simp [link, setClient, hc])
  | @serverRead c₀ chunk rest hub hs hu =>
    by_cases hc : c = c₀
    · subst hc
      refine .handler (.inr rfl) ?_
      have hl : ({ s.setHub hub with up := Function.update s.up c rest } : Session ι T).link c =
          { s.link c with handler := hub.handlers c, up := rest } := by
        simp [link, setHub]
      rw [hl]
      exact .serverRead (view_self hs hinv) hu
    · refine .still ?_ (fun b hb => by cases hb)
      simp [link, setHub, hc, view_other hc hs hinv]
  | @serverWrite c₀ k hub hs =>
    by_cases hc : c = c₀
    · subst hc
      refine .handler (.inr rfl) ?_
      have hl : ({ s.setHub hub with
          down := Function.update s.down c (s.down c ++ (s.hub.handlers c).out.take k) } :
            Session ι T).link c =
          { s.link c with
            handler := hub.handlers c, down := s.down c ++ (s.hub.handlers c).out.take k } := by
        simp [link, setHub]
      rw [hl]
      exact .serverWrite (view_self hs hinv)
    · refine .still ?_ (fun b hb => by cases hb)
      simp [link, setHub, hc, view_other hc hs hinv]
  | server ha hs => exact quiet_moves ha hs hinv c rfl

/-- The `Server` is not dropped. -/
def NoDrop (a : Act ι T) : Prop := a ≠ .server .dropServer

/-- The hub of a session runs as a hub does on its own. -/
theorem run_hub {ok : Session ι T → Act ι T → Prop} (hok : ∀ s a, ok s a → NoDrop a)
    {as : List (Act ι T)} (hrun : Run (step S) ok (init ι T) as s) :
    ∃ bs, Run (Hub.step S.z S.server S.capacity) Hub.noDrop (Hub.init ι) bs s.hub := by
  apply hrun.simulate (f := Session.hub)
  intro s a s' ha hs
  rcases (step_cases hs).hub with he | ⟨b, rfl, hb⟩
  · exact .inl he
  · refine .inr ⟨b, ?_, hb⟩
    rintro rfl
    exact hok s _ ha rfl

theorem run_hub_inv {ok : Session ι T → Act ι T → Prop} {as : List (Act ι T)}
    (hrun : Run (step S) ok (init ι T) as s) : s.hub.Inv S.z S.server := by
  apply hrun.invariant (P := fun s => s.hub.Inv S.z S.server) (Hub.init_inv S.z S.server)
  intro s a s' hinv _ hs
  rcases (step_cases hs).hub with he | ⟨b, rfl, hb⟩
  · rwa [he]
  · exact (Hub.step_cases hb).inv hinv

/-- What every move of one connection keeps is kept throughout a session. A step
may use that the state it is taken in was reached, and what the guard says of it. -/
theorem run_link {ok : Session ι T → Act ι T → Prop} {P : Link T → Prop} {c : ι}
    {as : List (Act ι T)} (hrun : Run (step S) ok (init ι T) as s) (hinit : P ((init ι T).link c))
    (hstep : ∀ {as : List (Act ι T)} {s s' : Session ι T} {a : Act ι T},
      Run (step S) ok (init ι T) as s → ok s a → step S s a = some s' → P (s.link c) →
      Moves S s a s' c → P (s'.link c)) : P (s.link c) := by
  induction hrun with
  | refl => exact hinit
  | tail hrun hok hs ih =>
    exact hstep hrun hok hs ih ((step_cases hs).moves (run_hub_inv hrun) c)

/-- What every step of one client keeps is kept throughout a session. -/
theorem run_client {ok : Session ι T → Act ι T → Prop} {P : Client T → Prop} {c : ι}
    {as : List (Act ι T)} (hrun : Run (step S) ok (init ι T) as s) (hinit : P (.init T))
    (hstep : ∀ {s : Session ι T} {b : Client.Act T} {cl : Client T}, ok s (.client c b) →
      Client.Step S.z S.toVec (S.client c) (s.clients c) b cl → P (s.clients c) → P cl) :
    P (s.clients c) := by
  apply run_link (P := fun l => P l.client) hrun hinit
  intro as s s' a hrun hok _ hp hm
  cases hm with
  | still he =>
    rw [he]
    exact hp
  | client ha hs =>
    subst ha
    exact hstep hok hs.client_step.1 hp
  | handler hb hs =>
    rw [hs.handler_step.2]
    exact hp

end Session
end Lumberjack
