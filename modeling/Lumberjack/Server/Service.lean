import Lumberjack.Process.Measure
import Lumberjack.Server.Isolation

/-!
# The server as a whole

`ServerBuilder::bind` spawns an accept loop and returns the `Server`. The loop
counts every connection it accepts and spawns a task for it; the task shakes hands
if TLS is configured, runs the handler, and its guard takes the connection off the
count when it ends. The sending halves of the batch channel belong to the loop and
to the tasks, the receiving half to the `Server`, whose drop first sends on the
shutdown channel and then drops the receiver. `Hub` is the part of this that
handlers and consumer share; here is who may act on it, and when.
-/
namespace Lumberjack.Server

open Lumberjack.Stream Lumberjack.Wire Lumberjack.Process

structure ServerBuilder where
  keepalive : Option Nat := some 15000
  channelCapacity : Nat := 128
  maxFrameSize : Nat := defaultMaxFrameSize
  /-- an acceptor is configured -/
  tls : Bool := false
  deriving DecidableEq

/-- The configuration `bind` shares with the tasks. -/
def ServerBuilder.config (b : ServerBuilder) : ConnectionConfig := ⟨b.maxFrameSize, b.keepalive⟩

/-- The accept loop. `selecting` is the top of the biased `select!`, which polls the
shutdown channel first; `accepting` is the listener's turn, after that channel was
found empty. The loop breaks on a shutdown or on an error of the listener. -/
inductive AcceptLoop where
  | selecting
  | accepting
  | stopped
  | failed
  deriving DecidableEq

/-- The loop has dropped its sender and the listener. -/
def AcceptLoop.ended : AcceptLoop → Bool
  | .stopped | .failed => true
  | _ => false

/-- The `Server` value. Its drop sends on the shutdown channel, and then its fields
are dropped, the receiver among them. -/
inductive Handle where
  | alive
  | dropping
  | dropped
  deriving DecidableEq

/-- The task of one connection. One that has `returned` knows its result and has
dropped its sender, but still has its guard. -/
inductive Task where
  | absent
  | handshaking
  | serving
  | returned
  | ended
  deriving DecidableEq

namespace Task

/-- The task owns an `ActiveGuard`. -/
def guarded : Task → Bool
  | .handshaking | .serving | .returned => true
  | _ => false

/-- The task owns a clone of the batch sender. -/
def sends : Task → Bool
  | .handshaking | .serving => true
  | _ => false

end Task

structure Service (ι : Type) where
  hub : Hub ι
  loop : AcceptLoop
  handle : Handle
  tasks : ι → Task
  /-- the `AtomicUsize`, which wraps -/
  active : UInt64
  /-- the connections accepted, in order -/
  accepted : List ι

namespace Service

variable {ι : Type} [DecidableEq ι]

def bind (ι : Type) : Service ι := ⟨.init ι, .selecting, .alive, fun _ => .absent, 0, []⟩

inductive Act (ι : Type) where
  | select
  | accept (c : ι)
  | pending
  | acceptFailed
  | handshake (c : ι) (ok : Bool)
  | handler (c : ι) (a : Handler.Act)
  | ret (c : ι)
  | finish (c : ι)
  | recv
  | release (tx : ι × Nat) (how : Release)
  | dropServer
  | dropRx
  deriving DecidableEq

def setTask (s : Service ι) (c : ι) (t : Task) : Service ι :=
  { s with tasks := Function.update s.tasks c t }

def setHub (s : Service ι) (hub : Hub ι) : Service ι := { s with hub := hub }

/-- Some sending half of the batch channel is left. -/
def hasSender (s : Service ι) : Bool := !s.loop.ended || s.accepted.any fun c => (s.tasks c).sends

/-- `Server::recv`: a batch, or `none` when the queue is empty and no sender is left.
The outer `none` is a call that waits. -/
def poll (s : Service ι) : Option (Option (Batch (ι × Nat))) :=
  match s.hub.queue with
  | b :: _ => some (some b)
  | [] => if s.hasSender then none else some none

/-- `Server::active_connections`. -/
def activeConnections (s : Service ι) : UInt64 := s.active

def step (z : Flate) (b : ServerBuilder) (s : Service ι) : Act ι → Option (Service ι)
  | .select =>
    if s.loop = .selecting then
      some { s with loop := if s.handle = .alive then .accepting else .stopped }
    else none
  | .accept c =>
    if s.loop = .accepting ∧ s.tasks c = .absent then
      -- `ActiveGuard::new`, then the spawn
      some { s.setTask c (if b.tls then .handshaking else .serving) with
        loop := .selecting, active := s.active + 1, accepted := s.accepted ++ [c] }
    else none
  | .pending => if s.loop = .accepting then some { s with loop := .selecting } else none
  | .acceptFailed => if s.loop = .accepting then some { s with loop := .failed } else none
  | .handshake c ok =>
    if s.tasks c = .handshaking then some (s.setTask c (if ok then .serving else .returned)) else none
  | .handler c a =>
    if s.tasks c = .serving then
      (s.hub.step z b.config b.channelCapacity (.handler c a)).map s.setHub
    else none
  | .ret c =>
    if s.tasks c = .serving ∧ (s.hub.handlers c).phase.live = false then
      some (s.setTask c .returned)
    else none
  | .finish c =>
    -- `Drop for ActiveGuard`
    if s.tasks c = .returned then some { s.setTask c .ended with active := s.active - 1 } else none
  | .recv =>
    if s.handle = .alive then (s.hub.step z b.config b.channelCapacity .recv).map s.setHub else none
  | .release tx how => (s.hub.step z b.config b.channelCapacity (.release tx how)).map s.setHub
  | .dropServer => if s.handle = .alive then some { s with handle := .dropping } else none
  | .dropRx =>
    if s.handle = .dropping then
      (s.hub.step z b.config b.channelCapacity .dropServer).map fun hub =>
        { s with hub := hub, handle := .dropped }
    else none

/-- The step of the hub inside a step of the server. -/
def Act.hub : Act ι → Option (Hub.Act ι)
  | .handler c a => some (.handler c a)
  | .recv => some .recv
  | .release tx how => some (.release tx how)
  | .dropRx => some .dropServer
  | _ => none

inductive Step (z : Flate) (b : ServerBuilder) (s : Service ι) : Act ι → Service ι → Prop
  | select (hl : s.loop = .selecting) (hh : s.handle = .alive) :
      Step z b s .select { s with loop := .accepting }
  | stop (hl : s.loop = .selecting) (hh : s.handle ≠ .alive) :
      Step z b s .select { s with loop := .stopped }
  | accept {c : ι} (hl : s.loop = .accepting) (ht : s.tasks c = .absent) :
      Step z b s (.accept c) { s.setTask c (if b.tls then .handshaking else .serving) with
        loop := .selecting, active := s.active + 1, accepted := s.accepted ++ [c] }
  | pending (hl : s.loop = .accepting) : Step z b s .pending { s with loop := .selecting }
  | acceptFailed (hl : s.loop = .accepting) : Step z b s .acceptFailed { s with loop := .failed }
  | handshake {c : ι} {ok : Bool} (ht : s.tasks c = .handshaking) :
      Step z b s (.handshake c ok) (s.setTask c (if ok then .serving else .returned))
  | handler {c : ι} {a : Handler.Act} {hub : Hub ι} (ht : s.tasks c = .serving)
      (hs : Hub.Step z b.config b.channelCapacity s.hub (.handler c a) hub) :
      Step z b s (.handler c a) (s.setHub hub)
  | ret {c : ι} (ht : s.tasks c = .serving) (hp : (s.hub.handlers c).phase.live = false) :
      Step z b s (.ret c) (s.setTask c .returned)
  | finish {c : ι} (ht : s.tasks c = .returned) :
      Step z b s (.finish c) { s.setTask c .ended with active := s.active - 1 }
  | recv {hub : Hub ι} (hh : s.handle = .alive)
      (hs : Hub.Step z b.config b.channelCapacity s.hub .recv hub) : Step z b s .recv (s.setHub hub)
  | release {tx : ι × Nat} {how : Release} {hub : Hub ι}
      (hs : Hub.Step z b.config b.channelCapacity s.hub (.release tx how) hub) :
      Step z b s (.release tx how) (s.setHub hub)
  | dropServer (hh : s.handle = .alive) : Step z b s .dropServer { s with handle := .dropping }
  | dropRx {hub : Hub ι} (hh : s.handle = .dropping)
      (hs : Hub.Step z b.config b.channelCapacity s.hub .dropServer hub) :
      Step z b s .dropRx { s with hub := hub, handle := .dropped }

variable {z : Flate} {b : ServerBuilder} {s s' : Service ι} {a : Act ι}

theorem step_cases (hs : s.step z b a = some s') : Step z b s a s' := by
  cases a with
  | select =>
    simp only [step] at hs
    split at hs
    · rename_i hl
      cases hs
      by_cases hh : s.handle = .alive
      · rw [if_pos hh]
        exact .select hl hh
      · rw [if_neg hh]
        exact .stop hl hh
    · cases hs
  | accept c =>
    simp only [step] at hs
    split at hs
    · rename_i hc
      cases hs
      exact .accept hc.1 hc.2
    · cases hs
  | pending =>
    simp only [step] at hs
    split at hs
    · rename_i hl
      cases hs
      exact .pending hl
    · cases hs
  | acceptFailed =>
    simp only [step] at hs
    split at hs
    · rename_i hl
      cases hs
      exact .acceptFailed hl
    · cases hs
  | handshake c ok =>
    simp only [step] at hs
    split at hs
    · rename_i ht
      cases hs
      exact .handshake ht
    · cases hs
  | handler c a =>
    simp only [step] at hs
    split at hs
    · rename_i ht
      obtain ⟨hub, hh, rfl⟩ := Option.map_eq_some_iff.mp hs
      exact .handler ht (Hub.step_cases hh)
    · cases hs
  | ret c =>
    simp only [step] at hs
    split at hs
    · rename_i hc
      cases hs
      exact .ret hc.1 hc.2
    · cases hs
  | finish c =>
    simp only [step] at hs
    split at hs
    · rename_i ht
      cases hs
      exact .finish ht
    · cases hs
  | recv =>
    simp only [step] at hs
    split at hs
    · rename_i hh
      obtain ⟨hub, hr, rfl⟩ := Option.map_eq_some_iff.mp hs
      exact .recv hh (Hub.step_cases hr)
    · cases hs
  | release tx how =>
    obtain ⟨hub, hr, rfl⟩ := Option.map_eq_some_iff.mp hs
    exact .release (Hub.step_cases hr)
  | dropServer =>
    simp only [step] at hs
    split at hs
    · rename_i hh
      cases hs
      exact .dropServer hh
    · cases hs
  | dropRx =>
    simp only [step] at hs
    split at hs
    · rename_i hh
      obtain ⟨hub, hr, rfl⟩ := Option.map_eq_some_iff.mp hs
      exact .dropRx hh (Hub.step_cases hr)
    · cases hs

end Service
end Lumberjack.Server
