import Mathlib.Logic.Function.Basic
import Lumberjack.Server.Acks

/-!
# Handlers, the batch channel and the consumer

All handlers of a `Server` send their batches into one bounded channel. The
consumer takes batches out of it, holds any number of them and releases them in
any order; it may also drop the `Server`, which closes the channel and drops the
batches still queued. A batch names its acknowledgement channel by the connection
and the number of the batch on it. `ι` is the type of the connections.
-/
namespace Lumberjack.Server

open Lumberjack.Stream Lumberjack.Wire Lumberjack.Process

/-- `tx.send(seq)` on the channel of the `k`-th batch. The receiver of an earlier
batch is gone, and so is what is sent to it. -/
def Handler.deliver (h : Handler) (k : Nat) (seq : UInt32) : Handler :=
  if h.dispatched.length = k + 1 ∧ h.ackRx = .pending then { h with ackRx := .sent seq } else h

structure Hub (ι : Type) where
  handlers : ι → Handler
  queue : List (Batch (ι × Nat))
  held : List (Batch (ι × Nat))
  closed : Bool
  /-- every batch `Server::recv` returned, in order -/
  received : List (Batch (ι × Nat))
  /-- every batch the consumer released -/
  released : List (ι × Nat)

namespace Hub

variable {ι : Type} [DecidableEq ι]

def init (ι : Type) : Hub ι := ⟨fun _ => .init, [], [], false, [], []⟩

inductive Act (ι : Type) where
  | handler (c : ι) (a : Handler.Act)
  | recv
  | release (tx : ι × Nat) (how : Release)
  | dropServer
  deriving DecidableEq

def deliver (handlers : ι → Handler) (sends : List ((ι × Nat) × UInt32)) : ι → Handler :=
  sends.foldl (fun hs p => Function.update hs p.1.1 ((hs p.1.1).deliver p.1.2 p.2)) handlers

def setHandler (s : Hub ι) (c : ι) (h : Handler) : Hub ι :=
  { s with handlers := Function.update s.handlers c h }

/-- Dispatch goes through the channel, a shutdown is seen when it is closed, and
releases are the consumer's; every other step of a handler is its own. -/
def step (z : Flate) (cfg : ConnectionConfig) (capacity : Nat) (s : Hub ι) : Act ι → Option (Hub ι)
  | .handler c .dispatch =>
    match (s.handlers c).phase with
    | .dispatching w =>
      if s.closed = false ∧ s.queue.length < capacity then
        ((s.handlers c).step z cfg .dispatch).map fun h =>
          { s.setHandler c h with
            queue := s.queue ++ [.new w.events w.lastSeq (c, (s.handlers c).dispatched.length)] }
      else none
    | _ => none
  | .handler c .shutdown =>
    if s.closed then ((s.handlers c).step z cfg .shutdown).map (s.setHandler c) else none
  | .handler _ .release => none
  | .handler c a => ((s.handlers c).step z cfg a).map (s.setHandler c)
  | .recv =>
    match s.closed, s.queue with
    | false, b :: queue =>
      some { s with queue := queue, held := s.held ++ [b], received := s.received ++ [b] }
    | _, _ => none
  | .release tx how =>
    match s.held.find? (fun b => b.ack = some tx) with
    | some b =>
      some { s with
        held := s.held.eraseP (fun b => b.ack = some tx)
        handlers := deliver s.handlers (b.release how)
        released := s.released ++ [tx] }
    | none => none
  | .dropServer =>
    if s.closed then none
    else some { s with
      closed := true, queue := [], handlers := deliver s.handlers (s.queue.flatMap Batch.drop) }

/-- A handler's own steps. -/
def Local : Handler.Act → Prop
  | .dispatch | .shutdown | .release => False
  | _ => True

/-- The steps, one constructor for each kind. -/
inductive Step (z : Flate) (cfg : ConnectionConfig) (capacity : Nat) (s : Hub ι) :
    Act ι → Hub ι → Prop
  | own {c : ι} {a : Handler.Act} {h : Handler} (ha : Local a)
      (hs : Handler.Step z cfg (s.handlers c) a h) :
      Step z cfg capacity s (.handler c a) (s.setHandler c h)
  | dispatch {c : ι} {w : Collect} {h : Handler} (hp : (s.handlers c).phase = .dispatching w)
      (hs : Handler.Step z cfg (s.handlers c) .dispatch h) (hopen : s.closed = false)
      (hroom : s.queue.length < capacity) :
      Step z cfg capacity s (.handler c .dispatch) { s.setHandler c h with
        queue := s.queue ++ [.new w.events w.lastSeq (c, (s.handlers c).dispatched.length)] }
  | shutdown {c : ι} {h : Handler} (hs : Handler.Step z cfg (s.handlers c) .shutdown h)
      (hclosed : s.closed = true) :
      Step z cfg capacity s (.handler c .shutdown) (s.setHandler c h)
  | recv {b : Batch (ι × Nat)} {queue : List (Batch (ι × Nat))} (hopen : s.closed = false)
      (hq : s.queue = b :: queue) :
      Step z cfg capacity s .recv
        { s with queue := queue, held := s.held ++ [b], received := s.received ++ [b] }
  | release {tx : ι × Nat} {how : Release} {b : Batch (ι × Nat)} {front back : List (Batch (ι × Nat))}
      (hb : b.ack = some tx) (hh : s.held = front ++ b :: back) :
      Step z cfg capacity s (.release tx how) { s with
        held := front ++ back
        handlers := deliver s.handlers (b.release how)
        released := s.released ++ [tx] }
  | dropServer (hopen : s.closed = false) :
      Step z cfg capacity s .dropServer { s with
        closed := true, queue := [], handlers := deliver s.handlers (s.queue.flatMap Batch.drop) }

variable {z : Flate} {cfg : ConnectionConfig} {capacity : Nat} {s s' : Hub ι} {a : Act ι}

private theorem own_cases {c : ι} {a : Handler.Act} (ha : Local a)
    (hs : ((s.handlers c).step z cfg a).map (s.setHandler c) = some s') :
    Step z cfg capacity s (.handler c a) s' := by
  obtain ⟨h, hh, rfl⟩ := Option.map_eq_some_iff.mp hs
  exact .own ha (Handler.step_cases hh)

theorem step_cases (hs : s.step z cfg capacity a = some s') : Step z cfg capacity s a s' := by
  cases a with
  | handler c a =>
    cases a with
    | dispatch =>
      simp only [step] at hs
      split at hs
      · rename_i w hp
        split at hs
        · rename_i hc
          obtain ⟨h, hh, rfl⟩ := Option.map_eq_some_iff.mp hs
          exact .dispatch hp (Handler.step_cases hh) hc.1 hc.2
        · cases hs
      · cases hs
    | shutdown =>
      simp only [step] at hs
      split at hs
      · rename_i hc
        obtain ⟨h, hh, rfl⟩ := Option.map_eq_some_iff.mp hs
        exact .shutdown (Handler.step_cases hh) hc
      · cases hs
    | release => cases hs
    | _ => exact own_cases trivial hs
  | recv =>
    simp only [step] at hs
    split at hs
    · rename_i b queue hopen hq
      cases hs
      exact .recv hopen hq
    · cases hs
  | release tx how =>
    simp only [step] at hs
    split at hs
    · rename_i b hfind
      obtain ⟨hb, front, back, hheld, hfront⟩ := List.find?_eq_some_iff_append.mp hfind
      have hb : b.ack = some tx := by simpa using hb
      have herase : s.held.eraseP (fun b => b.ack = some tx) = front ++ back := by
        rw [hheld, List.eraseP_append_right _ (by simpa using hfront),
          List.eraseP_cons_of_pos (by simpa using hb)]
      rw [herase] at hs
      cases hs
      exact .release hb hheld
    · cases hs
  | dropServer =>
    simp only [step] at hs
    split at hs
    · cases hs
    · rename_i hopen
      cases hs
      exact .dropServer (by simpa using hopen)

end Hub
end Lumberjack.Server
