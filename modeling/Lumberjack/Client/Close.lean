import Lumberjack.Client.Batches
import Lumberjack.Client.Image
import Lumberjack.Client.Receive
import Lumberjack.Server.Loop

/-!
# The end of a client

`Client::close` takes the client, flushes what its sink still holds and shuts the socket
down; a client that is dropped instead leaves those bytes unsent. Calls may have failed
before, and their bytes are on the stream like all others: what the server finds when the
stream ends is decided by what was fed, not by what the calls returned. A batch whose call
returned `Ok` is among the batches completely fed; so is one whose call timed out after
its last frame.
-/
namespace Lumberjack.Client

open Lumberjack.Stream Lumberjack.Wire Lumberjack.Server Lumberjack.Process

variable {T : Type}

/-- Where the owner of a client is: using it, in `close().await`, or done with it. -/
inductive Ending where
  | inUse
  | closing
  | closed (r : Result Unit)
  | dropped
  deriving DecidableEq

/-- A client with everything written to its socket, up to its end. -/
structure Lifetime (T : Type) where
  client : Client T
  sent : Bytes
  ending : Ending

namespace Lifetime

def init (T : Type) : Lifetime T := ⟨.init T, [], .inUse⟩

inductive Act (T : Type) where
  | call (a : Client.Act T)
  | cancel
  | close
  | write (k : Nat)
  | shutdown
  | fail (msg : String)
  | drop
  deriving DecidableEq

/-- The future of a call may be dropped at any await, which leaves the client as it is
with no result. `close` is called between calls; `framed.close()` flushes and then shuts
down. The client may be dropped at any time, in the middle of its `close` too. -/
def step (z : Flate) (toVec : T → Except String Bytes) (b : ClientBuilder) (x : Lifetime T) :
    Act T → Option (Lifetime T)
  | .call a =>
    if x.ending = .inUse then
      (traced z toVec b (x.client, x.sent) a).map fun y => ⟨y.1, y.2, .inUse⟩
    else none
  | .cancel =>
    if x.ending = .inUse then some { x with client := { x.client with phase := .idle, draining := false } } else none
  | .close =>
    match x.ending, x.client.phase with
    | .inUse, .idle => some { x with ending := .closing }
    | _, _ => none
  | .write k =>
    if x.ending = .closing ∧ 0 < k ∧ k ≤ x.client.wbuf.length then
      some { x with
        client := { x.client with wbuf := x.client.wbuf.drop k }
        sent := x.sent ++ x.client.wbuf.take k }
    else none
  | .shutdown =>
    if x.ending = .closing ∧ x.client.wbuf.isEmpty then some { x with ending := .closed (.ok ()) }
    else none
  | .fail msg =>
    if x.ending = .closing then some { x with ending := .closed (.error (.io msg)) } else none
  | .drop =>
    if x.ending = .inUse ∨ x.ending = .closing then some { x with ending := .dropped } else none

inductive Step (z : Flate) (toVec : T → Except String Bytes) (b : ClientBuilder) (x : Lifetime T) :
    Act T → Lifetime T → Prop
  | call {a : Client.Act T} {cl : Client T} (hu : x.ending = .inUse)
      (hs : x.client.step z toVec b a = some cl) :
      Step z toVec b x (.call a) ⟨cl, x.sent ++ x.client.output a, .inUse⟩
  | cancel (hu : x.ending = .inUse) :
      Step z toVec b x .cancel { x with client := { x.client with phase := .idle, draining := false } }
  | close (hu : x.ending = .inUse) (hp : x.client.phase = .idle) :
      Step z toVec b x .close { x with ending := .closing }
  | write {k : Nat} (hc : x.ending = .closing) (hk : 0 < k) (hl : k ≤ x.client.wbuf.length) :
      Step z toVec b x (.write k) { x with
        client := { x.client with wbuf := x.client.wbuf.drop k }
        sent := x.sent ++ x.client.wbuf.take k }
  | shutdown (hc : x.ending = .closing) (hw : x.client.wbuf = []) :
      Step z toVec b x .shutdown { x with ending := .closed (.ok ()) }
  | fail {msg : String} (hc : x.ending = .closing) :
      Step z toVec b x (.fail msg) { x with ending := .closed (.error (.io msg)) }
  | drop (hu : x.ending = .inUse ∨ x.ending = .closing) :
      Step z toVec b x .drop { x with ending := .dropped }

variable {z : Flate} {toVec : T → Except String Bytes} {b : ClientBuilder} {x x' : Lifetime T}
variable {a : Act T}

theorem step_cases (hs : x.step z toVec b a = some x') : Step z toVec b x a x' := by
  cases a with
  | call a =>
    simp only [step] at hs
    split at hs
    · rename_i hu
      obtain ⟨y, hy, rfl⟩ := Option.map_eq_some_iff.mp hs
      obtain ⟨cl, hcl, rfl⟩ := Option.map_eq_some_iff.mp hy
      exact .call hu hcl
    · cases hs
  | cancel =>
    simp only [step] at hs
    split at hs
    · rename_i hu
      cases hs
      exact .cancel hu
    · cases hs
  | close =>
    simp only [step] at hs
    split at hs
    · rename_i hu hp
      cases hs
      exact .close hu hp
    · cases hs
  | write k =>
    simp only [step] at hs
    split at hs
    · rename_i hc
      cases hs
      exact .write hc.1 hc.2.1 hc.2.2
    · cases hs
  | shutdown =>
    simp only [step] at hs
    split at hs
    · rename_i hc
      cases hs
      exact .shutdown hc.1 (List.isEmpty_iff.mp hc.2)
    · cases hs
  | fail msg =>
    simp only [step] at hs
    split at hs
    · rename_i hc
      cases hs
      exact .fail hc
    · cases hs
  | drop =>
    simp only [step] at hs
    split at hs
    · rename_i hu
      cases hs
      exact .drop hu
    · cases hs

end Lifetime

/-- The batches, of calls with events, that were reported as acknowledged. -/
def granted (rs : List (List T × Result UInt32)) : List (List T) :=
  rs.filterMap fun
    | (events, .ok _) => if events.isEmpty then none else some events
    | (_, .error _) => none

section Granted

variable {z : Flate} {toVec : T → Except String Bytes} {b : ClientBuilder} {cl cl' : Client T}
variable {a : Client.Act T}

theorem granted_error (rs : List (List T × Result UInt32)) (events : List T) (e : Error) :
    granted (rs ++ [(events, .error e)]) = granted rs := by
  simp [granted]

theorem granted_ok (rs : List (List T × Result UInt32)) (events : List T) (n : UInt32) :
    (granted (rs ++ [(events, .ok n)])).Sublist (granted rs ++ [events]) := by
  rw [granted, List.filterMap_append]
  apply List.Sublist.append_left
  cases events <;> simp

/-- What was reported, and what is about to be, was fed to its last frame. -/
def Earned (cl : Client T) : Prop :=
  (granted cl.results ++ cl.phase.pending.toList).Sublist cl.complete

theorem Earned.granted (h : Earned cl) : (granted cl.results).Sublist cl.complete :=
  (List.sublist_append_left _ _).trans h

theorem Earned.of_error (h : Earned cl) {events : List T} {e : Error}
    (hr : cl'.results = cl.results ++ [(events, .error e)]) (hc : cl'.complete = cl.complete)
    (hp : cl'.phase = .idle) : Earned cl' := by
  rw [Earned, hr, hc, hp, granted_error]
  show (Client.granted cl.results ++ []).Sublist cl.complete
  rw [List.append_nil]
  exact h.granted

theorem Earned.of_still (h : Earned cl) (hr : cl'.results = cl.results)
    (hc : cl'.complete = cl.complete) (hp : cl'.phase.pending = cl.phase.pending) : Earned cl' := by
  rw [Earned, hr, hc, hp]
  exact h

theorem Step.earned (hs : Step z toVec b cl a cl')
    (hok : ∀ events, a = .start events → events ≠ [] → Narrow z toVec b.compressionLevel events)
    (h : Earned cl) : Earned cl' := by
  cases hs with
  | empty hp =>
    have hres : granted (cl.results ++ [([], Except.ok 0)]) = granted cl.results := by simp [granted]
    show (granted (cl.results ++ [([], Except.ok 0)]) ++ []).Sublist cl.complete
    rw [hres, List.append_nil]
    exact h.granted
  | @start events hp hne =>
    refine h.of_still rfl rfl ?_
    rw [hp]
    exact (sendFrames_unfinished hne (hok events rfl hne)).2
  | @feed events f todo err hp hb =>
    have hres := h.granted
    rcases todo with _ | ⟨g, todo⟩ <;> rcases err with _ | e
    · exact List.Sublist.append hres (List.Sublist.refl [events])
    · show (granted cl.results ++ []).Sublist cl.complete
      rwa [List.append_nil]
    · show (granted cl.results ++ []).Sublist cl.complete
      rwa [List.append_nil]
    · show (granted cl.results ++ []).Sublist cl.complete
      rwa [List.append_nil]
  | flush hp => exact h.of_still rfl rfl (by rw [hp]; rfl)
  | write hw hk hl => exact h.of_still rfl rfl rfl
  | flushed hp hw => exact h.of_still rfl rfl (by rw [hp]; rfl)
  | read hp hc hst => exact h.of_still rfl rfl rfl
  | ended hp => exact h.of_still rfl rfl rfl
  | @next events f r hp he hr hd =>
    have hpend : cl.phase.pending.toList = [events] := by
      rw [hp]
      rfl
    rw [Earned, hpend] at h
    cases f with
    | ack seq =>
      simp only [onFrame]
      split
      · show (granted (cl.results ++ [(events, Except.ok (count events))]) ++ []).Sublist cl.complete
        rw [List.append_nil]
        exact (granted_ok _ _ _).trans h
      · rw [Earned]
        show (granted cl.results ++ cl.phase.pending.toList).Sublist cl.complete
        rwa [hpend]
    | _ =>
      show (granted (cl.results ++ [(events, Except.error _)]) ++ []).Sublist cl.complete
      rw [granted_error, List.append_nil]
      exact (List.sublist_append_left _ _).trans h
  | undecodable hp he hd => exact h.of_error rfl rfl rfl
  | exhausted hp he => exact h.of_error rfl rfl rfl
  | truncated hp he => exact h.of_error rfl rfl rfl
  | paused hp he => exact h.of_error rfl rfl rfl
  | unfed hp => exact h.of_error rfl rfl rfl
  | closed hp => exact h.of_error rfl rfl rfl
  | giveUp ha => exact h.of_error rfl rfl rfl

/-- What is fed is written or stays buffered. -/
theorem Step.buffered (hs : Step z toVec b cl a cl') {sent : Bytes} (h : sent ++ cl.wbuf = cl.fed) :
    sent ++ cl.output a ++ cl'.wbuf = cl'.fed := by
  have still (ho : cl.output a = []) (hw : cl'.wbuf = cl.wbuf) (hf : cl'.fed = cl.fed) :
      sent ++ cl.output a ++ cl'.wbuf = cl'.fed := by
    rw [ho, hw, hf, List.append_nil]
    exact h
  cases hs with
  | @feed events f todo err hp hb =>
    show sent ++ [] ++ (cl.wbuf ++ f.encode z) = cl.fed ++ f.encode z
    rw [List.append_nil, ← List.append_assoc, h]
  | @write k hw hk hl =>
    show sent ++ cl.wbuf.take k ++ cl.wbuf.drop k = cl.fed
    rw [List.append_assoc, List.take_append_drop]
    exact h
  | @next events f r hp he hr hd =>
    obtain ⟨hf, hw, -⟩ := onFrame_keeps { cl with rbuf := r, heard := cl.heard ++ [f] } events f
    exact still rfl hw hf
  | giveUp ha =>
    refine still ?_ rfl rfl
    obtain rfl | rfl | ⟨msg, rfl⟩ := ha <;> rfl
  | _ => exact still rfl rfl rfl

end Granted

section Server

variable {z : Flate} {toVec : T → Except String Bytes} {level : UInt32} {cfg : ConnectionConfig}
variable {cl : Client T}

/-- A stream that ends early leads to fewer batches. -/
theorem outcome_front {w v : Bytes} (h : w <+: v) :
    (Position.window.outcome z cfg w).batches <+: (Position.window.outcome z cfg v).batches := by
  obtain ⟨t, rfl⟩ := h
  rw [← Position.outcomeBy_decoder, ← Position.outcomeBy_decoder]
  exact Position.outcomeBy_append _ _ w t

/-- A stream that is not refused leads to every complete batch. -/
theorem Streams.batches_all (h : Streams z toVec level cfg cl)
    (hok : (Position.window.outcome z cfg cl.fed).result = .ok ()) :
    (Position.window.outcome z cfg cl.fed).batches = cl.complete.map (deliver toVec) := by
  obtain ⟨ds, pos, hr, ho, hd, hpos⟩ := h
  rw [hr.outcome_end ho] at hok ⊢
  rcases hpos with ⟨e, rfl⟩ | ⟨rfl, -⟩
  · cases hok
  · rfl

/-- However the bytes are cut into reads. -/
theorem runConnection_reads (z : Flate) (cfg : ConnectionConfig) (env : Nat → Nat × Release) (reads : List Bytes) :
    (runConnection z cfg env (.ofReads reads)).batches =
        (Position.window.outcome z cfg reads.flatten).batches ∧
      (runConnection z cfg env (.ofReads reads)).result =
        (Position.window.outcome z cfg reads.flatten).result := by
  have hsame : runConnection z cfg env (.ofReads reads) =
      runConnection z cfg env (.ofReads [reads.flatten]) :=
    runConnection_congr env (by simp [Source.pending, Source.ofReads])
  rw [hsame, runConnection_outcome]
  exact ⟨rfl, rfl⟩

end Server

namespace Lifetime

variable {z : Flate} {toVec : T → Except String Bytes} {b : ClientBuilder} {cfg : ConnectionConfig}
variable {x x' : Lifetime T} {a : Act T}

/-- Every batch fits the 32-bit fields of its frames. -/
def Narrows (z : Flate) (toVec : T → Except String Bytes) (b : ClientBuilder) (_ : Lifetime T) :
    Act T → Prop
  | .call (.start events) => events ≠ [] → Narrow z toVec b.compressionLevel events
  | _ => True

structure Inv (z : Flate) (toVec : T → Except String Bytes) (b : ClientBuilder)
    (cfg : ConnectionConfig) (x : Lifetime T) : Prop where
  buffered : x.sent ++ x.client.wbuf = x.client.fed
  streams : Streams z toVec b.compressionLevel cfg x.client
  earned : Earned x.client
  closed : x.ending = .closed (.ok ()) → x.client.wbuf = []

theorem init_inv (z : Flate) (toVec : T → Except String Bytes) (b : ClientBuilder)
    (cfg : ConnectionConfig) : (init T).Inv z toVec b cfg where
  buffered := rfl
  streams := .init z toVec _ cfg
  earned := List.Sublist.refl []
  closed := fun h => by cases h

theorem Step.inv (hz : z.Lawful) (hs : Step z toVec b x a x') (hok : Narrows z toVec b x a)
    (h : x.Inv z toVec b cfg) : x'.Inv z toVec b cfg := by
  cases hs with
  | @call c cl hu hcl =>
    have hcl := Client.step_cases hcl
    have hn : ∀ events, c = .start events → events ≠ [] →
        Narrow z toVec b.compressionLevel events := by
      rintro events rfl
      exact hok
    exact ⟨hcl.buffered h.buffered, hcl.streams hz hn h.streams, hcl.earned hn h.earned,
      fun he => by cases he⟩
  | cancel hu =>
    refine ⟨h.buffered, h.streams.of_still rfl rfl (fun pos _ => .resting (fun _ _ _ hq => by cases hq)),
      ?_, fun he => by cases hu.symm.trans he⟩
    show (granted x.client.results ++ []).Sublist x.client.complete
    rw [List.append_nil]
    exact h.earned.granted
  | close hu hp => exact ⟨h.buffered, h.streams, h.earned, fun he => by cases he⟩
  | @write k hc hk hl =>
    refine ⟨?_, h.streams.of_still rfl rfl (fun pos hst => hst), h.earned, fun he => ?_⟩
    · show x.sent ++ x.client.wbuf.take k ++ x.client.wbuf.drop k = x.client.fed
      rw [List.append_assoc, List.take_append_drop]
      exact h.buffered
    · cases hc.symm.trans he
  | shutdown hc hw => exact ⟨h.buffered, h.streams, h.earned, fun _ => hw⟩
  | fail hc => exact ⟨h.buffered, h.streams, h.earned, fun he => by cases he⟩
  | drop hu => exact ⟨h.buffered, h.streams, h.earned, fun he => by cases he⟩

theorem run_inv (hz : z.Lawful) {as : List (Act T)}
    (hrun : Run (step z toVec b) (Narrows z toVec b) (init T) as x) : x.Inv z toVec b cfg := by
  apply hrun.invariant (init_inv z toVec b cfg)
  intro x a x' h hok hs
  exact (step_cases hs).inv hz hok h

/-- **What a client leaves behind.** However a client was used with batches that fit the
32-bit fields, calls that failed or were cancelled included, and however it ended,
`run_connection` on any part of what it wrote dispatches a front of the batches that
were completely fed, and those whose call returned `Ok` are among the latter in their
order. After a `close` that returned `Ok`, everything fed has been written, and a
connection that ends well has dispatched every one of them, those of failed calls too. -/
theorem close_delivers (z : Flate) (hz : z.Lawful) (toVec : T → Except String Bytes)
    (b : ClientBuilder) (cfg : ConnectionConfig) (env : Nat → Nat × Release) (as : List (Act T))
    (x : Lifetime T) (hrun : Run (step z toVec b) (Narrows z toVec b) (init T) as x)
    (reads : List Bytes) (hreads : reads.flatten <+: x.sent) :
    let log := runConnection z cfg env (.ofReads reads)
    log.batches <+: x.client.complete.map (deliver toVec) ∧
    (granted x.client.results).Sublist x.client.complete ∧
    (x.ending = .closed (.ok ()) → x.sent = x.client.fed ∧
      (reads.flatten = x.sent → log.result = .ok () →
        log.batches = x.client.complete.map (deliver toVec))) := by
  intro log
  have h : x.Inv z toVec b cfg := run_inv hz hrun
  obtain ⟨hb, hr⟩ := runConnection_reads z cfg env reads
  have hsent : x.sent <+: x.client.fed := ⟨_, h.buffered⟩
  refine ⟨?_, h.earned.granted, fun hend => ?_⟩
  · rw [hb]
    exact (outcome_front (hreads.trans hsent)).trans h.streams.batches
  · have hall : x.sent = x.client.fed := by
      rw [← h.buffered, h.closed hend, List.append_nil]
    refine ⟨hall, fun hcut hok => ?_⟩
    rw [hr, hcut, hall] at hok
    rw [hb, hcut, hall]
    exact h.streams.batches_all hok

end Lifetime

/-- The batches given to the calls that have returned, whatever they returned. -/
def called (rs : List (List T × Result UInt32)) : List (List T) :=
  (rs.map Prod.fst).filter fun events => !events.isEmpty

/-- No frame of the call is left to be fed. -/
def Phase.fed : Phase T → Bool
  | .feeding _ _ _ => false
  | _ => true

/-- Every call was fed to its end, and the receiving loop follows. -/
structure Tidy (z : Flate) (toVec : T → Except String Bytes) (level : UInt32)
    (cfg : ConnectionConfig) (cl : Client T) : Prop where
  clean : CleanStream z toVec level cfg cl
  account : Account cl
  whole : cl.complete = called cl.results ++ cl.phase.pending.toList

section Tidy

variable {z : Flate} {toVec : T → Except String Bytes} {b : ClientBuilder} {cfg : ConnectionConfig}
variable {level : UInt32} {cl cl' : Client T} {a : Client.Act T} {events : List T}

theorem called_concat (rs : List (List T × Result UInt32)) (hne : events ≠ []) (r : Result UInt32) :
    called (rs ++ [(events, r)]) = called rs ++ [events] := by
  simp [called, hne]

/-- The call in progress returns, all its frames fed. -/
theorem whole_of_finish (h : Tidy z toVec level cfg cl) (hp : cl.phase.pending = some events)
    (hhas : cl.phase.Has events) (r : Result UInt32) (hc : cl'.complete = cl.complete)
    (hr : cl'.results = cl.results ++ [(events, r)]) (hi : cl'.phase = .idle) :
    cl'.complete = called cl'.results ++ cl'.phase.pending.toList := by
  rw [hc, hr, hi, called_concat _ (h.account.given events hhas), h.whole, hp]
  exact (List.append_nil _).symm

/-- A call that returns from its flush or its wait leaves the stream between windows. -/
theorem CleanStream.rests (h : CleanStream z toVec level cfg cl) (hp : cl.phase.fed)
    (hf : cl'.fed = cl.fed) (hc : cl'.complete = cl.complete) (hi : cl'.phase = .idle) :
    CleanStream z toVec level cfg cl' := by
  refine ⟨.window, ?_, trivial, ?_⟩
  · rw [hf, hc]
    apply h.at_rest
    intro events todo err hq
    rw [hq] at hp
    cases hp
  · rw [hi]
    exact .resting (fun _ _ _ hq => by cases hq)

theorem pending_of_has (hf : cl.phase.fed) (hh : cl.phase.Has events) :
    cl.phase.pending = some events := by
  cases hp : cl.phase with
  | idle =>
    rw [hp] at hh
    cases hh
  | feeding ev todo err =>
    rw [hp] at hf
    cases hf
  | flushing ev | awaiting ev =>
    rw [hp] at hh
    cases hh
    rfl

/-- Only a call that waits can run into its acknowledgement timeout. -/
theorem fed_of_ackTimeout (hs : cl.step z toVec b .ackTimeout = some cl') : cl.phase.fed := by
  simp only [step] at hs
  split at hs
  · rename_i events hp
    rw [hp]
    rfl
  · cases hs

theorem step_tidy (hz : z.Lawful) (hm : cfg.maxFrameSize < 2^32)
    (hs : cl.step z toVec b a = some cl')
    (hstart : ∀ events, a = .start events → events ≠ [] →
      Sendable z toVec b.compressionLevel cfg.maxFrameSize events)
    (hfault : (a = .writeTimeout ∨ ∃ msg, a = .fail msg) → cl.phase.fed)
    (h : Tidy z toVec b.compressionLevel cfg cl) : Tidy z toVec b.compressionLevel cfg cl' := by
  have haccount := step_account hs h.account
  by_cases hup : a = .ackTimeout ∨ a = .writeTimeout ∨ ∃ msg, a = .fail msg
  · have hfed : cl.phase.fed := by
      rcases hup with rfl | hw
      · exact fed_of_ackTimeout hs
      · exact hfault hw
    obtain ⟨events, e, er, hhas, -, rfl⟩ := giveUp_of hup hs
    exact ⟨h.clean.rests hfed rfl rfl rfl, haccount,
      whole_of_finish h (pending_of_has hfed hhas) hhas _ rfl rfl rfl⟩
  · have hclean (hne : a ≠ .start []) : CleanStream z toVec b.compressionLevel cfg cl' := by
      refine (step_cases hs).clean hz hm (fun events ha => hstart events ha ?_) hup h.clean
      rintro rfl
      exact hne ha
    have hwhole := h.whole
    -- a call that returns from its wait
    have returned {events : List T} {r : Result UInt32} (hp : cl.phase = .awaiting events)
        (hc : cl'.complete = cl.complete) (hr : cl'.results = cl.results ++ [(events, r)])
        (hi : cl'.phase = .idle) : cl'.complete = called cl'.results ++ cl'.phase.pending.toList :=
      whole_of_finish h (by rw [hp]; rfl) (by rw [hp]; rfl) r hc hr hi
    cases step_cases hs with
    | empty hp =>
      refine ⟨h.clean.rests (by rw [hp]; rfl) rfl rfl rfl, haccount, ?_⟩
      rw [hp] at hwhole
      show cl.complete = called (cl.results ++ [([], Except.ok 0)]) ++ []
      rw [hwhole]
      simp [called, Phase.pending]
    | @start events hp hne =>
      refine ⟨hclean (fun ha => hne (Client.Act.start.inj ha)), haccount, ?_⟩
      rw [hp] at hwhole
      have hn := (hstart events rfl hne).narrow hm
      show cl.complete = called cl.results ++ Option.toList (Phase.pending _)
      rw [(sendFrames_unfinished hne hn).2]
      exact hwhole
    | @feed events f todo err hp hb =>
      obtain rfl : err = none := h.clean.no_error hm hp
      refine ⟨hclean (fun ha => by cases ha), haccount, ?_⟩
      rw [hp] at hwhole
      have hbefore : cl.complete = called cl.results := hwhole.trans (List.append_nil _)
      cases todo with
      | nil =>
        show cl.complete ++ [events] = called cl.results ++ [events]
        rw [hbefore]
      | cons g todo => exact hbefore.trans (List.append_nil _).symm
    | flush hp =>
      rw [hp] at hwhole
      exact ⟨hclean (fun ha => by cases ha), haccount, hwhole⟩
    | write hw hk hl => exact ⟨hclean (fun ha => by cases ha), haccount, hwhole⟩
    | flushed hp hw =>
      rw [hp] at hwhole
      exact ⟨hclean (fun ha => by cases ha), haccount, hwhole⟩
    | read hp hc hst => exact ⟨hclean (fun ha => by cases ha), haccount, hwhole⟩
    | ended hp => exact ⟨hclean (fun ha => by cases ha), haccount, hwhole⟩
    | @next events f r hp he hr hd =>
      refine ⟨hclean (fun ha => by cases ha), haccount, ?_⟩
      cases f with
      | ack seq =>
        by_cases hle : count events ≤ seq
        · simp only [onFrame, if_pos hle] at returned ⊢
          exact returned hp rfl rfl rfl
        · simp only [onFrame, if_neg hle]
          exact hwhole
      | _ => exact returned hp rfl rfl rfl
    | undecodable hp he hd => exact ⟨hclean (fun ha => by cases ha), haccount, returned hp rfl rfl rfl⟩
    | exhausted hp he => exact ⟨hclean (fun ha => by cases ha), haccount, returned hp rfl rfl rfl⟩
    | truncated hp he => exact ⟨hclean (fun ha => by cases ha), haccount, returned hp rfl rfl rfl⟩
    | paused hp he => exact ⟨hclean (fun ha => by cases ha), haccount, returned hp rfl rfl rfl⟩
    | closed hp => exact ⟨hclean (fun ha => by cases ha), haccount, returned hp rfl rfl rfl⟩
    | unfed hp => cases h.clean.no_error hm hp
    | giveUp ha => exact absurd ha hup

end Tidy

namespace Lifetime

variable {z : Flate} {toVec : T → Except String Bytes} {b : ClientBuilder} {cfg : ConnectionConfig}
variable {x x' : Lifetime T} {a : Act T}

/-- The batches are within the limits, and no call fails while it has frames to feed or is
cancelled. -/
def Graceful (z : Flate) (toVec : T → Except String Bytes) (b : ClientBuilder) (max : Nat)
    (x : Lifetime T) : Act T → Prop
  | .call (.start events) => events ≠ [] → Sendable z toVec b.compressionLevel max events
  | .call .writeTimeout | .call (.fail _) => x.client.phase.fed
  | .cancel => False
  | _ => True

instance (z : Flate) (toVec : T → Except String Bytes) (b : ClientBuilder) (max : Nat)
    (x : Lifetime T) : (a : Act T) → Decidable (Graceful z toVec b max x a)
  | .call (.start events) => inferInstanceAs (Decidable (events ≠ [] → _))
  | .call .writeTimeout | .call (.fail _) => inferInstanceAs (Decidable (x.client.phase.fed = true))
  | .call .feed | .call .flush | .call (.write _) | .call .flushed | .call (.read _) | .call .next
  | .call .eof | .call .ackTimeout | .close | .write _ | .shutdown | .fail _ | .drop => .isTrue trivial
  | .cancel => .isFalse id

theorem Graceful.narrows {max : Nat} (hm : max < 2^32) (h : Graceful z toVec b max x a) :
    Narrows z toVec b x a := by
  cases a with
  | call c =>
    cases c with
    | start events => exact fun hne => (h hne).narrow hm
    | _ => trivial
  | _ => trivial

/-- Once `close` has been called, no call is in progress. -/
structure GoodEnd (z : Flate) (toVec : T → Except String Bytes) (b : ClientBuilder)
    (cfg : ConnectionConfig) (x : Lifetime T) : Prop where
  tidy : Tidy z toVec b.compressionLevel cfg x.client
  idle : x.ending = .closing ∨ (∃ r, x.ending = .closed r) → x.client.phase = .idle

theorem Step.goodEnd (hz : z.Lawful) (hm : cfg.maxFrameSize < 2^32) (hs : Step z toVec b x a x')
    (hok : Graceful z toVec b cfg.maxFrameSize x a) (h : GoodEnd z toVec b cfg x) :
    GoodEnd z toVec b cfg x' := by
  cases hs with
  | @call c cl hu hcl =>
    refine ⟨step_tidy hz hm hcl ?_ ?_ h.tidy, by simp⟩
    · rintro events rfl
      exact hok
    · rintro (rfl | ⟨msg, rfl⟩)
      · exact hok
      · exact hok
  | cancel hu => exact hok.elim
  | close hu hp => exact ⟨h.tidy, fun _ => hp⟩
  | write hc hk hl =>
    refine ⟨⟨h.tidy.clean.of_still rfl rfl (fun pos hst => hst), ?_, h.tidy.whole⟩, h.idle⟩
    exact ⟨h.tidy.account.heard, h.tidy.account.given, h.tidy.account.raised⟩
  | shutdown hc hw => exact ⟨h.tidy, fun _ => h.idle (.inl hc)⟩
  | fail hc => exact ⟨h.tidy, fun _ => h.idle (.inl hc)⟩
  | drop hu => exact ⟨h.tidy, by simp⟩

theorem run_goodEnd (hz : z.Lawful) (hm : cfg.maxFrameSize < 2^32) {as : List (Act T)}
    (hrun : Run (step z toVec b) (Graceful z toVec b cfg.maxFrameSize) (init T) as x) :
    GoodEnd z toVec b cfg x := by
  apply hrun.invariant (P := GoodEnd z toVec b cfg)
  · exact ⟨⟨.init z toVec _ cfg, .init T, rfl⟩, fun _ => rfl⟩
  · intro x a x' h hok hs
    exact (step_cases hs).goodEnd hz hm hok h

/-- **A graceful close delivers every batch.** When the batches are within the limits,
no call failed before its frames were fed and none was cancelled, a client whose `close`
returned `Ok` has every batch it was given dispatched exactly once and in order,
whatever the calls returned, acknowledgement and flush timeouts included, and the
connection ends well. -/
theorem graceful_close (z : Flate) (hz : z.Lawful) (toVec : T → Except String Bytes)
    (b : ClientBuilder) (cfg : ConnectionConfig) (hm : cfg.maxFrameSize < 2^32)
    (env : Nat → Nat × Release) (as : List (Act T)) (x : Lifetime T)
    (hrun : Run (step z toVec b) (Graceful z toVec b cfg.maxFrameSize) (init T) as x)
    (hend : x.ending = .closed (.ok ())) (reads : List Bytes) (hreads : reads.flatten = x.sent) :
    let log := runConnection z cfg env (.ofReads reads)
    log.batches = (called x.client.results).map (deliver toVec) ∧ log.result = .ok () := by
  intro log
  have hinv : x.Inv z toVec b cfg := run_inv hz (hrun.mono fun _ _ h => h.narrows hm)
  have h : GoodEnd z toVec b cfg x := run_goodEnd hz hm hrun
  have hidle := h.idle (.inr ⟨_, hend⟩)
  have hall : reads.flatten = x.client.fed := by
    rw [hreads, ← hinv.buffered, hinv.closed hend, List.append_nil]
  have hwhole : x.client.complete = called x.client.results := by
    rw [h.tidy.whole, hidle]
    exact List.append_nil _
  have hout : Position.window.outcome z cfg x.client.fed =
      ⟨x.client.complete.map (deliver toVec), .ok ()⟩ := by
    have hreads := h.tidy.clean.at_rest (fun _ _ _ hq => by rw [hidle] at hq; cases hq)
    exact hreads.outcome_end trivial
  obtain ⟨hb, hr⟩ := runConnection_reads z cfg env reads
  rw [hall, hout] at hb hr
  exact ⟨hb.trans (by rw [hwhole]), hr⟩

/-- Two calls give up, one in its flush and one waiting; then the client is closed. -/
def sampleCloses : List (Act Bytes) :=
  [.call (.start [[123, 125]]), .call .feed, .call .feed, .call .flush, .call (.write 10),
    .call .writeTimeout, .call (.start [[91, 93], [34, 34]]), .call .feed, .call .feed, .call .feed,
    .call .flush, .call (.write 38), .call .flushed, .call .ackTimeout, .close, .shutdown]

theorem close_delivers_sample :
    ∃ x : Lifetime Bytes, x.client.results =
        [([[123, 125]], .error .writeTimeout), ([[91, 93], [34, 34]], .error .ackTimeout)] ∧
      (runConnection .sample ⟨1024, none⟩ prompt (.ofReads [x.sent])).batches =
        x.client.complete.map (deliver .ok) := by
  obtain ⟨x, hrun, hf⟩ : ∃ x : Lifetime Bytes, Run
      (step .sample .ok { compressionLevel := 0, writeTimeout := some 1000 })
      (Graceful .sample .ok { compressionLevel := 0, writeTimeout := some 1000 } 1024)
      (init Bytes) sampleCloses x ∧
      decide (x.client.results =
          [([[123, 125]], .error .writeTimeout), ([[91, 93], [34, 34]], .error .ackTimeout)] ∧
        x.ending = .closed (.ok ()) ∧
        (runConnection .sample ⟨1024, none⟩ prompt (.ofReads [x.sent])).result = .ok ()) = true :=
    Run.exists_of_exec (by decide +kernel)
  obtain ⟨hres, hend, hok⟩ := of_decide_eq_true hf
  obtain ⟨-, -, hall⟩ := close_delivers .sample Flate.sample_lawful .ok
    { compressionLevel := 0, writeTimeout := some 1000 } ⟨1024, none⟩ prompt sampleCloses x
    (hrun.mono fun _ _ h => h.narrows (by decide)) [x.sent] (by simp)
  exact ⟨x, hres, (hall hend).2 (by simp) hok⟩

theorem graceful_close_sample :
    ∃ x : Lifetime Bytes, x.client.results =
        [([[123, 125]], .error .writeTimeout), ([[91, 93], [34, 34]], .error .ackTimeout)] ∧
      (runConnection .sample ⟨1024, none⟩ prompt (.ofReads [x.sent])).batches =
        [deliver .ok [[123, 125]], deliver .ok [[91, 93], [34, 34]]] := by
  obtain ⟨x, hrun, hf⟩ : ∃ x : Lifetime Bytes, Run
      (step .sample .ok { compressionLevel := 0, writeTimeout := some 1000 })
      (Graceful .sample .ok { compressionLevel := 0, writeTimeout := some 1000 } 1024)
      (init Bytes) sampleCloses x ∧
      decide (x.client.results =
          [([[123, 125]], .error .writeTimeout), ([[91, 93], [34, 34]], .error .ackTimeout)] ∧
        x.ending = .closed (.ok ())) = true :=
    Run.exists_of_exec (by decide +kernel)
  obtain ⟨hres, hend⟩ := of_decide_eq_true hf
  obtain ⟨hb, -⟩ := graceful_close .sample Flate.sample_lawful .ok
    { compressionLevel := 0, writeTimeout := some 1000 } ⟨1024, none⟩ (by decide) prompt sampleCloses x
    hrun hend [x.sent] (by simp)
  rw [hres] at hb
  exact ⟨x, hres, hb⟩

end Lifetime
end Lumberjack.Client
