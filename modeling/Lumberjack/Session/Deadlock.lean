import Lumberjack.Session.ExactlyOnce

/-!
# No cycle of waiting

Client writes, keepalives and acknowledgements, and the batch channel can each wait
for room. Without faults on any connection, and with nothing left for the consumer
to release, a call that has not returned always finds one of the parties able to
move: a client, a handler that does more than tick, or `Server::recv`.
-/
namespace Lumberjack

open Lumberjack.Stream Lumberjack.Wire Lumberjack.Server Lumberjack.Process Lumberjack.Client

namespace Session

variable {ι T : Type} [DecidableEq ι] {S : Setup ι T} {s s' : Session ι T} {c : ι}

/-- No fault on any connection. -/
def Calm (S : Setup ι T) (s : Session ι T) (a : Act ι T) : Prop := ∀ c, Faultless S c s a

/-- The steps of a client inside a call, of a handler apart from a keepalive tick,
and of `Server::recv`. A new call and a release are not among them. -/
def Act.Moving : Act ι T → Prop
  | .client _ (.start _) => False
  | .client _ _ => True
  | .server (.handler _ .tick) => False
  | .server (.handler _ _) => True
  | .server .recv => True
  | .server (.release _ _) => False
  | .server .dropServer => False

omit [DecidableEq ι] in
theorem work_of_link (hl : s'.link c = s.link c) (hq : s'.hub.queue = s.hub.queue)
    (hh : s'.hub.held = s.hub.held) : s'.work S.z c = s.work S.z c := by
  rw [work, work, hl, hq, hh]

/-- A step of another client. -/
theorem work_other_client {c' : ι} (hc : c ≠ c') {b : Client.Act T}
    (hs : step S s (.client c' b) = some s') : s'.work S.z c = s.work S.z c := by
  cases step_cases hs with
  | client ha he hs => exact work_of_link (by simp [link, setClient, hc]) rfl rfl
  | clientWrite hs => exact work_of_link (by simp [link, setClient, hc]) rfl rfl
  | clientRead hs hd => exact work_of_link (by simp [link, setClient, hc]) rfl rfl

/-- A handler's own step that moves no bytes through a socket. -/
theorem step_own {c' : ι} {b : Handler.Act} (hq : Link.QuietHandler b) (hl : Hub.Local b)
    (hs : step S s (.server (.handler c' b)) = some s') :
    ∃ h, Handler.Step S.z S.server (s.hub.handlers c') b h ∧ s' = s.setHub (s.hub.setHandler c' h) := by
  cases step_cases hs with
  | serverRead => cases hq
  | serverWrite => cases hq
  | server ha hh =>
    generalize s.hub = hub at hh
    cases Hub.step_cases hh with
    | own ha hstep => exact ⟨_, hstep, rfl⟩
    | dispatch => cases hl
    | shutdown => cases hl

/-- An I/O error of another handler. -/
theorem work_other_fail {c' : ι} (hc : c ≠ c') {msg : String}
    (hs : step S s (.server (.handler c' (.fail msg))) = some s') : s'.work S.z c = s.work S.z c := by
  obtain ⟨h, -, rfl⟩ := step_own (b := .fail msg) trivial trivial hs
  exact work_of_link (by simp [link, setHub, Hub.setHandler, hc]) rfl rfl

/-- A keepalive is more to write and to read. -/
theorem work_tick {c' : ι} (hs : step S s (.server (.handler c' .tick)) = some s') :
    s.work S.z c ≤ s'.work S.z c := by
  obtain ⟨h, hstep, rfl⟩ := step_own (b := .tick) trivial trivial hs
  by_cases hc : c = c'
  · subst hc
    generalize hh : s.hub.handlers c = h₀ at hstep
    cases hstep with
    | tick hp hk hrx =>
      simp only [work, link, setHub, Hub.setHandler, Function.update_self, Link.work, Handler.send, hh,
        List.length_append]
      omega
  · have hw : (s.setHub (s.hub.setHandler c' h)).work S.z c = s.work S.z c :=
      work_of_link (by simp [link, setHub, Hub.setHandler, hc]) rfl rfl
    exact Nat.le_of_eq hw.symm

/-- A new call is one call more. -/
theorem calls_start {events : List T} (hs : step S s (.client c (.start events)) = some s') :
    (s'.clients c).calls.length = (s.clients c).calls.length + 1 := by
  cases step_cases hs with
  | client ha he hstep =>
    generalize hcl : s.clients c = cl at hstep
    simp only [setClient, Function.update_self]
    cases hstep with
    | empty hp => simp [Client.calls, Client.finish, hp, Phase.call]
    | start hp hne => simp [Client.calls, hp, Phase.call]
    | giveUp ha => simp at ha

/-- With nothing to release, a step that brings the call nearer to its return is one
of the moving ones, and no fault on any connection. -/
theorem Advances.moving (h : Advances S c s) (hheld : s.hub.held = []) :
    ∃ a s', Calm S s a ∧ a.Moving ∧ step S s a = some s' := by
  obtain ⟨a, s', hok, hs, hcalls, hlt⟩ := h
  refine ⟨a, s', ?_, ?_, hs⟩
  · intro c'
    cases a with
    | client c₀ b =>
      rintro rfl
      by_cases hc : c = c₀
      · subst hc
        exact hok rfl
      · rw [work_other_client hc hs] at hlt
        exact absurd hlt (Nat.lt_irrefl _)
    | server b =>
      cases b with
      | handler c₀ b =>
        cases b with
        | fail msg =>
          rw [work_other_fail (Ne.symm hok) hs] at hlt
          exact absurd hlt (Nat.lt_irrefl _)
        | _ => simp [Faultless]
      | dropServer => exact absurd rfl hok
      | _ => simp [Faultless]
  · cases a with
    | client c₀ b =>
      cases b with
      | start events =>
        by_cases hc : c = c₀
        · subst hc
          have hone := calls_start hs
          rw [hcalls] at hone
          omega
        · rw [work_other_client hc hs] at hlt
          exact absurd hlt (Nat.lt_irrefl _)
      | _ => trivial
    | server b =>
      cases b with
      | handler c₀ b =>
        cases b with
        | tick => exact absurd (work_tick hs) (Nat.not_le.mpr hlt)
        | _ => trivial
      | recv => trivial
      | release tx how => simp [step, hubStep, Hub.step, hheld] at hs
      | dropServer => exact absurd rfl hok

/-- **Deadlock freedom.** For any connections, any capacity of the batch channel and
any positive sizes of the sockets: in every state of a session without faults in
which the consumer holds nothing and some call has not returned, a client inside its
call, a handler apart from a keepalive tick, or `Server::recv` can take a step. -/
theorem deadlock_free (S : Setup ι T) (hz : S.z.Lawful) (hm : S.server.maxFrameSize < 2^32)
    (hcap : 1 ≤ S.capacity) (hup : ∀ c, 0 < S.upRoom c) (hdown : ∀ c, 0 < S.downRoom c)
    (as : List (Act ι T)) (s : Session ι T) (hrun : Run (step S) (Calm S) (init ι T) as s)
    (hheld : s.hub.held = []) (c : ι) (hcall : (s.clients c).phase ≠ .idle) :
    ∃ a s', Calm S s a ∧ a.Moving ∧ step S s a = some s' := by
  have hrun' : Run (step S) (Faultless S c) (init ι T) as s := hrun.mono (fun _ _ h => h c)
  have hadv := run_advances hz hm hcap (hup c) (hdown c) hrun' hcall
  exact hadv.moving hheld

/-- A client that has filled a socket of one byte. -/
theorem deadlock_free_sample :
    ∃ s : Session Unit Bytes, (s.up () = [50] ∧ (s.clients ()).phase ≠ .idle) ∧
      ∃ a s', Act.Moving a ∧ step { sampleSetup with upRoom := fun _ => 1 } s a = some s' := by
  let S : Setup Unit Bytes := { sampleSetup with upRoom := fun _ => 1 }
  obtain ⟨s, hrun, hf⟩ : ∃ s : Session Unit Bytes, Run (step S) (Faultless S ()) (init Unit Bytes)
      [.client () (.start [[123, 125]]), .client () .feed, .client () .feed, .client () .flush,
        .client () (.write 1)] s ∧
      ((s.clients ()).phase.call.isSome, s.up (), s.hub.held) = (true, [50], []) :=
    Run.exists_of_exec (by decide +kernel)
  have hcall : (s.clients ()).phase ≠ .idle := by
    intro hidle
    have hsome := congrArg Prod.fst hf
    simp only [hidle, Phase.call, Option.isSome_none] at hsome
    cases hsome
  have hcalm : Run (step S) (Calm S) (init Unit Bytes) _ s := hrun.mono (fun _ _ h _ => h)
  obtain ⟨a, s', -, hmove, hstep⟩ := deadlock_free S Flate.sample_lawful (by decide) (by decide)
    (fun _ => Nat.zero_lt_one) (fun _ => Nat.zero_lt_succ 4095) _ s hcalm (congrArg (fun x => x.2.2) hf) () hcall
  exact ⟨s, ⟨congrArg (fun x => x.2.1) hf, hcall⟩, a, s', hmove, hstep⟩

end Session
end Lumberjack
