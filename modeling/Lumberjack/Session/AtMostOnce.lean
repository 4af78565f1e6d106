import Lumberjack.Client.Close
import Lumberjack.Session.Quiesce

/-!
# At most once, and whole

Calls may time out in a feed, in a flush or in their wait, a stream may break, the `Server`
may be dropped, and the client may be used again after any of these. The bytes of a call
that was given up half-way stay on the stream, in front of those of the next. Still the
consumer receives nothing but the batches of whole calls, each at most once and in the
order of the calls: an unfinished window is never completed by the frames of another call.
-/
namespace Lumberjack

open Lumberjack.Stream Lumberjack.Wire Lumberjack.Server Lumberjack.Process Lumberjack.Client

namespace Client

variable {T : Type} {z : Flate} {toVec : T → Except String Bytes} {b : ClientBuilder}
variable {cl cl' : Client T} {a : Act T} {made : List (List T)}

/-- The batch of a call with frames left to feed. -/
def Phase.waiting : Phase T → List (List T)
  | .feeding events (_ :: _) _ => [events]
  | _ => []

theorem Phase.waiting_feeding (events : List T) (todo : List Frame) (err : Option Error) :
    (Phase.feeding events todo err).waiting.Sublist [events] := by
  cases todo with
  | nil => exact List.nil_sublist _
  | cons f todo => exact List.Sublist.refl _

/-- Batches become complete one at a time, each in the course of its own call. -/
theorem Step.complete (hs : Step z toVec b cl a cl')
    (h : (cl.complete ++ cl.phase.waiting).Sublist made) :
    (cl'.complete ++ cl'.phase.waiting).Sublist (made ++ a.started) := by
  have hc : cl.complete.Sublist made := (List.sublist_append_left _ _).trans h
  have still (hs : (cl'.complete ++ cl'.phase.waiting).Sublist made) :
      (cl'.complete ++ cl'.phase.waiting).Sublist (made ++ a.started) :=
    hs.trans (List.sublist_append_left _ _)
  -- a call that feeds nothing more
  have fedAll (hd : cl'.complete = cl.complete) (hp : cl'.phase.waiting = []) :
      (cl'.complete ++ cl'.phase.waiting).Sublist (made ++ a.started) := by
    apply still
    rw [hd, hp, List.append_nil]
    exact hc
  cases hs with
  | @start events hp hne => exact List.Sublist.append hc (Phase.waiting_feeding _ _ _)
  | @feed events f todo err hp hb =>
    rw [hp] at h
    rcases todo with _ | ⟨g, todo⟩
    · rcases err with _ | e
      · apply still
        show (cl.complete ++ [events] ++ []).Sublist made
        rw [List.append_nil]
        exact h
      · exact fedAll rfl rfl
    · exact still h
  | write hw hk hl => exact still h
  | read hp hcn hst => exact still h
  | ended hp => exact still h
  | @next events f r hp he hr hd =>
    cases f with
    | ack seq =>
      by_cases hle : count events ≤ seq
      · simp only [onFrame, if_pos hle] at fedAll ⊢
        exact fedAll rfl rfl
      · simp only [onFrame, if_neg hle] at still ⊢
        exact still h
    | _ => exact fedAll rfl rfl
  | _ => exact fedAll rfl rfl

end Client

namespace Session

variable {ι T : Type} [DecidableEq ι] {S : Setup ι T} {s s' : Session ι T} {a : Act ι T}
variable {as : List (Act ι T)} {c : ι}

/-- The batches of one client fit the 32-bit fields of their frames. -/
def Narrowly (S : Setup ι T) (c : ι) (_ : Session ι T) : Act ι T → Prop
  | .client d (.start events) => d = c → events ≠ [] → Narrow S.z S.toVec (S.client c).compressionLevel events
  | _ => True

instance (S : Setup ι T) (c : ι) (s : Session ι T) : (a : Act ι T) → Decidable (Narrowly S c s a)
  | .client d (.start events) => inferInstanceAs (Decidable (d = c → events ≠ [] → _))
  | .client _ .feed | .client _ .flush | .client _ (.write _) | .client _ .flushed
  | .client _ (.read _) | .client _ .next | .client _ .eof | .client _ .ackTimeout
  | .client _ .writeTimeout | .client _ (.fail _) | .server _ => .isTrue trivial

omit [DecidableEq ι] in
theorem Narrowly.start {x : Client.Act T} (h : Narrowly S c s (.client c x)) :
    ∀ events, x = .start events → events ≠ [] →
      Narrow S.z S.toVec (S.client c).compressionLevel events := by
  rintro events rfl
  exact h rfl

theorem run_complete {ok : Session ι T → Act ι T → Prop} (hrun : Run (step S) ok (init ι T) as s)
    (c : ι) : ((s.clients c).complete ++ (s.clients c).phase.waiting).Sublist (started c as) := by
  induction hrun with
  | refl => exact List.Sublist.refl []
  | @tail as s s' a hrun hok hs ih =>
    rw [started, List.flatMap_append, ← started]
    cases a with
    | client d x =>
      obtain ⟨-, hother, hstep⟩ := client_moves hs
      by_cases hd : d = c
      · subst hd
        have hnext := hstep.client_step.1.complete ih
        simp only [List.flatMap_cons, List.flatMap_nil, List.append_nil, if_pos]
        exact hnext
      · have hsame : s'.clients c = s.clients c := congrArg Link.client (hother c (Ne.symm hd))
        rw [hsame]
        exact ih.trans (List.sublist_append_left _ _)
    | server x =>
      have hsame : s'.clients c = s.clients c := by
        cases step_cases hs <;> rfl
      rw [hsame]
      exact ih.trans (List.sublist_append_left _ _)

/-- The consumer has received the first of the batches that were completely fed. -/
theorem received_front (hz : S.z.Lawful) (hrun : Run (step S) (Narrowly S c) (init ι T) as s) :
    s.receivedFrom c <+: stamped c ((s.clients c).complete.map (deliver S.toVec)) := by
  have hinv := run_hub_inv hrun
  have hstreams : Streams S.z S.toVec (S.client c).compressionLevel S.server (s.clients c) :=
    run_client hrun (.init _ _ _ _) (fun hok hs h => hs.streams hz hok.start h)
  obtain ⟨lost, hord, -⟩ := hinv.order c
  have hfront : s.receivedFrom c <+: stamped c (s.hub.handlers c).dispatched := by
    rw [← hord, List.filter_append, List.append_assoc]
    exact List.prefix_append _ _
  have hdisp : (s.hub.handlers c).dispatched <+: (s.clients c).complete.map (deliver S.toVec) :=
    (Link.dispatched_front (hinv.follows c) (run_carried hrun c)).trans hstreams.batches
  exact hfront.trans (stamped_front c hdisp)

/-- **At most once, whole and in order.** In every run, whatever fails on either side and
however often the client is used again, with batches of connection `c` that fit the
32-bit fields: what the consumer has received from `c` are the first of the batches that
were completely fed, each with its own events; these belong to different calls, in the
order of the calls, and those whose call returned `Ok` are among them. -/
theorem at_most_once (S : Setup ι T) (hz : S.z.Lawful) (c : ι) (as : List (Act ι T))
    (s : Session ι T) (hrun : Run (step S) (Narrowly S c) (init ι T) as s) :
    s.receivedFrom c <+: stamped c ((s.clients c).complete.map (deliver S.toVec)) ∧
    (s.clients c).complete.Sublist (started c as) ∧
    (granted (s.clients c).results).Sublist (s.clients c).complete := by
  have hearned : Earned (s.clients c) :=
    run_client hrun (List.Sublist.refl []) (fun hok hs h => hs.earned hok.start h)
  have hcomplete := (List.sublist_append_left _ _).trans (run_complete hrun c)
  exact ⟨received_front hz hrun, hcomplete, hearned.granted⟩

/-- A call times out, and the next takes its late acknowledgement. The consumer has the
first batch only. -/
theorem at_most_once_sample :
    ∃ s : Session Unit Bytes,
      (s.clients ()).results = [([[123, 125]], .error .ackTimeout), ([[91, 93]], .ok 1)] ∧
      s.receivedFrom () <+: stamped () [delivery [[123, 125]], delivery [[91, 93]]] := by
  obtain ⟨s, hrun, hf⟩ : ∃ s : Session Unit Bytes, Run (step sampleSetup) (Narrowly sampleSetup ())
      (init Unit Bytes)
      (sampleCall [[123, 125]] ++ sampleServe [[123, 125]] ++ [.client () .ackTimeout] ++
        sampleCall [[91, 93]] ++ sampleRelease 0 1) s ∧
      ((s.clients ()).results, (s.clients ()).complete) =
        ([([[123, 125]], .error .ackTimeout), ([[91, 93]], .ok 1)], [[[123, 125]], [[91, 93]]]) :=
    Run.exists_of_exec (by decide +kernel)
  obtain ⟨hrec, -, -⟩ := at_most_once sampleSetup Flate.sample_lawful () _ s hrun
  have hcomplete : (s.clients ()).complete = [[[123, 125]], [[91, 93]]] := congrArg Prod.snd hf
  rw [hcomplete] at hrec
  exact ⟨s, congrArg Prod.fst hf, hrec⟩

end Session
end Lumberjack
