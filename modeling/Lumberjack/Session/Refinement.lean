import Lumberjack.Process.StopAndWait
import Lumberjack.Session.Quiesce

/-!
# A session is stop and wait

Seen from outside, a session without faults is the stop-and-wait protocol: a call submits
its batch, `Server::recv` takes it, its release frees it, and the `Ok` of the call
confirms it. Frames, buffers, sockets, the batch channel and the acknowledgements are
steps that cannot be seen.
-/
namespace Lumberjack

open Lumberjack.Stream Lumberjack.Wire Lumberjack.Server Lumberjack.Process Lumberjack.Client

/-- A step of a call in progress returns from it or adds no result. -/
theorem Client.Step.results {T : Type} {z : Flate} {toVec : T → Except String Bytes} {b : ClientBuilder}
    {cl cl' : Client T} {a : Client.Act T} (hs : Client.Step z toVec b cl a cl') :
    cl'.results = cl.results ∨ ∃ p, cl'.results = cl.results ++ [p] := by
  cases hs with
  | @next events f r hp he hr hd =>
    cases f with
    | ack seq =>
      simp only [onFrame]
      split
      · exact .inr ⟨_, rfl⟩
      · exact .inl rfl
    | _ => exact .inr ⟨_, rfl⟩
  | start | feed | flush | write | flushed | read | ended => exact .inl rfl
  | _ => exact .inr ⟨_, rfl⟩

/-- A new call with events returns nothing yet. -/
theorem Client.Step.begins {T : Type} {z : Flate} {toVec : T → Except String Bytes} {b : ClientBuilder}
    {cl cl' : Client T} {events : List T} (hs : Client.Step z toVec b cl (.start events) cl')
    (hne : events ≠ []) : cl'.results = cl.results := by
  cases hs with
  | empty hp => exact absurd rfl hne
  | start hp => rfl
  | giveUp ha => simp at ha

/-- No step of a handler but a release changes how many of its batches were released. -/
theorem Server.Handler.Step.freed {ι : Type} {z : Flate} {cfg : ConnectionConfig} {h h' : Handler}
    {a : Handler.Act} (hs : Handler.Step z cfg h a h') (ha : a ≠ .release) (hl : h.Logged cfg) (c : ι) :
    h'.dispatched.length - (h'.outstanding c).length = h.dispatched.length - (h.outstanding c).length := by
  by_cases hd : a = .dispatch
  · subst hd
    have hrx : h.ackRx ≠ .pending := by
      intro hrx
      have hout := hl.pending hrx
      cases hs with
      | dispatch hp =>
        have hnone := hl.settled (by rw [hp]; rfl)
        omega
    rw [Handler.outstanding_nil hrx]
    cases hs with
    | @dispatch w hp =>
      have hone : Handler.outstanding { h with
          phase := .awaitAck w.lastSeq, ackRx := .pending, dispatched := h.dispatched ++ [w.dispatch] } c =
          [stamp c ((h.dispatched ++ [w.dispatch]).length - 1) w.dispatch] :=
        Handler.outstanding_eq rfl List.getLast?_concat c
      rw [hone]
      simp
  · rw [Handler.outstanding_congr (hs.ackRx_eq hd ha) (hs.dispatched_eq hd), hs.dispatched_eq hd]

namespace Session

variable {ι T : Type} [DecidableEq ι] {S : Setup ι T} {s s' : Session ι T} {a : Act ι T}
variable {as : List (Act ι T)} {c : ι}

/-- The batches of a connection that were dispatched and released. -/
def freed (s : Session ι T) (c : ι) : Nat :=
  (s.hub.handlers c).dispatched.length - ((s.hub.handlers c).outstanding c).length

/-- What can be seen of a session. -/
def seen (s : Session ι T) : StopAndWait ι (List T) where
  submitted c := (s.clients c).calls
  taken c := (s.receivedFrom c).length
  freed := s.freed
  confirmed c := (s.clients c).results.length

/-- The four counters, as the parts of the session hold them. -/
structure Tallied (s : Session ι T) (c : ι) : Prop where
  confirmed : (s.clients c).results.length ≤ s.freed c
  dispatched : (s.hub.handlers c).dispatched.length ≤ (s.clients c).calls.length
  out : ((s.hub.handlers c).outstanding c).length ≤ (s.hub.handlers c).dispatched.length
  taken : (s.receivedFrom c).length + (s.hub.queue.filter fun b => b.owner = some c).length =
    (s.hub.handlers c).dispatched.length
  circulating : (s.hub.queue.filter fun b => b.owner = some c).length +
    (s.hub.held.filter fun b => b.owner = some c).length = ((s.hub.handlers c).outstanding c).length

theorem run_tallied (hz : S.z.Lawful) (hm : S.server.maxFrameSize < 2^32)
    (hrun : Run (step S) (Faultless S c) (init ι T) as s) : s.Tallied c := by
  have hlock := run_lockstep hz hm hrun
  have hinv := run_hub_inv hrun
  have hopen : s.hub.closed = false := run_open hrun
  obtain ⟨h1, h2, h3, -⟩ := hlock.counts
  have hcalls := hlock.complete_le
  simp only [link] at h1 h2 h3 hcalls
  have hperm := (hinv.owned.perm c).length_eq
  rw [List.filter_append, List.length_append] at hperm
  have htaken := congrArg List.length (receivedFrom_queue hinv hopen c)
  rw [List.length_append, stamped, List.length_mapIdx] at htaken
  have hout : ((s.hub.handlers c).outstanding c).length ≤
      (s.hub.handlers c).dispatched.length - (s.hub.handlers c).rounds.length := by
    by_cases hrx : (s.hub.handlers c).ackRx = .pending
    · have hone := (hinv.logged c).pending hrx
      have hle := (s.hub.handlers c).outstanding_length c
      omega
    · rw [Handler.outstanding_nil hrx]
      exact Nat.zero_le _
  exact ⟨by simp only [freed]; omega, by omega, by omega, htaken, hperm⟩

theorem client_seen (hz : S.z.Lawful) (hm : S.server.maxFrameSize < 2^32)
    (hrun : Run (step S) (Calm S) (init ι T) as s) {x : Client.Act T}
    (hok : Calm S s (.client c x)) (hs : step S s (.client c x) = some s') :
    s'.seen = s.seen ∨ ∃ b, s.seen.step b = some s'.seen := by
  obtain ⟨hhub, hother, hstep⟩ := client_moves hs
  have hclient := hstep.client_step.1
  have hsame : ∀ d, d ≠ c → s'.clients d = s.clients d := fun d hd => congrArg Link.client (hother d hd)
  have hgentle := hok c rfl
  have hcalls : (s'.clients c).calls = (s.clients c).calls ++ x.started :=
    hclient.calls (by rintro (rfl | rfl | ⟨msg, rfl⟩) <;> exact hgentle)
  have htaken : s'.seen.taken = s.seen.taken := by
    funext d
    simp only [seen, receivedFrom, hhub]
  have hfreed : s'.seen.freed = s.seen.freed := by
    funext d
    simp only [seen, freed, hhub]
  by_cases hstart : ∃ events, x = .start events
  · -- a new call: its predecessor has returned
    obtain ⟨events, rfl⟩ := hstart
    have hidle : (s.clients c).phase = .idle := hclient.started
    have hresults : (s'.clients c).results = (s.clients c).results := hclient.begins hgentle.ne
    refine .inr ⟨.submit c events, ?_⟩
    have hguard : s.seen.confirmed c = (s.seen.submitted c).length := by
      simp [seen, Client.calls, hidle, Phase.call]
    simp only [StopAndWait.step, if_pos hguard, Option.some.injEq]
    refine StopAndWait.ext ?_ htaken.symm hfreed.symm ?_
    · funext d
      by_cases hd : d = c
      · subst hd
        simp only [seen, Function.update_self]
        exact hcalls.symm
      · simp [seen, hd, hsame d hd]
    · funext d
      by_cases hd : d = c
      · subst hd
        simp [seen, hresults]
      · simp [seen, hsame d hd]
  · have hsub : s'.seen.submitted = s.seen.submitted := by
      funext d
      by_cases hd : d = c
      · subst hd
        have hnone : x.started = [] := by
          cases x with
          | start events => exact absurd ⟨events, rfl⟩ hstart
          | _ => rfl
        rw [hnone, List.append_nil] at hcalls
        exact hcalls
      · simp only [seen, hsame d hd]
    rcases hclient.results with hres | ⟨p, hres⟩
    · -- the call goes on
      refine .inl (StopAndWait.ext hsub htaken hfreed ?_)
      funext d
      by_cases hd : d = c
      · subst hd
        exact congrArg List.length hres
      · simp only [seen, hsame d hd]
    · -- the call returns, and was answered for its own batch
      have hrun' : Run (step S) (Faultless S c) (init ι T) _ s' :=
        (hrun.tail hok hs).mono (fun _ _ h => h c)
      have hguard : s.seen.confirmed c < s.seen.freed c := by
        have hle : (s'.clients c).results.length ≤ s'.freed c := (run_tallied hz hm hrun').confirmed
        rw [← congrFun hfreed c]
        rw [show (s'.clients c).results = _ from hres, List.length_append, List.length_singleton] at hle
        exact hle
      refine .inr ⟨.confirm c, ?_⟩
      simp only [StopAndWait.step, if_pos hguard, Option.some.injEq]
      refine StopAndWait.ext hsub.symm htaken.symm hfreed.symm ?_
      funext d
      by_cases hd : d = c
      · subst hd
        have hlen : (s'.clients d).results.length = (s.clients d).results.length + 1 := by
          rw [show (s'.clients d).results = _ from hres, List.length_append]
          rfl
        simp only [seen, Function.update_self, hlen]
      · simp [seen, hd, hsame d hd]

/-- A step of the server leaves the clients as they are. -/
theorem server_clients {x : Hub.Act ι} (hs : step S s (.server x) = some s') :
    s'.clients = s.clients := by
  cases step_cases hs <;> rfl

theorem handler_received {x : Handler.Act} (hs : step S s (.server (.handler c x)) = some s') :
    s'.hub.received = s.hub.received := by
  obtain hsame | ⟨y, hy, hh⟩ := (step_cases hs).hub
  · rw [hsame]
  · cases hy
    generalize s'.hub = hub at hh
    cases Hub.step_cases hh <;> rfl

theorem handler_seen (hrun : Run (step S) (Calm S) (init ι T) as s) {x : Handler.Act}
    (hs : step S s (.server (.handler c x)) = some s') : s'.seen = s.seen := by
  have hopen : s.hub.closed = false := run_open (hrun.mono (fun _ _ h => h c))
  obtain ⟨hother, -, hq, -, hstep⟩ := handler_moves hopen hs
  have hclients := server_clients hs
  have hrelease : x ≠ .release := by
    rintro rfl
    simp [step, hubStep, Hub.step] at hs
  refine StopAndWait.ext ?_ ?_ ?_ ?_
  · funext d
    simp only [seen, hclients]
  · funext d
    simp only [seen, receivedFrom, handler_received hs]
  · funext d
    simp only [seen, freed]
    by_cases hd : d = c
    · subst hd
      exact hstep.handler_step.1.freed hrelease ((run_hub_inv hrun).logged d) d
    · rw [show s'.hub.handlers d = s.hub.handlers d from congrArg Link.handler (hother d hd)]
  · funext d
    simp only [seen, hclients]

/-- `Server::recv` takes the first batch in the queue from the connection it is of. -/
theorem recv_seen (hz : S.z.Lawful) (hm : S.server.maxFrameSize < 2^32)
    (hrun : Run (step S) (Calm S) (init ι T) as s) (hs : step S s (.server .recv) = some s') :
    ∃ b, s.seen.step b = some s'.seen := by
  cases step_cases hs with
  | server ha hh =>
    cases Hub.step_cases hh with
    | @recv x queue hopen hq =>
      obtain ⟨⟨c, k⟩, hack⟩ := (run_hub_inv hrun).owned.stamped x (by simp [hq])
      have howner : x.owner = some c := by
        simp [Batch.owner, hack]
      have htally := run_tallied hz hm (hrun.mono (fun _ _ h => h c))
      have hguard : s.seen.taken c < (s.seen.submitted c).length := by
        have hpos : 0 < (s.hub.queue.filter fun b => b.owner = some c).length := by
          simp [hq, howner]
        have htaken := htally.taken
        have hdisp := htally.dispatched
        simp only [seen]
        omega
      refine ⟨.take c, ?_⟩
      simp only [StopAndWait.step, if_pos hguard, Option.some.injEq]
      refine StopAndWait.ext rfl ?_ rfl rfl
      funext d
      by_cases hd : d = c
      · subst hd
        simp [seen, receivedFrom, setHub, howner]
      · have hne : ¬ c = d := Ne.symm hd
        simp [seen, receivedFrom, setHub, howner, hd, hne]

/-- A release frees the batch that the connection has out, which was received. -/
theorem release_seen (hz : S.z.Lawful) (hm : S.server.maxFrameSize < 2^32)
    (hrun : Run (step S) (Calm S) (init ι T) as s) {tx : ι × Nat} {how : Release}
    (hs : step S s (.server (.release tx how)) = some s') : ∃ b, s.seen.step b = some s'.seen := by
  have hinv := run_hub_inv hrun
  have hclients := server_clients hs
  obtain ⟨c, k⟩ := tx
  cases step_cases hs with
  | @server _ hub ha hh =>
    have hview := (Hub.step_cases hh).view hinv.owned
    have htally := run_tallied hz hm (hrun.mono (fun _ _ h => h c))
    have hrec : hub.received = s.hub.received := by
      cases Hub.step_cases hh
      rfl
    obtain ⟨x, hheld, hack, hstep⟩ : ∃ x ∈ s.hub.held, x.ack = some (c, k) ∧
        Handler.Step S.z S.server (s.hub.handlers c) .release (hub.handlers c) := by
      cases hview c with
      | unchanged he hne hnr => exact absurd rfl (hnr k how)
      | own ha => cases ha
      | dropped ha => cases ha
      | released ha hm hb hs =>
        cases ha
        exact ⟨_, hm, hb, hs⟩
    have hnone : ((hub.handlers c).outstanding c).length = 0 := by
      rw [Handler.outstanding_nil hstep.released_ackRx]
      rfl
    have hmem : 0 < (s.hub.held.filter fun b => b.owner = some c).length :=
      List.length_pos_iff.mpr (List.ne_nil_of_mem (List.mem_filter.mpr ⟨hheld, by simp [Batch.owner, hack]⟩))
    have hone : ((s.hub.handlers c).outstanding c).length = 1 := by
      have hle := (s.hub.handlers c).outstanding_length c
      have hcirc := htally.circulating
      omega
    have hguard : s.seen.freed c < s.seen.taken c := by
      have htaken := htally.taken
      have hcirc := htally.circulating
      have hout := htally.out
      simp only [seen, freed]
      omega
    refine ⟨.free c, ?_⟩
    simp only [StopAndWait.step, if_pos hguard, Option.some.injEq]
    refine StopAndWait.ext ?_ ?_ ?_ ?_
    · funext d
      simp only [seen, hclients]
    · funext d
      simp only [seen, receivedFrom, setHub, hrec]
    · funext d
      by_cases hd : d = c
      · subst hd
        have hdis : (hub.handlers d).dispatched = (s.hub.handlers d).dispatched :=
          hstep.dispatched_eq (by simp)
        have hout := htally.out
        simp only [seen, freed, setHub, Function.update_self, hdis, hnone, hone] at hout ⊢
        omega
      · have hsame : hub.handlers d = s.hub.handlers d := by
          cases hview d with
          | unchanged he => exact he
          | own ha => cases ha
          | dropped ha => cases ha
          | released ha =>
            cases ha
            exact absurd rfl hd
        simp [seen, freed, setHub, hd, hsame]
    · funext d
      simp only [seen, hclients]

theorem step_seen [Nonempty ι] (hz : S.z.Lawful) (hm : S.server.maxFrameSize < 2^32)
    (hrun : Run (step S) (Calm S) (init ι T) as s) (hok : Calm S s a) (hs : step S s a = some s') :
    s'.seen = s.seen ∨ ∃ b, s.seen.step b = some s'.seen := by
  cases a with
  | client c x => exact client_seen hz hm hrun hok hs
  | server x =>
    cases x with
    | handler c x => exact .inl (handler_seen hrun hs)
    | recv => exact .inr (recv_seen hz hm hrun hs)
    | release tx how => exact .inr (release_seen hz hm hrun hs)
    | dropServer => exact absurd rfl (hok (Classical.arbitrary ι))

/-- The consumer has received what the protocol has taken. -/
theorem received_seen (hz : S.z.Lawful) (hm : S.server.maxFrameSize < 2^32)
    (hrun : Run (step S) (Faultless S c) (init ι T) as s) :
    s.receivedFrom c = stamped c ((s.seen.received c).map (deliver S.toVec)) := by
  have htally := run_tallied hz hm hrun
  have hall : s.receivedFrom c <+: stamped c ((s.clients c).calls.map (deliver S.toVec)) := by
    refine List.IsPrefix.trans ?_ (stamped_front c (run_lockstep hz hm hrun).dispatched_calls)
    rw [show (s.link c).handler = s.hub.handlers c from rfl,
      ← receivedFrom_queue (run_hub_inv hrun) (run_open hrun)]
    exact List.prefix_append _ _
  have hfirst : stamped c ((s.seen.received c).map (deliver S.toVec)) <+:
      stamped c ((s.clients c).calls.map (deliver S.toVec)) :=
    stamped_front c ((List.take_prefix _ _).map _)
  have hlen : (s.receivedFrom c).length =
      (stamped c ((s.seen.received c).map (deliver S.toVec))).length := by
    have htaken := htally.taken
    have hdisp := htally.dispatched
    simp only [stamped, List.length_mapIdx, List.length_map, StopAndWait.received, List.length_take, seen]
    omega
  exact (List.prefix_of_prefix_length_le hall hfirst (Nat.le_of_eq hlen)).eq_of_length hlen

/-- **A session refines stop and wait.** In every run without faults, with batches
within the limits, over all interleavings and all sizes of the sockets and the channel,
what is seen of the session is a state of the stop-and-wait protocol, and every further
step is a step of that protocol or cannot be seen. The batches received are those that
the protocol takes. -/
theorem session_refines [Nonempty ι] (S : Setup ι T) (hz : S.z.Lawful)
    (hm : S.server.maxFrameSize < 2^32) (as : List (Act ι T)) (s : Session ι T)
    (hrun : Run (step S) (Calm S) (init ι T) as s) :
    (∃ bs, Run StopAndWait.step anything (StopAndWait.init ι (List T)) bs s.seen) ∧
    (∀ a s', Calm S s a → step S s a = some s' →
      s'.seen = s.seen ∨ ∃ b, s.seen.step b = some s'.seen) ∧
    ∀ c, s.receivedFrom c = stamped c ((s.seen.received c).map (deliver S.toVec)) ∧
      (s.seen.submitted c).length ≤ s.seen.confirmed c + 1 := by
  have hsim : ∃ bs, Run StopAndWait.step anything (seen (init ι T)) bs s.seen :=
    hrun.reached.simulate (f := seen) (fun ⟨hok, bs, hbs⟩ hs =>
      (step_seen hz hm hbs hok hs).imp id (fun ⟨b, hb⟩ => ⟨b, trivial, hb⟩))
  refine ⟨hsim, fun a s' hok hs => step_seen hz hm hrun hok hs, fun c => ⟨?_, ?_⟩⟩
  · exact received_seen hz hm (hrun.mono (fun _ _ h => h c))
  · obtain ⟨bs, hbs⟩ := hsim
    exact (StopAndWait.run_ordered hbs c).2.2.2

/-- One call, up to its `Ok`. -/
theorem session_refines_sample :
    ∃ s : Session Unit Bytes, s.seen.confirmed () = 1 ∧ s.seen.received () = [[[123, 125]]] ∧
      ∃ bs, Run StopAndWait.step anything (StopAndWait.init Unit (List Bytes)) bs s.seen := by
  obtain ⟨s, hrun, hf⟩ : ∃ s : Session Unit Bytes, Run (step sampleSetup) (Faultless sampleSetup ())
      (init Unit Bytes)
      (sampleCall [[123, 125]] ++ sampleServe [[123, 125]] ++ sampleRelease 0 1) s ∧
      (s.seen.confirmed (), s.seen.received ()) = (1, [[[123, 125]]]) :=
    Run.exists_of_exec (by decide +kernel)
  have hcalm := hrun.mono (fun s a h => show Calm sampleSetup s a from fun _ => h)
  obtain ⟨hsim, -, -⟩ := session_refines sampleSetup Flate.sample_lawful (by decide) _ s hcalm
  exact ⟨s, congrArg Prod.fst hf, congrArg Prod.snd hf, hsim⟩

end Session
end Lumberjack
