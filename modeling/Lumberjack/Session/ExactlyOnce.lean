import Lumberjack.Session.Progress

/-!
# Exactly-once delivery, in order

On a connection without faults the consumer receives one batch for each call, in
the order of the calls, with the serializations of its events; a call returns
`Ok` with the number of its events, after its batch was released; and when it
returns nothing is in flight. A call can always return.
-/
namespace Lumberjack

open Lumberjack.Stream Lumberjack.Wire Lumberjack.Server Lumberjack.Process Lumberjack.Client

theorem Server.stamped_front {ι : Type} (c : ι) {ds es : List Dispatch} (h : ds <+: es) :
    stamped c ds <+: stamped c es := by
  obtain ⟨t, rfl⟩ := h
  rw [stamped, stamped, List.mapIdx_append]
  exact List.prefix_append _ _

/-- A batch with as many payloads as events was serialized, every event of it. -/
theorem Client.Sound.serialized {T : Type} {toVec : T → Except String Bytes} {events : List T}
    (h : Sound toVec events) : Serialized toVec events (Client.payloads toVec events) :=
  serialized_payloads (List.filterMap_length_eq_length.mp h.payloads)

namespace Link.Lockstep

variable {T : Type} {z : Flate} {toVec : T → Except String Bytes} {level : UInt32}
variable {cfg : ConnectionConfig} {l : Link T}

/-- The handler dispatches the batches of the calls, in order. -/
theorem dispatched_calls (h : Lockstep z toVec level cfg l) :
    l.handler.dispatched <+: l.client.calls.map (deliver toVec) := by
  apply h.dispatched.trans
  rw [h.exact.batches, Client.calls, List.map_append, List.map_append]
  exact List.prefix_append_right_inj _ |>.mpr ((pending_front _).map _)

/-- Every call, returned or in progress, has a batch that can be acknowledged. -/
theorem sound_calls (hm : cfg.maxFrameSize < 2^32) (h : Lockstep z toVec level cfg l) :
    ∀ events ∈ l.client.calls, Sound toVec events := by
  intro events hmem
  rcases List.mem_append.mp hmem with hmem | hmem
  · apply h.ordered.sound
    rw [h.exact.batches]
    exact List.mem_append_left _ hmem
  · have hcall : l.client.phase.call = some events := Option.mem_toList.mp hmem
    cases hpend : l.client.phase.pending with
    | some ev =>
      have : ev = events := by
        have hpre := pending_front l.client.phase
        rw [hpend, hcall] at hpre
        simpa using hpre
      apply h.ordered.sound
      rw [h.exact.batches, hpend, this]
      simp
    | none =>
      cases hp : l.client.phase with
      | feeding ev todo err =>
        obtain rfl := h.clean.no_error hm hp
        cases todo with
        | nil =>
          rw [hp] at hpend
          cases hpend
        | cons f todo =>
          rw [hp] at hcall
          cases hcall
          exact (h.ordered.unfinished _ none (by rw [hp]; rfl)).1 rfl
      | idle =>
        rw [hp] at hcall
        cases hcall
      | _ =>
        rw [hp] at hpend
        cases hpend

end Link.Lockstep

namespace Session

variable {ι T : Type} [DecidableEq ι] {S : Setup ι T} {s : Session ι T} {c : ι}

/-- The batches of one connection that the consumer has received. -/
def receivedFrom (s : Session ι T) (c : ι) : List (Batch (ι × Nat)) :=
  s.hub.received.filter (fun b => b.owner = some c)

/-- Without a drop of the `Server`, what was dispatched was received or is queued. -/
theorem receivedFrom_queue (hinv : s.hub.Inv S.z S.server) (hopen : s.hub.closed = false) (c : ι) :
    s.receivedFrom c ++ s.hub.queue.filter (fun b => b.owner = some c) =
      stamped c (s.hub.handlers c).dispatched := by
  obtain ⟨lost, hord, hlost⟩ := hinv.order c
  rw [hlost hopen, List.append_nil, List.filter_append] at hord
  exact hord

/-- A handler that waits for a window has nothing in the queue. -/
theorem receivedFrom_settled (hinv : s.hub.Inv S.z S.server) (hopen : s.hub.closed = false)
    (hp : (s.hub.handlers c).phase = .expectWindow) :
    s.receivedFrom c = stamped c (s.hub.handlers c).dispatched := by
  have hrx : (s.hub.handlers c).ackRx ≠ .pending := by
    intro hpend
    have h1 := (hinv.logged c).pending hpend
    have h2 := (hinv.logged c).settled (by rw [hp]; rfl)
    omega
  have hperm := hinv.owned.perm c
  rw [Handler.outstanding_nil hrx, List.filter_append] at hperm
  have hq := (List.append_eq_nil_iff.mp hperm.eq_nil).1
  have hord := receivedFrom_queue hinv hopen c
  rwa [hq, List.append_nil] at hord

/-- **Exactly once, in order.** In every run without a fault on connection `c`, with
batches within the limits and whatever the interleaving: the consumer has received
from it the first of the batches of its calls, one for each call, in order, with
the serializations of the events; every call that returned did so with `Ok` and its
number of events, and the consumer had released its batch; between two calls all
batches have been received, nothing is in flight in either direction and the
handler waits for a window. From every state the call in progress can return. -/
theorem exactly_once (S : Setup ι T) (hz : S.z.Lawful) (hm : S.server.maxFrameSize < 2^32) (c : ι)
    (as : List (Act ι T)) (s : Session ι T)
    (hrun : Run (step S) (Faultless S c) (init ι T) as s) :
    s.receivedFrom c <+: stamped c ((s.clients c).calls.map (deliver S.toVec)) ∧
    (∀ events ∈ (s.clients c).calls, Serialized S.toVec events (payloads S.toVec events)) ∧
    (∀ (k : Nat) (events : List T) (r : Result UInt32), (s.clients c).results[k]? = some (events, r) →
      r = .ok (count events) ∧ (count events).toNat = events.length ∧ (c, k) ∈ s.hub.released) ∧
    ((s.clients c).phase = .idle →
      s.receivedFrom c = stamped c ((s.clients c).calls.map (deliver S.toVec)) ∧
      (s.clients c).wbuf = [] ∧ s.up c = [] ∧ (s.hub.handlers c).buffer = [] ∧
      (s.hub.handlers c).out = [] ∧ s.down c = [] ∧ (s.clients c).rbuf = [] ∧
      (s.hub.handlers c).phase = .expectWindow) ∧
    (0 < S.capacity → 0 < S.upRoom c → 0 < S.downRoom c →
      ∃ bs s', Run (step S) (Faultless S c) s bs s' ∧ (s'.clients c).phase = .idle ∧
        (s'.clients c).calls = (s.clients c).calls) := by
  have hlock := run_lockstep hz hm hrun
  have hinv := run_hub_inv hrun
  have hopen := run_open hrun
  have hcalls : (s.hub.handlers c).dispatched <+: (s.clients c).calls.map (deliver S.toVec) :=
    hlock.dispatched_calls
  have hsound : ∀ events ∈ (s.clients c).calls, Sound S.toVec events := hlock.sound_calls hm
  refine ⟨?_, fun events hev => (hsound events hev).serialized, ?_, ?_, ?_⟩
  · have hfront : s.receivedFrom c <+: stamped c (s.hub.handlers c).dispatched := by
      rw [← receivedFrom_queue hinv hopen]
      exact List.prefix_append _ _
    exact hfront.trans (stamped_front c hcalls)
  · intro k events r hk
    have hmem := List.mem_of_getElem? hk
    refine ⟨hlock.exact.results _ hmem, ?_, ?_⟩
    · apply (hsound events _).count_toNat
      exact List.mem_append_left _ (List.mem_map_of_mem (f := Prod.fst) hmem)
    · obtain ⟨bs, hhub⟩ := run_hub (fun s a hok => hok.noDrop) hrun
      apply Hub.run_released hhub (.inl _)
      have hlt := (List.getElem?_eq_some_iff.mp hk).1
      have hle : (s.clients c).results.length ≤ (s.hub.handlers c).rounds.length := hlock.counts.1
      omega
  · intro hidle
    obtain ⟨hlen, hphase, hbuf, hout, hup, hdown, hwb, hrb⟩ := hlock.drained hz hidle
    refine ⟨?_, hwb, hup, hbuf, hout, hdown, hrb, hphase⟩
    have hall : (s.hub.handlers c).dispatched = (s.clients c).calls.map (deliver S.toVec) := by
      apply hcalls.eq_of_length
      rw [show (s.hub.handlers c).dispatched.length = _ from hlen, List.length_map, Client.calls, hidle]
      simp [Phase.call, link]
    rw [receivedFrom_settled hinv hopen hphase, hall]
  · intro hcap hup hdown
    exact run_returns hz hm hcap hup hdown hrun

/-- Two calls, the first with a keepalive while the consumer holds its batch. The second
has two events, numbered from 1 again. -/
theorem exactly_once_sample :
    ∃ s : Session Unit Bytes,
      (s.clients ()).calls = [[[123, 125]], [[91, 93], [123, 125]]] ∧
      s.receivedFrom () = stamped () [⟨1, [[123, 125]], 1⟩, ⟨2, [[91, 93], [123, 125]], 2⟩] ∧
      (s.clients ()).results = [([[123, 125]], .ok 1), ([[91, 93], [123, 125]], .ok 2)] ∧
      ((), 0) ∈ s.hub.released ∧ ((), 1) ∈ s.hub.released ∧
      s.up () = [] ∧ s.down () = [] ∧ (s.hub.handlers ()).phase = .expectWindow := by
  let S : Setup Unit Bytes := { sampleSetup with server := ⟨1024, some 50⟩ }
  obtain ⟨s, hrun, hf⟩ : ∃ s : Session Unit Bytes, Run (step S) (Faultless S ()) (init Unit Bytes)
      (sampleCall [[123, 125]] ++ sampleServe [[123, 125]] ++
        [.server (.handler () .tick), .server (.handler () (.write 6)),
          .client () (.read ((Frame.ack 0).encode .sample)), .client () .next] ++
        sampleRelease 0 1 ++ sampleCall [[91, 93], [123, 125]] ++
        sampleServe [[91, 93], [123, 125]] ++ sampleRelease 1 2) s ∧
      ((s.clients ()).phase.call.isNone, (s.clients ()).results) =
        (true, [([[123, 125]], .ok 1), ([[91, 93], [123, 125]], .ok 2)]) :=
    Run.exists_of_exec (by decide +kernel)
  have hidle : (s.clients ()).phase = .idle := call_eq_none.mp (Option.isNone_iff_eq_none.mp (congrArg Prod.fst hf))
  have hres : (s.clients ()).results = [([[123, 125]], .ok 1), ([[91, 93], [123, 125]], .ok 2)] :=
    congrArg Prod.snd hf
  have hcalls : (s.clients ()).calls = [[[123, 125]], [[91, 93], [123, 125]]] := by
    rw [Client.calls, hidle, hres]
    rfl
  obtain ⟨-, -, hok, hrest, -⟩ := exactly_once S Flate.sample_lawful (by decide) () _ s hrun
  obtain ⟨hrec, -, hup, -, -, hdown, -, hphase⟩ := hrest hidle
  rw [hcalls] at hrec
  exact ⟨s, hcalls, hrec, hres, (hok 0 _ _ (by rw [hres]; rfl)).2.2, (hok 1 _ _ (by rw [hres]; rfl)).2.2,
    hup, hdown, hphase⟩

end Session
end Lumberjack
