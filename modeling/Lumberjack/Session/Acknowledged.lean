import Lumberjack.Client.Batches
import Lumberjack.Session.Bytes

/-!
# Whose acknowledgement a client takes

An acknowledgement carries a number and nothing else, and every batch is numbered
from 1. A client whose call timed out may call again, and then takes the late
acknowledgement of the earlier batch for that of the new one when its number is
high enough. It cannot as long as each batch is larger than every earlier batch
whose acknowledgement has not been read: then the acknowledgement taken is that
of the batch itself, which was dispatched and released.
-/
namespace Lumberjack

open Lumberjack.Stream Lumberjack.Wire Lumberjack.Server Lumberjack.Process Lumberjack.Client

theorem finals_ackFrames (cfg : ConnectionConfig) (ticks : Nat) {v : UInt32} (h : v ≠ 0) :
    finals (ackFrames cfg ticks v) = [v] := by
  unfold ackFrames
  split
  · rw [finals_append, finals_keepalives, finals_ack h]
    rfl
  · rw [finals_ack h]
    rfl

theorem finals_ackStream (cfg : ConnectionConfig) (env : Nat → Nat × Release) {ds : List Dispatch}
    (h : ∀ d ∈ ds, d.lastSeq ≠ 0) : finals (ackStream cfg env ds) = ds.map Dispatch.lastSeq := by
  induction ds generalizing env with
  | nil => rfl
  | cons d ds ih =>
    rw [ackStream, finals_append, finals_ackFrames cfg _ (h d List.mem_cons_self),
      ih _ (fun e he => h e (List.mem_cons_of_mem _ he))]
    rfl

/-- A handler has written as many acknowledgements as it acknowledged batches. -/
theorem Server.Handler.Logged.finals {cfg : ConnectionConfig} {h : Handler} (hl : h.Logged cfg)
    (hne : ∀ d ∈ h.dispatched, d.lastSeq ≠ 0) :
    Lumberjack.finals h.written = (h.dispatched.take h.rounds.length).map Dispatch.lastSeq := by
  rw [hl.written, finals_append, finals_keepalives, List.append_nil]
  exact finals_ackStream _ _ (fun d hd => hne d (List.mem_of_mem_take hd))

namespace Link

variable {T : Type} {z : Flate} {toVec : T → Except String Bytes}
variable {cfg : ConnectionConfig} {l : Link T}

/-- A handler dispatches what the bytes fed lead to, in order. -/
theorem dispatched_front (hfol : l.handler.Follows z cfg) (hcar : l.Carried z) :
    l.handler.dispatched <+: (Position.window.outcome z cfg l.client.fed).batches := by
  rw [hcar.sent]
  exact hfol.batches_front (l.up ++ l.client.wbuf)

/-- What was dispatched can be acknowledged with a number other than 0. -/
theorem dispatched_ne_zero (hord : Ordered toVec l.client)
    (hd : l.handler.dispatched <+: l.client.complete.map (deliver toVec)) :
    ∀ d ∈ l.handler.dispatched, d.lastSeq ≠ 0 := by
  intro d hmem
  obtain ⟨events, hev, rfl⟩ := List.mem_map.mp (hd.subset hmem)
  exact (hord.sound events hev).lastSeq.2

/-- The client has read the acknowledgements of the first batches, in order. -/
theorem heard_front (hlog : l.handler.Logged cfg) (hcar : l.Carried z)
    (hne : ∀ d ∈ l.handler.dispatched, d.lastSeq ≠ 0) :
    ∃ rest, finals l.client.heard ++ finals rest =
        (l.handler.dispatched.take l.handler.rounds.length).map Dispatch.lastSeq ∧
      l.handler.written = l.client.heard ++ rest ∧ (∀ f ∈ rest, ∃ v, f = .ack v) ∧
      encodeAll z rest = l.client.rbuf ++ (l.down ++ l.handler.out) := by
  obtain ⟨rest, hw, hb⟩ := hcar.acks
  refine ⟨rest, ?_, hw, ?_, hb⟩
  · rw [← finals_append, ← hw]
    exact hlog.finals hne
  · intro f hf
    exact hlog.acks f (by rw [hw]; exact List.mem_append_right _ hf)

/-- The next acknowledgement a client reads is that of the first batch whose
acknowledgement it has not read. -/
theorem taken (hlog : l.handler.Logged cfg) (hcar : l.Carried z) (hord : Ordered toVec l.client)
    (hd : l.handler.dispatched <+: l.client.complete.map (deliver toVec)) {seq : UInt32} {r : Bytes}
    (hdec : (LumberjackCodec.decoder z {}).decode l.client.rbuf = (.ok (some (.ack seq)), r))
    (hseq : seq ≠ 0) :
    (finals l.client.heard).length < l.handler.rounds.length ∧
    ∃ events, l.client.complete[(finals l.client.heard).length]? = some events ∧
      events.length = seq.toNat := by
  obtain ⟨rest, hfin, -, hacks, hb⟩ := heard_front hlog hcar (dispatched_ne_zero hord hd)
  obtain ⟨rest', rfl, -⟩ := (decode_acks hacks hb).1 _ _ hdec
  rw [finals_ack hseq] at hfin
  have hidx : ((l.handler.dispatched.take l.handler.rounds.length).map Dispatch.lastSeq)[
      (finals l.client.heard).length]? = some seq := by
    rw [← hfin]
    simp
  rw [List.getElem?_map, Option.map_eq_some_iff] at hidx
  obtain ⟨d, hget, rfl⟩ := hidx
  have hlt : (finals l.client.heard).length < l.handler.rounds.length := by
    have h1 := (List.getElem?_eq_some_iff.mp hget).1
    rw [List.length_take] at h1
    omega
  rw [List.getElem?_take_of_lt hlt] at hget
  obtain ⟨t, ht⟩ := hd
  have hmap : (l.client.complete.map (deliver toVec))[(finals l.client.heard).length]? = some d := by
    rw [← ht, List.getElem?_append_left (List.getElem?_eq_some_iff.mp hget).1]
    exact hget
  rw [List.getElem?_map, Option.map_eq_some_iff] at hmap
  obtain ⟨events, hev, rfl⟩ := hmap
  exact ⟨hlt, events, hev, ((hord.sound events (List.mem_of_getElem? hev)).lastSeq.1).symm⟩

end Link

namespace Session

variable {ι T : Type} [DecidableEq ι] {S : Setup ι T} {s s' : Session ι T} {a : Act ι T} {c : ι}

/-- The condition under which a client takes no acknowledgement for another: the
`Server` stays, and a batch that client `c` starts fits the 32-bit fields and is
larger than every complete batch whose acknowledgement has not been read. -/
def Unmistakable (S : Setup ι T) (c : ι) (s : Session ι T) : Act ι T → Prop
  | .client c' (.start events) => c' = c → events ≠ [] →
    Narrow S.z S.toVec (S.client c).compressionLevel events ∧
    Outweighs (s.clients c).complete (finals (s.clients c).heard).length events
  | .client _ _ => True
  | .server a => a ≠ .dropServer

instance (S : Setup ι T) (c : ι) (s : Session ι T) : (a : Act ι T) → Decidable (Unmistakable S c s a)
  | .client c' (.start events) => inferInstanceAs (Decidable (c' = c → events ≠ [] → _ ∧ _))
  | .client _ .feed | .client _ .flush | .client _ (.write _) | .client _ .flushed
  | .client _ (.read _) | .client _ .next | .client _ .eof | .client _ .ackTimeout
  | .client _ .writeTimeout | .client _ (.fail _) => .isTrue trivial
  | .server a => inferInstanceAs (Decidable (a ≠ _))

omit [DecidableEq ι] in
theorem Unmistakable.noDrop (h : Unmistakable S c s a) : NoDrop a := by
  rintro rfl
  exact h rfl

theorem run_ordered {as : List (Act ι T)} (hrun : Run (step S) (Unmistakable S c) (init ι T) as s) :
    Ordered S.toVec (s.clients c) := by
  apply run_client hrun (.init S.toVec)
  intro s b cl hok hs ho
  apply hs.ordered _ ho
  intro events ha hne
  subst ha
  exact hok rfl hne

theorem run_streams (hz : S.z.Lawful) {as : List (Act ι T)}
    (hrun : Run (step S) (Unmistakable S c) (init ι T) as s) :
    Streams S.z S.toVec (S.client c).compressionLevel S.server (s.clients c) := by
  apply run_client hrun (.init _ _ _ _)
  intro s b cl hok hs hstr
  apply hs.streams hz _ hstr
  intro events ha hne
  subst ha
  exact (hok rfl hne).1

end Session

namespace Session

variable {ι T : Type} [DecidableEq ι]

/-- **An acknowledgement taken is the batch's own.** In every run in which each
batch a client starts is larger than every earlier complete batch whose
acknowledgement it has not read, whatever timeouts and failures end its calls: when
a call on a non-empty batch returns `Ok`, the handler has dispatched all complete
batches of this client and this one last, the consumer has released it, and the
acknowledgements read before belong to the batches before it. -/
theorem ack_taken_is_own (S : Setup ι T) (hz : S.z.Lawful) (c : ι) (as : List (Act ι T))
    (s s' : Session ι T) (a : Act ι T) (hrun : Run (step S) (Unmistakable S c) (init ι T) as s)
    (hs : step S s a = some s') (events : List T) (hne : events ≠ []) (n : UInt32)
    (hr : (s'.clients c).results = (s.clients c).results ++ [(events, .ok n)]) :
    n = count events ∧
    ∃ earlier, (s.clients c).complete = earlier ++ [events] ∧
      (s.hub.handlers c).dispatched =
        earlier.map (deliver S.toVec) ++ [deliver S.toVec events] ∧
      (c, earlier.length) ∈ s.hub.released ∧
      (finals (s.clients c).heard).length = earlier.length := by
  have hinv := run_hub_inv hrun
  have hlog := hinv.logged c
  have hcar := run_carried hrun c
  have hord := run_ordered hrun
  have hdisp : (s.hub.handlers c).dispatched <+: (s.clients c).complete.map (deliver S.toVec) :=
    (Link.dispatched_front (hinv.follows c) hcar).trans (run_streams hz hrun).batches
  have hmoves := (step_cases hs).moves hinv c
  -- only the client's own step can return from its call
  obtain ⟨hp, rfl, seq, r, hdec, hle⟩ : (s.clients c).phase = .awaiting events ∧ n = count events ∧
      ∃ seq r, (LumberjackCodec.decoder S.z {}).decode (s.clients c).rbuf =
        (.ok (some (.ack seq)), r) ∧ count events ≤ seq := by
    have same (he : s'.clients c = s.clients c) : False := by
      rw [he] at hr
      exact absurd (List.self_eq_append_right.mp hr) (by simp)
    cases hmoves with
    | still he => exact (same (congrArg Link.client he)).elim
    | handler hb hstep => exact (same hstep.handler_step.2).elim
    | client ha hstep => exact hstep.client_step.1.returned_ok hne hr
  obtain ⟨earlier, hcomp, hout⟩ := hord.pending events (by rw [hp]; rfl)
  have hcount : (count events).toNat = events.length :=
    (hord.sound events (by rw [hcomp]; simp)).count_toNat
  have hlen := UInt32.le_iff_toNat_le.mp hle
  rw [hcount] at hlen
  have hseq : seq ≠ 0 := by
    rintro rfl
    rw [UInt32.toNat_zero] at hlen
    exact hne (List.eq_nil_of_length_eq_zero (by omega))
  obtain ⟨hlt, ev, hev, hsize⟩ := Link.taken (l := s.link c) hlog hcar hord hdisp hdec hseq
  have hidx : (finals (s.clients c).heard).length = earlier.length := by
    have hbound : (finals (s.clients c).heard).length < earlier.length + 1 := by
      have := (List.getElem?_eq_some_iff.mp hev).1
      simpa [link, hcomp] using this
    rcases Nat.lt_succ_iff_lt_or_eq.mp hbound with hold | heq
    · -- an earlier batch, not acknowledged when this one was started, is smaller
      have hev' : earlier[(finals (s.clients c).heard).length]? = some ev := by
        have : (s.clients c).complete[(finals (s.clients c).heard).length]? = some ev := hev
        rwa [hcomp, List.getElem?_append_left hold] at this
      have := hout.lt hev'
      omega
    · exact heq
  have hrounds : earlier.length < (s.hub.handlers c).rounds.length := by
    rw [← hidx]
    exact hlt
  refine ⟨rfl, earlier, hcomp, ?_, ?_, hidx⟩
  · have hfull : (s.hub.handlers c).dispatched = (s.clients c).complete.map (deliver S.toVec) := by
      apply hdisp.eq_of_length_le
      have h1 := hlog.count.1
      rw [List.length_map, hcomp, List.length_append, List.length_singleton]
      omega
    rw [hfull, hcomp, List.map_append]
    rfl
  · obtain ⟨bs, hhub⟩ := run_hub (fun s a hok => hok.noDrop) hrun
    exact Hub.run_released hhub (.inl hrounds)

/-- One client at level 0 and a server without keepalives. -/
def sampleSetup : Setup Unit Bytes where
  z := .sample
  toVec := .ok
  server := ⟨1024, none⟩
  capacity := 1
  client := fun _ => { compressionLevel := 0 }
  upRoom := fun _ => 4096
  downRoom := fun _ => 4096

/-- A call that feeds its frames, flushes them in one write and waits. -/
def sampleCall (events : List Bytes) : List (Act Unit Bytes) :=
  [.client () (.start events)] ++ events.map (fun _ => .client () .feed) ++
    [.client () .feed, .client () .flush,
      .client () (.write (sendBytes .sample .ok 0 events).length), .client () .flushed]

/-- The handler reads such a batch and dispatches it; the consumer receives it. -/
def sampleServe (events : List Bytes) : List (Act Unit Bytes) :=
  [.server (.handler () (.read (sendBytes .sample .ok 0 events))), .server (.handler () .next)] ++
    events.map (fun _ => .server (.handler () .next)) ++
    [.server (.handler () .dispatch), .server .recv]

/-- The `k`-th batch is released, and the client reads its acknowledgement. -/
def sampleRelease (k : Nat) (seq : UInt32) : List (Act Unit Bytes) :=
  [.server (.release ((), k) .ack), .server (.handler () .acked), .server (.handler () (.write 6)),
    .client () (.read ((Frame.ack seq).encode .sample)), .client () .next]

/-- A call times out and a larger one follows. The late acknowledgement of the first
batch does not suffice for the second, which returns on its own. -/
theorem ack_taken_is_own_sample :
    ∃ (s : Session Unit Bytes) (earlier : List (List Bytes)),
      (s.clients ()).complete = earlier ++ [[[91, 93], [123, 125]]] ∧
      (s.hub.handlers ()).dispatched = earlier.map (deliver .ok) ++ [delivery [[91, 93], [123, 125]]] ∧
      ((), earlier.length) ∈ s.hub.released := by
  obtain ⟨s, s', hrun, hs, hr⟩ : ∃ s s' : Session Unit Bytes, Run (step sampleSetup)
      (Unmistakable sampleSetup ()) (init Unit Bytes)
      (sampleCall [[123, 125]] ++ sampleServe [[123, 125]] ++ [.client () .ackTimeout] ++
        sampleCall [[91, 93], [123, 125]] ++ sampleRelease 0 1 ++ sampleServe [[91, 93], [123, 125]] ++
        (sampleRelease 1 2).dropLast) s ∧
      step sampleSetup s (.client () .next) = some s' ∧
      decide ((s'.clients ()).results =
        (s.clients ()).results ++ [([[91, 93], [123, 125]], .ok 2)]) = true :=
    Run.exists_step_of_exec (by decide +kernel)
  obtain ⟨-, earlier, hc, hd, hrel, -⟩ := ack_taken_is_own sampleSetup Flate.sample_lawful () _ s s'
    (.client () .next) hrun hs [[91, 93], [123, 125]] (by decide) 2 (of_decide_eq_true hr)
  exact ⟨s, earlier, hc, hd, hrel⟩

/-- A call times out and another of the same size follows. The late acknowledgement of
the first batch is taken for the second, which the server has not even read. -/
theorem ack_taken_for_another :
    ∃ s : Session Unit Bytes, Run (step sampleSetup) anything (init Unit Bytes)
        (sampleCall [[123, 125]] ++ sampleServe [[123, 125]] ++ [.client () .ackTimeout] ++
          sampleCall [[91, 93]] ++ sampleRelease 0 1) s ∧
      (s.clients ()).results = [([[123, 125]], .error .ackTimeout), ([[91, 93]], .ok 1)] ∧
      (s.hub.handlers ()).dispatched = [delivery [[123, 125]]] := by
  obtain ⟨s, hrun, hf⟩ : ∃ s : Session Unit Bytes, Run (step sampleSetup) anything (init Unit Bytes)
      (sampleCall [[123, 125]] ++ sampleServe [[123, 125]] ++ [.client () .ackTimeout] ++
        sampleCall [[91, 93]] ++ sampleRelease 0 1) s ∧
      ((s.clients ()).results, (s.hub.handlers ()).dispatched) =
        ([([[123, 125]], .error .ackTimeout), ([[91, 93]], .ok 1)], [delivery [[123, 125]]]) :=
    Run.exists_of_exec (by decide +kernel)
  exact ⟨s, hrun, congrArg Prod.fst hf, congrArg Prod.snd hf⟩

end Session
end Lumberjack
