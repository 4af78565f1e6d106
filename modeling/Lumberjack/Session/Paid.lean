import Lumberjack.Session.AtMostOnce

/-!
# What an `Ok` is worth

After a call that timed out, `Client::send` may return `Ok` on the acknowledgement of an
earlier batch: the acknowledgement names a number and no batch. But each is taken once. So
the calls that returned `Ok` are no more than the batches the consumer has released, and
since batches are acknowledged in order, what a client may rely on is a count: when `m`
calls have returned `Ok`, the first `m` batches it fed completely are with the consumer.
-/
namespace Lumberjack

open Lumberjack.Stream Lumberjack.Wire Lumberjack.Server Lumberjack.Process Lumberjack.Client

theorem finals_ackFrames_length (cfg : ConnectionConfig) (ticks : Nat) (v : UInt32) :
    (finals (ackFrames cfg ticks v)).length ≤ 1 := by
  by_cases hv : v = 0
  · subst hv
    have hnil : finals (ackFrames cfg ticks 0) = [] := by
      unfold ackFrames
      split
      · rw [finals_append, finals_keepalives]
        rfl
      · rfl
    rw [hnil]
    exact Nat.zero_le 1
  · rw [finals_ackFrames cfg ticks hv]
    exact Nat.le_refl 1

theorem finals_ackStream_length (cfg : ConnectionConfig) (env : Nat → Nat × Release)
    (ds : List Dispatch) : (finals (ackStream cfg env ds)).length ≤ ds.length := by
  induction ds generalizing env with
  | nil => exact Nat.le_refl 0
  | cons d ds ih =>
    have hone := finals_ackFrames_length cfg (env 0).1 d.lastSeq
    have hrest := ih (fun k => env (k + 1))
    rw [ackStream, finals_append, List.length_append, List.length_cons]
    omega

/-- A client has heard no more acknowledgements than there are batches acknowledged. -/
theorem Link.heard_rounds {T : Type} {z : Flate} {cfg : ConnectionConfig} {l : Link T}
    (hlog : l.handler.Logged cfg) (hcar : l.Carried z) :
    (finals l.client.heard).length ≤ l.handler.rounds.length := by
  obtain ⟨rest, hw, -⟩ := hcar.acks
  have hwritten : (finals l.handler.written).length ≤ l.handler.rounds.length := by
    have hstream := finals_ackStream_length cfg (paced l.handler.rounds)
      (l.handler.dispatched.take l.handler.rounds.length)
    rw [List.length_take] at hstream
    rw [hlog.written, finals_append, finals_keepalives, List.append_nil]
    omega
  rw [hw, finals_append, List.length_append] at hwritten
  omega

namespace Client

variable {T : Type} {z : Flate} {toVec : T → Except String Bytes} {b : ClientBuilder}
variable {cl cl' : Client T} {a : Act T}

/-- The call in progress waits for a number, and every `Ok` so far has used up an
acknowledgement. -/
structure Paid (cl : Client T) : Prop where
  counted : ∀ events, cl.phase.Has events → count events ≠ 0
  paid : (granted cl.results).length ≤ (finals cl.heard).length

theorem Paid.init (T : Type) : Paid (Client.init T) := ⟨fun _ h => h.elim, Nat.le_refl 0⟩

theorem Paid.of_error (h : Paid cl) {events : List T} {e : Error}
    (hr : cl'.results = cl.results ++ [(events, .error e)])
    (hh : (finals cl.heard).length ≤ (finals cl'.heard).length) (hp : cl'.phase = .idle) : Paid cl' := by
  have hpaid := h.paid
  refine ⟨?_, ?_⟩
  · intro events hhas
    rw [hp] at hhas
    exact hhas.elim
  · rw [hr, granted_error]
    omega

theorem Paid.of_still (h : Paid cl) (hr : cl'.results = cl.results)
    (hh : (finals cl.heard).length ≤ (finals cl'.heard).length)
    (hp : ∀ events, cl'.phase.Has events → cl.phase.Has events) : Paid cl' := by
  have hpaid := h.paid
  refine ⟨fun events hhas => h.counted events (hp events hhas), ?_⟩
  rw [hr]
  omega

theorem count_ne_zero {events : List T} (hne : events ≠ []) (hn : events.length < 2^32) :
    count events ≠ 0 := by
  intro hzero
  have hnat := congrArg UInt32.toNat hzero
  have hmod : events.length % 2^32 = 0 := hnat
  rw [Nat.mod_eq_of_lt hn] at hmod
  exact hne (List.eq_nil_of_length_eq_zero hmod)

theorem Step.paid (hs : Step z toVec b cl a cl')
    (hok : ∀ events, a = .start events → events ≠ [] → events.length < 2^32) (h : Paid cl) :
    Paid cl' := by
  have hpaid := h.paid
  have grows (f : Frame) : (finals cl.heard).length ≤ (finals (cl.heard ++ [f])).length := by
    rw [finals_append, List.length_append]
    omega
  cases hs with
  | empty hp =>
    refine ⟨fun _ hhas => hhas.elim, ?_⟩
    have hres : granted (cl.results ++ [([], Except.ok 0)]) = granted cl.results := by simp [granted]
    show (granted (cl.results ++ [([], Except.ok 0)])).length ≤ _
    rw [hres]
    exact hpaid
  | @start events hp hne =>
    refine ⟨?_, hpaid⟩
    rintro ev rfl
    exact count_ne_zero hne (hok events rfl hne)
  | feed hp hb => exact h.of_still rfl (Nat.le_refl _) (fun _ hh => by rw [hp]; exact hh)
  | flush hp => exact h.of_still rfl (Nat.le_refl _) (fun _ hh => by rw [hp]; exact hh)
  | write hw hk hl => exact h.of_still rfl (Nat.le_refl _) (fun _ hh => hh)
  | flushed hp hw => exact h.of_still rfl (Nat.le_refl _) (fun _ hh => by rw [hp]; exact hh)
  | read hp hc hst => exact h.of_still rfl (Nat.le_refl _) (fun _ hh => hh)
  | ended hp => exact h.of_still rfl (Nat.le_refl _) (fun _ hh => hh)
  | @next events f r hp he hr hd =>
    cases f with
    | ack seq =>
      by_cases hle : count events ≤ seq
      · -- this acknowledgement is no keepalive, and pays for the call
        have hcount := h.counted events (by rw [hp]; rfl)
        have hseq : seq ≠ 0 := by
          rintro rfl
          exact hcount (UInt32.le_zero_iff.mp hle)
        have hone := (granted_ok cl.results events (count events)).length_le
        simp only [onFrame, if_pos hle]
        refine ⟨fun _ hhas => hhas.elim, ?_⟩
        show (granted (cl.results ++ [(events, Except.ok (count events))])).length ≤
          (finals (cl.heard ++ [.ack seq])).length
        rw [finals_append, finals_ack hseq, List.length_append]
        rw [List.length_append] at hone
        simp only [List.length_cons, List.length_nil] at hone ⊢
        omega
      · simp only [onFrame, if_neg hle]
        exact h.of_still rfl (grows _) (fun _ hh => hh)
    | _ => exact h.of_error rfl (grows _) rfl
  | undecodable hp he hd => exact h.of_error rfl (Nat.le_refl _) rfl
  | exhausted hp he => exact h.of_error rfl (Nat.le_refl _) rfl
  | truncated hp he => exact h.of_error rfl (Nat.le_refl _) rfl
  | paused hp he => exact h.of_error rfl (Nat.le_refl _) rfl
  | unfed hp => exact h.of_error rfl (Nat.le_refl _) rfl
  | closed hp => exact h.of_error rfl (Nat.le_refl _) rfl
  | giveUp ha => exact h.of_error rfl (Nat.le_refl _) rfl

end Client

namespace Session

variable {ι T : Type} [DecidableEq ι] {S : Setup ι T} {s : Session ι T} {c : ι}
variable {as : List (Act ι T)}

/-- The `Server` stays, and the batches of client `c` fit the 32-bit fields. -/
def Lasting (S : Setup ι T) (c : ι) (s : Session ι T) (a : Act ι T) : Prop :=
  Narrowly S c s a ∧ a ≠ .server .dropServer

instance [DecidableEq T] (S : Setup ι T) (c : ι) (s : Session ι T) (a : Act ι T) :
    Decidable (Lasting S c s a) := inferInstanceAs (Decidable (_ ∧ _))

/-- A batch that was acknowledged has been received. -/
theorem rounds_received (hinv : s.hub.Inv S.z S.server) (hopen : s.hub.closed = false) (c : ι) :
    (s.hub.handlers c).rounds.length ≤ (s.receivedFrom c).length := by
  have hlog := hinv.logged c
  have hlen := congrArg List.length (receivedFrom_queue hinv hopen c)
  have hperm := (hinv.owned.perm c).length_eq
  rw [List.length_append, show (stamped c (s.hub.handlers c).dispatched).length = _ from
    List.length_mapIdx] at hlen
  rw [List.filter_append, List.length_append] at hperm
  by_cases hrx : (s.hub.handlers c).ackRx = .pending
  · have hpend := hlog.pending hrx
    have hone := Handler.outstanding_length (s.hub.handlers c) c
    omega
  · have hcount := hlog.count.1
    rw [Handler.outstanding_nil hrx, List.length_nil] at hperm
    omega

/-- Every `Ok` has used up the acknowledgement of a batch. -/
theorem granted_rounds (hrun : Run (step S) (Narrowly S c) (init ι T) as s) :
    (granted (s.clients c).results).length ≤ (s.hub.handlers c).rounds.length := by
  have hpaid : Paid (s.clients c) := by
    apply run_client hrun (Paid.init T)
    intro s b cl hok hs h
    exact hs.paid (fun events ha hne => (hok.start events ha hne).count) h
  have hheard : (finals (s.clients c).heard).length ≤ (s.hub.handlers c).rounds.length :=
    Link.heard_rounds ((run_hub_inv hrun).logged c) (run_carried hrun c)
  exact Nat.le_trans hpaid.paid hheard

/-- **Every `Ok` is paid for.** In every run in which the `Server` is not dropped,
whatever times out or breaks and however often the client calls again, with batches of
connection `c` that fit the 32-bit fields: when `m` calls with events have returned `Ok`
on connection `c`, the first `m` batches completely fed there were received by the
consumer, with their own events, and released. -/
theorem oks_are_paid (S : Setup ι T) (hz : S.z.Lawful) (c : ι) (as : List (Act ι T))
    (s : Session ι T) (hrun : Run (step S) (Lasting S c) (init ι T) as s) (k : Nat)
    (hk : k < (granted (s.clients c).results).length) :
    (c, k) ∈ s.hub.released ∧
    ∃ events, (s.clients c).complete[k]? = some events ∧
      (s.receivedFrom c)[k]? = some (stamp c k (deliver S.toVec events)) := by
  have hnarrow : Run (step S) (Narrowly S c) (init ι T) as s := hrun.mono (fun _ _ hok => hok.1)
  have hrounds := granted_rounds hnarrow
  obtain ⟨bs, hhub⟩ := run_hub (fun s a hok => hok.2) hrun
  have hlt : k < (s.receivedFrom c).length := by
    have hrec := rounds_received (run_hub_inv hrun) (Hub.run_open hhub) c
    omega
  refine ⟨Hub.run_released hhub (.inl (by omega)), ?_⟩
  obtain ⟨t, ht⟩ := received_front hz hnarrow
  have hget : (s.receivedFrom c)[k]? =
      (stamped c ((s.clients c).complete.map (deliver S.toVec)))[k]? := by
    rw [← ht, List.getElem?_append_left hlt]
  rw [stamped, List.getElem?_mapIdx, List.getElem?_map] at hget
  cases he : (s.clients c).complete[k]? with
  | none =>
    rw [he, List.getElem?_eq_getElem hlt] at hget
    cases hget
  | some events =>
    rw [he] at hget
    exact ⟨events, rfl, hget⟩

/-- A call times out, and the next returns `Ok` on its acknowledgement. What the `Ok` is
paid with is the first batch. -/
theorem oks_are_paid_sample :
    ∃ s : Session Unit Bytes,
      (s.clients ()).results = [([[123, 125]], .error .ackTimeout), ([[91, 93]], .ok 1)] ∧
      ((), 0) ∈ s.hub.released ∧ (s.receivedFrom ())[0]? = some (stamp () 0 (delivery [[123, 125]])) := by
  obtain ⟨s, hrun, hf⟩ : ∃ s : Session Unit Bytes, Run (step sampleSetup) (Lasting sampleSetup ())
      (init Unit Bytes)
      (sampleCall [[123, 125]] ++ sampleServe [[123, 125]] ++ [.client () .ackTimeout] ++
        sampleCall [[91, 93]] ++ sampleRelease 0 1) s ∧
      ((s.clients ()).results, (s.clients ()).complete) =
        ([([[123, 125]], .error .ackTimeout), ([[91, 93]], .ok 1)], [[[123, 125]], [[91, 93]]]) :=
    Run.exists_of_exec (by decide +kernel)
  have hres : (s.clients ()).results = _ := congrArg Prod.fst hf
  have hcomplete : (s.clients ()).complete = [[[123, 125]], [[91, 93]]] := congrArg Prod.snd hf
  obtain ⟨hrel, events, hev, hrec⟩ := oks_are_paid sampleSetup Flate.sample_lawful () _ s hrun 0
    (by rw [hres]; decide)
  rw [hcomplete] at hev
  cases hev
  exact ⟨s, hres, hrel, hrec⟩

end Session
end Lumberjack
