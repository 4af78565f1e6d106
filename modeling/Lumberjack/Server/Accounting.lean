import Mathlib.Data.List.Perm.Basic
import Lumberjack.Server.Lifecycle

/-!
# What the server can account for

Three accounts of a whole run. Connections: the gauge is the accepts less the ends.
Batches in circulation: one for each connection that waits, so that the consumer
never holds more of them than connections were accepted, whatever the capacity of
the channel. Batches handed out: when `Server::recv` answers `None` the account is
closed, everything dispatched has been received and nothing will follow.
-/
namespace Lumberjack.Server

open Lumberjack.Stream Lumberjack.Wire Lumberjack.Process

namespace Service

variable {ι : Type} [DecidableEq ι] {z : Flate} {b : ServerBuilder}
variable {s s' : Service ι} {a : Act ι} {as : List (Act ι)}

theorem run_guards {ok : Service ι → Act ι → Prop} (hrun : Run (step z b) ok (bind ι) as s) :
    as.countP Act.isAccept = s.guards + as.countP Act.isFinish := by
  induction hrun with
  | refl => simp [bind, guards]
  | @tail as s s' a hr _ hs ih =>
    have hstep := (step_cases hs).guards (run_inv hr)
    rw [List.countP_append, List.countP_append, List.countP_singleton, List.countP_singleton, ih]
    cases ha : a.isAccept <;> cases hf : a.isFinish <;> simp_all <;> omega

/-- A handler that has left its initial state and not returned has its task behind it. -/
theorem Inv.serving (hinv : s.Inv z b) {c : ι} (hne : s.hub.handlers c ≠ .init)
    (hl : (s.hub.handlers c).phase.live) : s.tasks c = .serving := by
  have hfresh := hinv.fresh c
  have hreturned := hinv.returned c
  cases ht : s.tasks c with
  | serving => rfl
  | absent => exact absurd (hfresh (.inl ht)) hne
  | handshaking => exact absurd (hfresh (.inr ht)) hne
  | returned =>
    rcases hreturned (.inl ht) with h | h
    · exact absurd h hne
    · simp [h] at hl
  | ended =>
    rcases hreturned (.inr ht) with h | h
    · exact absurd h hne
    · simp [h] at hl

/-- **The gauge is exact.** In every run of the server, however accepts, handshakes,
handlers, the consumer and the drop of the `Server` interleave: `active_connections`
is the number of connections accepted so far whose task has not ended, which is the
accepts less the ends of tasks, so that no decrement ever meets a gauge of 0; no
connection is counted twice; and every handler in the middle of its work is counted. -/
theorem active_connections_exact (z : Flate) (b : ServerBuilder) (as : List (Act ι)) (s : Service ι)
    (hrun : Run (step z b) anything (bind ι) as s) :
    let open' := s.accepted.countP fun c => (s.tasks c).guarded
    s.activeConnections = .ofNat open' ∧
    as.countP Act.isAccept = open' + as.countP Act.isFinish ∧
    s.accepted.Nodup ∧ (∀ c, c ∈ s.accepted ↔ s.tasks c ≠ .absent) ∧
    (∀ c, s.hub.handlers c ≠ .init → (s.hub.handlers c).phase.live →
      c ∈ s.accepted ∧ (s.tasks c).guarded) ∧
    ∀ c s', s.step z b (.finish c) = some s' → 0 < open' := by
  have hinv := run_inv hrun
  refine ⟨hinv.gauge, run_guards hrun, hinv.nodup, hinv.present, ?_, ?_⟩
  · intro c hne hl
    have ht := hinv.serving hne hl
    exact ⟨(hinv.present c).mpr (by simp [ht]), by simp [ht, Task.guarded]⟩
  · intro c s' hs
    cases step_cases hs with
    | finish ht =>
      apply List.countP_pos_iff.mpr
      exact ⟨c, (hinv.present c).mpr (by simp [ht]), by simp [ht, Task.guarded]⟩

/-- One connection through TLS up to the dispatch of its window, and one whose handshake
fails. -/
def sampleAccepts : List (Act Bool) :=
  [.select, .accept true, .select, .accept false, .handshake false false, .handshake true true,
    .handler true (.read Hub.sampleWindow), .handler true .next, .handler true .next,
    .handler true .dispatch, .finish false]

/-- The failed handshake has left the gauge, the open connection has not. -/
theorem active_connections_exact_sample :
    ∃ s : Service Bool, s.activeConnections = 1 ∧
      s.activeConnections = .ofNat (s.accepted.countP fun c => (s.tasks c).guarded) ∧
      sampleAccepts.countP Act.isAccept =
        s.accepted.countP (fun c => (s.tasks c).guarded) + sampleAccepts.countP Act.isFinish := by
  obtain ⟨s, hrun, hf⟩ : ∃ s : Service Bool, Run (step .sample { tls := true }) anything (bind Bool)
      sampleAccepts s ∧ s.activeConnections = 1 := Run.exists_of_exec (by decide +kernel)
  have hexact := active_connections_exact .sample { tls := true } sampleAccepts s hrun
  exact ⟨s, hf, hexact.1, hexact.2.1⟩

theorem Inv.circulation (hinv : s.Inv z b) :
    (s.hub.queue ++ s.hub.held).Perm
      (s.accepted.flatMap fun c => (s.hub.handlers c).outstanding c) := by
  have hown := hinv.hub.owned
  refine (perm_flatMap_owner Batch.owner hinv.nodup ?_).trans ?_
  · intro x hx
    obtain ⟨⟨c, k⟩, hack⟩ := hown.stamped x hx
    have hwaits := (hown.waits hx hack).1
    refine ⟨c, ?_, by simp [Batch.owner, hack]⟩
    rw [hinv.present c]
    intro habs
    rw [hinv.fresh c (.inl habs)] at hwaits
    cases hwaits
  · exact List.Perm.flatMap_left _ (fun c _ => hown.perm c)

/-- **What is in circulation.** In every run of the server, the batches queued and held
are, in some order, the ones the accepted connections wait for, at most one for each;
together they are never more than the connections accepted, and those queued never more
than the capacity of the channel. -/
theorem batches_in_circulation (z : Flate) (b : ServerBuilder) (as : List (Act ι)) (s : Service ι)
    (hrun : Run (step z b) anything (bind ι) as s) :
    (s.hub.queue ++ s.hub.held).Perm
      (s.accepted.flatMap fun c => (s.hub.handlers c).outstanding c) ∧
    (∀ c, ((s.hub.queue ++ s.hub.held).filter fun x => x.owner = some c).length ≤ 1) ∧
    s.hub.queue.length + s.hub.held.length ≤ s.accepted.length ∧
    s.hub.queue.length ≤ b.channelCapacity := by
  have hinv := run_inv hrun
  have hperm := hinv.circulation
  refine ⟨hperm, ?_, ?_, hinv.room⟩
  · intro c
    rw [(hinv.hub.owned.perm c).length_eq]
    exact Handler.outstanding_length _ c
  · rw [← List.length_append, hperm.length_eq]
    exact flatMap_length_le (fun c => Handler.outstanding_length _ c)

/-- The batch of the open connection is held, and it is the one its handler waits for. -/
theorem batches_in_circulation_sample :
    ∃ s : Service Bool, s.hub.held = [stamp true 0 ⟨1, [[123, 125]], 1⟩] ∧
      (s.hub.queue ++ s.hub.held).Perm
        (s.accepted.flatMap fun c => (s.hub.handlers c).outstanding c) := by
  obtain ⟨s, hrun, hf⟩ : ∃ s : Service Bool, Run (step .sample { tls := true }) anything (bind Bool)
      (sampleAccepts ++ [.recv]) s ∧ s.hub.held = [stamp true 0 ⟨1, [[123, 125]], 1⟩] :=
    Run.exists_of_exec (by decide +kernel)
  exact ⟨s, hf, (batches_in_circulation .sample { tls := true } _ s hrun).1⟩

theorem run_hub {ok : Service ι → Act ι → Prop} (hrun : Run (step z b) ok (bind ι) as s) :
    exec (Hub.step z b.config b.channelCapacity) (.init ι) (as.filterMap Act.hub) = some s.hub := by
  apply hrun.project (f := Service.hub) (P := fun _ => True) trivial (fun _ _ _ => trivial)
  intro s a s' _ _ hs
  rcases step_hub hs with ⟨x, hx, hstep⟩ | ⟨hx, he⟩
  · simp only [hx]
    exact hstep
  · simp only [hx]
    exact he

theorem Step.accepted_front (hs : Step z b s a s') : s.accepted <+: s'.accepted := by
  rcases hs.accepted with ⟨hacc, -⟩ | ⟨c, -, -, -, -, -, hacc, -⟩
  · exact hacc ▸ List.prefix_refl _
  · exact hacc ▸ List.prefix_append _ _

theorem run_handler_mem {ok : Service ι → Act ι → Prop} (hrun : Run (step z b) ok (bind ι) as s)
    {c : ι} {x : Handler.Act} (hm : .handler c x ∈ as) : c ∈ s.accepted := by
  induction hrun with
  | refl => cases hm
  | tail hr _ hs ih =>
    have hstep := step_cases hs
    apply hstep.accepted_front.subset
    rcases List.mem_append.mp hm with hm | hm
    · exact ih hm
    · cases List.mem_singleton.mp hm
      cases hstep with
      | handler ht hs => exact ((run_inv hr).present c).mpr (by simp [ht])

theorem run_dropRx {ok : Service ι → Act ι → Prop} (hrun : Run (step z b) ok (bind ι) as s) :
    .dropRx ∈ as ↔ s.hub.closed = true := by
  induction hrun with
  | refl => simp [bind, Hub.init]
  | tail hr _ hs ih =>
    rw [List.mem_append, ih, List.mem_singleton, (step_cases hs).closed, eq_comm (a := Act.dropRx)]

/-- **The server refines the hub.** In every run of the server the hub is in the state
its own share of the actions leads to from its initial state, and a connection has a
share only once it is accepted: what holds in every run of the hub holds of the server. -/
theorem hub_refined (z : Flate) (b : ServerBuilder) (as : List (Act ι)) (s : Service ι)
    (hrun : Run (step z b) anything (bind ι) as s) :
    exec (Hub.step z b.config b.channelCapacity) (.init ι) (as.filterMap Act.hub) = some s.hub ∧
    (∀ c, c ∉ s.accepted → s.hub.handlers c = .init) ∧
    (∀ c x, .handler c x ∈ as → c ∈ s.accepted) ∧
    (.dropRx ∈ as ↔ s.hub.closed = true) :=
  ⟨run_hub hrun, fun c hc => (run_inv hrun).fresh c (.inl (by simpa [(run_inv hrun).present c] using hc)),
    fun _ _ => run_handler_mem hrun, run_dropRx hrun⟩

/-- Of the twelve actions five are the hub's. -/
theorem hub_refined_sample :
    ∃ s : Service Bool, (s.hub.handlers true).phase = .awaitAck 1 ∧
      exec (Hub.step .sample ⟨defaultMaxFrameSize, some 15000⟩ 128) (.init Bool)
        [.handler true (.read Hub.sampleWindow), .handler true .next, .handler true .next,
          .handler true .dispatch, .recv] = some s.hub := by
  obtain ⟨s, hrun, hf⟩ : ∃ s : Service Bool, Run (step .sample { tls := true }) anything (bind Bool)
      (sampleAccepts ++ [.recv]) s ∧ (s.hub.handlers true).phase = .awaitAck 1 :=
    Run.exists_of_exec (by decide +kernel)
  exact ⟨s, hf, (hub_refined .sample { tls := true } _ s hrun).1⟩

/-- Nothing can be sent any more, and nothing is left to take. -/
structure Drained (s : Service ι) : Prop where
  loop : s.loop.ended
  sends : ∀ c, (s.tasks c).sends = false
  queue : s.hub.queue = []

theorem Inv.drained (hinv : s.Inv z b) (hnone : s.poll = some none) : s.Drained := by
  simp only [poll] at hnone
  split at hnone
  · cases hnone
  · rename_i hq
    split at hnone
    · cases hnone
    · rename_i hsender
      simp only [hasSender, Bool.or_eq_true, Bool.not_eq_true', List.any_eq_true, not_or,
        Bool.not_eq_false, not_exists, not_and, Bool.not_eq_true] at hsender
      refine ⟨hsender.1, ?_, hq⟩
      intro c
      by_cases hc : c ∈ s.accepted
      · exact hsender.2 c hc
      · have habs : s.tasks c = .absent := by
          simpa [hinv.present c] using hc
        rw [habs]
        rfl

omit [DecidableEq ι] in
theorem Drained.poll (hd : s.Drained) : s.poll = some none := by
  have hsender : s.hasSender = false := by
    simp only [hasSender, hd.loop, Bool.not_true, Bool.false_or, List.any_eq_false, hd.sends]
    simp
  simp [Service.poll, hd.queue, hsender]

/-- A drained server stays drained, and no account changes. -/
theorem Step.drained (hs : Step z b s a s') (hinv : s.Inv z b) (hd : s.Drained) :
    s'.Drained ∧ s'.accepted = s.accepted ∧ s'.hub.received = s.hub.received ∧
      ∀ c, (s'.hub.handlers c).dispatched = (s.hub.handlers c).dispatched := by
  have hview := hs.view hinv.hub
  have dispatched (hserv : ∀ c x, a = .handler c x → s.tasks c ≠ .serving) (c : ι) :
      (s'.hub.handlers c).dispatched = (s.hub.handlers c).dispatched := by
    rcases hview c with he | ⟨x, ha, ht, -⟩ | hrel
    · rw [he]
    · exact absurd ht (hserv c x ha)
    · exact hrel.dispatched_eq (by simp)
  have running (hl : s.loop = .selecting ∨ s.loop = .accepting) : False := by
    have hloop := hd.loop
    rcases hl with hl | hl <;> simp [hl, AcceptLoop.ended] at hloop
  have sending {c : ι} (ht : s.tasks c = .handshaking ∨ s.tasks c = .serving) : False := by
    have hsend := hd.sends c
    rcases ht with ht | ht <;> simp [ht, Task.sends] at hsend
  cases hs with
  | select hl hh => exact (running (.inl hl)).elim
  | stop hl hh => exact (running (.inl hl)).elim
  | accept hl ht => exact (running (.inr hl)).elim
  | pending hl => exact (running (.inr hl)).elim
  | acceptFailed hl => exact (running (.inr hl)).elim
  | handshake ht => exact (sending (.inl ht)).elim
  | handler ht hs => exact (sending (.inr ht)).elim
  | ret ht hp => exact (sending (.inr ht)).elim
  | @finish c ht =>
    refine ⟨⟨hd.loop, ?_, hd.queue⟩, rfl, rfl, fun _ => rfl⟩
    intro d
    by_cases hdc : d = c
    · simp [setTask, hdc, Task.sends]
    · simpa [setTask, hdc] using hd.sends d
  | recv hh hs =>
    cases hs with
    | recv hopen hq =>
      rw [hd.queue] at hq
      cases hq
  | release hs =>
    have hdisp := dispatched (fun c x hx => by cases hx)
    cases hs with
    | release hb hh => exact ⟨⟨hd.loop, hd.sends, hd.queue⟩, rfl, rfl, hdisp⟩
  | dropServer hh => exact ⟨⟨hd.loop, hd.sends, hd.queue⟩, rfl, rfl, fun _ => rfl⟩
  | dropRx hh hs =>
    have hdisp := dispatched (fun c x hx => by cases hx)
    cases hs with
    | dropServer hopen => exact ⟨⟨hd.loop, hd.sends, rfl⟩, rfl, rfl, hdisp⟩

theorem Inv.hub_open (hinv : s.Inv z b) (hlive : s.handle = .alive) : s.hub.closed = false := by
  rw [← Bool.not_eq_true, hinv.closed, hlive]
  simp

/-- With an empty queue, what was dispatched has been received. -/
theorem Inv.received_all (hinv : s.Inv z b) (hlive : s.handle = .alive) (hq : s.hub.queue = [])
    (c : ι) : s.hub.received.filter (fun x => x.owner = some c) =
      stamped c (s.hub.handlers c).dispatched := by
  obtain ⟨lost, hord, hlost⟩ := hinv.hub.order c
  rwa [hlost (hinv.hub_open hlive), hq, List.append_nil, List.append_nil] at hord

/-- **`None` from `Server::recv` is final and complete.** While the `Server` lives, `recv`
answers `None` only after the listener failed; then no handler is left at work, every
batch any connection dispatched has been received, connection by connection in the
order of dispatch, and for a connection that returned these are all the batches
`run_connection` makes of its bytes. However the server goes on, it accepts no
connection, dispatches and hands out no batch, and `recv` answers `None` again. -/
theorem recv_none_final (z : Flate) (b : ServerBuilder) (as : List (Act ι)) (s : Service ι)
    (hrun : Run (step z b) anything (bind ι) as s) (hlive : s.handle = .alive)
    (hnone : s.poll = some none) :
    s.loop = .failed ∧
    (∀ c, s.hub.handlers c = .init ∨ (s.hub.handlers c).phase.live = false) ∧
    (∀ c, s.hub.received.filter (fun x => x.owner = some c) =
      stamped c (s.hub.handlers c).dispatched) ∧
    (∀ c r, (s.hub.handlers c).phase = .done r →
      s.hub.received.filter (fun x => x.owner = some c) =
        stamped c (runConnection z b.config (paced (s.hub.handlers c).rounds)
          (.ofReads [(s.hub.handlers c).input])).batches) ∧
    ∀ bs s', Run (step z b) anything s bs s' →
      s'.accepted = s.accepted ∧ s'.hub.received = s.hub.received ∧ s'.poll = some none ∧
      ∀ c, (s'.hub.handlers c).dispatched = (s.hub.handlers c).dispatched := by
  have hinv := run_inv hrun
  have hd := hinv.drained hnone
  have hall := hinv.received_all hlive hd.queue
  refine ⟨?_, ?_, hall, ?_, ?_⟩
  · have hloop := hd.loop
    have hstop := hinv.stopped
    cases hl : s.loop with
    | failed => rfl
    | stopped => exact absurd hlive (hstop hl)
    | selecting => simp [hl, AcceptLoop.ended] at hloop
    | accepting => simp [hl, AcceptLoop.ended] at hloop
  · intro c
    have hsend := hd.sends c
    cases ht : s.tasks c with
    | absent => exact .inl (hinv.fresh c (.inl ht))
    | handshaking => simp [ht, Task.sends] at hsend
    | serving => simp [ht, Task.sends] at hsend
    | returned => exact hinv.returned c (.inl ht)
    | ended => exact hinv.returned c (.inr ht)
  · intro c r hr
    rw [hall c, (hinv.hub.follows c).log_done (hinv.hub.logged c) hr]
  · intro bs s' hcont
    have hkept : s'.Inv z b ∧ s'.Drained ∧ s'.accepted = s.accepted ∧
        s'.hub.received = s.hub.received ∧
        ∀ c, (s'.hub.handlers c).dispatched = (s.hub.handlers c).dispatched := by
      apply hcont.invariant (P := fun t => t.Inv z b ∧ t.Drained ∧ t.accepted = s.accepted ∧
        t.hub.received = s.hub.received ∧
        ∀ c, (t.hub.handlers c).dispatched = (s.hub.handlers c).dispatched)
        ⟨hinv, hd, rfl, rfl, fun _ => rfl⟩
      rintro t x t' ⟨hi, hd, h1, h2, h3⟩ - hs
      obtain ⟨hd', h1', h2', h3'⟩ := (step_cases hs).drained hi hd
      exact ⟨(step_cases hs).inv hi, hd', h1'.trans h1, h2'.trans h2, fun c => (h3' c).trans (h3 c)⟩
    obtain ⟨-, hd', h1, h2, h3⟩ := hkept
    exact ⟨h1, h2, hd'.poll, h3⟩

/-- The listener fails while a connection is served; its batch is received and released,
and the peer closes. -/
def sampleDrained : List (Act Unit) :=
  [.select, .accept (), .select, .acceptFailed, .handler () (.read Hub.sampleWindow),
    .handler () .next, .handler () .next, .handler () .dispatch, .recv, .release ((), 0) .ack,
    .handler () .acked, .handler () (.write 6), .handler () .eof, .ret ()]

/-- `recv` answers `None`, and the batch received is all the connection dispatched. -/
theorem recv_none_final_sample :
    ∃ s : Service Unit, s.loop = .failed ∧ s.hub.received = [stamp () 0 ⟨1, [[123, 125]], 1⟩] ∧
      s.hub.received.filter (fun x => x.owner = some ()) =
        stamped () (s.hub.handlers ()).dispatched := by
  obtain ⟨s, hrun, hf⟩ : ∃ s : Service Unit, Run (step .sample {}) anything (bind Unit)
      sampleDrained s ∧ decide (s.handle = .alive ∧ s.poll = some none ∧
        s.hub.received = [stamp () 0 ⟨1, [[123, 125]], 1⟩]) = true :=
    Run.exists_of_exec (by decide +kernel)
  obtain ⟨hlive, hpoll, hreceived⟩ := of_decide_eq_true hf
  have hfinal := recv_none_final .sample {} sampleDrained s hrun hlive hpoll
  exact ⟨s, hfinal.1, hreceived, hfinal.2.2.1 ()⟩

end Service
end Lumberjack.Server
