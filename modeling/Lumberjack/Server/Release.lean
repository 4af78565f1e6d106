import Lumberjack.Server.Delivery

/-!
# Acknowledged means released

A handler writes the acknowledgement of a batch only when the batch has ended,
and there are two ways for that to happen: the consumer releases a batch it holds,
or the `Server` is dropped while the batch is still queued. Without the second,
the acknowledgements are those of released batches. With it, a batch nobody has
received is acknowledged, unless the queue held nothing worth acknowledging.
-/
namespace Lumberjack.Server

open Lumberjack.Stream Lumberjack.Wire Lumberjack.Process

namespace Handler

variable {z : Flate} {cfg : ConnectionConfig} {h h' : Handler} {a : Act}

/-- The `k`-th batch is acknowledged, or its release has reached the handler. -/
def Finished (h : Handler) (k : Nat) : Prop :=
  k < h.rounds.length ∨ ((∃ v, h.ackRx = .sent v) ∧ k + 1 = h.dispatched.length)

theorem Finished.lt (hl : h.Logged cfg) {k : Nat} (hf : h.Finished k) : k < h.dispatched.length := by
  have hc := hl.count
  rcases hf with hk | ⟨-, hk⟩ <;> omega

/-- The wait on a batch that is out breaks only when a release has arrived. -/
theorem Logged.acked_finished (hl : h.Logged cfg) {l v : UInt32} (hp : h.phase = .awaitAck l)
    (hv : h.ackRx.acked l = some v) : h.Finished h.rounds.length := by
  have hlen := (hl.awaits l (by rw [hp]; rfl)).1
  cases hrx : h.ackRx with
  | pending =>
    rw [hrx] at hv
    cases hv
  | sent w => exact .inr ⟨⟨w, hrx⟩, hlen.symm⟩
  | closed =>
    rw [hl.closed hrx] at hlen
    cases hlen

theorem Step.finished (hs : Step z cfg h a h') (hl : h.Logged cfg) {k : Nat} (hf : h'.Finished k) :
    h.Finished k ∨ (a = .release ∧ k + 1 = h.dispatched.length) := by
  cases hs with
  | acked hp hv =>
    have hfin := hl.acked_finished hp hv
    have hlen := (hl.awaits _ (by rw [hp]; rfl)).1
    rcases hf with hk | ⟨hrx, hk⟩
    · simp only [send, List.length_append, List.length_singleton] at hk
      rcases Nat.lt_succ_iff_lt_or_eq.mp hk with hk | hk
      · exact .inl (.inl hk)
      · exact .inl (hk ▸ hfin)
    · exact .inl (.inr ⟨hrx, hk⟩)
  | dispatch hp =>
    rcases hf with hk | ⟨⟨v, hrx⟩, -⟩
    · exact .inl (.inl hk)
    · cases hrx
  | release hrx hd =>
    rcases hf with hk | ⟨-, hk⟩
    · exact .inl (.inl hk)
    · exact .inr ⟨rfl, hk⟩
  | _ => exact .inl hf

theorem Step.dispatched_front (hs : Step z cfg h a h') : h.dispatched <+: h'.dispatched := by
  cases hs with
  | dispatch hp => exact List.prefix_append _ _
  | _ => exact List.prefix_refl _

/-- A handler that has returned takes no step; only its channel can still be sent on. -/
theorem Step.of_returned (hs : Step z cfg h a h') (hp : h.phase.live = false) :
    h'.phase = h.phase ∧ h'.rounds = h.rounds := by
  cases hs with
  | release hrx hd => exact ⟨rfl, rfl⟩
  | read hr => simp [Phase.live_of_reading hr] at hp
  | undecodable hr => simp [Phase.live_of_reading hr] at hp
  | eof hr => simp [Phase.live_of_reading hr] at hp
  | write hw hk hl => simp [Phase.live_of_writing hw] at hp
  | fail hio => cases hph : h.phase <;> simp_all [Phase.reading, Phase.writing, Phase.live]
  | _ => simp_all [Phase.live]

/-- Frames are written by keepalives and acknowledgements, one at a time. -/
theorem Step.written (hs : Step z cfg h a h') {fs : List Frame} (hw : h'.written = h.written ++ fs) :
    fs = [] ∨ fs = [.ack 0] ∨
      ∃ l v, h.phase = .awaitAck l ∧ h.ackRx.acked l = some v ∧ fs = [.ack v] := by
  have same (he : h'.written = h.written) : fs = [] := by
    rw [he] at hw
    exact List.self_eq_append_right.mp hw
  cases hs with
  | tick hp hk hrx => exact .inr (.inl (List.append_cancel_left hw).symm)
  | acked hp hv => exact .inr (.inr ⟨_, _, hp, hv, (List.append_cancel_left hw).symm⟩)
  | _ => exact .inl (same rfl)

end Handler

namespace Hub

variable {ι : Type} [DecidableEq ι] {z : Flate} {cfg : ConnectionConfig} {capacity : Nat}
variable {s s' : Hub ι} {a : Act ι}

/-- A batch ends in the hands of the consumer or in the queue of a dropped `Server`. -/
theorem Step.finished (hs : Step z cfg capacity s a s') (hinv : s.Inv z cfg) {c : ι} {k : Nat}
    (hf : (s'.handlers c).Finished k) :
    (s.handlers c).Finished k ∨
    (∃ how, a = .release (c, k) how ∧ ∃ b ∈ s.held, b.ack = some (c, k)) ∨
    (a = .dropServer ∧ ∃ b ∈ s.queue, b.ack = some (c, k)) := by
  cases hs.view hinv.owned c with
  | unchanged he => exact .inl (he ▸ hf)
  | own ha hb hs =>
    rcases hs.finished (hinv.logged c) hf with hfin | ⟨hrel, -⟩
    · exact .inl hfin
    · exact absurd hrel hb
  | @released k' how b ha hm hb hs =>
    rcases hs.finished (hinv.logged c) hf with hfin | ⟨-, hk⟩
    · exact .inl hfin
    · have hlen := (hinv.owned.waits (List.mem_append_right _ hm) hb).2.1
      obtain rfl : k = k' := by omega
      exact .inr (.inl ⟨how, ha, b, hm, hb⟩)
  | @dropped k' b ha hm hb hs =>
    rcases hs.finished (hinv.logged c) hf with hfin | ⟨-, hk⟩
    · exact .inl hfin
    · have hlen := (hinv.owned.waits (List.mem_append_left _ hm) hb).2.1
      obtain rfl : k = k' := by omega
      exact .inr (.inr ⟨ha, b, hm, hb⟩)

theorem Step.released_subset (hs : Step z cfg capacity s a s') : s.released ⊆ s'.released := by
  cases hs with
  | release hb hh => exact List.subset_append_left _ _
  | _ => exact List.Subset.refl _

theorem Step.received_subset (hs : Step z cfg capacity s a s') : s.received ⊆ s'.received := by
  cases hs with
  | recv hopen hq => exact List.subset_append_left _ _
  | _ => exact List.Subset.refl _

/-- The `Server` is not dropped. -/
def noDrop (_ : Hub ι) (a : Act ι) : Prop := a ≠ .dropServer

instance (s : Hub ι) (a : Act ι) : Decidable (noDrop s a) := inferInstanceAs (Decidable (a ≠ _))

theorem run_released {as : List (Act ι)} (hrun : Run (step z cfg capacity) noDrop (init ι) as s)
    {c : ι} {k : Nat} (hf : (s.handlers c).Finished k) : (c, k) ∈ s.released := by
  induction hrun generalizing c k with
  | refl => simp [init, Handler.init, Handler.Finished] at hf
  | tail hrun hok hs ih =>
    have hstep := step_cases hs
    rcases hstep.finished (run_inv hrun) hf with hfin | ⟨how, rfl, -⟩ | ⟨rfl, -⟩
    · exact hstep.released_subset (ih hfin)
    · cases hstep with
      | release hb hh => simp
    · exact absurd rfl hok

theorem run_open {as : List (Act ι)} (hrun : Run (step z cfg capacity) noDrop (init ι) as s) :
    s.closed = false := by
  apply hrun.invariant (P := fun s => s.closed = false) rfl
  intro s a s' hopen hok hs
  cases step_cases hs with
  | dropServer => exact absurd rfl hok
  | _ => exact hopen

/-- The batch out is in circulation, or its release has arrived with its last number. -/
theorem run_outstanding {as : List (Act ι)}
    (hrun : Run (step z cfg capacity) noDrop (init ι) as s) {c : ι} {d : Dispatch}
    (hd : (s.handlers c).dispatched.getLast? = some d)
    (hlen : (s.handlers c).dispatched.length = (s.handlers c).rounds.length + 1) :
    stamp c (s.handlers c).rounds.length d ∈ s.queue ++ s.held ∨
    ((c, (s.handlers c).rounds.length) ∈ s.released ∧ (s.handlers c).ackRx = .sent d.lastSeq) := by
  have hinv := run_inv hrun
  cases hrx : (s.handlers c).ackRx with
  | pending =>
    left
    have hperm := hinv.owned.perm c
    rw [Handler.outstanding_eq hrx hd, hlen] at hperm
    exact List.mem_of_mem_filter (hperm.mem_iff.mpr List.mem_cons_self)
  | sent v =>
    right
    obtain ⟨d', hd', hv⟩ := (hinv.logged c).sent v hrx
    rw [hd] at hd'
    cases hd'
    exact ⟨run_released hrun (.inr ⟨⟨v, hrx⟩, hlen.symm⟩), by rw [hv]⟩
  | closed =>
    rw [(hinv.logged c).closed hrx] at hd
    cases hd

/-- **The shape of the acknowledgement stream.** In every run in which the
`Server` is not dropped, on every connection: the frames written are, for each
acknowledged batch in the order of dispatch, its keepalives and then one
acknowledgement with its last sequence number, followed by the keepalives of the
one batch that may still be out. An acknowledged batch has been released by the
consumer; while the handler reads, every batch is acknowledged and every frame
flushed; a batch without its acknowledgement is still queued or held, or has been
released and will be acknowledged with its last number. That number is at least
the size of the window. -/
theorem ack_stream_shape (z : Flate) (cfg : ConnectionConfig) (capacity : Nat) (as : List (Act ι))
    (s : Hub ι) (hrun : Run (step z cfg capacity) noDrop (init ι) as s) (c : ι) :
    let h := s.handlers c
    ∃ acked out, h.dispatched = acked ++ out ∧ out.length ≤ 1 ∧
      h.written = ackStream cfg (paced h.rounds) acked ++ List.replicate h.ticks (.ack 0) ∧
      (cfg.keepalive = none ∨ out = [] → h.ticks = 0) ∧
      (∀ k < acked.length, (c, k) ∈ s.released) ∧
      (h.phase.reading → out = [] ∧ h.out = []) ∧
      (∀ d ∈ out, stamp c acked.length d ∈ s.queue ++ s.held ∨
        ((c, acked.length) ∈ s.released ∧ h.ackRx = .sent d.lastSeq)) ∧
      ∀ d ∈ h.dispatched, d.events.length = d.window.toNat ∧ d.window.toNat ≤ d.lastSeq.toNat ∧
        (0 < d.window → d.lastSeq ≠ 0) := by
  intro h
  have hlog : h.Logged cfg := (run_inv hrun).logged c
  have hfol : h.Follows z cfg := (run_inv hrun).follows c
  have hlen : (h.dispatched.take h.rounds.length).length = h.rounds.length :=
    List.length_take_of_le hlog.count.1
  refine ⟨h.dispatched.take h.rounds.length, h.dispatched.drop h.rounds.length,
    (List.take_append_drop _ _).symm, ?_, hlog.written, ?_, ?_, ?_, ?_, ?_⟩
  · have hc := hlog.count.2
    rw [List.length_drop]
    omega
  · intro hq
    rcases hq with hk | hnil
    · exact hlog.silent hk
    · have h1 := List.drop_eq_nil_iff.mp hnil
      have h2 := hlog.count.1
      exact hlog.quiet (by omega)
  · intro k hk
    rw [hlen] at hk
    exact run_released hrun (.inl hk)
  · intro hr
    have hn := hlog.settled (Phase.settled_of_reading hr)
    exact ⟨List.drop_eq_nil_of_le (by omega),
      hlog.flushed (Phase.live_of_reading hr) (Phase.writing_of_reading hr)⟩
  · intro d hd
    rw [hlen]
    have hpos := List.length_pos_of_mem hd
    have hc := hlog.count.2
    rw [List.length_drop] at hpos
    obtain ⟨ds, e, hds⟩ : ∃ ds e, h.dispatched = ds ++ [e] := by
      have hne : h.dispatched ≠ [] := List.length_pos_iff.mp (by omega)
      exact ⟨_, _, (List.dropLast_append_getLast hne).symm⟩
    have hdslen : ds.length = h.rounds.length := by
      rw [hds, List.length_append, List.length_singleton] at hpos hc
      omega
    rw [hds, ← hdslen, List.drop_left] at hd
    cases List.mem_singleton.mp hd
    exact run_outstanding hrun (d := d) (by rw [show s.handlers c = h from rfl, hds]; simp)
      (by rw [show s.handlers c = h from rfl]; omega)
  · intro d hd
    have hcomp := hfol.complete d hd
    refine ⟨hcomp.length, hcomp.last, ?_⟩
    intro hpos hzero
    have hw := UInt32.lt_iff_toNat_lt.mp hpos
    have hl := hcomp.last
    rw [hzero, UInt32.toNat_zero] at hl
    rw [UInt32.toNat_zero] at hw
    omega

/-- One window of one event, as it arrives. -/
def sampleWindow : Bytes := encodeAll .sample [.window 1, .json 1 [123, 125]]

/-- The handler's part up to the dispatch of that window. -/
def sampleCollect : List (Act Unit) :=
  [.handler () (.read sampleWindow), .handler () .next, .handler () .next, .handler () .dispatch]

/-- A keepalive while the consumer holds the batch, then a drop of the batch. -/
theorem ack_stream_shape_sample :
    ∃ (s : Hub Unit) (acked out : List Dispatch),
      (s.handlers ()).written = [.ack 0, .ack 1] ∧
      (s.handlers ()).dispatched = acked ++ out ∧
      (s.handlers ()).written = ackStream ⟨1024, some 50⟩ (paced (s.handlers ()).rounds) acked ++
        List.replicate (s.handlers ()).ticks (.ack 0) ∧
      ∀ k < acked.length, ((), k) ∈ s.released := by
  obtain ⟨s, hrun, hw⟩ : ∃ s : Hub Unit, Run (step .sample ⟨1024, some 50⟩ 1) noDrop (init Unit)
      (sampleCollect ++ [.recv, .handler () .tick, .handler () (.write 6), .release ((), 0) .drop,
        .handler () .acked]) s ∧ (s.handlers ()).written = [.ack 0, .ack 1] :=
    Run.exists_of_exec (by decide +kernel)
  obtain ⟨acked, out, hd, -, hwr, -, hrel, -⟩ :=
    ack_stream_shape .sample ⟨1024, some 50⟩ 1 _ s hrun ()
  exact ⟨s, acked, out, hw, hd, hwr, hrel⟩

/-- A batch that its handler still waits to acknowledge with a number other than 0. -/
def unheard (s : Hub ι) (b : Batch (ι × Nat)) : Bool :=
  match b.ack with
  | some (c, _) => b.lastSeq ≠ 0 && (s.handlers c).phase.live
  | none => false

/-- If the `Server` is dropped here, no such batch is queued. -/
def dropsHeard (s : Hub ι) (a : Act ι) : Prop := a = .dropServer → ∀ b ∈ s.queue, unheard s b = false

instance (s : Hub ι) (a : Act ι) : Decidable (dropsHeard s a) :=
  inferInstanceAs (Decidable (a = _ → ∀ b ∈ s.queue, _))

/-- Every batch that has ended was received, or its handler will not acknowledge
it, or there is nothing to acknowledge. -/
def Covered (s : Hub ι) : Prop :=
  ∀ c k d, (s.handlers c).dispatched[k]? = some d → d.lastSeq ≠ 0 → (s.handlers c).Finished k →
    stamp c k d ∈ s.received ∨
      ((s.handlers c).phase.live = false ∧ (s.handlers c).rounds.length ≤ k)

/-- A batch in circulation is the one its handler dispatched under its number. -/
theorem Inv.circulating (hinv : s.Inv z cfg) {b : Batch (ι × Nat)} (hm : b ∈ s.queue ++ s.held)
    {c : ι} {k : Nat} (hb : b.ack = some (c, k)) {d : Dispatch}
    (hd : (s.handlers c).dispatched[k]? = some d) :
    b = stamp c k d ∧ (s.handlers c).rounds.length = k := by
  obtain ⟨hrx, hlen, d', hlast, rfl⟩ := hinv.owned.waits hm hb
  have hpend := (hinv.logged c).pending hrx
  have hk : (s.handlers c).dispatched.length - 1 = k := by omega
  rw [List.getLast?_eq_getElem?, hk, hd] at hlast
  cases hlast
  exact ⟨rfl, by omega⟩

theorem Step.covered (hs : Step z cfg capacity s a s') (hinv : s.Inv z cfg) (hok : dropsHeard s a)
    (hcov : Covered s) : Covered s' := by
  intro c k d hd hne hf
  have hview := hs.view hinv.owned c
  have hfront : (s.handlers c).dispatched <+: (s'.handlers c).dispatched :=
    hview.keeps (P := fun h => (s.handlers c).dispatched <+: h.dispatched) (List.prefix_refl _)
      (fun hstep hp => hp.trans hstep.dispatched_front)
  have returned (hlive : (s.handlers c).phase.live = false) :
      (s'.handlers c).phase.live = false ∧ (s'.handlers c).rounds = (s.handlers c).rounds :=
    hview.keeps (P := fun h => h.phase.live = false ∧ h.rounds = (s.handlers c).rounds) ⟨hlive, rfl⟩
      (fun hstep hp => by
        obtain ⟨h1, h2⟩ := hstep.of_returned hp.1
        exact ⟨by rw [h1]; exact hp.1, h2.trans hp.2⟩)
  have earlier {n : Nat} (hn : n < (s.handlers c).dispatched.length) (hk : k = n) :
      (s.handlers c).dispatched[k]? = some d := by
    obtain ⟨t, ht⟩ := hfront
    rw [← hd, ← ht, List.getElem?_append_left (by omega)]
  rcases hs.finished hinv hf with hfin | ⟨how, rfl, b, hm, hb⟩ | ⟨rfl, b, hm, hb⟩
  · rcases hcov c k d (earlier (hfin.lt (hinv.logged c)) rfl) hne hfin with hr | ⟨hlive, hle⟩
    · exact .inl (hs.received_subset hr)
    · obtain ⟨h1, h2⟩ := returned hlive
      exact .inr ⟨h1, by rw [h2]; exact hle⟩
  · have hlen := (hinv.owned.waits (List.mem_append_right _ hm) hb).2.1
    obtain ⟨rfl, -⟩ := hinv.circulating (List.mem_append_right _ hm) hb (earlier (by omega) rfl)
    exact .inl (hs.received_subset (hinv.held _ hm))
  · have hlen := (hinv.owned.waits (List.mem_append_left _ hm) hb).2.1
    obtain ⟨rfl, hk⟩ := hinv.circulating (List.mem_append_left _ hm) hb (earlier (by omega) rfl)
    have hlive : (s.handlers c).phase.live = false := by
      simpa [unheard, stamp, Batch.new, hne] using hok rfl _ hm
    obtain ⟨h1, h2⟩ := returned hlive
    exact .inr ⟨h1, by rw [h2]; omega⟩

theorem run_covered {as : List (Act ι)}
    (hrun : Run (step z cfg capacity) dropsHeard (init ι) as s) : Covered s := by
  induction hrun with
  | refl =>
    intro c k d hd
    simp [init, Handler.init] at hd
  | tail hrun hok hs ih => exact (step_cases hs).covered (run_inv hrun) hok ih

/-- **No acknowledgement of what was never received, as long as the queue of a
dropped `Server` holds nothing its handlers would acknowledge.** In every such
run, whatever frames a step of the hub makes a handler write, a non-zero
acknowledgement among them carries the last sequence number of the batch that
handler has out, and that batch had been received when the step was taken. -/
theorem acks_only_received (z : Flate) (cfg : ConnectionConfig) (capacity : Nat) (as : List (Act ι))
    (s s' : Hub ι) (a : Act ι) (hrun : Run (step z cfg capacity) dropsHeard (init ι) as s)
    (hs : step z cfg capacity s a = some s') (c : ι) (fs : List Frame)
    (hw : (s'.handlers c).written = (s.handlers c).written ++ fs) (v : UInt32) (hv : .ack v ∈ fs)
    (hne : v ≠ 0) :
    ∃ d, (s.handlers c).dispatched[(s.handlers c).rounds.length]? = some d ∧ d.lastSeq = v ∧
      stamp c (s.handlers c).rounds.length d ∈ s.received := by
  have hinv := run_inv hrun
  have hlog := hinv.logged c
  have key {b : Handler.Act} (hstep : Handler.Step z cfg (s.handlers c) b (s'.handlers c)) :
      ∃ d, (s.handlers c).dispatched[(s.handlers c).rounds.length]? = some d ∧ d.lastSeq = v ∧
        stamp c (s.handlers c).rounds.length d ∈ s.received := by
    rcases hstep.written hw with rfl | rfl | ⟨l, w, hp, hack, rfl⟩
    · cases hv
    · simp only [List.mem_singleton, Frame.ack.injEq] at hv
      exact absurd hv hne
    · simp only [List.mem_singleton, Frame.ack.injEq] at hv
      subst hv
      have haw : (s.handlers c).phase.awaits = some l := by rw [hp]; rfl
      obtain rfl := hlog.acked_eq haw hack
      obtain ⟨hlen, d, hd, hlast⟩ := hlog.awaits _ haw
      have hidx : (s.handlers c).dispatched[(s.handlers c).rounds.length]? = some d := by
        rw [← hd, List.getLast?_eq_getElem?, hlen, Nat.add_sub_cancel]
      refine ⟨d, hidx, hlast, ?_⟩
      rcases run_covered hrun c _ d hidx (by rw [hlast]; exact hne) (hlog.acked_finished hp hack)
        with hr | ⟨hlive, -⟩
      · exact hr
      · rw [hp] at hlive
        cases hlive
  cases (step_cases hs).view hinv.owned c with
  | unchanged he =>
    rw [he] at hw
    rw [List.self_eq_append_right.mp hw] at hv
    cases hv
  | own ha hb hstep => exact key hstep
  | released ha hm hb hstep => exact key hstep
  | dropped ha hm hb hstep => exact key hstep

/-- The `Server` is dropped after the consumer took the batch: the release of the
batch is acknowledged, and the batch had been received. -/
theorem acks_only_received_sample :
    ∃ (s : Hub Unit) (d : Dispatch), (s.handlers ()).dispatched[(s.handlers ()).rounds.length]? = some d ∧
      d.lastSeq = 1 ∧ stamp () (s.handlers ()).rounds.length d ∈ s.received := by
  obtain ⟨s, s', hrun, hs, hw⟩ : ∃ s s' : Hub Unit, Run (step .sample ⟨1024, none⟩ 1) dropsHeard
      (init Unit) (sampleCollect ++ [.recv, .dropServer, .release ((), 0) .ack]) s ∧
      step .sample ⟨1024, none⟩ 1 s (.handler () .acked) = some s' ∧
      decide ((s'.handlers ()).written = (s.handlers ()).written ++ [.ack 1]) = true :=
    Run.exists_step_of_exec (by decide +kernel)
  exact ⟨s, acks_only_received .sample ⟨1024, none⟩ 1 _ s s' (.handler () .acked) hrun hs ()
    [.ack 1] (of_decide_eq_true hw) 1 (by simp) (by decide)⟩

/-- The `Server` is dropped while the batch is queued. The handler acknowledges it,
and the consumer has received nothing. -/
theorem acks_dropped_queue :
    ∃ s : Hub Unit, Run (step .sample ⟨1024, none⟩ 1) anything (init Unit)
        (sampleCollect ++ [.dropServer, .handler () .acked]) s ∧
      (s.handlers ()).written = [.ack 1] ∧ s.received = [] := by
  obtain ⟨s, hrun, hf⟩ : ∃ s : Hub Unit, Run (step .sample ⟨1024, none⟩ 1) anything (init Unit)
      (sampleCollect ++ [.dropServer, .handler () .acked]) s ∧
      ((s.handlers ()).written, s.received) = ([.ack 1], []) :=
    Run.exists_of_exec (by decide +kernel)
  exact ⟨s, hrun, congrArg Prod.fst hf, congrArg Prod.snd hf⟩

end Hub
end Lumberjack.Server
