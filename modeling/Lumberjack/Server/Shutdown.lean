import Lumberjack.Server.Accounting

/-!
# Dropping the `Server`

The drop sends on the shutdown channel and then closes the batch channel. The accept
loop may be past its look at the shutdown channel, so one more connection can get in.
The handlers are not told: a handler learns of the drop when it next dispatches. Until
then it finishes the batch it has out, and without further bytes from its peer there
is only a bounded number of steps it can take.
-/
namespace Lumberjack.Server

open Lumberjack.Stream Lumberjack.Wire Lumberjack.Process

namespace Service

variable {ι : Type} [DecidableEq ι] {z : Flate} {b : ServerBuilder}
variable {s s' : Service ι} {a : Act ι} {as : List (Act ι)}

theorem Step.handle (hs : Step z b s a s') (hh : s.handle ≠ .alive) : s'.handle ≠ .alive := by
  cases hs with
  | dropRx => simp
  | dropServer h => exact absurd h hh
  | _ => exact hh

/-- **At most one connection gets in after the drop.** From the moment the `Server` is
being dropped, in every continuation of every run, the connections accepted stay what
they are, or one more is accepted, and that only if the loop had already looked at the
shutdown channel and found it empty. A loop that has ended accepts none. -/
theorem accepts_after_drop (z : Flate) (b : ServerBuilder) (as bs : List (Act ι)) (s s' : Service ι)
    (hrun : Run (step z b) anything (bind ι) as s) (hdrop : s.handle ≠ .alive)
    (hcont : Run (step z b) anything s bs s') :
    s'.accepted = s.accepted ∨ (s.loop = .accepting ∧ ∃ c, c ∉ s.accepted ∧
      s'.accepted = s.accepted ++ [c]) := by
  have hinv := run_inv hrun
  have hkept : s'.handle ≠ .alive ∧ s'.Inv z b ∧
      ((s'.accepted = s.accepted ∧ (s'.loop = .accepting → s.loop = .accepting)) ∨
        (s'.loop ≠ .accepting ∧ s.loop = .accepting ∧
          ∃ c, c ∉ s.accepted ∧ s'.accepted = s.accepted ++ [c])) := by
    apply hcont.invariant (P := fun t => t.handle ≠ .alive ∧ t.Inv z b ∧
      ((t.accepted = s.accepted ∧ (t.loop = .accepting → s.loop = .accepting)) ∨
        (t.loop ≠ .accepting ∧ s.loop = .accepting ∧
          ∃ c, c ∉ s.accepted ∧ t.accepted = s.accepted ++ [c])))
      ⟨hdrop, hinv, .inl ⟨rfl, id⟩⟩
    intro t x t' ⟨hh, hi, hacc⟩ _ hs
    have hstep := step_cases hs
    refine ⟨hstep.handle hh, hstep.inv hi, ?_⟩
    cases hstep with
    | select hl hal => exact absurd hal hh
    | stop hl hne =>
      rcases hacc with ⟨h1, -⟩ | ⟨-, h2, h3⟩
      · exact .inl ⟨h1, fun h => by cases h⟩
      · exact .inr ⟨by simp, h2, h3⟩
    | pending hl =>
      rcases hacc with ⟨h1, -⟩ | ⟨-, h2, h3⟩
      · exact .inl ⟨h1, fun h => by cases h⟩
      · exact .inr ⟨by simp, h2, h3⟩
    | acceptFailed hl =>
      rcases hacc with ⟨h1, -⟩ | ⟨-, h2, h3⟩
      · exact .inl ⟨h1, fun h => by cases h⟩
      · exact .inr ⟨by simp, h2, h3⟩
    | @accept c hl ht =>
      rcases hacc with ⟨h1, h2⟩ | ⟨h1, -⟩
      · refine .inr ⟨by simp, h2 hl, c, ?_, by rw [← h1]⟩
        rw [← h1, hi.present c]
        simp [ht]
      · exact absurd hl h1
    | _ => exact hacc
  rcases hkept.2.2 with ⟨h, -⟩ | ⟨-, h⟩
  · exact .inl h
  · exact .inr h

/-- The loop was past its look at the shutdown channel when the `Server` was dropped. -/
theorem accepts_after_drop_sample :
    ∃ s s' : Service Unit, s.handle = .dropping ∧ s.accepted = [] ∧ s'.accepted = [()] ∧
      (s'.accepted = s.accepted ∨ (s.loop = .accepting ∧ ∃ c, c ∉ s.accepted ∧
        s'.accepted = s.accepted ++ [c])) := by
  obtain ⟨s, s', hrun, hs, hf⟩ : ∃ s s' : Service Unit, Run (step .sample {}) anything (bind Unit)
      [.select, .dropServer] s ∧ step .sample {} s (.accept ()) = some s' ∧
      (s.handle, s.accepted, s'.accepted) = (.dropping, [], [()]) :=
    Run.exists_step_of_exec (by decide +kernel)
  have hdrop : s.handle = .dropping := congrArg Prod.fst hf
  exact ⟨s, s', hdrop, congrArg (fun p => p.2.1) hf, congrArg (fun p => p.2.2) hf,
    accepts_after_drop .sample {} _ [.accept ()] s s' hrun (by simp [hdrop]) (.single trivial hs)⟩

end Service

namespace Handler

variable {z : Flate} {cfg : ConnectionConfig} {h h' : Handler} {a : Act}

/-- What a handler that dispatches nothing more has done since it was `h₀`: keepalives
while its batch was out, then the acknowledgement of that batch. -/
structure Winds (h₀ h : Handler) : Prop where
  dispatched : h.dispatched = h₀.dispatched
  pending : h.ackRx = .pending → h₀.ackRx = .pending
  written : ∃ k, (0 < k → h₀.ackRx = .pending) ∧
    ((h.rounds = h₀.rounds ∧ h.written = h₀.written ++ List.replicate k (.ack 0)) ∨
      (h₀.dispatched.length = h₀.rounds.length + 1 ∧ h.rounds.length = h₀.rounds.length + 1 ∧
        ∃ d, h₀.dispatched.getLast? = some d ∧
          h.written = h₀.written ++ List.replicate k (.ack 0) ++ [.ack d.lastSeq]))

theorem Winds.refl (h : Handler) : h.Winds h :=
  ⟨rfl, id, 0, fun hk => absurd hk (Nat.lt_irrefl 0), .inl ⟨rfl, by simp⟩⟩

theorem Step.winds {h₀ : Handler} (hs : Step z cfg h a h') (hl : h.Logged cfg) (ha : a ≠ .dispatch)
    (hw : h₀.Winds h) : h₀.Winds h' := by
  obtain ⟨hd, hrx, k, hk, hwr⟩ := hw
  cases hs with
  | dispatch hp => exact absurd rfl ha
  | @tick lastSeq interval hp hka hpend =>
    have hlen := hl.pending hpend
    refine ⟨hd, hrx, k + 1, fun _ => hrx hpend, ?_⟩
    rcases hwr with ⟨hr, hw⟩ | ⟨hlen₀, hr, -⟩
    · left
      refine ⟨hr, ?_⟩
      show h.written ++ [.ack 0] = _
      rw [hw, List.replicate_succ', List.append_assoc]
    · rw [hd] at hlen
      omega
  | @acked lastSeq seq hp hv =>
    have haw : h.phase.awaits = some lastSeq := by
      rw [hp]
      rfl
    obtain rfl := hl.acked_eq haw hv
    obtain ⟨hlen, d, hlast, hseq⟩ := hl.awaits _ haw
    rw [hd] at hlen hlast
    refine ⟨hd, hrx, k, hk, ?_⟩
    rcases hwr with ⟨hr, hw⟩ | ⟨hlen₀, hr, -⟩
    · right
      rw [hr] at hlen
      refine ⟨hlen, ?_, d, hlast, ?_⟩
      · show (h.rounds ++ [h.ticks]).length = _
        rw [List.length_append, List.length_singleton, hr]
      · show h.written ++ [.ack seq] = _
        rw [hw, hseq]
    · omega
  | release hpend hlast =>
    refine ⟨hd, ?_, k, hk, hwr⟩
    intro hc
    cases hc
  | _ => exact ⟨hd, hrx, k, hk, hwr⟩

end Handler

namespace Service

variable {ι : Type} [DecidableEq ι] {z : Flate} {b : ServerBuilder}
variable {s s' : Service ι} {a : Act ι} {as : List (Act ι)}

/-- The batch a handler waits for is held once nothing is queued. -/
theorem Inv.held (hinv : s.Inv z b) (hq : s.hub.queue = []) {c : ι}
    (hp : (s.hub.handlers c).ackRx = .pending) : ∃ x ∈ s.hub.held, x.owner = some c := by
  have hlog := hinv.hub.logged c
  have hne : (s.hub.handlers c).dispatched ≠ [] := by
    intro hnil
    have hlen := hlog.pending hp
    rw [hnil] at hlen
    cases hlen
  have hperm := hinv.hub.owned.perm c
  rw [Handler.outstanding_eq hp (List.getLast?_eq_some_getLast hne), hq, List.nil_append] at hperm
  obtain ⟨hm, howner⟩ := List.mem_filter.mp (hperm.mem_iff.mpr List.mem_cons_self)
  exact ⟨_, hm, by simpa using howner⟩

theorem run_winds {bs : List (Act ι)} (hinv : s.Inv z b) (hc : s.hub.closed = true)
    (hcont : Run (step z b) anything s bs s') :
    s'.Inv z b ∧ s'.hub.closed = true ∧ s'.hub.received = s.hub.received ∧
    (s.hub.queue = [] → s'.hub.queue = []) ∧
    ∀ c, (s.hub.handlers c).Winds (s'.hub.handlers c) := by
  apply hcont.invariant (P := fun t => t.Inv z b ∧ t.hub.closed = true ∧
    t.hub.received = s.hub.received ∧ (s.hub.queue = [] → t.hub.queue = []) ∧
    ∀ c, (s.hub.handlers c).Winds (t.hub.handlers c))
    ⟨hinv, hc, rfl, id, fun c => .refl _⟩
  intro t x t' ⟨hi, hcl, hrec, hq, hw⟩ _ hs
  have hstep := step_cases hs
  obtain ⟨h1, h2, h3⟩ := hstep.of_closed hcl
  refine ⟨hstep.inv hi, hstep.closed.mpr (.inl hcl), h1.trans hrec, fun h => h2 (hq h), fun c => ?_⟩
  rcases hstep.view hi.hub c with he | ⟨y, hy, -, -, hown⟩ | hrel
  · rw [he]
    exact hw c
  · refine hown.winds (hi.hub.logged c) ?_ (hw c)
    intro hyd
    rw [hyd] at hy
    exact h3 c hy
  · exact hrel.winds (hi.hub.logged c) (by simp) (hw c)

/-- **What the handlers still do after the drop.** Once the batch channel is closed, in
every continuation of every run: the consumer receives nothing more and no batch is
dispatched. A connection is sent at most the acknowledgement of the batch it had out
when the channel closed, after keepalives that are sent only if the consumer was
holding that batch; a window completed later is dropped without an answer. -/
theorem acks_after_drop (z : Flate) (b : ServerBuilder) (as bs : List (Act ι)) (s s' : Service ι)
    (hrun : Run (step z b) anything (bind ι) as s) (hdrop : s.handle = .dropped)
    (hcont : Run (step z b) anything s bs s') :
    s'.hub.received = s.hub.received ∧ s'.hub.queue = [] ∧
    ∀ c, let h := s.hub.handlers c
      (s'.hub.handlers c).dispatched = h.dispatched ∧
      ∃ k last, (s'.hub.handlers c).written = h.written ++ List.replicate k (.ack 0) ++ last ∧
        (0 < k → ∃ x ∈ s.hub.held, x.owner = some c) ∧
        (last = [] ∨ (h.dispatched.length = h.rounds.length + 1 ∧
          ∃ d, h.dispatched.getLast? = some d ∧ last = [.ack d.lastSeq])) := by
  have hinv := run_inv hrun
  have hc := hinv.closed.mpr hdrop
  have hq := hinv.emptied hc
  obtain ⟨-, -, hrec, hq', hw⟩ := run_winds hinv hc hcont
  refine ⟨hrec, hq' hq, fun c => ⟨(hw c).dispatched, ?_⟩⟩
  obtain ⟨k, hk, hwr⟩ := (hw c).written
  rcases hwr with ⟨-, hwr⟩ | ⟨hlen, -, d, hd, hwr⟩
  · exact ⟨k, [], by rw [hwr, List.append_nil], fun h => hinv.held hq (hk h), .inl rfl⟩
  · exact ⟨k, [.ack d.lastSeq], hwr, fun h => hinv.held hq (hk h), .inr ⟨hlen, d, hd, rfl⟩⟩

/-- A batch that was held when the `Server` was dropped is released and acknowledged. -/
theorem acks_after_drop_sample :
    ∃ s s' : Service Unit, (s.hub.handlers ()).written = [] ∧ (s'.hub.handlers ()).written = [.ack 1] ∧
      s'.hub.received = s.hub.received ∧
      (s'.hub.handlers ()).dispatched = (s.hub.handlers ()).dispatched := by
  obtain ⟨s, s', hrun, hs, hf⟩ : ∃ s s' : Service Unit, Run (step .sample {}) anything (bind Unit)
      [.select, .accept (), .handler () (.read Hub.sampleWindow), .handler () .next, .handler () .next,
        .handler () .dispatch, .recv, .dropServer, .dropRx, .release ((), 0) .ack] s ∧
      step .sample {} s (.handler () .acked) = some s' ∧
      (s.handle, (s.hub.handlers ()).written, (s'.hub.handlers ()).written) = (.dropped, [], [.ack 1]) :=
    Run.exists_step_of_exec (by decide +kernel)
  have hafter := acks_after_drop .sample {} _ [.handler () .acked] s s' hrun (congrArg Prod.fst hf)
    (.single trivial hs)
  exact ⟨s, s', congrArg (fun p => p.2.1) hf, congrArg (fun p => p.2.2) hf, hafter.1,
    (hafter.2.2 ()).1⟩

end Service
end Lumberjack.Server
