import Lumberjack.Server.Release

/-!
# Connections do not see each other

The handlers of a `Server` share the channel and the consumer. A handler's state,
and with it every frame it has written and the result it returned, is nevertheless
what its own actions make of it when it runs alone: its reads and its keepalives,
the scheduling of its own task, and the releases of its own batches.
-/
namespace Lumberjack.Server

open Lumberjack.Stream Lumberjack.Wire Lumberjack.Process

section Stamped

variable {ι : Type}

theorem mem_stamped {c : ι} {ds : List Dispatch} {b : Batch (ι × Nat)} (h : b ∈ stamped c ds) :
    ∃ k d, ds[k]? = some d ∧ b = stamp c k d := by
  obtain ⟨k, hk, rfl⟩ := List.mem_mapIdx.mp h
  exact ⟨k, ds[k], List.getElem?_eq_getElem hk, rfl⟩

end Stamped

/-- What `run_connection` does on a handler's bytes, at the handler's own pace. -/
theorem Handler.Follows.log_done {z : Flate} {cfg : ConnectionConfig} {h : Handler}
    (hf : h.Follows z cfg) (hl : h.Logged cfg) {r : Result Unit} (hp : h.phase = .done r) :
    runConnection z cfg (paced h.rounds) (.ofReads [h.input]) = ⟨h.dispatched, h.written, r⟩ := by
  have hlen := hl.settled (by rw [hp]; rfl)
  have hticks := hl.quiet hlen
  rw [runConnection_outcome, hf.outcome_done hp, hl.written, hticks,
    List.take_of_length_le (by omega), List.replicate_zero, List.append_nil]

namespace Hub

variable {ι : Type} [DecidableEq ι] {z : Flate} {cfg : ConnectionConfig} {capacity : Nat}
variable {s : Hub ι} {as : List (Act ι)}

/-- The actions that concern one connection. -/
def own (c : ι) : Act ι → Option Handler.Act
  | .handler c' a => if c' = c then some a else none
  | .release (c', _) _ => if c' = c then some .release else none
  | .recv | .dropServer => none

theorem run_own (hrun : Run (step z cfg capacity) noDrop (init ι) as s) (c : ι) :
    exec (Handler.step z cfg) .init (as.filterMap (own c)) = some (s.handlers c) := by
  apply hrun.project (f := fun s => s.handlers c) (P := fun s => s.Inv z cfg) (init_inv z cfg)
  · intro s a s' hinv _ hs
    exact (step_cases hs).inv hinv
  · intro s a s' hinv hok hs
    cases (step_cases hs).view hinv.owned c with
    | unchanged he hne hnr =>
      have hnone : own c a = none := by
        cases a with
        | handler c' b =>
          simp only [own, ite_eq_right_iff, reduceCtorEq, imp_false]
          rintro rfl
          exact hne b rfl
        | release tx how =>
          simp only [own, ite_eq_right_iff, reduceCtorEq, imp_false]
          rintro rfl
          exact hnr tx.2 how rfl
        | recv => rfl
        | dropServer => rfl
      simp only [hnone]
      exact he
    | own ha hb hstep =>
      rw [ha]
      simp only [own, if_true]
      exact hstep.enabled
    | released ha hm hb hstep =>
      rw [ha]
      simp only [own, if_true]
      exact hstep.enabled
    | dropped ha hm hb hstep => exact absurd ha hok

/-- From one connection, the consumer gets the batches in the order of dispatch. -/
theorem run_received (hrun : Run (step z cfg capacity) noDrop (init ι) as s) (c : ι) :
    s.received.filter (fun b => b.owner = some c) <+: stamped c (s.handlers c).dispatched := by
  obtain ⟨lost, hord, -⟩ := (run_inv hrun).order c
  rw [List.filter_append, List.append_assoc] at hord
  exact ⟨_, hord⟩

/-- **Isolation and order with many connections.** In every run in which the
`Server` is not dropped, for every connection: at most one batch is dispatched and
not acknowledged; the consumer gets its batches in the order of dispatch, the
`k`-th at most once and as the `k`-th, and gets nothing that no connection
dispatched; these are the first batches of `run_connection` on the bytes read,
whatever follows. The handler's whole state is the one its own actions lead to
when it runs alone. The frames written are given by its bytes, its keepalives and
the number of its batches acknowledged, all of which were released; a handler that
returned on its input did what `run_connection` does on those bytes. -/
theorem connections_isolated (z : Flate) (cfg : ConnectionConfig) (capacity : Nat)
    (as : List (Act ι)) (s : Hub ι) (hrun : Run (step z cfg capacity) noDrop (init ι) as s) (c : ι) :
    let h := s.handlers c
    h.dispatched.length ≤ h.rounds.length + 1 ∧
    s.received.filter (fun b => b.owner = some c) <+: stamped c h.dispatched ∧
    (∀ b ∈ s.received, ∃ c' k d, (s.handlers c').dispatched[k]? = some d ∧ b = stamp c' k d) ∧
    (∀ env t, h.dispatched <+: (runConnection z cfg env (.ofReads [h.input ++ t])).batches) ∧
    exec (Handler.step z cfg) .init (as.filterMap (own c)) = some h ∧
    (h.written = ackStream cfg (paced h.rounds)
        ((runConnection z cfg (paced h.rounds) (.ofReads [h.input])).batches.take h.rounds.length) ++
        List.replicate h.ticks (.ack 0) ∧
      ∀ k < h.rounds.length, (c, k) ∈ s.released) ∧
    ∀ r, h.phase = .done r →
      runConnection z cfg (paced h.rounds) (.ofReads [h.input]) = ⟨h.dispatched, h.written, r⟩ := by
  intro h
  have hinv := run_inv hrun
  have hlog : h.Logged cfg := hinv.logged c
  have hfol : h.Follows z cfg := hinv.follows c
  refine ⟨hlog.count.2, run_received hrun c, ?_, ?_, run_own hrun c, ⟨?_, ?_⟩, ?_⟩
  · intro b hb
    obtain ⟨⟨c', k⟩, hack⟩ := hinv.tagged b hb
    have hmem : b ∈ s.received.filter (fun b => b.owner = some c') := by
      apply List.mem_filter.mpr
      exact ⟨hb, by simp [Batch.owner, hack]⟩
    exact ⟨c', mem_stamped ((run_received hrun c').subset hmem)⟩
  · intro env t
    rw [runConnection_outcome]
    exact hfol.batches_front t
  · obtain ⟨t, ht⟩ := hfol.batches_front []
    rw [List.append_nil] at ht
    rw [runConnection_outcome, ← ht, List.take_append_of_le_length hlog.count.1]
    exact hlog.written
  · intro k hk
    exact run_released hrun (.inl hk)
  · intro r hr
    exact hfol.log_done hlog hr

/-- Two connections and a channel of capacity 1. While the batch of the first is
held, the second sends a frame of an unknown version and fails. -/
def sampleRivals : List (Act Bool) :=
  [.handler true (.read sampleWindow), .handler false (.read [49, 87, 0, 0, 0, 1]),
    .handler true .next, .handler true .next, .handler true .dispatch, .handler false .next, .recv,
    .handler true .tick, .release (true, 0) .intoEvents, .handler true (.write 6),
    .handler true .acked]

/-- The first handler ends where its own eight actions lead. -/
theorem connections_isolated_sample :
    ∃ s : Hub Bool, (s.handlers false).phase = .done (.error (.invalidFrame "unsupported protocol version")) ∧
      (s.handlers true).written = [.ack 0, .ack 1] ∧
      exec (Handler.step .sample ⟨1024, some 50⟩) .init
        [.read sampleWindow, .next, .next, .dispatch, .tick, .release, .write 6, .acked] =
          some (s.handlers true) := by
  obtain ⟨s, hrun, hf⟩ : ∃ s : Hub Bool, Run (step .sample ⟨1024, some 50⟩ 1) noDrop (init Bool)
      sampleRivals s ∧ ((s.handlers false).phase, (s.handlers true).written) =
        (.done (.error (.invalidFrame "unsupported protocol version")), [.ack 0, .ack 1]) :=
    Run.exists_of_exec (by decide +kernel)
  exact ⟨s, congrArg Prod.fst hf, congrArg Prod.snd hf,
    (connections_isolated .sample ⟨1024, some 50⟩ 1 sampleRivals s hrun true).2.2.2.2.1⟩

end Hub
end Lumberjack.Server
