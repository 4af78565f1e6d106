import Lumberjack.Server.Service

/-!
# The invariant of the server

What the hub keeps is kept here too, since a step of the server is a step of the
hub or leaves the hub alone. Around it: a connection has a task once it is accepted
and a handler that moves only while the task serves; the gauge counts the guards;
the channel is closed when the `Server` is gone. From these the end of
`Server::recv` and the number of batches in circulation follow.
-/
namespace Lumberjack.Server

open Lumberjack.Stream Lumberjack.Wire Lumberjack.Process

namespace Hub

variable {ι : Type} [DecidableEq ι] {z : Flate} {cfg : ConnectionConfig} {capacity : Nat}
variable {s s' : Hub ι} {a : Act ι}

theorem Step.closed_eq (hs : Step z cfg capacity s a s') (ha : a ≠ .dropServer) :
    s'.closed = s.closed := by
  cases hs with
  | dropServer hopen => exact absurd rfl ha
  | _ => rfl

theorem Step.room (hs : Step z cfg capacity s a s') (hr : s.queue.length ≤ capacity) :
    s'.queue.length ≤ capacity := by
  cases hs with
  | dispatch hp hs hopen hroom =>
    rw [List.length_append, List.length_singleton]
    exact hroom
  | recv hopen hq =>
    rw [hq, List.length_cons] at hr
    dsimp only
    omega
  | dropServer hopen => exact Nat.zero_le _
  | _ => exact hr

end Hub

namespace Service

variable {ι : Type} [DecidableEq ι] {z : Flate} {b : ServerBuilder}
variable {s s' : Service ι} {a : Act ι}

theorem step_hub (hs : s.step z b a = some s') :
    (∃ x, a.hub = some x ∧ s.hub.step z b.config b.channelCapacity x = some s'.hub) ∨
    (a.hub = none ∧ s'.hub = s.hub) := by
  cases a with
  | handler c x =>
    simp only [step] at hs
    split at hs
    · obtain ⟨hub, hh, rfl⟩ := Option.map_eq_some_iff.mp hs
      exact .inl ⟨_, rfl, hh⟩
    · cases hs
  | recv =>
    simp only [step] at hs
    split at hs
    · obtain ⟨hub, hh, rfl⟩ := Option.map_eq_some_iff.mp hs
      exact .inl ⟨_, rfl, hh⟩
    · cases hs
  | release tx how =>
    obtain ⟨hub, hh, rfl⟩ := Option.map_eq_some_iff.mp hs
    exact .inl ⟨_, rfl, hh⟩
  | dropRx =>
    simp only [step] at hs
    split at hs
    · obtain ⟨hub, hh, rfl⟩ := Option.map_eq_some_iff.mp hs
      exact .inl ⟨_, rfl, hh⟩
    · cases hs
  | _ =>
    right
    refine ⟨rfl, ?_⟩
    simp only [step] at hs
    split at hs
    · cases hs
      rfl
    · cases hs

/-- A step of the hub leaves loop and tasks alone. -/
theorem Step.of_hub (hs : Step z b s a s') {x : Hub.Act ι} (ha : a.hub = some x) :
    s'.loop = s.loop ∧ s'.tasks = s.tasks ∧ s'.accepted = s.accepted := by
  cases hs with
  | handler ht hs => exact ⟨rfl, rfl, rfl⟩
  | recv hh hs => exact ⟨rfl, rfl, rfl⟩
  | release hs => exact ⟨rfl, rfl, rfl⟩
  | dropRx hh hs => exact ⟨rfl, rfl, rfl⟩
  | _ => cases ha

theorem Step.hub (hs : Step z b s a s') :
    (∃ x, a.hub = some x ∧ Hub.Step z b.config b.channelCapacity s.hub x s'.hub) ∨ s'.hub = s.hub := by
  cases hs with
  | handler ht hs => exact .inl ⟨_, rfl, hs⟩
  | recv hh hs => exact .inl ⟨_, rfl, hs⟩
  | release hs => exact .inl ⟨_, rfl, hs⟩
  | dropRx hh hs => exact .inl ⟨_, rfl, hs⟩
  | _ => exact .inr rfl

/-- What a step does to the handler of one connection: nothing, a step of its own while
the task serves, or the release of the batch it has out. -/
theorem Step.view (hs : Step z b s a s') (hinv : s.hub.Inv z b.config) (c : ι) :
    s'.hub.handlers c = s.hub.handlers c ∨
    (∃ x, a = .handler c x ∧ s.tasks c = .serving ∧ x ≠ .release ∧
      Handler.Step z b.config (s.hub.handlers c) x (s'.hub.handlers c)) ∨
    Handler.Step z b.config (s.hub.handlers c) .release (s'.hub.handlers c) := by
  have through {x : Hub.Act ι} {hub : Hub ι}
      (hh : Hub.Step z b.config b.channelCapacity s.hub x hub) :
      hub.handlers c = s.hub.handlers c ∨
      (∃ y, x = .handler c y ∧ y ≠ .release ∧
        Handler.Step z b.config (s.hub.handlers c) y (hub.handlers c)) ∨
      Handler.Step z b.config (s.hub.handlers c) .release (hub.handlers c) := by
    cases hh.view hinv.owned c with
    | unchanged he => exact .inl he
    | own ha hb hs => exact .inr (.inl ⟨_, ha, hb, hs⟩)
    | released ha hm hb hs => exact .inr (.inr hs)
    | dropped ha hm hb hs => exact .inr (.inr hs)
  cases hs with
  | @handler c' x hub ht hs =>
    rcases through hs with he | ⟨y, hy, hne, hstep⟩ | hrel
    · exact .inl he
    · cases hy
      exact .inr (.inl ⟨x, rfl, ht, hne, hstep⟩)
    · exact .inr (.inr hrel)
  | recv hh hs =>
    rcases through hs with he | ⟨y, hy, -⟩ | hrel
    · exact .inl he
    · cases hy
    · exact .inr (.inr hrel)
  | release hs =>
    rcases through hs with he | ⟨y, hy, -⟩ | hrel
    · exact .inl he
    · cases hy
    · exact .inr (.inr hrel)
  | dropRx hh hs =>
    rcases through hs with he | ⟨y, hy, -⟩ | hrel
    · exact .inl he
    · cases hy
    · exact .inr (.inr hrel)
  | _ => exact .inl rfl

/-- What a step does to the task of one connection. -/
theorem Step.task (hs : Step z b s a s') (c : ι) :
    s'.tasks c = s.tasks c ∨
    (s'.hub = s.hub ∧
      ((s.tasks c = .absent ∧ (s'.tasks c).sends) ∨
        (s.tasks c = .handshaking ∧ (s'.tasks c = .serving ∨ s'.tasks c = .returned)) ∨
        (s.tasks c = .serving ∧ s'.tasks c = .returned ∧ (s.hub.handlers c).phase.live = false) ∨
        (s.tasks c = .returned ∧ s'.tasks c = .ended))) := by
  cases hs with
  | @accept c' hl ht =>
    by_cases hc : c = c'
    · subst hc
      refine .inr ⟨rfl, .inl ⟨ht, ?_⟩⟩
      simp only [setTask, Function.update_self]
      split <;> rfl
    · exact .inl (Function.update_of_ne hc _ _)
  | @handshake c' ok ht =>
    by_cases hc : c = c'
    · subst hc
      refine .inr ⟨rfl, .inr (.inl ⟨ht, ?_⟩)⟩
      simp only [setTask, Function.update_self]
      cases ok
      · exact .inr rfl
      · exact .inl rfl
    · exact .inl (Function.update_of_ne hc _ _)
  | @ret c' ht hp =>
    by_cases hc : c = c'
    · subst hc
      exact .inr ⟨rfl, .inr (.inr (.inl ⟨ht, Function.update_self _ _ _, hp⟩))⟩
    · exact .inl (Function.update_of_ne hc _ _)
  | @finish c' ht =>
    by_cases hc : c = c'
    · subst hc
      exact .inr ⟨rfl, .inr (.inr (.inr ⟨ht, Function.update_self _ _ _⟩))⟩
    · exact .inl (Function.update_of_ne hc _ _)
  | _ => exact .inl rfl

/-- Only the accept loop accepts, one connection at a time. -/
theorem Step.accepted (hs : Step z b s a s') :
    (s'.accepted = s.accepted ∧ ∀ c, s.tasks c = .absent → s'.tasks c = .absent) ∨
    ∃ c, a = .accept c ∧ s.loop = .accepting ∧ s.tasks c = .absent ∧ (s'.tasks c).sends ∧
      s'.loop = .selecting ∧ s'.accepted = s.accepted ++ [c] ∧ ∀ d, d ≠ c → s'.tasks d = s.tasks d := by
  have other {c : ι} (t : Task) (hne : s.tasks c ≠ .absent) (d : ι) (hd : s.tasks d = .absent) :
      (s.setTask c t).tasks d = .absent := by
    have hdc : d ≠ c := by
      intro hdc
      rw [hdc] at hd
      exact hne hd
    simp only [setTask]
    rwa [Function.update_of_ne hdc]
  cases hs with
  | @accept c hl ht =>
    refine .inr ⟨c, rfl, hl, ht, ?_, rfl, rfl, fun d hd => Function.update_of_ne hd _ _⟩
    simp only [setTask, Function.update_self]
    split <;> rfl
  | handshake ht => exact .inl ⟨rfl, other _ (by simp [ht])⟩
  | ret ht hp => exact .inl ⟨rfl, other _ (by simp [ht])⟩
  | finish ht => exact .inl ⟨rfl, other _ (by simp [ht])⟩
  | _ => exact .inl ⟨rfl, fun c hc => hc⟩

/-- The channel is closed by the second half of the drop, and by nothing else. -/
theorem Step.closed (hs : Step z b s a s') :
    s'.hub.closed = true ↔ s.hub.closed = true ∨ a = .dropRx := by
  cases hs with
  | handler ht hs => simp [setHub, hs.closed_eq (by simp)]
  | recv hh hs => simp [setHub, hs.closed_eq (by simp)]
  | release hs => simp [setHub, hs.closed_eq (by simp)]
  | dropRx hh hs =>
    cases hs with
    | dropServer hopen => simp
  | _ => simp [setTask]

/-- A closed channel takes nothing and hands out nothing. -/
theorem Step.of_closed (hs : Step z b s a s') (hc : s.hub.closed = true) :
    s'.hub.received = s.hub.received ∧ (s.hub.queue = [] → s'.hub.queue = []) ∧
    ∀ c, a ≠ .handler c .dispatch := by
  have hub {x : Hub.Act ι} {hub : Hub ι} (hs : Hub.Step z b.config b.channelCapacity s.hub x hub) :
      hub.received = s.hub.received ∧ (s.hub.queue = [] → hub.queue = []) ∧
        ∀ c, x ≠ .handler c .dispatch := by
    cases hs with
    | own ha hs =>
      refine ⟨rfl, id, ?_⟩
      intro c hx
      cases hx
      exact ha
    | dispatch hp hs hopen hroom => simp [hc] at hopen
    | recv hopen hq => simp [hc] at hopen
    | dropServer hopen => simp [hc] at hopen
    | shutdown hs hclosed => exact ⟨rfl, id, fun c hx => by cases hx⟩
    | release hb hh => exact ⟨rfl, id, fun c hx => by cases hx⟩
  cases hs with
  | @handler c x hub' ht hs =>
    obtain ⟨h1, h2, h3⟩ := hub hs
    refine ⟨h1, h2, ?_⟩
    intro c' hx
    cases hx
    exact h3 c rfl
  | recv hh hs => exact ⟨(hub hs).1, (hub hs).2.1, fun c hx => by cases hx⟩
  | release hs => exact ⟨(hub hs).1, (hub hs).2.1, fun c hx => by cases hx⟩
  | dropRx hh hs => exact ⟨(hub hs).1, (hub hs).2.1, fun c hx => by cases hx⟩
  | _ => exact ⟨rfl, id, fun c hx => by cases hx⟩

/-- The connections whose guard is alive. -/
def guards (s : Service ι) : Nat := s.accepted.countP fun c => (s.tasks c).guarded

omit [DecidableEq ι] in
/-- One task moves on. -/
theorem guards_move {c : ι} (hn : s.accepted.Nodup) (hc : c ∈ s.accepted)
    (hacc : s'.accepted = s.accepted) (hother : ∀ d, d ≠ c → s'.tasks d = s.tasks d) :
    s'.guards + (s.tasks c).guarded.toNat = s.guards + (s'.tasks c).guarded.toNat := by
  unfold guards
  rw [hacc, countP_eq_tally, countP_eq_tally]
  apply tally_move hn hc
  intro d hd
  rw [hother d hd]

/-- A task that moves between two states with a guard leaves the count. -/
theorem guards_keep {c : ι} (hn : s.accepted.Nodup) (hc : c ∈ s.accepted) (t : Task)
    (ht : t.guarded = (s.tasks c).guarded) : (s.setTask c t).guards = s.guards := by
  have hmove : (s.setTask c t).guards + (s.tasks c).guarded.toNat =
      s.guards + ((s.setTask c t).tasks c).guarded.toNat :=
    guards_move hn hc rfl (fun d hd => Function.update_of_ne hd _ _)
  rw [show (s.setTask c t).tasks c = t from Function.update_self _ _ _, ht] at hmove
  omega

omit [DecidableEq ι] in
theorem guards_accept {c : ι} (hc : c ∉ s.accepted) (hacc : s'.accepted = s.accepted ++ [c])
    (hg : (s'.tasks c).guarded) (hother : ∀ d, d ≠ c → s'.tasks d = s.tasks d) :
    s'.guards = s.guards + 1 := by
  unfold guards
  rw [hacc, countP_eq_tally, countP_eq_tally, tally_concat, hg]
  congr 1
  apply tally_congr
  intro d hd
  have hdc : d ≠ c := by
    intro hdc
    rw [hdc] at hd
    exact hc hd
  rw [hother d hdc]

structure Inv (z : Flate) (b : ServerBuilder) (s : Service ι) : Prop where
  hub : s.hub.Inv z b.config
  nodup : s.accepted.Nodup
  present : ∀ c, c ∈ s.accepted ↔ s.tasks c ≠ .absent
  gauge : s.active = .ofNat s.guards
  fresh : ∀ c, s.tasks c = .absent ∨ s.tasks c = .handshaking → s.hub.handlers c = .init
  returned : ∀ c, s.tasks c = .returned ∨ s.tasks c = .ended →
    s.hub.handlers c = .init ∨ (s.hub.handlers c).phase.live = false
  closed : s.hub.closed = true ↔ s.handle = .dropped
  emptied : s.hub.closed = true → s.hub.queue = []
  stopped : s.loop = .stopped → s.handle ≠ .alive
  room : s.hub.queue.length ≤ b.channelCapacity

theorem bind_inv (z : Flate) (b : ServerBuilder) : (bind ι).Inv z b where
  hub := Hub.init_inv z b.config
  nodup := List.nodup_nil
  present := by simp [bind]
  gauge := by simp [bind, guards]
  fresh _ _ := rfl
  returned := by simp [bind]
  closed := by simp [bind, Hub.init]
  emptied _ := rfl
  stopped := by simp [bind]
  room := by simp [bind, Hub.init]

theorem Step.present (hs : Step z b s a s') (hinv : s.Inv z b) (c : ι) :
    c ∈ s'.accepted ↔ s'.tasks c ≠ .absent := by
  have hp := hinv.present c
  rcases hs.accepted with ⟨hacc, habs⟩ | ⟨c', -, -, ht, hsend, -, hacc, hother⟩
  · rw [hacc, hp]
    constructor
    · intro hne
      rcases hs.task c with he | ⟨-, h | h | h | h⟩
      · rwa [he]
      · exact absurd h.1 hne
      · rcases h.2 with h | h <;> simp [h]
      · simp [h.2.1]
      · simp [h.2]
    · intro hne habs'
      exact hne (habs c habs')
  · rw [hacc, List.mem_append, List.mem_singleton]
    by_cases hc : c = c'
    · subst hc
      refine iff_of_true (.inr rfl) ?_
      intro habs
      rw [habs] at hsend
      cases hsend
    · rw [hother c hc, ← hp]
      simp [hc]

theorem Step.nodup (hs : Step z b s a s') (hinv : s.Inv z b) : s'.accepted.Nodup := by
  rcases hs.accepted with ⟨hacc, -⟩ | ⟨c, -, -, ht, -, -, hacc, -⟩
  · rw [hacc]
    exact hinv.nodup
  · rw [hacc]
    have hc : c ∉ s.accepted := by
      rw [hinv.present c]
      simp [ht]
    refine List.nodup_append.mpr ⟨hinv.nodup, by simp, ?_⟩
    intro d hd e he hde
    rw [List.mem_singleton.mp he] at hde
    rw [hde] at hd
    exact hc hd

/-- The accepts of a run, and the ends of its tasks. -/
def Act.isAccept : Act ι → Bool
  | .accept _ => true
  | _ => false

def Act.isFinish : Act ι → Bool
  | .finish _ => true
  | _ => false

theorem Step.guards (hs : Step z b s a s') (hinv : s.Inv z b) :
    s.guards + a.isAccept.toNat = s'.guards + a.isFinish.toNat := by
  have mem {c : ι} {t : Task} (ht : s.tasks c = t) (hne : t ≠ .absent) : c ∈ s.accepted := by
    rw [hinv.present c, ht]
    exact hne
  cases hs with
  | @accept c hl ht =>
    have hc : c ∉ s.accepted := by
      rw [hinv.present c]
      simp [ht]
    exact (guards_accept hc rfl (by simp only [setTask, Function.update_self]; split <;> rfl)
      (fun d hd => Function.update_of_ne hd _ _)).symm
  | @handshake c ok ht =>
    exact (guards_keep hinv.nodup (mem ht (by simp)) _ (by rw [ht]; cases ok <;> rfl)).symm
  | @ret c ht hp => exact (guards_keep hinv.nodup (mem ht (by simp)) _ (by rw [ht]; rfl)).symm
  | @finish c ht =>
    have hkeep : s.guards = (s.setTask c .ended).guards + 1 := by
      have hmove : (s.setTask c .ended).guards + _ = s.guards + _ :=
        guards_move hinv.nodup (mem ht (by simp)) rfl (fun d hd => Function.update_of_ne hd _ _)
      rw [ht, show (s.setTask c .ended).tasks c = .ended from Function.update_self _ _ _] at hmove
      exact hmove.symm
    exact hkeep
  | _ => rfl

theorem Step.gauge (hs : Step z b s a s') (hinv : s.Inv z b) : s'.active = .ofNat s'.guards := by
  have hgauge := hinv.gauge
  have hcount := hs.guards hinv
  cases hs with
  | accept hl ht =>
    refine Eq.trans ?_ (congrArg UInt64.ofNat (show s.guards + 1 = _ from hcount))
    rw [UInt64.ofNat_add, ← hgauge]
    rfl
  | finish ht =>
    show s.active - 1 = _
    rw [hgauge, show s.guards = _ + 1 from hcount, UInt64.ofNat_add]
    exact UInt64.add_sub_cancel _ _
  | _ => exact hgauge.trans (congrArg _ hcount)

theorem Step.fresh (hs : Step z b s a s') (hinv : s.Inv z b) (c : ι)
    (ht : s'.tasks c = .absent ∨ s'.tasks c = .handshaking) : s'.hub.handlers c = .init := by
  rcases hs.task c with he | ⟨hhub, h | h | h | h⟩
  · rw [he] at ht
    have hinit := hinv.fresh c ht
    rcases hs.view hinv.hub c with hv | ⟨x, -, hserv, -⟩ | hrel
    · rw [hv, hinit]
    · simp [hserv] at ht
    · have hpend := hrel.release_pending
      rw [hinit] at hpend
      cases hpend
  · rw [hhub]
    exact hinv.fresh c (.inl h.1)
  · rcases h.2 with h | h <;> simp [h] at ht
  · simp [h.2.1] at ht
  · simp [h.2] at ht

theorem Step.returned (hs : Step z b s a s') (hinv : s.Inv z b) (c : ι)
    (ht : s'.tasks c = .returned ∨ s'.tasks c = .ended) :
    s'.hub.handlers c = .init ∨ (s'.hub.handlers c).phase.live = false := by
  rcases hs.task c with he | ⟨hhub, h | h | h | h⟩
  · rw [he] at ht
    rcases hs.view hinv.hub c with hv | ⟨x, -, hserv, -⟩ | hrel
    · rw [hv]
      exact hinv.returned c ht
    · simp [hserv] at ht
    · rcases hinv.returned c ht with hinit | hlive
      · have hpend := hrel.release_pending
        rw [hinit] at hpend
        cases hpend
      · right
        rw [(hrel.of_returned hlive).1]
        exact hlive
  · rcases ht with ht | ht <;> simp [ht, Task.sends] at h
  · rw [hhub]
    exact .inl (hinv.fresh c (.inr h.1))
  · rw [hhub]
    exact .inr h.2.2
  · rw [hhub]
    exact hinv.returned c (.inl h.1)

theorem Step.inv (hs : Step z b s a s') (hinv : s.Inv z b) : s'.Inv z b where
  hub := by
    rcases hs.hub with ⟨x, -, hx⟩ | he
    · exact hx.inv hinv.hub
    · rw [he]
      exact hinv.hub
  nodup := hs.nodup hinv
  present := hs.present hinv
  gauge := hs.gauge hinv
  fresh := hs.fresh hinv
  returned := hs.returned hinv
  closed := by
    have hc := hinv.closed
    rw [hs.closed, hc]
    cases hs with
    | dropServer hh => simp [hh]
    | dropRx hh hs => simp
    | _ => simp [setHub, setTask]
  emptied hc := by
    rcases hs.closed.mp hc with hc | rfl
    · exact (hs.of_closed hc).2.1 (hinv.emptied hc)
    · cases hs with
      | dropRx hh hs =>
        cases hs with
        | dropServer hopen => rfl
  stopped := by
    have hst := hinv.stopped
    cases hs with
    | stop hl hh => exact fun _ => hh
    | dropServer hh => simp
    | dropRx hh hs => simp
    | select hl hh => simp
    | accept hl ht => simp
    | pending hl => simp
    | acceptFailed hl => simp
    | _ => exact hst
  room := by
    rcases hs.hub with ⟨x, -, hx⟩ | he
    · exact hx.room hinv.room
    · rw [he]
      exact hinv.room

theorem run_inv {ok : Service ι → Act ι → Prop} {as : List (Act ι)}
    (hrun : Run (step z b) ok (bind ι) as s) : s.Inv z b :=
  hrun.invariant (bind_inv z b) (fun hinv _ hs => (step_cases hs).inv hinv)

end Service
end Lumberjack.Server
