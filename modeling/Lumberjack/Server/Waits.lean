import Lumberjack.Server.Shutdown

/-!
# What a task waits for

With no batch on its way a task either has a step of its own or waits for its peer: to
shake hands, for bytes that complete a frame, or to take what is written to it. Nothing
the server does ends such a wait. Only the peer can, by hanging up if by nothing else.
-/
namespace Lumberjack.Server

open Lumberjack.Stream Lumberjack.Wire Lumberjack.Process

theorem Phase.not_writing_of_reading {p : Phase} (h : p.reading) : p.writing = false := by
  cases p <;> first | rfl | cases h

namespace Handler

variable {z : Flate} {cfg : ConnectionConfig} {h h' : Handler} {a : Act}

/-- The steps in which the peer has a part. -/
def Act.byPeer : Act → Prop
  | .read _ | .eof | .write _ | .fail _ => True
  | _ => False

/-- The handler waits for its peer: for bytes, or for room to write to it. -/
def Waits (z : Flate) (cfg : ConnectionConfig) (h : Handler) : Prop :=
  (h.phase.reading ∧ ((cfg.decoder z).decode h.buffer).1 = .ok none) ∨ h.phase.writing

/-- A handler that is not held up by its batch goes on or waits for its peer. -/
theorem goes_on (z : Flate) (cfg : ConnectionConfig) (hlive : h.phase.live)
    (hd : ∀ c, h.phase ≠ .dispatching c) (hrx : h.ackRx ≠ .pending) :
    h.Waits z cfg ∨ ∃ x h', (x = .next ∨ x = .acked) ∧ h.step z cfg x = some h' := by
  have reads (hr : h.phase.reading) :
      h.Waits z cfg ∨ ∃ x h', (x = .next ∨ x = .acked) ∧ h.step z cfg x = some h' := by
    rcases hdec : (cfg.decoder z).decode h.buffer with ⟨e | _ | f, r⟩
    · exact .inr ⟨.next, _, .inl rfl, (Step.undecodable hr hdec).enabled⟩
    · exact .inl (.inl ⟨hr, by rw [hdec]⟩)
    · exact .inr ⟨.next, _, .inl rfl, by simp only [step, hr, hdec]; rfl⟩
  cases hp : h.phase with
  | expectWindow => exact reads (by rw [hp]; rfl)
  | collecting c => exact reads (by rw [hp]; rfl)
  | dispatching c => exact absurd hp (hd c)
  | awaitAck l =>
    obtain ⟨v, hv⟩ : ∃ v, h.ackRx.acked l = some v := by
      cases hx : h.ackRx with
      | pending => exact absurd hx hrx
      | sent v => exact ⟨v, rfl⟩
      | closed => exact ⟨l, rfl⟩
    exact .inr ⟨.acked, _, .inr rfl, (Step.acked hp hv).enabled⟩
  | keepalive l => exact .inl (.inr (by rw [hp]; rfl))
  | acking => exact .inl (.inr (by rw [hp]; rfl))
  | done r => simp [hp, Phase.live] at hlive
  | failed e => simp [hp, Phase.live] at hlive
  | shutdown => simp [hp, Phase.live] at hlive

/-- A handler that waits finds the end of the stream, or writes what it has. -/
theorem Waits.resumes (hw : h.Waits z cfg) (hl : h.Logged cfg) :
    ∃ x h', (x = .eof ∨ ∃ k, x = .write k) ∧ h.step z cfg x = some h' := by
  rcases hw with ⟨hr, hd⟩ | hw
  · exact ⟨.eof, _, .inl rfl, (Step.eof hr (Prod.ext hd rfl)).enabled⟩
  · have hout := List.length_pos_iff.mpr (hl.flushing hw)
    exact ⟨.write h.out.length, _, .inr ⟨_, rfl⟩, (Step.write hw hout (Nat.le_refl _)).enabled⟩

/-- A handler that waits does nothing without its peer. -/
theorem Step.byPeer (hs : Step z cfg h a h') (hw : h.Waits z cfg) : a.byPeer ∨ a = .release := by
  have other {p : Phase} (hp : h.phase = p) (hr : p.reading = false) (hq : p.writing = false) :
      a.byPeer ∨ a = .release := by
    rcases hw with ⟨hw, -⟩ | hw
    · cases hr.symm.trans (hp ▸ hw)
    · cases hq.symm.trans (hp ▸ hw)
  have whole {p : Phase} (hp : h.phase = p) (hq : p.writing = false) {x : Result (Option Frame)} {r : Bytes}
      (hd : (cfg.decoder z).decode h.buffer = (x, r)) (hx : x ≠ .ok none) : a.byPeer ∨ a = .release := by
    rcases hw with ⟨-, hn⟩ | hw
    · rw [hd] at hn
      exact absurd hn hx
    · cases hq.symm.trans (hp ▸ hw)
  cases hs with
  | read hr hc hd => exact .inl trivial
  | eof hr hd => exact .inl trivial
  | write hw hk hl => exact .inl trivial
  | fail hio => exact .inl trivial
  | release hrx hl => exact .inr rfl
  | window hp hd => exact whole hp rfl hd (by simp)
  | stray hp hf hd => exact whole hp rfl hd (by simp)
  | collected hp hd hf => exact whole hp rfl hd (by simp)
  | rejected hp hd hf => exact whole hp rfl hd (by simp)
  | undecodable hr hd => exact whole rfl (Phase.not_writing_of_reading hr) hd (by simp)
  | dispatch hp => exact other hp rfl rfl
  | shutdown hp => exact other hp rfl rfl
  | tick hp hk hrx => exact other hp rfl rfl
  | acked hp hv => exact other hp rfl rfl

end Handler

theorem Hub.step_local {ι : Type} [DecidableEq ι] {z : Flate} {cfg : ConnectionConfig} {capacity : Nat}
    {s : Hub ι} {c : ι} {a : Handler.Act} (ha : Hub.Local a) :
    s.step z cfg capacity (.handler c a) = ((s.handlers c).step z cfg a).map (s.setHandler c) := by
  cases a <;> first | rfl | exact ha.elim

namespace Service

variable {ι : Type} [DecidableEq ι] {z : Flate} {b : ServerBuilder}
variable {s s' : Service ι} {a : Act ι} {gone : ι → Prop}

/-- A step of a task or of the consumer, without bytes from a peer and without a
keepalive. -/
def Act.parting : Act ι → Bool
  | .handler _ (.read _) | .handler _ .tick => false
  | .handshake _ _ | .handler _ _ | .ret _ | .finish _ | .recv | .release _ _ => true
  | _ => false

/-- What the server does without its peers, of which those in `gone` have hung up: their
connections end or fail, and so do their handshakes. -/
def Act.Unaided (gone : ι → Prop) : Act ι → Prop
  | .accept _ | .handshake _ true | .handler _ (.read _) | .handler _ .tick => False
  | .handshake c false => gone c
  | .handler c x => x.byPeer → gone c
  | _ => True

/-- The task waits for its peer. -/
def Waits (z : Flate) (b : ServerBuilder) (s : Service ι) (c : ι) : Prop :=
  s.tasks c = .handshaking ∨ s.tasks c = .serving ∧ (s.hub.handlers c).Waits z b.config

/-- The task has ended, or it waits for a peer that has not hung up. -/
def Settled (z : Flate) (b : ServerBuilder) (gone : ι → Prop) (s : Service ι) (c : ι) : Prop :=
  (s.tasks c = .absent ∨ s.tasks c = .ended) ∨ ¬ gone c ∧ s.Waits z b c

/-- A serving task takes the steps that are its handler's own. -/
theorem step_of_handler {c : ι} {x : Handler.Act} {h : Handler} (ht : s.tasks c = .serving)
    (hx : Hub.Local x) (hs : (s.hub.handlers c).step z b.config x = some h) :
    s.step z b (.handler c x) = some (s.setHub (s.hub.setHandler c h)) := by
  simp only [step, ht, Hub.step_local hx, hs]
  rfl

/-- A serving task that is not held up by its batch has a step of its own, or waits. -/
theorem serving_goes_on {c : ι} (ht : s.tasks c = .serving)
    (hd : ∀ w, (s.hub.handlers c).phase ≠ .dispatching w) (hrx : (s.hub.handlers c).ackRx ≠ .pending) :
    s.Waits z b c ∨ ∃ a t, (a = .ret c ∨ a = .handler c .next ∨ a = .handler c .acked) ∧
      s.step z b a = some t := by
  by_cases hlive : (s.hub.handlers c).phase.live
  · rcases Handler.goes_on z b.config hlive hd hrx with hw | ⟨x, h', hx, hs⟩
    · exact .inl (.inr ⟨ht, hw⟩)
    · rcases hx with rfl | rfl
      · exact .inr ⟨_, _, .inr (.inl rfl), step_of_handler ht trivial hs⟩
      · exact .inr ⟨_, _, .inr (.inr rfl), step_of_handler ht trivial hs⟩
  · refine .inr ⟨.ret c, s.setTask c .returned, .inl rfl, ?_⟩
    simp [step, ht, hlive]

/-- A task that waits goes on when its peer hangs up. -/
theorem Waits.resumes {c : ι} (hw : s.Waits z b c) (hinv : s.Inv z b) (hgone : gone c) :
    ∃ a t, a.parting ∧ a.Unaided gone ∧ s.step z b a = some t := by
  rcases hw with ht | ⟨ht, hw⟩
  · exact ⟨.handshake c false, s.setTask c .returned, rfl, hgone, by simp [step, ht]⟩
  · obtain ⟨x, h', hx, hs⟩ := hw.resumes (hinv.hub.logged c)
    rcases hx with rfl | ⟨k, rfl⟩
    · exact ⟨.handler c .eof, _, rfl, fun _ => hgone, step_of_handler ht trivial hs⟩
    · exact ⟨.handler c (.write k), _, rfl, fun _ => hgone, step_of_handler ht trivial hs⟩

/-- A batch that is neither queued nor held has been released. -/
theorem Inv.released (hinv : s.Inv z b) (hq : s.hub.queue = []) (hheld : s.hub.held = []) (c : ι) :
    (s.hub.handlers c).ackRx ≠ .pending := by
  intro hp
  obtain ⟨x, hx, -⟩ := hinv.held hq hp
  rw [hheld] at hx
  cases hx

/-- Without a step of a task, and without a batch on its way, every task is settled. -/
theorem Inv.settled (hinv : s.Inv z b) (hq : s.hub.queue = []) (hheld : s.hub.held = [])
    (hd : ∀ c w, s.tasks c = .serving → (s.hub.handlers c).phase ≠ .dispatching w)
    (hstuck : ∀ a t, a.parting → a.Unaided gone → s.step z b a ≠ some t) (c : ι) :
    s.Settled z b gone c := by
  have waits (hw : s.Waits z b c) : s.Settled z b gone c := by
    refine .inr ⟨fun hgone => ?_, hw⟩
    obtain ⟨a, t, hp, hu, hs⟩ := hw.resumes hinv hgone
    exact hstuck a t hp hu hs
  cases ht : s.tasks c with
  | absent => exact .inl (.inl ht)
  | ended => exact .inl (.inr ht)
  | handshaking => exact waits (.inl ht)
  | returned => exact absurd (by simp only [step, ht]; rfl) (hstuck (.finish c) _ rfl trivial)
  | serving =>
    rcases serving_goes_on ht (fun w => hd c w ht) (hinv.released hq hheld c) with hw | ⟨a, t, ha, hs⟩
    · exact waits hw
    · obtain rfl | rfl | rfl := ha
      · exact absurd hs (hstuck _ t rfl trivial)
      · exact absurd hs (hstuck _ t rfl False.elim)
      · exact absurd hs (hstuck _ t rfl False.elim)

/-- The consumer can release what it holds. -/
theorem Inv.held_nil (hinv : s.Inv z b)
    (hstuck : ∀ a t, a.parting → a.Unaided gone → s.step z b a ≠ some t) : s.hub.held = [] := by
  by_contra hne
  obtain ⟨x, rest, hh⟩ := List.exists_cons_of_ne_nil hne
  obtain ⟨tx, hack⟩ := hinv.hub.owned.stamped x (by simp [hh])
  obtain ⟨hub, hs⟩ : ∃ hub, s.hub.step z b.config b.channelCapacity (.release tx .drop) = some hub := by
    simp [Hub.step, hh, hack]
  exact absurd (by simp only [step, hs]; rfl) (hstuck (.release tx .drop) _ rfl trivial)

/-- Settled tasks stay as they are, and so does a consumer that holds nothing and does not
receive. -/
theorem Step.unsettled (hs : Step z b s a s') (hu : a.Unaided gone) (hpart : a.parting)
    (hheld : s.hub.held = []) (hset : ∀ c, s.Settled z b gone c) : a = .recv := by
  have task {c : ι} {t : Task} (ht : s.tasks c = t) (ha : t ≠ .absent) (he : t ≠ .ended) :
      ¬ gone c ∧ s.Waits z b c := by
    rcases hset c with (h | h) | h
    · exact absurd (ht.symm.trans h) ha
    · exact absurd (ht.symm.trans h) he
    · exact h
  cases hs with
  | select hl hh => cases hpart
  | stop hl hh => cases hpart
  | accept hl ht => cases hpart
  | pending hl => cases hpart
  | acceptFailed hl => cases hpart
  | dropServer hh => cases hpart
  | dropRx hh hs => cases hpart
  | recv hh hs => rfl
  | @handshake c ok ht =>
    cases ok with
    | true => exact hu.elim
    | false => exact absurd hu (task ht (by simp) (by simp)).1
  | ret ht hp =>
    obtain ⟨-, hw | ⟨-, hw⟩⟩ := task ht (by simp) (by simp)
    · cases ht.symm.trans hw
    · rcases hw with ⟨hr, -⟩ | hw
      · cases hp.symm.trans (Phase.live_of_reading hr)
      · cases hp.symm.trans (Phase.live_of_writing hw)
  | finish ht =>
    obtain ⟨-, hw | ⟨hw, -⟩⟩ := task ht (by simp) (by simp) <;> cases ht.symm.trans hw
  | release hs =>
    cases hs with
    | release hb hh => simp [hheld] at hh
  | @handler c x hub ht hs =>
    obtain ⟨hgone, hw | ⟨-, hw⟩⟩ := task ht (by simp) (by simp)
    · cases ht.symm.trans hw
    · obtain ⟨h, hh⟩ : ∃ h, Handler.Step z b.config (s.hub.handlers c) x h := by
        cases hs with
        | own hx hs => exact ⟨_, hs⟩
        | dispatch hp hs hopen hroom => exact ⟨_, hs⟩
        | shutdown hs hclosed => exact ⟨_, hs⟩
      rcases hh.byPeer hw with hx | rfl
      · cases x <;> first | exact hu.elim | exact absurd (hu hx) hgone
      · cases hs with
        | own hx hs => exact hx.elim

/-- When every peer has hung up, nothing is left of the settled tasks. -/
theorem Inv.gauge_zero (hinv : s.Inv z b) (hset : ∀ c, s.Settled z b gone c)
    (hgone : ∀ c ∈ s.accepted, gone c) :
    (∀ c, s.tasks c = .absent ∨ s.tasks c = .ended) ∧ s.activeConnections = 0 := by
  have hended : ∀ c, s.tasks c = .absent ∨ s.tasks c = .ended := by
    intro c
    rcases hset c with h | ⟨hn, hw⟩
    · exact h
    · refine absurd (hgone c ((hinv.present c).mpr ?_)) hn
      rcases hw with ht | ⟨ht, -⟩ <;> simp [ht]
  refine ⟨hended, ?_⟩
  have hnone : s.guards = 0 := by
    apply List.countP_eq_zero.mpr
    intro c _
    rcases hended c with hc | hc <;> simp [hc, Task.guarded]
  rw [activeConnections, hinv.gauge, hnone]
  rfl

end Service
end Lumberjack.Server
