import Lumberjack.Server.Waits

/-!
# A dropped server runs dry

Once the `Server` is dropped, with no bytes from the peers and no keepalive falling due,
every step of the accept loop, of a task or of the consumer lowers a measure. So the
server stops, in whatever order these steps are taken. Where it stops, the loop has ended
and every batch has been released, but a task ends only with its peer: the drop closes no
accepted socket, and the task of a peer that stays connected and says nothing waits for
it. When all peers have hung up, every task has ended and the gauge is 0.
-/
namespace Lumberjack.Server

open Lumberjack.Stream Lumberjack.Wire Lumberjack.Process

/-- What the phases still cost. A phase that leads to another costs more than it and
the bytes it adds to the write buffer. -/
def Phase.left : Phase → Nat
  | .expectWindow | .collecting _ => 2
  | .acking => 4
  | .awaitAck _ => 16
  | .keepalive _ => 17
  | .dispatching _ => 18
  | .done _ | .failed _ | .shutdown => 0

theorem Phase.left_ofCollect (c : Collect) : (ofCollect c).left ≤ 18 := by
  unfold ofCollect
  split
  · show 2 ≤ 18
    omega
  · exact Nat.le_refl _

theorem Phase.left_of_reading {p : Phase} (h : p.reading) : p.left = 2 := by
  cases p <;> first | rfl | cases h

theorem Phase.left_flushed {p : Phase} (h : p.writing) : p.flushed.left < p.left := by
  cases p with
  | keepalive lastSeq =>
    show 16 < 17
    omega
  | acking =>
    show 2 < 4
    omega
  | _ => cases h

namespace Handler

variable {z : Flate} {cfg : ConnectionConfig} {h h' : Handler} {a : Act}

def left (h : Handler) : Nat :=
  if h.phase.live then 32 * h.buffer.length + h.out.length + h.phase.left else 0

theorem left_of_live (hl : h.phase.live) :
    h.left = 32 * h.buffer.length + h.out.length + h.phase.left := if_pos hl

/-- A frame taken from the buffer pays for whatever phase follows. -/
theorem left_next (hr : h.phase.reading) {f : Frame} {r : Bytes}
    (hd : (cfg.decoder z).decode h.buffer = (.ok (some f), r)) {p : Phase} (hp : p.left ≤ 18) :
    left { h with buffer := r, phase := p } < h.left := by
  have hs := (cfg.decoder z).some_shrinks hd
  rw [left_of_live (Phase.live_of_reading hr), Phase.left_of_reading hr]
  unfold left
  split
  · dsimp only
    omega
  · omega

theorem left_ended (hl : 0 < h.phase.left) (hlive : h.phase.live) (hp : h'.phase.live = false) :
    h'.left < h.left := by
  rw [left_of_live hlive, left, if_neg (by simp [hp])]
  omega

/-- A release costs nothing, a dispatch pays for the place in the queue, and every other
step but a read and a keepalive lowers what is left. -/
theorem Step.left (hs : Step z cfg h a h') (hread : ∀ chunk, a ≠ .read chunk) (htick : a ≠ .tick) :
    (a = .release ∧ h'.left = h.left) ∨ (a = .dispatch ∧ h'.left + 1 < h.left) ∨
    (a ≠ .release ∧ a ≠ .dispatch ∧ h'.left < h.left) := by
  have reads (hr : h.phase.reading) : 0 < h.phase.left := by
    rw [Phase.left_of_reading hr]
    omega
  cases hs with
  | read hr hc hd => exact absurd rfl (hread _)
  | tick hp hk hrx => exact absurd rfl htick
  | release hrx hl => exact .inl ⟨rfl, rfl⟩
  | dispatch hp =>
    refine .inr (.inl ⟨rfl, ?_⟩)
    rw [left_of_live (by rfl), left_of_live (by rw [hp]; rfl), hp]
    simp only [Phase.left]
    omega
  | window hp hd =>
    exact .inr (.inr ⟨by simp, by simp, left_next (by rw [hp]; rfl) hd (Phase.left_ofCollect _)⟩)
  | stray hp hf hd =>
    exact .inr (.inr ⟨by simp, by simp, left_next (by rw [hp]; rfl) hd (Nat.zero_le _)⟩)
  | collected hp hd hf =>
    exact .inr (.inr ⟨by simp, by simp, left_next (by rw [hp]; rfl) hd (Phase.left_ofCollect _)⟩)
  | rejected hp hd hf =>
    exact .inr (.inr ⟨by simp, by simp, left_next (by rw [hp]; rfl) hd (Nat.zero_le _)⟩)
  | undecodable hr hd =>
    exact .inr (.inr ⟨by simp, by simp, left_ended (reads hr) (Phase.live_of_reading hr) rfl⟩)
  | eof hr hd =>
    exact .inr (.inr ⟨by simp, by simp, left_ended (reads hr) (Phase.live_of_reading hr) rfl⟩)
  | shutdown hp =>
    refine .inr (.inr ⟨by simp, by simp, left_ended ?_ (by rw [hp]; rfl) rfl⟩)
    rw [hp]
    exact Nat.succ_pos _
  | fail hio =>
    refine .inr (.inr ⟨by simp, by simp, ?_⟩)
    rcases hio with hr | hw
    · exact left_ended (reads hr) (Phase.live_of_reading hr) rfl
    · refine left_ended ?_ (Phase.live_of_writing hw) rfl
      have hfl := Phase.left_flushed hw
      omega
  | acked hp hv =>
    refine .inr (.inr ⟨by simp, by simp, ?_⟩)
    rw [left_of_live (by rfl), left_of_live (by rw [hp]; rfl), hp]
    simp only [send, List.length_append, encode_ack_length, Phase.left]
    omega
  | @write k hw hk hl =>
    refine .inr (.inr ⟨by simp, by simp, ?_⟩)
    have hlive := Phase.live_written hw (h.out.length = k)
    have hfl := Phase.left_flushed hw
    rw [left_of_live hlive, left_of_live (Phase.live_of_writing hw), List.length_drop]
    dsimp only
    split <;> omega

end Handler

def Task.left : Task → Nat
  | .handshaking => 3
  | .serving => 2
  | .returned => 1
  | .absent | .ended => 0

def AcceptLoop.left : AcceptLoop → Nat
  | .accepting => 2
  | .selecting => 1
  | .stopped | .failed => 0

def Handle.left : Handle → Nat
  | .alive => 2
  | .dropping => 1
  | .dropped => 0

/-- A handler that moves on pays for the place its batch takes in the queue. -/
theorem Hub.Step.handler_left {ι : Type} [DecidableEq ι] {z : Flate} {cfg : ConnectionConfig}
    {capacity : Nat} {s s' : Hub ι} {c : ι} {a : Handler.Act}
    (hs : Hub.Step z cfg capacity s (.handler c a) s') (hread : ∀ chunk, a ≠ .read chunk)
    (htick : a ≠ .tick) :
    ∃ h k, s'.handlers = Function.update s.handlers c h ∧ h.left + k ≤ (s.handlers c).left ∧
      s'.held = s.held ∧ s'.queue.length < s.queue.length + k := by
  cases hs with
  | @own _ _ h ha hs =>
    rcases hs.left hread htick with ⟨rfl, -⟩ | ⟨rfl, -⟩ | ⟨-, -, hlt⟩
    · exact ha.elim
    · exact ha.elim
    · exact ⟨h, 1, rfl, hlt, rfl, Nat.lt_succ_self _⟩
  | @dispatch _ w h hp hs hopen hroom =>
    rcases hs.left hread htick with ⟨hx, -⟩ | ⟨-, hlt⟩ | ⟨-, hx, -⟩
    · cases hx
    · refine ⟨h, 2, rfl, hlt, rfl, ?_⟩
      simp only [List.length_append, List.length_singleton]
      omega
    · exact absurd rfl hx
  | @shutdown _ h hs hclosed =>
    rcases hs.left hread htick with ⟨hx, -⟩ | ⟨hx, -⟩ | ⟨-, -, hlt⟩
    · cases hx
    · cases hx
    · exact ⟨h, 1, rfl, hlt, rfl, Nat.lt_succ_self _⟩

namespace Service

variable {ι : Type} [DecidableEq ι] {z : Flate} {b : ServerBuilder}
variable {s s' : Service ι} {a : Act ι} {as : List (Act ι)}

/-- No connection comes in, no bytes arrive and no keepalive falls due. -/
def Act.silent : Act ι → Bool
  | .accept _ | .handler _ (.read _) | .handler _ .tick => false
  | _ => true

def silently (_ : Service ι) (a : Act ι) : Prop := a.silent

instance (s : Service ι) (a : Act ι) : Decidable (silently s a) := inferInstanceAs (Decidable (_ = true))

def weight (s : Service ι) (c : ι) : Nat := (s.tasks c).left + (s.hub.handlers c).left

/-- What is left to do when the `Server` is gone. -/
def left (s : Service ι) : Nat :=
  s.loop.left + s.handle.left + s.hub.queue.length + s.hub.held.length + tally s.weight s.accepted

omit [DecidableEq ι] in
theorem weights_move {c : ι} {k : Nat} (hn : s.accepted.Nodup) (hc : c ∈ s.accepted)
    (hother : ∀ d, d ≠ c → s'.weight d = s.weight d) (hw : s'.weight c + k ≤ s.weight c) :
    tally s'.weight s.accepted + k ≤ tally s.weight s.accepted := by
  have hmove := tally_move hn hc hother
  omega

/-- A task moves on, and its handler stays. -/
theorem weights_task {c : ι} (hn : s.accepted.Nodup) (hc : c ∈ s.accepted) {t : Task}
    (ht : t.left < (s.tasks c).left) :
    tally (s.setTask c t).weight s.accepted < tally s.weight s.accepted := by
  apply weights_move (k := 1) hn hc
  · intro d hd
    simp [weight, setTask, hd]
  · simp only [weight, setTask, Function.update_self]
    omega

/-- A handler moves on, and its task stays. -/
theorem weights_handler {c : ι} {k : Nat} (hn : s.accepted.Nodup) (hc : c ∈ s.accepted) {hub : Hub ι}
    {h : Handler} (hub_eq : hub.handlers = Function.update s.hub.handlers c h)
    (hw : h.left + k ≤ (s.hub.handlers c).left) :
    tally (s.setHub hub).weight s.accepted + k ≤ tally s.weight s.accepted := by
  apply weights_move hn hc
  · intro d hd
    simp [weight, setHub, hub_eq, hd]
  · simp only [weight, setHub, hub_eq, Function.update_self]
    omega

/-- What a handler loses may go into the queue. -/
theorem left_handler {c : ι} {k : Nat} (hn : s.accepted.Nodup) (hc : c ∈ s.accepted) {hub : Hub ι}
    {h : Handler} (hub_eq : hub.handlers = Function.update s.hub.handlers c h)
    (hw : h.left + k ≤ (s.hub.handlers c).left)
    (hq : hub.queue.length + hub.held.length < s.hub.queue.length + s.hub.held.length + k) :
    (s.setHub hub).left < s.left := by
  have hmove := weights_handler hn hc hub_eq hw
  rw [left, left]
  show s.loop.left + s.handle.left + hub.queue.length + hub.held.length +
    tally (s.setHub hub).weight s.accepted < _
  omega

/-- Releases reach handlers without changing what is left of them. -/
theorem weights_released (hinv : s.hub.Inv z b.config) {x : Hub.Act ι} {hub : Hub ι}
    (hs : Hub.Step z b.config b.channelCapacity s.hub x hub) (hx : ∀ c y, x ≠ .handler c y) :
    tally (s.setHub hub).weight s.accepted = tally s.weight s.accepted := by
  apply tally_congr
  intro c _
  have release {h h' : Handler} (hr : Handler.Step z b.config h .release h') : h'.left = h.left := by
    rcases hr.left (by simp) (by simp) with ⟨-, he⟩ | ⟨hc, -⟩ | ⟨hc, -⟩
    · exact he
    · cases hc
    · exact absurd rfl hc
  show (s.tasks c).left + (hub.handlers c).left = (s.tasks c).left + (s.hub.handlers c).left
  congr 1
  cases hs.view hinv.owned c with
  | unchanged he => rw [he]
  | own ha hb hs => exact absurd ha (hx c _)
  | released ha hm hb hs => exact release hs
  | dropped ha hm hb hs => exact release hs

theorem Step.left (hs : Step z b s a s') (hinv : s.Inv z b) (hdrop : s.handle ≠ .alive)
    (hsil : silently s a) : s'.left < s.left := by
  have mem {c : ι} {t : Task} (ht : s.tasks c = t) (hne : t ≠ .absent) : c ∈ s.accepted := by
    rw [hinv.present c, ht]
    exact hne
  have loops {l : AcceptLoop} (hl : l.left < s.loop.left) : { s with loop := l }.left < s.left := by
    show l.left + s.handle.left + s.hub.queue.length + s.hub.held.length + tally s.weight s.accepted <
      s.loop.left + s.handle.left + s.hub.queue.length + s.hub.held.length + tally s.weight s.accepted
    omega
  have tasks {c : ι} {t : Task} {n : UInt64}
      (hw : tally (s.setTask c t).weight s.accepted < tally s.weight s.accepted) :
      { s.setTask c t with active := n }.left < s.left := by
    show s.loop.left + s.handle.left + s.hub.queue.length + s.hub.held.length +
        tally (s.setTask c t).weight s.accepted <
      s.loop.left + s.handle.left + s.hub.queue.length + s.hub.held.length + tally s.weight s.accepted
    omega
  cases hs with
  | select hl hh => exact absurd hh hdrop
  | recv hh hs => exact absurd hh hdrop
  | dropServer hh => exact absurd hh hdrop
  | accept hl ht => cases hsil
  | stop hl hh => exact loops (by rw [hl]; exact Nat.zero_lt_one)
  | pending hl => exact loops (by rw [hl]; exact Nat.one_lt_two)
  | acceptFailed hl => exact loops (by rw [hl]; exact Nat.zero_lt_two)
  | @handshake c ok ht =>
    apply tasks (weights_task hinv.nodup (mem ht (by simp)) _)
    rw [ht]
    cases ok
    · show 1 < 3
      omega
    · show 2 < 3
      omega
  | @ret c ht hp => exact tasks (weights_task hinv.nodup (mem ht (by simp)) (by rw [ht]; exact Nat.one_lt_two))
  | @finish c ht => exact tasks (weights_task hinv.nodup (mem ht (by simp)) (by rw [ht]; exact Nat.zero_lt_one))
  | @release tx how hub hs =>
    have hw := weights_released hinv.hub hs (fun c y hx => by cases hx)
    cases hs with
    | release hb hh =>
      rw [left, left]
      show s.loop.left + s.handle.left + s.hub.queue.length + _ + tally (s.setHub _).weight s.accepted < _
      rw [hw]
      simp only [setHub, hh, List.length_append, List.length_cons]
      omega
  | dropRx hh hs =>
    have hw := weights_released hinv.hub hs (fun c y hx => by cases hx)
    cases hs with
    | dropServer hopen =>
      rw [left, left]
      show s.loop.left + 0 + 0 + s.hub.held.length + tally (s.setHub _).weight s.accepted < _
      rw [hw, hh]
      simp only [Handle.left]
      omega
  | @handler c x hub ht hs =>
    have hc := mem ht (by simp)
    have hread : ∀ chunk, x ≠ .read chunk := by
      intro chunk hx
      rw [hx] at hsil
      cases hsil
    have htick : x ≠ .tick := by
      intro hx
      rw [hx] at hsil
      cases hsil
    obtain ⟨h, k, hh, hw, hheld, hq⟩ := hs.handler_left hread htick
    exact left_handler hinv.nodup hc hh hw (by rw [hheld]; omega)

/-- A dropped server has stopped when the loop has ended, every batch is released and
every task is settled, and not before. -/
theorem Inv.dry_iff {gone : ι → Prop} (hinv : s.Inv z b) (hdrop : s.handle ≠ .alive) :
    (∀ a t, a.Unaided gone → s.step z b a ≠ some t) ↔
      s.handle = .dropped ∧ s.loop.ended ∧ s.hub.queue = [] ∧ s.hub.held = [] ∧
        ∀ c, s.Settled z b gone c := by
  constructor
  · intro hstuck
    have hparting : ∀ a t, a.parting → a.Unaided gone → s.step z b a ≠ some t :=
      fun a t _ hu => hstuck a t hu
    have hdropped : s.handle = .dropped := by
      cases hh : s.handle with
      | alive => exact absurd hh hdrop
      | dropped => rfl
      | dropping =>
        have hopen : s.hub.closed = false := by
          rw [← Bool.not_eq_true, hinv.closed, hh]
          simp
        exact absurd (by simp only [step, hh, Hub.step, hopen]; rfl) (hstuck .dropRx _ trivial)
    have hloop : s.loop.ended := by
      cases hl : s.loop with
      | selecting => exact absurd (by simp only [step, hl]; rfl) (hstuck .select _ trivial)
      | accepting => exact absurd (by simp only [step, hl]; rfl) (hstuck .pending _ trivial)
      | stopped => rfl
      | failed => rfl
    have hc := hinv.closed.mpr hdropped
    have hheld := hinv.held_nil hparting
    refine ⟨hdropped, hloop, hinv.emptied hc, hheld, hinv.settled (hinv.emptied hc) hheld ?_ hparting⟩
    intro c w ht hp
    have hs : (s.hub.handlers c).step z b.config .shutdown =
        some { s.hub.handlers c with phase := .shutdown } := (Handler.Step.shutdown hp).enabled
    exact absurd (by simp only [step, ht, Hub.step, hc, hs]; rfl) (hstuck (.handler c .shutdown) _ False.elim)
  · rintro ⟨hdropped, hloop, hq, hheld, hset⟩ a t hu hs
    have hstep := step_cases hs
    by_cases hpart : a.parting
    · obtain rfl := hstep.unsettled hu hpart hheld hset
      simp [step, hdropped] at hs
    · cases hstep with
      | select hl hh => exact hdrop hh
      | stop hl hh => cases (hl ▸ hloop : AcceptLoop.ended .selecting)
      | accept hl ht => exact hu
      | pending hl => cases (hl ▸ hloop : AcceptLoop.ended .accepting)
      | acceptFailed hl => cases (hl ▸ hloop : AcceptLoop.ended .accepting)
      | dropServer hh => exact hdrop hh
      | dropRx hh hs => cases hdropped.symm.trans hh
      | @handler c x hub ht hs => cases x <;> first | exact hu.elim | exact hpart rfl
      | _ => exact hpart rfl

/-- **A dropped server runs dry.** From any state of any run in which the `Server` is
being dropped, with no connection coming in, no bytes arriving and no keepalive falling
due: no order of the remaining steps of the accept loop, the tasks and the consumer takes
more than `left` of them. Whichever peers have hung up, no step is left without the
others exactly where the loop has ended, every batch is released, and every task has
ended or waits for a peer that has not hung up. If all of them have, every task has ended
and the gauge is 0. -/
theorem dropped_runs_dry (z : Flate) (b : ServerBuilder) (as bs : List (Act ι)) (s s' : Service ι)
    (gone : ι → Prop) (hrun : Run (step z b) anything (bind ι) as s) (hdrop : s.handle ≠ .alive)
    (hcont : Run (step z b) silently s bs s') :
    bs.length ≤ s.left ∧
    ((∀ a t, a.Unaided gone → s'.step z b a ≠ some t) ↔
      s'.handle = .dropped ∧ s'.loop.ended ∧ s'.hub.queue = [] ∧ s'.hub.held = [] ∧
        ∀ c, (s'.tasks c = .absent ∨ s'.tasks c = .ended) ∨ ¬ gone c ∧ s'.Waits z b c) ∧
    ((∀ a t, a.Unaided gone → s'.step z b a ≠ some t) → (∀ c ∈ s'.accepted, gone c) →
      (∀ c, s'.tasks c = .absent ∨ s'.tasks c = .ended) ∧ s'.activeConnections = 0) := by
  obtain ⟨⟨hinv, hh⟩, hlen⟩ := hcont.bounded (P := fun t => t.Inv z b ∧ t.handle ≠ .alive) left
    ⟨run_inv hrun, hdrop⟩ (fun ⟨hi, hh⟩ hok hs => ⟨⟨(step_cases hs).inv hi, (step_cases hs).handle hh⟩,
      (step_cases hs).left hi hh hok⟩)
  refine ⟨by omega, hinv.dry_iff hh, ?_⟩
  intro hstuck hgone
  obtain ⟨-, -, -, -, hset⟩ := (hinv.dry_iff hh).mp hstuck
  exact hinv.gauge_zero hset hgone

/-- Two idle connections of a dropped server: one peer hangs up, and the task of the other
waits until its peer does so too. -/
theorem dropped_runs_dry_sample :
    ∃ s s' : Service Bool, s.activeConnections = 1 ∧ s'.activeConnections = 0 ∧
      (∀ a t, a.Unaided (fun c => c = true) → s.step .sample {} a ≠ some t) ∧
      ∀ a t, a.Unaided (fun _ => True) → s'.step .sample {} a ≠ some t := by
  let hangUp (c : Bool) : List (Act Bool) := [.handler c .eof, .ret c, .finish c]
  obtain ⟨s, hrun, hf⟩ : ∃ s : Service Bool, Run (step .sample {}) anything (bind Bool)
      [.select, .accept true, .select, .accept false, .dropServer, .select, .dropRx] s ∧
      (decide (s.handle = .dropped),
        (exec (fun s a => if silently s a then step .sample {} s a else none) s (hangUp true)).map fun t =>
          (decide (t.handle = .dropped ∧ t.loop.ended ∧ t.hub.queue = [] ∧ t.hub.held = [] ∧
              t.tasks true = .ended ∧ t.tasks false = .serving ∧
              (t.hub.handlers false).phase = .expectWindow ∧ (t.hub.handlers false).buffer = [] ∧
              t.activeConnections = 1),
            (exec (fun s a => if silently s a then step .sample {} s a else none) t (hangUp false)).map
              fun u => decide (u.handle = .dropped ∧ u.loop.ended ∧ u.hub.queue = [] ∧ u.hub.held = [] ∧
                u.tasks true = .ended ∧ u.tasks false = .ended))) = (true, some (true, some true)) :=
    Run.exists_of_exec (by decide +kernel)
  have hdrop : s.handle = .dropped := of_decide_eq_true (congrArg Prod.fst hf)
  obtain ⟨s₁, hcont₁, hf₁⟩ := Run.exists_of_exec (congrArg Prod.snd hf)
  obtain ⟨h1, h2, h3, h4, ht, hw, hp, hb, hone⟩ := of_decide_eq_true (congrArg Prod.fst hf₁)
  obtain ⟨s₂, hcont₂, hf₂⟩ := Run.exists_of_exec (congrArg Prod.snd hf₁)
  obtain ⟨k1, k2, k3, k4, kt, kf⟩ := of_decide_eq_true hf₂
  obtain ⟨-, hstays, -⟩ := dropped_runs_dry .sample {} _ _ s s₁ (fun c => c = true) hrun
    (by simp [hdrop]) hcont₁
  obtain ⟨-, hends, hzero⟩ := dropped_runs_dry .sample {} _ _ s s₂ (fun _ => True) hrun
    (by simp [hdrop]) (hcont₁.trans hcont₂)
  have hstuck := hends.mpr ⟨k1, k2, k3, k4, fun c => .inl (.inr (by cases c <;> assumption))⟩
  refine ⟨s₁, s₂, hone, (hzero hstuck (fun _ _ => trivial)).2, hstays.mpr ⟨h1, h2, h3, h4, ?_⟩, hstuck⟩
  intro c
  cases c with
  | true => exact .inl (.inr ht)
  | false => exact .inr ⟨by simp, .inr ⟨hw, .inl ⟨by rw [hp]; rfl, by rw [hb]; rfl⟩⟩⟩

end Service
end Lumberjack.Server
