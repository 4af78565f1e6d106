import Lumberjack.Server.Drain

/-!
# Peers that hang up

A server that stays up does not come to an end, but its connections do. When the peers
have sent what they had to send, and the consumer goes on receiving and releasing, every
step of a task or of the consumer lowers a measure. Where none is left, the consumer has
exactly the batches `run_connection` makes of the bytes of each connection, and the tasks
that have not ended wait for peers that have not hung up. Once all peers have, the gauge
is back at 0.
-/
namespace Lumberjack.Server

open Lumberjack.Stream Lumberjack.Wire Lumberjack.Process

namespace Service

variable {ι : Type} [DecidableEq ι] {z : Flate} {b : ServerBuilder}
variable {s s' : Service ι} {a : Act ι} {as : List (Act ι)}

def parting (_ : Service ι) (a : Act ι) : Prop := a.parting

instance (s : Service ι) (a : Act ι) : Decidable (parting s a) := inferInstanceAs (Decidable (_ = true))

/-- What tasks and consumer have left to do. A batch costs less with each hand it goes
through. -/
def toPart (s : Service ι) : Nat :=
  2 * tally s.weight s.accepted + 2 * s.hub.queue.length + s.hub.held.length

theorem toPart_handler {c : ι} {k : Nat} (hinv : s.Inv z b) (hc : c ∈ s.accepted) {hub : Hub ι}
    {h : Handler} (hub_eq : hub.handlers = Function.update s.hub.handlers c h)
    (hw : h.left + k ≤ (s.hub.handlers c).left) (hheld : hub.held = s.hub.held)
    (hq : hub.queue.length < s.hub.queue.length + k) : (s.setHub hub).toPart < s.toPart := by
  have hmove := weights_handler hinv.nodup hc hub_eq hw
  rw [toPart, toPart]
  show 2 * tally (s.setHub hub).weight s.accepted + 2 * hub.queue.length + hub.held.length < _
  rw [hheld]
  omega

theorem Step.toPart (hs : Step z b s a s') (hinv : s.Inv z b) (hpart : parting s a) :
    s'.toPart < s.toPart ∧ s'.handle = s.handle := by
  have mem {c : ι} {t : Task} (ht : s.tasks c = t) (hne : t ≠ .absent) : c ∈ s.accepted := by
    rw [hinv.present c, ht]
    exact hne
  have tasks {c : ι} {t : Task} {n : UInt64} (hc : c ∈ s.accepted) (hlt : t.left < (s.tasks c).left) :
      { s.setTask c t with active := n }.toPart < s.toPart := by
    have hw := weights_task hinv.nodup hc hlt
    show 2 * tally (s.setTask c t).weight s.accepted + 2 * s.hub.queue.length + s.hub.held.length <
      2 * tally s.weight s.accepted + 2 * s.hub.queue.length + s.hub.held.length
    omega
  cases hs with
  | select hl hh => cases hpart
  | stop hl hh => cases hpart
  | accept hl ht => cases hpart
  | pending hl => cases hpart
  | acceptFailed hl => cases hpart
  | dropServer hh => cases hpart
  | dropRx hh hs => cases hpart
  | @handshake c ok ht =>
    refine ⟨tasks (mem ht (by simp)) ?_, rfl⟩
    rw [ht]
    cases ok with
    | false => decide
    | true => decide
  | @ret c ht hp => exact ⟨tasks (mem ht (by simp)) (by rw [ht]; decide), rfl⟩
  | @finish c ht => exact ⟨tasks (mem ht (by simp)) (by rw [ht]; decide), rfl⟩
  | @recv hub hh hs =>
    refine ⟨?_, rfl⟩
    have hw := weights_released hinv.hub hs (fun c y hx => by cases hx)
    cases hs with
    | recv hopen hq =>
      rw [Service.toPart, Service.toPart]
      show 2 * tally (s.setHub _).weight s.accepted + _ + _ < _
      rw [hw]
      simp only [setHub, hq, List.length_append, List.length_cons, List.length_nil]
      omega
  | @release tx how hub hs =>
    refine ⟨?_, rfl⟩
    have hw := weights_released hinv.hub hs (fun c y hx => by cases hx)
    cases hs with
    | release hb hh =>
      rw [Service.toPart, Service.toPart]
      show 2 * tally (s.setHub _).weight s.accepted + _ + _ < _
      rw [hw]
      simp only [setHub, hh, List.length_append, List.length_cons]
      omega
  | @handler c x hub ht hs =>
    refine ⟨?_, rfl⟩
    have hc := mem ht (by simp)
    have hread : ∀ chunk, x ≠ .read chunk := by
      rintro chunk rfl
      cases hpart
    have htick : x ≠ .tick := by
      rintro rfl
      cases hpart
    obtain ⟨h, k, hh, hw, hheld, hq⟩ := hs.handler_left hread htick
    exact toPart_handler hinv hc hh hw hheld hq

/-- With room in the queue, the connections are at rest when every batch is received and
released and every task is settled, and not before. -/
theorem Inv.parted_iff {gone : ι → Prop} (hinv : s.Inv z b) (hlive : s.handle = .alive)
    (hcap : 1 ≤ b.channelCapacity) :
    (∀ a t, parting s a → a.Unaided gone → s.step z b a ≠ some t) ↔
      s.hub.queue = [] ∧ s.hub.held = [] ∧ ∀ c, s.Settled z b gone c := by
  constructor
  · intro hstuck
    have hopen := hinv.hub_open hlive
    have hheld := hinv.held_nil hstuck
    have hqueue : s.hub.queue = [] := by
      by_contra hne
      obtain ⟨x, rest, hq⟩ := List.exists_cons_of_ne_nil hne
      exact absurd (by simp only [step, hlive, Hub.step, hopen, hq]; rfl) (hstuck .recv _ rfl trivial)
    refine ⟨hqueue, hheld, hinv.settled hqueue hheld ?_ hstuck⟩
    intro c w ht hp
    obtain ⟨h, hs⟩ : ∃ h, (s.hub.handlers c).step z b.config .dispatch = some h :=
      ⟨_, (Handler.Step.dispatch hp).enabled⟩
    obtain ⟨hub, hhub⟩ : ∃ hub, s.hub.step z b.config b.channelCapacity (.handler c .dispatch) = some hub := by
      simp only [Hub.step, hp, hs, hopen, hqueue, List.length_nil]
      rw [if_pos ⟨trivial, hcap⟩]
      exact ⟨_, rfl⟩
    exact absurd (by simp only [step, ht, hhub]; rfl) (hstuck (.handler c .dispatch) _ rfl False.elim)
  · rintro ⟨hqueue, hheld, hset⟩ a t hpart hu hs
    have hstep := step_cases hs
    obtain rfl := hstep.unsettled hu hpart hheld hset
    cases hstep with
    | recv hh hhub =>
      cases hhub with
      | recv hopen hq => simp [hqueue] at hq

/-- **Connections end with their peers.** From any state of any run of a server that is
not dropped and has room for a batch, with no further connections, bytes or keepalives,
no order of the steps of tasks and consumer takes more than `toPart` of them. Whichever
peers have hung up, none of these steps is left without the others exactly where nothing
is queued or held and every task has ended or waits for a peer that has not hung up.
There, from every connection the consumer has received what was dispatched, in order;
where the handler returned, its batches, its acknowledgements and its result are those
`run_connection` makes of all the bytes it read; and if all peers have hung up, every
task has ended and the gauge is 0. -/
theorem connections_end (z : Flate) (b : ServerBuilder) (hcap : 1 ≤ b.channelCapacity)
    (as bs : List (Act ι)) (s s' : Service ι) (gone : ι → Prop)
    (hrun : Run (step z b) anything (bind ι) as s)
    (hlive : s.handle = .alive) (hcont : Run (step z b) parting s bs s') :
    bs.length ≤ s.toPart ∧
    ((∀ a t, parting s' a → a.Unaided gone → s'.step z b a ≠ some t) ↔
      s'.hub.queue = [] ∧ s'.hub.held = [] ∧
        ∀ c, (s'.tasks c = .absent ∨ s'.tasks c = .ended) ∨ ¬ gone c ∧ s'.Waits z b c) ∧
    ((∀ a t, parting s' a → a.Unaided gone → s'.step z b a ≠ some t) →
      (∀ c, s'.hub.received.filter (fun x => x.owner = some c) =
          stamped c (s'.hub.handlers c).dispatched ∧
        ∀ r, (s'.hub.handlers c).phase = .done r →
          runConnection z b.config (paced (s'.hub.handlers c).rounds)
              (.ofReads [(s'.hub.handlers c).input]) =
            ⟨(s'.hub.handlers c).dispatched, (s'.hub.handlers c).written, r⟩) ∧
      ((∀ c ∈ s'.accepted, gone c) →
        (∀ c, s'.tasks c = .absent ∨ s'.tasks c = .ended) ∧ s'.activeConnections = 0)) := by
  obtain ⟨⟨hinv, hh⟩, hlen⟩ := hcont.bounded (P := fun t => t.Inv z b ∧ t.handle = .alive) toPart
    ⟨run_inv hrun, hlive⟩ (fun ⟨hi, hh⟩ hok hs =>
      ⟨⟨(step_cases hs).inv hi, ((step_cases hs).toPart hi hok).2.trans hh⟩,
        ((step_cases hs).toPart hi hok).1⟩)
  refine ⟨by omega, hinv.parted_iff hh hcap, fun hstuck => ?_⟩
  obtain ⟨hqueue, -, hset⟩ := (hinv.parted_iff hh hcap).mp hstuck
  refine ⟨fun c => ⟨?_, fun r hr => ?_⟩, hinv.gauge_zero hset⟩
  · exact hinv.received_all hh hqueue c
  · exact (hinv.hub.follows c).log_done (hinv.hub.logged c) hr

/-- A peer has sent a window; its batch is still to be dispatched. While the peer stays,
its task waits for it, and when it closes the task ends. -/
theorem connections_end_sample :
    ∃ s s' : Service Unit, s.activeConnections = 1 ∧
      (∀ a t, parting s a → a.Unaided (fun _ => False) → s.step .sample {} a ≠ some t) ∧
      s.hub.received.filter (fun x => x.owner = some ()) = [stamp () 0 ⟨1, [[123, 125]], 1⟩] ∧
      s'.activeConnections = 0 ∧
      runConnection .sample ⟨defaultMaxFrameSize, some 15000⟩ (paced (s'.hub.handlers ()).rounds)
          (.ofReads [(s'.hub.handlers ()).input]) =
        ⟨(s'.hub.handlers ()).dispatched, (s'.hub.handlers ()).written, .ok ()⟩ := by
  let answers : List (Act Unit) := [.handler () .dispatch, .recv, .release ((), 0) .ack,
    .handler () .acked, .handler () (.write 6)]
  obtain ⟨s, hrun, hf⟩ : ∃ s : Service Unit, Run (step .sample {}) anything (bind Unit)
      [.select, .accept (), .handler () (.read Hub.sampleWindow), .handler () .next,
        .handler () .next] s ∧
      (decide (s.handle = .alive),
        (exec (fun s a => if parting s a then step .sample {} s a else none) s answers).map fun t =>
          (decide (t.hub.queue = [] ∧ t.hub.held = [] ∧ t.tasks () = .serving ∧
              (t.hub.handlers ()).phase = .expectWindow ∧ (t.hub.handlers ()).buffer = [] ∧
              (t.hub.handlers ()).dispatched = [⟨1, [[123, 125]], 1⟩] ∧ t.activeConnections = 1),
            (exec (fun s a => if parting s a then step .sample {} s a else none) t
              [.handler () .eof, .ret (), .finish ()]).map fun u =>
                decide (u.hub.queue = [] ∧ u.hub.held = [] ∧ u.tasks () = .ended ∧
                  (u.hub.handlers ()).phase = .done (.ok ())))) = (true, some (true, some true)) :=
    Run.exists_of_exec (by decide +kernel)
  have hlive : s.handle = .alive := of_decide_eq_true (congrArg Prod.fst hf)
  obtain ⟨s₁, hcont₁, hf₁⟩ := Run.exists_of_exec (congrArg Prod.snd hf)
  obtain ⟨h1, h2, ht, hp, hb, hd, hone⟩ := of_decide_eq_true (congrArg Prod.fst hf₁)
  obtain ⟨s₂, hcont₂, hf₂⟩ := Run.exists_of_exec (congrArg Prod.snd hf₁)
  obtain ⟨k1, k2, kt, kd⟩ := of_decide_eq_true hf₂
  obtain ⟨-, hstays, hgets⟩ := connections_end .sample {} (by decide) _ _ s s₁ (fun _ => False) hrun
    hlive hcont₁
  obtain ⟨-, hends, hlast⟩ := connections_end .sample {} (by decide) _ _ s s₂ (fun _ => True) hrun
    hlive (hcont₁.trans hcont₂)
  have hwaits := hstays.mpr ⟨h1, h2, fun _ => .inr ⟨id, .inr ⟨ht, .inl ⟨by rw [hp]; rfl, by rw [hb]; rfl⟩⟩⟩⟩
  obtain ⟨hall, hzero⟩ := hlast (hends.mpr ⟨k1, k2, fun _ => .inl (.inr kt)⟩)
  refine ⟨s₁, s₂, hone, hwaits, ?_, (hzero (fun _ _ => trivial)).2, (hall ()).2 _ kd⟩
  rw [((hgets hwaits).1 ()).1, hd]
  rfl

end Service
end Lumberjack.Server
