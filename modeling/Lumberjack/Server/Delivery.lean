import Lumberjack.Server.Ownership

/-!
# The invariant of the hub

`View` says what a step of the hub is to one handler: nothing, a step of its own,
or the release of the batch it has out. Everything proved about one handler
carries over through it. `Inv` adds where the batches are: in circulation exactly
those their handlers wait for, and, connection by connection, received and queued
in the order of dispatch.
-/
namespace Lumberjack.Server.Hub

open Lumberjack.Stream Lumberjack.Wire Lumberjack.Process

variable {ι : Type} [DecidableEq ι] {z : Flate} {cfg : ConnectionConfig} {capacity : Nat}
variable {s s' : Hub ι} {a : Act ι}

/-- A step of the hub, as seen by connection `c`. -/
inductive View (z : Flate) (cfg : ConnectionConfig) (s : Hub ι) (a : Act ι) (s' : Hub ι) (c : ι) : Prop
  | unchanged (he : s'.handlers c = s.handlers c) (hne : ∀ b, a ≠ .handler c b)
      (hnr : ∀ k how, a ≠ .release (c, k) how)
  | own {b : Handler.Act} (ha : a = .handler c b) (hb : b ≠ .release)
      (hs : Handler.Step z cfg (s.handlers c) b (s'.handlers c))
  | released {k : Nat} {how : Release} {b : Batch (ι × Nat)} (ha : a = .release (c, k) how)
      (hm : b ∈ s.held) (hb : b.ack = some (c, k))
      (hs : Handler.Step z cfg (s.handlers c) .release (s'.handlers c))
  | dropped {k : Nat} {b : Batch (ι × Nat)} (ha : a = .dropServer) (hm : b ∈ s.queue)
      (hb : b.ack = some (c, k)) (hs : Handler.Step z cfg (s.handlers c) .release (s'.handlers c))

theorem setHandler_view {c₀ : ι} {b : Handler.Act} {h : Handler} (hb : b ≠ .release)
    (hs : Handler.Step z cfg (s.handlers c₀) b h)
    (he : s'.handlers = Function.update s.handlers c₀ h) (c : ι) :
    View z cfg s (.handler c₀ b) s' c := by
  by_cases hc : c = c₀
  · subst hc
    apply View.own rfl hb
    rwa [he, Function.update_self]
  · apply View.unchanged
    · rw [he, Function.update_of_ne hc]
    · intro b' hb'
      cases hb'
      exact hc rfl
    · intro k how hk
      cases hk

omit [DecidableEq ι] in
theorem drop_eq_release {b : Batch (ι × Nat)} {tx : ι × Nat} (hb : b.ack = some tx) (how : Release) :
    b.release how = b.drop :=
  (b.release_eq tx hb how).trans (b.release_eq tx hb .drop).symm

omit [DecidableEq ι] in
/-- A batch that the consumer holds may be taken first. -/
theorem perm_of_held {b : Batch (ι × Nat)} {front back : List (Batch (ι × Nat))}
    (hh : s.held = front ++ b :: back) :
    (s.queue ++ s.held).Perm (b :: (s.queue ++ (front ++ back))) := by
  rw [hh, ← List.append_assoc, ← List.append_assoc]
  exact List.perm_middle

theorem Step.view (hs : Step z cfg capacity s a s') (hown : Owned s.handlers (s.queue ++ s.held))
    (c : ι) : View z cfg s a s' c := by
  cases hs with
  | own ha hs =>
    apply setHandler_view _ hs rfl
    intro hb
    rw [hb] at ha
    exact ha
  | dispatch hp hs hopen hroom => exact setHandler_view (by simp) hs rfl c
  | shutdown hs hclosed => exact setHandler_view (by simp) hs rfl c
  | recv hopen hq => exact .unchanged rfl (fun b hb => by cases hb) (fun k how hk => by cases hk)
  | @release tx how b front back hb hh =>
    obtain ⟨c₀, k⟩ := tx
    obtain ⟨hrel, hsame, -⟩ := (hown.of_perm (perm_of_held hh)).finish z cfg hb
    rw [← drop_eq_release hb how] at hrel hsame
    by_cases hc : c = c₀
    · subst hc
      exact .released rfl (by simp [hh]) hb hrel
    · refine .unchanged (hsame c hc) (fun b hb => by cases hb) (fun k' how' hk => ?_)
      cases hk
      exact hc rfl
  | dropServer hopen =>
    rcases (hown.finishAll z cfg).2 c with he | ⟨hrel, b, hb, k, hack⟩
    · exact .unchanged he (fun b hb => by cases hb) (fun k how hk => by cases hk)
    · exact .dropped rfl hb hack hrel

namespace View

variable {c : ι}

omit [DecidableEq ι] in
/-- What every step of a handler keeps is kept by every step of the hub. -/
theorem keeps {P : Handler → Prop} (hv : View z cfg s a s' c) (hp : P (s.handlers c))
    (hstep : ∀ {h b h'}, Handler.Step z cfg h b h' → P h → P h') : P (s'.handlers c) := by
  cases hv with
  | unchanged he => rwa [he]
  | own ha hb hs => exact hstep hs hp
  | released ha hm hb hs => exact hstep hs hp
  | dropped ha hm hb hs => exact hstep hs hp

omit [DecidableEq ι] in
theorem dispatched_eq (hv : View z cfg s a s' c) (ha : a ≠ .handler c .dispatch) :
    (s'.handlers c).dispatched = (s.handlers c).dispatched := by
  cases hv with
  | unchanged he => rw [he]
  | own hab hb hs =>
    apply hs.dispatched_eq
    intro hd
    rw [hd] at hab
    exact ha hab
  | released hab hm hb hs => exact hs.dispatched_eq (by simp)
  | dropped hab hm hb hs => exact hs.dispatched_eq (by simp)

end View

structure Inv (z : Flate) (cfg : ConnectionConfig) (s : Hub ι) : Prop where
  follows : ∀ c, (s.handlers c).Follows z cfg
  logged : ∀ c, (s.handlers c).Logged cfg
  owned : Owned s.handlers (s.queue ++ s.held)
  order : ∀ c, ∃ lost, (s.received ++ s.queue).filter (fun b => b.owner = some c) ++ lost =
    stamped c (s.handlers c).dispatched ∧ (s.closed = false → lost = [])
  tagged : ∀ b ∈ s.received, ∃ tx, b.ack = some tx
  held : ∀ b ∈ s.held, b ∈ s.received
  released : ∀ tx ∈ s.released, ∃ b ∈ s.received, b.ack = some tx

theorem init_inv (z : Flate) (cfg : ConnectionConfig) : (init ι).Inv z cfg where
  follows _ := .init z cfg
  logged _ := .init cfg
  owned := ⟨by simp [init], fun c => by simp [init, Handler.outstanding, Handler.init]⟩
  order _ := ⟨[], by simp [init, stamped, Handler.init], fun _ => rfl⟩
  tagged := by simp [init]
  held := by simp [init]
  released := by simp [init]

theorem Step.owned (hs : Step z cfg capacity s a s') (hlog : ∀ c, (s.handlers c).Logged cfg)
    (hown : Owned s.handlers (s.queue ++ s.held)) : Owned s'.handlers (s'.queue ++ s'.held) := by
  cases hs with
  | @own c b h ha hs =>
    apply hown.update
    · exact hs.ackRx_eq (fun hb => by rw [hb] at ha; exact ha) (fun hb => by rw [hb] at ha; exact ha)
    · exact hs.dispatched_eq (fun hb => by rw [hb] at ha; exact ha)
  | @dispatch c w h hp hs hopen hroom =>
    obtain rfl := hs.of_dispatch hp
    have hrx : (s.handlers c).ackRx ≠ .pending := by
      intro hpend
      have h1 := (hlog c).pending hpend
      have h2 := (hlog c).settled (by rw [hp]; rfl)
      omega
    constructor
    · intro b hb
      simp only [List.append_assoc, List.mem_append, List.mem_singleton] at hb
      rcases hb with hb | rfl | hb
      · exact hown.stamped b (List.mem_append_left _ hb)
      · exact ⟨_, rfl⟩
      · exact hown.stamped b (List.mem_append_right _ hb)
    · intro c'
      have hperm := hown.perm c'
      have hmove : (s.queue ++ [Batch.new w.events w.lastSeq (c, (s.handlers c).dispatched.length)] ++
          s.held).Perm (Batch.new w.events w.lastSeq (c, (s.handlers c).dispatched.length) ::
            (s.queue ++ s.held)) := by
        rw [List.append_assoc]
        exact List.perm_middle
      refine (hmove.filter _).trans ?_
      by_cases hc : c' = c
      · subst hc
        rw [Handler.outstanding_nil hrx] at hperm
        rw [List.filter_cons_of_pos (by simp [Batch.owner, Batch.new]), hperm.eq_nil]
        simp [setHandler, Handler.outstanding, stamp, Collect.dispatch]
      · rw [List.filter_cons_of_neg (by simpa [Batch.owner, Batch.new] using fun he => hc he.symm)]
        show List.Perm _ ((Function.update s.handlers c _ c').outstanding c')
        rwa [Function.update_of_ne hc]
  | @shutdown c h hs hclosed =>
    apply hown.update
    · exact hs.ackRx_eq (by simp) (by simp)
    · exact hs.dispatched_eq (by simp)
  | @recv b queue hopen hq =>
    apply hown.of_perm
    rw [hq, ← List.append_assoc]
    exact (List.perm_append_singleton b (queue ++ s.held)).symm
  | @release tx how b front back hb hh =>
    obtain ⟨c, k⟩ := tx
    have hfin := ((hown.of_perm (perm_of_held hh)).finish z cfg hb).2.2
    rwa [← drop_eq_release hb how] at hfin
  | dropServer hopen => exact (hown.finishAll z cfg).1

theorem Step.order (hs : Step z cfg capacity s a s') (hinv : s.Inv z cfg) (c : ι) :
    ∃ lost, (s'.received ++ s'.queue).filter (fun b => b.owner = some c) ++ lost =
      stamped c (s'.handlers c).dispatched ∧ (s'.closed = false → lost = []) := by
  obtain ⟨lost, hord, hlost⟩ := hinv.order c
  have hview := hs.view hinv.owned c
  cases hs with
  | @own c' b h ha hs =>
    rw [hview.dispatched_eq (by intro hb; cases hb; exact ha)]
    exact ⟨lost, hord, hlost⟩
  | @dispatch c' w h hp hs hopen hroom =>
    obtain rfl := hs.of_dispatch hp
    rw [hlost hopen, List.append_nil] at hord
    refine ⟨[], ?_, fun _ => rfl⟩
    by_cases hc : c = c'
    · subst hc
      simp only [setHandler, Function.update_self]
      rw [stamped_concat, ← hord, List.append_nil, ← List.append_assoc, List.filter_append]
      simp [Batch.owner, Batch.new, stamp, Collect.dispatch]
    · rw [hview.dispatched_eq (by intro hb; cases hb; exact hc rfl), ← hord, List.append_nil,
        ← List.append_assoc]
      show List.filter _ (s.received ++ s.queue ++ _) = _
      rw [List.filter_append]
      simpa [Batch.owner, Batch.new] using fun he => hc he.symm
  | shutdown hs hclosed =>
    rw [hview.dispatched_eq (by simp)]
    exact ⟨lost, hord, hlost⟩
  | recv hopen hq =>
    refine ⟨lost, ?_, hlost⟩
    rw [hq] at hord
    show (s.received ++ [_] ++ _).filter _ ++ lost = _
    rw [List.append_assoc]
    exact hord
  | release hb hh =>
    rw [hview.dispatched_eq (by simp)]
    exact ⟨lost, hord, hlost⟩
  | dropServer hopen =>
    rw [hview.dispatched_eq (by simp)]
    rw [hlost hopen, List.append_nil, List.filter_append] at hord
    refine ⟨s.queue.filter (fun b => b.owner = some c), ?_, fun hc => by cases hc⟩
    show (s.received ++ []).filter _ ++ _ = _
    rw [List.append_nil]
    exact hord

theorem Step.inv (hs : Step z cfg capacity s a s') (hinv : s.Inv z cfg) : s'.Inv z cfg where
  follows c := (hs.view hinv.owned c).keeps (hinv.follows c) (fun h => h.follows)
  logged c := (hs.view hinv.owned c).keeps (hinv.logged c) (fun h => h.logged)
  owned := hs.owned hinv.logged hinv.owned
  order := hs.order hinv
  tagged := by
    cases hs with
    | recv hopen hq =>
      intro b hb
      rcases List.mem_append.mp hb with hb | hb
      · exact hinv.tagged b hb
      · cases List.mem_singleton.mp hb
        exact hinv.owned.stamped _ (by simp [hq])
    | _ => exact hinv.tagged
  held := by
    cases hs with
    | recv hopen hq =>
      intro b hb
      rcases List.mem_append.mp hb with hb | hb
      · exact List.mem_append_left _ (hinv.held b hb)
      · exact List.mem_append_right _ hb
    | release hb hh =>
      intro b hb
      apply hinv.held b
      rw [hh]
      rcases List.mem_append.mp hb with hb | hb
      · exact List.mem_append_left _ hb
      · exact List.mem_append_right _ (List.mem_cons_of_mem _ hb)
    | _ => exact hinv.held
  released := by
    cases hs with
    | recv hopen hq =>
      intro tx htx
      obtain ⟨b, hb, hack⟩ := hinv.released tx htx
      exact ⟨b, List.mem_append_left _ hb, hack⟩
    | @release tx how b front back hb hh =>
      intro tx' htx
      rcases List.mem_append.mp htx with htx | htx
      · exact hinv.released tx' htx
      · cases List.mem_singleton.mp htx
        exact ⟨b, hinv.held b (by simp [hh]), hb⟩
    | _ => exact hinv.released

/-- Every reachable state of every hub keeps it, whatever the consumer does. -/
theorem run_inv {ok : Hub ι → Act ι → Prop} {as : List (Act ι)}
    (hrun : Run (step z cfg capacity) ok (init ι) as s) : s.Inv z cfg :=
  hrun.invariant (init_inv z cfg) (fun hinv _ hs => (step_cases hs).inv hinv)

end Lumberjack.Server.Hub
