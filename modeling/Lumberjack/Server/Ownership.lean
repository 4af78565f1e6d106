import Lumberjack.Server.Hub

/-!
# Who holds which batch

A batch that is queued or held belongs to exactly one handler: the one that
dispatched it last and still waits on its channel. Both directions are in one
statement, a permutation per connection between the batches in circulation and
the batch the handler has out. Releasing a batch, or dropping the queue, is then
one `release` step of each handler concerned and of no other.
-/
namespace Lumberjack.Server

open Lumberjack.Stream Lumberjack.Wire Lumberjack.Process

section Stamp

variable {ι : Type}

/-- The connection a batch came from. -/
def Batch.owner (b : Batch (ι × Nat)) : Option ι := b.ack.map Prod.fst

/-- The `k`-th batch of a connection, as the consumer gets it. -/
def stamp (c : ι) (k : Nat) (d : Dispatch) : Batch (ι × Nat) := .new d.events d.lastSeq (c, k)

def stamped (c : ι) (ds : List Dispatch) : List (Batch (ι × Nat)) := ds.mapIdx (stamp c)

theorem stamped_concat (c : ι) (ds : List Dispatch) (d : Dispatch) :
    stamped c (ds ++ [d]) = stamped c ds ++ [stamp c ds.length d] := by
  simp [stamped, List.mapIdx_append]

/-- The batch a handler has out: dispatched, and not released yet. -/
def Handler.outstanding (h : Handler) (c : ι) : List (Batch (ι × Nat)) :=
  match h.ackRx, h.dispatched.getLast? with
  | .pending, some d => [stamp c (h.dispatched.length - 1) d]
  | _, _ => []

theorem Handler.outstanding_congr {h h' : Handler} (hrx : h'.ackRx = h.ackRx)
    (hd : h'.dispatched = h.dispatched) (c : ι) : h'.outstanding c = h.outstanding c := by
  unfold outstanding
  rw [hrx, hd]

theorem Handler.outstanding_length (h : Handler) (c : ι) : (h.outstanding c).length ≤ 1 := by
  unfold outstanding
  split <;> simp

theorem Handler.outstanding_nil {h : Handler} (hrx : h.ackRx ≠ .pending) (c : ι) :
    h.outstanding c = [] := by
  unfold outstanding
  split
  · rename_i hp _
    exact absurd hp hrx
  · rfl

theorem Handler.mem_outstanding {h : Handler} {c : ι} {b : Batch (ι × Nat)}
    (hb : b ∈ h.outstanding c) : h.ackRx = .pending ∧
      ∃ d, h.dispatched.getLast? = some d ∧ b = stamp c (h.dispatched.length - 1) d := by
  unfold outstanding at hb
  split at hb
  · rename_i d hrx hd
    exact ⟨hrx, d, hd, List.mem_singleton.mp hb⟩
  · cases hb

theorem Handler.outstanding_eq {h : Handler} (hrx : h.ackRx = .pending) {d : Dispatch}
    (hd : h.dispatched.getLast? = some d) (c : ι) :
    h.outstanding c = [stamp c (h.dispatched.length - 1) d] := by
  unfold outstanding
  rw [hrx, hd]

end Stamp

namespace Handler

variable {z : Flate} {cfg : ConnectionConfig} {h h' : Handler} {a : Act}

theorem Step.dispatched_eq (hs : Step z cfg h a h') (ha : a ≠ .dispatch) :
    h'.dispatched = h.dispatched := by
  cases hs <;> first | rfl | exact absurd rfl ha

theorem Step.ackRx_eq (hs : Step z cfg h a h') (ha : a ≠ .dispatch) (hr : a ≠ .release) :
    h'.ackRx = h.ackRx := by
  cases hs <;> first | rfl | exact absurd rfl ha | exact absurd rfl hr

theorem Step.of_dispatch {w : Collect} (hs : Step z cfg h .dispatch h') (hp : h.phase = .dispatching w) :
    h' = { h with phase := .awaitAck w.lastSeq, ackRx := .pending,
                  dispatched := h.dispatched ++ [w.dispatch] } := by
  cases hs with
  | dispatch hp' =>
    rw [hp] at hp'
    cases hp'
    rfl

/-- A send on the channel of the batch that is out is a release. -/
theorem deliver_release (z : Flate) (cfg : ConnectionConfig) (hrx : h.ackRx = .pending) {d : Dispatch}
    (hd : h.dispatched.getLast? = some d) :
    Step z cfg h .release (h.deliver (h.dispatched.length - 1) d.lastSeq) := by
  have hne : h.dispatched ≠ [] := by
    intro hnil
    simp [hnil] at hd
  have hpos := List.length_pos_iff.mpr hne
  have heq : h.deliver (h.dispatched.length - 1) d.lastSeq = { h with ackRx := .sent d.lastSeq } := by
    unfold deliver
    rw [if_pos ⟨by omega, hrx⟩]
  rw [heq]
  exact .release hrx hd

theorem Step.release_pending (hs : Step z cfg h .release h') : h.ackRx = .pending := by
  cases hs with
  | release hrx hd => exact hrx

theorem Step.released_ackRx (hs : Step z cfg h .release h') : h'.ackRx ≠ .pending := by
  cases hs with
  | release hrx hd => simp

end Handler

variable {ι : Type} [DecidableEq ι]

/-- Every batch in circulation is the one its handler has out, and the converse. -/
structure Owned (handlers : ι → Handler) (bs : List (Batch (ι × Nat))) : Prop where
  stamped : ∀ b ∈ bs, ∃ tx, b.ack = some tx
  perm : ∀ c, (bs.filter (fun b => b.owner = some c)).Perm ((handlers c).outstanding c)

namespace Owned

variable {hs hs' : ι → Handler} {b : Batch (ι × Nat)} {bs bs' : List (Batch (ι × Nat))}

theorem of_perm (h : Owned hs bs) (hp : bs.Perm bs') : Owned hs bs' where
  stamped b hb := h.stamped b (hp.mem_iff.mpr hb)
  perm c := (hp.filter _).symm.trans (h.perm c)

/-- A handler that keeps its receiver and what it dispatched waits for the same batch. -/
theorem update (h : Owned hs bs) {c : ι} {handler : Handler}
    (hrx : handler.ackRx = (hs c).ackRx) (hd : handler.dispatched = (hs c).dispatched) :
    Owned (Function.update hs c handler) bs where
  stamped := h.stamped
  perm c' := by
    by_cases hc : c' = c
    · subst hc
      rw [Function.update_self, Handler.outstanding_congr hrx hd]
      exact h.perm c'
    · rw [Function.update_of_ne hc]
      exact h.perm c'

/-- The owner of a batch in circulation waits for it. -/
theorem waits (h : Owned hs bs) (hb : b ∈ bs) {c : ι} {k : Nat} (hack : b.ack = some (c, k)) :
    (hs c).ackRx = .pending ∧ (hs c).dispatched.length = k + 1 ∧
      ∃ d, (hs c).dispatched.getLast? = some d ∧ b = stamp c k d := by
  have hmem : b ∈ (hs c).outstanding c := by
    apply (h.perm c).mem_iff.mp
    apply List.mem_filter.mpr
    exact ⟨hb, by simp [Batch.owner, hack]⟩
  obtain ⟨hrx, d, hd, rfl⟩ := Handler.mem_outstanding hmem
  have hk : (hs c).dispatched.length - 1 = k := by
    simp only [stamp, Batch.new, Option.some.injEq, Prod.mk.injEq, true_and] at hack
    exact hack
  have hpos : 0 < (hs c).dispatched.length := by
    apply List.length_pos_iff.mpr
    intro hnil
    simp [hnil] at hd
  exact ⟨hrx, by omega, d, hd, by rw [hk]⟩

/-- A batch ends: its handler takes a release step, and nothing else changes. -/
theorem finish (z : Flate) (cfg : ConnectionConfig) (h : Owned hs (b :: bs)) {c : ι} {k : Nat}
    (hack : b.ack = some (c, k)) :
    Handler.Step z cfg (hs c) .release (Hub.deliver hs b.drop c) ∧
    (∀ c', c' ≠ c → Hub.deliver hs b.drop c' = hs c') ∧
    Owned (Hub.deliver hs b.drop) bs := by
  obtain ⟨hrx, hlen, d, hd, rfl⟩ := h.waits List.mem_cons_self hack
  have hdel : Hub.deliver hs (stamp c k d).drop =
      Function.update hs c ((hs c).deliver ((hs c).dispatched.length - 1) d.lastSeq) := by
    rw [hlen]
    rfl
  have hrel := Handler.deliver_release z cfg hrx hd
  rw [hdel]
  refine ⟨by rwa [Function.update_self], fun c' hc' => Function.update_of_ne hc' _ _, ?_, ?_⟩
  · intro b hb
    exact h.stamped b (List.mem_cons_of_mem _ hb)
  · intro c'
    have hperm := h.perm c'
    by_cases hc : c' = c
    · subst hc
      have hown : ((stamp c' k d).owner = some c') = True := by simp [Batch.owner, stamp, Batch.new]
      rw [List.filter_cons_of_pos (by simp [hown]), Handler.outstanding_eq hrx hd] at hperm
      rw [Function.update_self, Handler.outstanding_nil hrel.released_ackRx]
      have hnil := List.eq_nil_of_length_eq_zero (Nat.succ.inj hperm.length_eq)
      rw [hnil]
    · have hown : (stamp c k d).owner ≠ some c' := by
        simp only [Batch.owner, stamp, Batch.new, Option.map_some, ne_eq, Option.some.injEq]
        exact fun he => hc he.symm
      rw [List.filter_cons_of_neg (by simpa using hown)] at hperm
      rwa [Function.update_of_ne hc]

/-- Every batch of a list ends, one after another. -/
theorem finishAll (z : Flate) (cfg : ConnectionConfig) (h : Owned hs (bs' ++ bs)) :
    Owned (Hub.deliver hs (bs'.flatMap Batch.drop)) bs ∧
    ∀ c, Hub.deliver hs (bs'.flatMap Batch.drop) c = hs c ∨
      (Handler.Step z cfg (hs c) .release (Hub.deliver hs (bs'.flatMap Batch.drop) c) ∧
        ∃ b ∈ bs', ∃ k, b.ack = some (c, k)) := by
  induction bs' generalizing hs with
  | nil => exact ⟨h, fun c => .inl rfl⟩
  | cons b bs' ih =>
    obtain ⟨⟨c₀, k⟩, hack⟩ := h.stamped b List.mem_cons_self
    obtain ⟨hrel, hsame, hown⟩ := h.finish z cfg hack
    obtain ⟨hown', hall⟩ := ih hown
    have hfold : Hub.deliver hs ((b :: bs').flatMap Batch.drop) =
        Hub.deliver (Hub.deliver hs b.drop) (bs'.flatMap Batch.drop) := by
      simp [Hub.deliver, List.foldl_append]
    rw [hfold]
    refine ⟨hown', fun c => ?_⟩
    by_cases hc : c = c₀
    · subst hc
      rcases hall c with he | ⟨hagain, -⟩
      · rw [he]
        exact .inr ⟨hrel, b, List.mem_cons_self, k, hack⟩
      · -- its channel has been used, so nothing can be sent on it again
        exact absurd hagain.release_pending hrel.released_ackRx
    · rcases hall c with he | ⟨hstep, b', hb', k', hack'⟩
      · exact .inl (by rw [he, hsame c hc])
      · rw [hsame c hc] at hstep
        exact .inr ⟨hstep, b', List.mem_cons_of_mem _ hb', k', hack'⟩

end Owned
end Lumberjack.Server
