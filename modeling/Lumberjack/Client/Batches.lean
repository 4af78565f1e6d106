import Lumberjack.Client.Stream

/-!
# The batches of one client

A batch is complete when all its frames are fed, and the call then waits for an
acknowledgement. What is kept of the calls here is what a batch must satisfy to be told
from earlier ones by its number: every event is serialized, the number of events is the
number of its acknowledgement, and it is larger than the batches before it of which no
acknowledgement has been read.
-/
namespace Lumberjack

open Lumberjack.Stream Lumberjack.Wire Lumberjack.Server Lumberjack.Client

/-- The acknowledgements that are not keepalives. -/
def finals (fs : List Frame) : List UInt32 :=
  fs.filterMap fun
    | .ack v => if v = 0 then none else some v
    | _ => none

theorem finals_append (fs gs : List Frame) : finals (fs ++ gs) = finals fs ++ finals gs :=
  List.filterMap_append

theorem finals_ack {v : UInt32} (h : v ≠ 0) (fs : List Frame) : finals (.ack v :: fs) = v :: finals fs := by
  simp [finals, h]

theorem finals_keepalives (n : Nat) : finals (List.replicate n (.ack 0)) = [] := by
  simp [finals]

namespace Client

variable {T : Type} {z : Flate} {toVec : T → Except String Bytes} {b : ClientBuilder}
variable {cl cl' : Client T} {a : Act T}

/-- A batch whose number of events is the number it is acknowledged with. -/
structure Sound (toVec : T → Except String Bytes) (events : List T) : Prop where
  ne : events ≠ []
  count : events.length < 2^32
  payloads : (payloads toVec events).length = events.length

theorem Sound.count_toNat {events : List T} (h : Sound toVec events) :
    (Client.count events).toNat = events.length := by
  rw [Client.count, UInt32.toNat_ofNat', Nat.mod_eq_of_lt h.count]

theorem Sound.lastSeq {events : List T} (h : Sound toVec events) :
    (deliver toVec events).lastSeq.toNat = events.length ∧ (deliver toVec events).lastSeq ≠ 0 := by
  have hn : (deliver toVec events).lastSeq.toNat = events.length := by
    show (UInt32.ofNat _).toNat = _
    rw [h.payloads, UInt32.toNat_ofNat', Nat.mod_eq_of_lt h.count]
  refine ⟨hn, fun hz => ?_⟩
  rw [hz, UInt32.toNat_zero] at hn
  exact h.ne (List.eq_nil_of_length_eq_zero hn.symm)

/-- The batches from the `k`-th on are all smaller than this one. -/
def Outweighs (batches : List (List T)) (k : Nat) (events : List T) : Prop :=
  ∀ old ∈ batches.drop k, old.length < events.length

instance (batches : List (List T)) (k : Nat) (events : List T) :
    Decidable (Outweighs batches k events) :=
  inferInstanceAs (Decidable (∀ old ∈ batches.drop k, _))

theorem Outweighs.mono {batches : List (List T)} {k k' : Nat} {events : List T}
    (h : Outweighs batches k events) (hk : k ≤ k') : Outweighs batches k' events := by
  intro old hold
  have hdrop : batches.drop k' = (batches.drop k).drop (k' - k) := by
    rw [List.drop_drop]
    congr 1
    omega
  rw [hdrop] at hold
  exact h old (List.mem_of_mem_drop hold)

theorem Outweighs.lt {batches : List (List T)} {k : Nat} {events old : List T}
    (h : Outweighs batches k events) (hk : batches[k]? = some old) : old.length < events.length := by
  apply h old
  apply List.mem_of_getElem? (i := 0)
  rw [List.getElem?_drop]
  exact hk

/-- The events of a call that has fed all its frames. -/
def Phase.pending : Phase T → Option (List T)
  | .feeding events [] none | .flushing events | .awaiting events => some events
  | _ => none

/-- The events of a call that has frames left to feed, or an error to return. -/
def Phase.unfinished : Phase T → Option (List T × Option Error)
  | .feeding events (_ :: _) err => some (events, err)
  | .feeding events [] (some e) => some (events, some e)
  | _ => none

/-- Every batch, complete or in progress, outweighs those not acknowledged before it. -/
structure Ordered (toVec : T → Except String Bytes) (cl : Client T) : Prop where
  sound : ∀ events ∈ cl.complete, Sound toVec events
  unfinished : ∀ events err, cl.phase.unfinished = some (events, err) →
    (err = none → Sound toVec events) ∧ Outweighs cl.complete (finals cl.heard).length events
  pending : ∀ events, cl.phase.pending = some events →
    ∃ old, cl.complete = old ++ [events] ∧ Outweighs old (finals cl.heard).length events

namespace Ordered

theorem init (toVec : T → Except String Bytes) : Ordered toVec (Client.init T) := by
  constructor
  · simp [Client.init]
  · intro events err h
    cases h
  · intro events h
    cases h

/-- The call is over. -/
theorem of_idle (h : Ordered toVec cl) (hc : cl'.complete = cl.complete) (hp : cl'.phase = .idle) :
    Ordered toVec cl' := by
  constructor
  · rw [hc]
    exact h.sound
  · intro events err hu
    rw [hp] at hu
    cases hu
  · intro events hu
    rw [hp] at hu
    cases hu

/-- The call waits, and may have read more. -/
theorem of_waiting (h : Ordered toVec cl) (hc : cl'.complete = cl.complete)
    (hh : (finals cl.heard).length ≤ (finals cl'.heard).length)
    (hu : cl'.phase.unfinished = cl.phase.unfinished) (hp : cl'.phase.pending = cl.phase.pending) :
    Ordered toVec cl' := by
  constructor
  · rw [hc]
    exact h.sound
  · intro events err he
    rw [hu] at he
    obtain ⟨h1, h2⟩ := h.unfinished events err he
    exact ⟨h1, by rw [hc]; exact h2.mono hh⟩
  · intro events he
    rw [hp] at he
    obtain ⟨old, h1, h2⟩ := h.pending events he
    exact ⟨old, by rw [hc]; exact h1, h2.mono hh⟩

end Ordered

/-- Events that are fed to the end were serialized, every one. -/
theorem sound_of_sendFrames {level : UInt32} {events : List T} {todo : List Frame}
    (hne : events ≠ []) (hn : events.length < 2^32)
    (hs : sendFrames z toVec level events = (todo, none)) : Sound toVec events := by
  rcases encodeEvents_cases z toVec events 0 [] with ⟨bs, hbs⟩ | ⟨e, he⟩
  · refine ⟨hne, hn, ?_⟩
    rw [payloads_eq hbs]
    exact hbs.length_eq.symm
  · simp only [sendFrames, List.isEmpty_iff, hne, if_false, he] at hs
    cases hs

theorem sendFrames_unfinished {level : UInt32} {events : List T} (hne : events ≠ [])
    (hn : Narrow z toVec level events) :
    (Phase.feeding events (sendFrames z toVec level events).1
      (sendFrames z toVec level events).2).unfinished =
        some (events, (sendFrames z toVec level events).2) ∧
    (Phase.feeding events (sendFrames z toVec level events).1
      (sendFrames z toVec level events).2).pending = none := by
  rcases sendFrames_cases hne hn 0 with ⟨e, he⟩ | ⟨fs, err, he, -⟩
  · rw [he]
    exact ⟨rfl, rfl⟩
  · rw [he]
    exact ⟨rfl, rfl⟩

theorem Step.ordered (hs : Step z toVec b cl a cl')
    (hok : ∀ events, a = .start events → events ≠ [] → Narrow z toVec b.compressionLevel events ∧
      Outweighs cl.complete (finals cl.heard).length events)
    (h : Ordered toVec cl) : Ordered toVec cl' := by
  cases hs with
  | empty hp => exact h.of_idle rfl rfl
  | @start events hp hne =>
    obtain ⟨hn, ho⟩ := hok events rfl hne
    obtain ⟨hu, hpend⟩ := sendFrames_unfinished hne hn
    refine ⟨h.sound, ?_, ?_⟩
    · intro ev err he
      have he' := hu.symm.trans he
      cases he'
      exact ⟨fun herr => sound_of_sendFrames hne hn.count (Prod.ext rfl herr), ho⟩
    · intro ev he
      have he' := hpend.symm.trans he
      cases he'
  | @feed events f todo err hp hb =>
    obtain ⟨hsnd, ho⟩ := h.unfinished events err (by rw [hp]; rfl)
    cases todo with
    | cons g todo =>
      refine ⟨h.sound, ?_, ?_⟩
      · intro ev err' he
        cases he
        exact ⟨hsnd, ho⟩
      · intro ev he
        cases he
    | nil =>
      cases err with
      | some e =>
        refine ⟨h.sound, ?_, ?_⟩
        · intro ev err' he
          cases he
          exact ⟨hsnd, ho⟩
        · intro ev he
          cases he
      | none =>
        refine ⟨?_, ?_, ?_⟩
        · intro ev hev
          rcases List.mem_append.mp hev with hev | hev
          · exact h.sound ev hev
          · rw [List.mem_singleton.mp hev]
            exact hsnd rfl
        · intro ev err' he
          cases he
        · intro ev he
          cases he
          exact ⟨cl.complete, rfl, ho⟩
  | flush hp =>
    exact h.of_waiting rfl (Nat.le_refl _) (by rw [hp]; rfl) (by rw [hp]; rfl)
  | write hw hk hl => exact h.of_waiting rfl (Nat.le_refl _) rfl rfl
  | flushed hp hw =>
    exact h.of_waiting rfl (Nat.le_refl _) (by rw [hp]; rfl) (by rw [hp]; rfl)
  | read hp hc hst => exact h.of_waiting rfl (Nat.le_refl _) rfl rfl
  | ended hp => exact h.of_waiting rfl (Nat.le_refl _) rfl rfl
  | @next events f r hp he hr hd =>
    cases f with
    | ack seq =>
      simp only [onFrame]
      split
      · exact h.of_idle rfl rfl
      · refine h.of_waiting rfl ?_ rfl rfl
        rw [finals_append, List.length_append]
        exact Nat.le_add_right _ _
    | _ => exact h.of_idle rfl rfl
  | undecodable hp he hd => exact h.of_idle rfl rfl
  | exhausted hp he => exact h.of_idle rfl rfl
  | truncated hp he => exact h.of_idle rfl rfl
  | paused hp he => exact h.of_idle rfl rfl
  | unfed hp => exact h.of_idle rfl rfl
  | closed hp => exact h.of_idle rfl rfl
  | giveUp ha => exact h.of_idle rfl rfl

/-- A call returns `Ok` on its events only when it reads a sufficient acknowledgement. -/
theorem Step.returned_ok (hs : Step z toVec b cl a cl') {events : List T} (hne : events ≠ []) {n : UInt32}
    (hr : cl'.results = cl.results ++ [(events, .ok n)]) :
    cl.phase = .awaiting events ∧ n = count events ∧
    ∃ seq r, (LumberjackCodec.decoder z {}).decode cl.rbuf = (.ok (some (.ack seq)), r) ∧
      count events ≤ seq := by
  have unchanged (he : cl'.results = cl.results) : False := by
    rw [he] at hr
    exact absurd (List.self_eq_append_right.mp hr) (by simp)
  have last {ev : List T} {r : Result UInt32} (he : cl'.results = cl.results ++ [(ev, r)]) :
      ev = events ∧ r = .ok n := by
    rw [he] at hr
    simpa using hr
  cases hs with
  | empty hp => exact absurd (last rfl).1.symm hne
  | @next ev f r hp he hr hd =>
    cases f with
    | ack seq =>
      simp only [onFrame] at hr unchanged last ⊢
      split at last
      · rename_i hle
        obtain ⟨rfl, hn⟩ := last rfl
        simp only [Except.ok.injEq] at hn
        exact ⟨hp, hn.symm, seq, r, hd, hle⟩
      · rename_i hle
        rw [if_neg hle] at unchanged
        exact (unchanged rfl).elim
    | _ => cases (last rfl).2
  | undecodable hp he hd => cases (last rfl).2
  | exhausted hp he => cases (last rfl).2
  | truncated hp he => cases (last rfl).2
  | paused hp he => cases (last rfl).2
  | unfed hp => cases (last rfl).2
  | closed hp => cases (last rfl).2
  | giveUp ha => cases (last rfl).2
  | _ => exact (unchanged rfl).elim

end Client
end Lumberjack
