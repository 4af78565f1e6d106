import Lumberjack.Client.Clean
import Lumberjack.Session.Acknowledged

/-!
# A connection without faults

When no call is given up and no stream breaks, the two ends of a connection move
in lockstep: the client has read one acknowledgement for each call that returned,
and has fed one batch more than that while a call is in progress. The handler
never returns, and between two calls nothing is in flight in either direction.
-/
namespace Lumberjack

open Lumberjack.Stream Lumberjack.Wire Lumberjack.Server Lumberjack.Process Lumberjack.Client

namespace Server.Handler

variable {z : Flate} {cfg : ConnectionConfig} {h h' : Handler} {a : Act}

/-- Neither failed nor shut down, and not at the end of the stream. -/
structure Running (h : Handler) : Prop where
  eof : h.eof = false
  phase : h.phase.live ∨ ∃ r, h.phase = .done r

theorem Step.running (hs : Step z cfg h a h') (he : a ≠ .eof) (hd : a ≠ .shutdown)
    (hf : ∀ msg, a ≠ .fail msg) (h : Running h) : Running h' := by
  refine ⟨?_, ?_⟩
  · cases hs with
    | eof => exact absurd rfl he
    | _ => exact h.eof
  · cases hs with
    | eof => exact absurd rfl he
    | shutdown => exact absurd rfl hd
    | fail => exact absurd rfl (hf _)
    | read hr hc hd => exact h.phase
    | release hrx hl => exact h.phase
    | window hp hd => exact .inl (Phase.live_ofCollect _)
    | collected hp hd hc => exact .inl (Phase.live_ofCollect _)
    | stray hp hn hd => exact .inr ⟨_, rfl⟩
    | rejected hp hd hc => exact .inr ⟨_, rfl⟩
    | undecodable hr hd => exact .inr ⟨_, rfl⟩
    | dispatch hp => exact .inl rfl
    | tick hp hk hrx => exact .inl rfl
    | acked hp hv => exact .inl rfl
    | @write k hw hk hl => exact .inl (Phase.live_written hw _)

end Server.Handler

namespace Client

variable {T : Type} {z : Flate} {toVec : T → Except String Bytes} {b : ClientBuilder}
variable {cfg : ConnectionConfig} {cl cl' : Client T} {a : Act T}

/-- The stream of `Framed` neither failed nor ended, and it looks for a frame in all
that it has read. -/
def Framing (cl : Client T) : Prop :=
  cl.errored = false ∧ cl.eof = false ∧ (cl.rbuf ≠ [] → cl.readable = true)

theorem Framing.readable (h : cl.Framing) {f : Frame} {r : Bytes}
    (hd : (LumberjackCodec.decoder z {}).decode cl.rbuf = (.ok (some f), r)) : cl.readable = true := by
  apply h.2.2
  intro hnil
  rw [hnil] at hd
  cases hd

theorem Framing.starved (h : cl.Framing) {r : Bytes}
    (hd : (LumberjackCodec.decoder z {}).decode cl.rbuf = (.ok none, r)) : cl.starved z := by
  simp [Client.starved, h.1, h.2.1, hd]

/-- Every call that returned did so with `Ok` on its own acknowledgement, and the
complete batches are those of the calls that returned and of the one that waits. -/
structure Exact (cl : Client T) : Prop where
  framing : cl.Framing
  flushed : ∀ events, cl.phase = .awaiting events → cl.wbuf = []
  results : ∀ p ∈ cl.results, p.2 = .ok (count p.1)
  heard : (finals cl.heard).length = cl.results.length
  batches : cl.complete = cl.results.map Prod.fst ++ cl.phase.pending.toList

namespace Exact

theorem init (T : Type) : Exact (Client.init T) :=
  ⟨⟨rfl, rfl, fun hne => absurd rfl hne⟩, fun _ _ => rfl, by simp [Client.init], rfl, rfl⟩

/-- The call goes on, and nothing that counts has changed. -/
theorem of_still (h : Exact cl) (hf : cl'.Framing) (hr : cl'.results = cl.results)
    (hh : (finals cl'.heard).length = (finals cl.heard).length) (hc : cl'.complete = cl.complete)
    (hp : cl'.phase.pending = cl.phase.pending)
    (hw : ∀ events, cl'.phase = .awaiting events → cl'.wbuf = []) : Exact cl' where
  framing := hf
  flushed := hw
  results := by
    rw [hr]
    exact h.results
  heard := by
    rw [hh, hr]
    exact h.heard
  batches := by
    rw [hc, hr, hp]
    exact h.batches

/-- Without a call waiting, every complete batch was acknowledged. -/
theorem settled (h : Exact cl) (hp : cl.phase.pending = none) :
    cl.complete.length = (finals cl.heard).length := by
  rw [h.heard, h.batches, hp]
  simp

end Exact

theorem Step.started {events : List T} (hs : Step z toVec b cl (.start events) cl') :
    cl.phase = .idle := by
  cases hs with
  | empty hp => exact hp
  | start hp hn => exact hp
  | giveUp ha => simp at ha

/-- What the client reads is its own acknowledgement, or a keepalive. -/
def Answered (z : Flate) (cl : Client T) : Prop :=
  ∀ events x r, cl.phase = .awaiting events →
    (LumberjackCodec.decoder z {}).decode cl.rbuf = (x, r) →
      x = .ok none ∨ x = .ok (some (.ack 0)) ∨ x = .ok (some (.ack (count events)))

theorem Step.exact (hm : cfg.maxFrameSize < 2^32) (hs : Step z toVec b cl a cl')
    (hstart : ∀ events, a = .start events →
      Sendable z toVec b.compressionLevel cfg.maxFrameSize events) (heof : a ≠ .eof)
    (hfault : ¬ (a = .ackTimeout ∨ a = .writeTimeout ∨ ∃ msg, a = .fail msg))
    (hclean : CleanStream z toVec b.compressionLevel cfg cl) (hans : Answered z cl)
    (hord : Ordered toVec cl) (h : Exact cl) : Exact cl' := by
  cases hs with
  | empty hp => exact absurd rfl (hstart [] rfl).ne
  | @start events hp hne =>
    have hu := sendFrames_unfinished hne ((hstart events rfl).narrow hm)
    refine h.of_still h.framing rfl rfl rfl ?_ (fun _ hq => by cases hq)
    rw [hp]
    exact hu.2
  | @feed events f todo err hp hb =>
    have hbat := h.batches
    rw [hp] at hbat
    obtain rfl := hclean.no_error hm hp
    refine ⟨h.framing, fun _ hq => (by cases hq), h.results, h.heard, ?_⟩
    cases todo with
    | nil =>
      show cl.complete ++ [events] = cl.results.map Prod.fst ++ [events]
      rw [hbat]
      simp [Phase.pending]
    | cons g todo => exact hbat
  | flush hp =>
    exact h.of_still h.framing rfl rfl rfl (by rw [hp]; rfl) (fun _ hq => by cases hq)
  | write hw hk hl =>
    refine h.of_still h.framing rfl rfl rfl rfl (fun _ hq => ?_)
    have hq : cl.phase = .awaiting _ := hq
    simp [writing, hq] at hw
  | flushed hp hw =>
    exact h.of_still h.framing rfl rfl rfl (by rw [hp]; rfl) (fun _ _ => hw)
  | read hp hc hst => exact h.of_still ⟨h.framing.1, rfl, fun _ => rfl⟩ rfl rfl rfl rfl h.flushed
  | @next events f r hp he hr hd =>
    have hbat := h.batches
    rw [hp] at hbat
    have hsnd := hord.sound events (by rw [hbat]; simp [Phase.pending])
    have hpos : ¬ count events ≤ 0 := by
      rw [UInt32.le_iff_toNat_le, hsnd.count_toNat, UInt32.toNat_zero]
      have := List.length_pos_iff.mpr hsnd.ne
      omega
    rcases hans _ _ _ hp hd with hx | hx | hx <;> cases hx
    · -- a keepalive
      rw [onFrame, if_neg hpos]
      refine h.of_still ⟨he, h.framing.2.1, fun _ => hr⟩ rfl ?_ rfl rfl h.flushed
      show (finals (cl.heard ++ [.ack 0])).length = _
      rw [finals_append, show finals [.ack 0] = [] from finals_keepalives 1, List.append_nil]
    · rw [onFrame, if_pos (UInt32.le_refl _)]
      refine ⟨⟨he, h.framing.2.1, fun _ => hr⟩, fun _ hq => (by cases hq), ?_, ?_, ?_⟩
      · intro p hmem
        rcases List.mem_append.mp hmem with hmem | hmem
        · exact h.results p hmem
        · rw [List.mem_singleton.mp hmem]
      · show (finals (cl.heard ++ [.ack (count events)])).length = (cl.results ++ [_]).length
        rw [finals_append, finals_ack (fun hz => hpos (by rw [hz]; exact UInt32.le_refl _)),
          List.length_append, List.length_append, h.heard]
        rfl
      · show cl.complete = (cl.results ++ [(events, Except.ok (count events))]).map Prod.fst ++ []
        rw [hbat, List.map_append, List.append_nil]
        rfl
  | undecodable hp he hd =>
    rcases hans _ _ _ hp hd with hx | hx | hx <;> cases hx
  | exhausted hp he =>
    rw [h.framing.1] at he
    cases he
  | truncated hp he =>
    rw [h.framing.2.1] at he
    cases he
  | paused hp he =>
    rw [h.framing.2.1] at he
    cases he
  | ended hp => exact absurd rfl heof
  | closed hp => exact absurd rfl heof
  | unfed hp => cases hclean.no_error hm hp
  | giveUp ha => exact absurd ha hfault

end Client

/-- What a handler writes ends with an acknowledgement that is not a keepalive,
unless a batch is out. -/
theorem Server.Handler.Logged.last_written {cfg : ConnectionConfig} {h : Handler} (hl : h.Logged cfg)
    (hn : h.dispatched.length = h.rounds.length) (hne : ∀ d ∈ h.dispatched, d.lastSeq ≠ 0)
    {fs : List Frame} {f : Frame} (hw : h.written = fs ++ [f]) : Lumberjack.finals [f] ≠ [] := by
  have hall : h.dispatched.take h.rounds.length = h.dispatched := List.take_of_length_le (by omega)
  have hwr := hl.written
  rw [hl.quiet hn, hall, List.replicate_zero, List.append_nil, hw] at hwr
  rcases List.eq_nil_or_concat h.dispatched with hnil | ⟨ds, d, hds⟩
  · rw [hnil, ackStream] at hwr
    simp at hwr
  · have hd := hne d (by rw [hds]; simp)
    rw [hds, List.concat_eq_append, ackStream_concat, ackFrames] at hwr
    split at hwr
    · rw [← List.append_assoc] at hwr
      obtain ⟨-, hf⟩ := List.append_inj' hwr rfl
      rw [hf, finals_ack hd]
      simp
    · obtain ⟨-, hf⟩ := List.append_inj' hwr rfl
      rw [hf, finals_ack hd]
      simp

namespace Link

variable {T : Type} {z : Flate} {toVec : T → Except String Bytes} {level : UInt32}
variable {b : Client.ClientBuilder} {cfg : ConnectionConfig} {l l' : Link T} {m : Move T}

structure Lockstep (z : Flate) (toVec : T → Except String Bytes) (level : UInt32)
    (cfg : ConnectionConfig) (l : Link T) : Prop where
  follows : l.handler.Follows z cfg
  logged : l.handler.Logged cfg
  running : l.handler.Running
  carried : l.Carried z
  ordered : Ordered toVec l.client
  clean : CleanStream z toVec level cfg l.client
  exact : Exact l.client

namespace Lockstep

/-- The handler has not returned: what it would have refused was never fed. -/
theorem live (hz : z.Lawful) (h : Lockstep z toVec level cfg l) : l.handler.phase.live := by
  rcases h.running.phase with hl | ⟨r, hr⟩
  · exact hl
  · obtain ⟨t, ds, hreads⟩ := h.clean.completes hz
    obtain ⟨hout, hne⟩ := h.follows.outcome_stopped hr h.running.eof (l.up ++ l.client.wbuf ++ t)
    rw [← List.append_assoc, ← h.carried.sent, hreads.outcome_end trivial] at hout
    exact absurd (congrArg Outcome.result hout).symm hne

theorem dispatched (h : Lockstep z toVec level cfg l) :
    l.handler.dispatched <+: l.client.complete.map (deliver toVec) := by
  rw [← h.clean.batches]
  exact dispatched_front h.follows h.carried

theorem dispatched_ne_zero (h : Lockstep z toVec level cfg l) :
    ∀ d ∈ l.handler.dispatched, d.lastSeq ≠ 0 := Link.dispatched_ne_zero h.ordered h.dispatched

/-- What was written and not read: one acknowledgement for each batch that was
acknowledged after the last call that returned. -/
theorem unread (h : Lockstep z toVec level cfg l) :
    ∃ rest, l.handler.written = l.client.heard ++ rest ∧ (∀ f ∈ rest, ∃ v, f = .ack v) ∧
      encodeAll z rest = l.client.rbuf ++ (l.down ++ l.handler.out) ∧
      l.client.results.length + (finals rest).length = l.handler.rounds.length := by
  obtain ⟨rest, hfin, hw, hacks, hb⟩ := heard_front h.logged h.carried h.dispatched_ne_zero
  have hlen := congrArg List.length hfin
  rw [List.length_append, List.length_map, List.length_take_of_le h.logged.count.1,
    h.exact.heard] at hlen
  exact ⟨rest, hw, hacks, hb, hlen⟩

/-- Every call that returned was answered, and at most the current one besides. -/
theorem counts (h : Lockstep z toVec level cfg l) :
    l.client.results.length ≤ l.handler.rounds.length ∧
    l.handler.rounds.length ≤ l.handler.dispatched.length ∧
    l.handler.dispatched.length ≤ l.client.complete.length ∧
    l.client.complete.length = l.client.results.length + l.client.phase.pending.toList.length := by
  obtain ⟨rest, -, -, -, hlen⟩ := h.unread
  have hd := h.dispatched.length_le
  rw [List.length_map] at hd
  have hb := congrArg List.length h.exact.batches
  rw [List.length_append, List.length_map] at hb
  exact ⟨by omega, h.logged.count.1, hd, hb⟩

/-- The client reads its own acknowledgement and keepalives, nothing else. -/
theorem answered (h : Lockstep z toVec level cfg l) : Answered z l.client := by
  intro events x r hp hdec
  obtain ⟨rest, -, hacks, hb, -⟩ := h.unread
  obtain ⟨hsome, herr⟩ := decode_acks hacks hb
  match x, hdec with
  | .error e, hdec => exact absurd hdec (herr e r)
  | .ok none, hdec => exact .inl rfl
  | .ok (some f), hdec =>
    obtain ⟨rest', rfl, -⟩ := hsome f r hdec
    obtain ⟨seq, rfl⟩ := hacks f List.mem_cons_self
    by_cases hseq : seq = 0
    · exact .inr (.inl (by rw [hseq]))
    · obtain ⟨-, ev, hev, hsize⟩ := taken h.logged h.carried h.ordered h.dispatched hdec hseq
      have hbat := h.exact.batches
      rw [hp] at hbat
      have hsnd := h.ordered.sound events (by rw [hbat]; simp [Client.Phase.pending])
      have hlast : ev = events := by
        rw [h.exact.heard, hbat, List.getElem?_append_right (by simp)] at hev
        simpa [Client.Phase.pending] using hev.symm
      right; right
      have : seq = count events := by
        apply UInt32.toNat_inj.mp
        rw [hsnd.count_toNat, ← hlast, hsize]
      rw [this]

/-- With no batch out, all that was written has been read. -/
theorem silent (hz : z.Lawful) (h : Lockstep z toVec level cfg l)
    (hd : l.handler.dispatched.length ≤ l.client.results.length) :
    l.client.rbuf = [] ∧ l.down = [] ∧ l.handler.out = [] ∧
    (l.handler.phase.reading ∨ ∃ c, l.handler.phase = .dispatching c) := by
  have hcounts := h.counts
  obtain ⟨rest, hw, -, hb, hlen⟩ := h.unread
  have hnone : finals rest = [] := List.eq_nil_of_length_eq_zero (by omega)
  have hrest : rest = [] := by
    rcases List.eq_nil_or_concat rest with hnil | ⟨fs, f, hfs⟩
    · exact hnil
    · rw [List.concat_eq_append] at hfs
      rw [hfs, ← List.append_assoc] at hw
      rw [hfs, finals_append] at hnone
      exact absurd (List.append_eq_nil_iff.mp hnone).2
        (h.logged.last_written (by omega) h.dispatched_ne_zero hw)
  rw [hrest, encodeAll_nil] at hb
  obtain ⟨hrb, hb⟩ := List.append_eq_nil_iff.mp hb.symm
  obtain ⟨hdown, hout⟩ := List.append_eq_nil_iff.mp hb
  refine ⟨hrb, hdown, hout, ?_⟩
  -- a handler that awaits a release has a batch out, one that writes has bytes to flush
  have hlive := h.live hz
  have hawaits := h.logged.awaits
  have hflush := h.logged.flushing
  cases hp : l.handler.phase with
  | expectWindow => exact .inl rfl
  | collecting c => exact .inl rfl
  | dispatching c => exact .inr ⟨c, rfl⟩
  | awaitAck seq =>
    have := (hawaits seq (by rw [hp]; rfl)).1
    omega
  | keepalive seq =>
    have := (hawaits seq (by rw [hp]; rfl)).1
    omega
  | acking => exact absurd hout (hflush (by rw [hp]; rfl))
  | _ => simp [hp, Phase.live] at hlive

/-- Once every complete batch is dispatched, all that was fed has been decoded. -/
theorem consumed (h : Lockstep z toVec level cfg l) (hz : z.Lawful)
    (hd : l.handler.dispatched.length = l.client.complete.length)
    (hp : ∀ events todo err, l.client.phase = .feeding events todo err → todo = [] ∧ err = none) :
    l.handler.phase.position = .window ∧ l.handler.buffer = [] ∧ l.up = [] ∧ l.client.wbuf = [] := by
  have heq : l.handler.dispatched = l.client.complete.map (deliver toVec) :=
    h.dispatched.eq_of_length (by rw [hd, List.length_map])
  have hlive := h.live hz
  have hout := h.follows.here hlive (l.up ++ l.client.wbuf)
  rw [← h.carried.sent, (h.clean.at_rest hp).outcome_end trivial, heq] at hout
  have hend : l.handler.phase.position.outcome z cfg (l.handler.buffer ++ (l.up ++ l.client.wbuf)) =
      ⟨[], .ok ()⟩ := by
    simp only [Outcome.after, Outcome.mk.injEq, List.self_eq_append_right] at hout
    rw [← hout.1]
    exact congrArg (Outcome.mk _) hout.2.symm
  rcases Position.outcome_nil_ok hend with hstop | ⟨hpos, hnil⟩
  · cases hph : l.handler.phase <;> simp [hph, Phase.position, Phase.live] at hstop hlive
  · obtain ⟨hb, hnil⟩ := List.append_eq_nil_iff.mp hnil
    obtain ⟨hu, hw⟩ := List.append_eq_nil_iff.mp hnil
    exact ⟨hpos, hb, hu, hw⟩

/-- Between two calls nothing is in flight, every batch has been acknowledged, and
the handler waits for a window. -/
theorem drained (hz : z.Lawful) (h : Lockstep z toVec level cfg l) (hp : l.client.phase = .idle) :
    l.handler.dispatched.length = l.client.results.length ∧
    l.handler.phase = .expectWindow ∧ l.handler.buffer = [] ∧ l.handler.out = [] ∧
    l.up = [] ∧ l.down = [] ∧ l.client.wbuf = [] ∧ l.client.rbuf = [] := by
  have hcounts := h.counts
  have hnone : l.client.phase.pending.toList.length = 0 := by
    rw [hp]
    rfl
  have hlen : l.handler.dispatched.length = l.client.results.length := by omega
  obtain ⟨hrb, hdown, hout, hphase⟩ := h.silent hz (by omega)
  obtain ⟨hpos, hbuf, hup, hwb⟩ := h.consumed hz (by omega) (fun _ _ _ hq => by rw [hp] at hq; cases hq)
  refine ⟨hlen, ?_, hbuf, hout, hup, hdown, hwb, hrb⟩
  rcases hphase with hr | ⟨c, hc⟩
  · cases hph : l.handler.phase <;> simp [hph, Phase.position, Phase.reading] at hpos hr
    rfl
  · rw [hc] at hpos
    cases hpos

end Lockstep

/-- Moves that break nothing: no call is given up, neither stream fails, and a call
starts with a batch within the limits. -/
def Gentle (z : Flate) (toVec : T → Except String Bytes) (level : UInt32) (max : Nat) : Move T → Prop
  | .client (.start events) => Sendable z toVec level max events
  | .client .ackTimeout | .client .writeTimeout | .client (.fail _) => False
  | .handler .eof | .handler .shutdown | .handler (.fail _) => False
  | _ => True

instance (z : Flate) (toVec : T → Except String Bytes) (level : UInt32) (max : Nat) :
    (a : Client.Act T) → Decidable (Gentle z toVec level max (.client a))
  | .start events => inferInstanceAs (Decidable (Sendable z toVec level max events))
  | .ackTimeout | .writeTimeout | .fail _ => .isFalse id
  | .feed | .flush | .write _ | .flushed | .read _ | .next | .eof => .isTrue trivial

theorem Step.lockstep (hz : z.Lawful) (hm : cfg.maxFrameSize < 2^32) (hs : Step z toVec b cfg l m l')
    (hg : Gentle z toVec b.compressionLevel cfg.maxFrameSize m)
    (h : Lockstep z toVec b.compressionLevel cfg l) :
    Lockstep z toVec b.compressionLevel cfg l' := by
  have hcar := hs.carried h.logged h.carried
  cases m with
  | client a =>
    obtain ⟨hstep, hh⟩ := hs.client_step
    have hstart : ∀ events, a = .start events →
        Sendable z toVec b.compressionLevel cfg.maxFrameSize events := by
      intro events ha
      subst ha
      exact hg
    have hfault : ¬ (a = .ackTimeout ∨ a = .writeTimeout ∨ ∃ msg, a = .fail msg) := by
      rintro (rfl | rfl | ⟨msg, rfl⟩) <;> exact hg
    have heof : a ≠ .eof := by
      rintro rfl
      cases hs with
      | client ha he hs =>
        have hl := h.live hz
        rw [he rfl] at hl
        cases hl
    refine ⟨?_, ?_, ?_, hcar, ?_, ?_, ?_⟩
    · rw [hh]
      exact h.follows
    · rw [hh]
      exact h.logged
    · rw [hh]
      exact h.running
    · apply hstep.ordered _ h.ordered
      intro events ha hne
      subst ha
      have hidle := hstep.started
      refine ⟨(hstart events rfl).narrow hm, ?_⟩
      intro old hold
      have hall := h.exact.settled (by rw [hidle]; rfl)
      rw [List.drop_of_length_le (Nat.le_of_eq hall)] at hold
      cases hold
    · exact hstep.clean hz hm hstart hfault h.clean
    · exact hstep.exact hm hstart heof hfault h.clean h.answered h.ordered h.exact
  | handler a =>
    obtain ⟨hstep, hc⟩ := hs.handler_step
    refine ⟨hstep.follows h.follows, hstep.logged h.logged, ?_, hcar, ?_, ?_, ?_⟩
    · apply hstep.running _ _ _ h.running
      · rintro rfl
        exact hg
      · rintro rfl
        exact hg
      · rintro msg rfl
        exact hg
    · rw [hc]
      exact h.ordered
    · rw [hc]
      exact h.clean
    · rw [hc]
      exact h.exact

end Link

namespace Session

variable {ι T : Type} [DecidableEq ι] {S : Setup ι T} {s s' : Session ι T} {c : ι}

/-- Nothing fails on connection `c` and the `Server` stays. Any batch that its client
starts is within the limits. -/
def Faultless (S : Setup ι T) (c : ι) (_ : Session ι T) : Act ι T → Prop
  | .client c' a => c' = c →
    Link.Gentle S.z S.toVec (S.client c).compressionLevel S.server.maxFrameSize (.client a)
  | .server (.handler c' (.fail _)) => c' ≠ c
  | .server a => a ≠ .dropServer

instance (S : Setup ι T) (c : ι) (s : Session ι T) : (a : Act ι T) → Decidable (Faultless S c s a)
  | .client c' a => inferInstanceAs (Decidable (c' = c → _))
  | .server (.handler c' (.fail _)) => inferInstanceAs (Decidable (c' ≠ c))
  | .server (.handler _ (.read _)) | .server (.handler _ .next) | .server (.handler _ .eof)
  | .server (.handler _ .dispatch) | .server (.handler _ .shutdown) | .server (.handler _ .release)
  | .server (.handler _ .tick) | .server (.handler _ .acked) | .server (.handler _ (.write _))
  | .server .recv | .server (.release _ _) => .isTrue (by simp [Faultless])
  | .server .dropServer => .isFalse (by simp [Faultless])

omit [DecidableEq ι] in
theorem Faultless.noDrop {a : Act ι T} (h : Faultless S c s a) : NoDrop a := by
  rintro rfl
  exact h rfl

/-- A handler shuts down only when the `Server` was dropped. -/
theorem closed_of_shutdown (hs : step S s (.server (.handler c .shutdown)) = some s') :
    s.hub.closed = true := by
  cases step_cases hs with
  | server ha hh =>
    cases Hub.step_cases hh with
    | own ha => cases ha
    | shutdown hstep hclosed => exact hclosed

theorem run_open {as : List (Act ι T)} (hrun : Run (step S) (Faultless S c) (init ι T) as s) :
    s.hub.closed = false := by
  obtain ⟨bs, hhub⟩ := run_hub (fun s a hok => hok.noDrop) hrun
  exact Hub.run_open hhub

theorem run_lockstep (hz : S.z.Lawful) (hm : S.server.maxFrameSize < 2^32) {as : List (Act ι T)}
    (hrun : Run (step S) (Faultless S c) (init ι T) as s) :
    (s.link c).Lockstep S.z S.toVec (S.client c).compressionLevel S.server := by
  apply run_link (P := Link.Lockstep S.z S.toVec (S.client c).compressionLevel S.server) hrun
  · exact ⟨.init _ _, .init _, ⟨rfl, .inl rfl⟩, ⟨rfl, [], rfl, rfl⟩, .init _, .init _ _ _ _, .init T⟩
  · intro as s s' a hrun hok hs hl hmoves
    cases hmoves with
    | still he => rwa [he]
    | client ha hstep =>
      subst ha
      exact hstep.lockstep hz hm (hok rfl) hl
    | @handler b hb hstep =>
      apply hstep.lockstep hz hm _ hl
      rcases hb with rfl | rfl
      · trivial
      · cases b with
        | eof => cases hs
        | fail msg => exact hok rfl
        | shutdown =>
          have := closed_of_shutdown hs
          rw [run_open hrun] at this
          cases this
        | _ => trivial

end Session
end Lumberjack
