import Lumberjack.Session.System

/-!
# No byte is lost or made up between the two ends

Whatever either end does, what a client has fed is what its handler has read,
followed by what is in the socket and in the client's write buffer; and what a
handler has written is what the client has read, followed by frames whose bytes
are in the client's read buffer, in the socket and in the handler's write buffer.
-/
namespace Lumberjack

open Lumberjack.Stream Lumberjack.Wire Lumberjack.Server Lumberjack.Process

theorem ackStream_acks (cfg : ConnectionConfig) (env : Nat → Nat × Release) (ds : List Dispatch) :
    ∀ f ∈ ackStream cfg env ds, ∃ v, f = .ack v := by
  induction ds generalizing env with
  | nil => simp [ackStream]
  | cons d ds ih =>
    intro f hf
    rcases List.mem_append.mp hf with hf | hf
    · unfold ackFrames at hf
      split at hf
      · rcases List.mem_append.mp hf with hf | hf
        · exact ⟨0, List.eq_of_mem_replicate hf⟩
        · exact ⟨_, List.mem_singleton.mp hf⟩
      · exact ⟨_, List.mem_singleton.mp hf⟩
    · exact ih _ f hf

namespace Server.Handler

variable {z : Flate} {cfg : ConnectionConfig} {h h' : Handler} {a : Act}

/-- A handler writes nothing but acknowledgements. -/
theorem Logged.acks (hl : h.Logged cfg) : ∀ f ∈ h.written, ∃ v, f = .ack v := by
  intro f hf
  rw [hl.written] at hf
  rcases List.mem_append.mp hf with hf | hf
  · exact ackStream_acks _ _ _ f hf
  · exact ⟨0, List.eq_of_mem_replicate hf⟩

theorem Step.sends (hs : Step z cfg h a h') (ha : Link.QuietHandler a) :
    h'.input = h.input ∧
    ∃ fs, h'.written = h.written ++ fs ∧ h'.out = h.out ++ encodeAll z fs := by
  cases hs with
  | read hr hc hd => cases ha
  | write hw hk hl => cases ha
  | eof hr hd => cases ha
  | tick hp hk hrx => exact ⟨rfl, [.ack 0], rfl, by simp [send]⟩
  | @acked l v hp hv => exact ⟨rfl, [.ack v], rfl, by simp [send]⟩
  | _ => exact ⟨rfl, [], by simp, by simp⟩

end Server.Handler

theorem decode_ack_encode (z : Flate) (v : UInt32) (t : Bytes) :
    (LumberjackCodec.decoder z {}).decode ((Frame.ack v).encode z ++ t) = (.ok (some (.ack v)), t) := by
  have hw : WireForm z defaultMaxFrameSize (.ack v) ((Frame.ack v).encode z) := .ack v
  exact decode_wire hw t

/-- Bytes that start a row of encoded acknowledgements decode to the first of them. -/
theorem decode_acks {z : Flate} {rest : List Frame} (hr : ∀ f ∈ rest, ∃ v, f = .ack v) {b t : Bytes}
    (hb : encodeAll z rest = b ++ t) :
    (∀ f r, (LumberjackCodec.decoder z {}).decode b = (.ok (some f), r) →
      ∃ rest', rest = f :: rest' ∧ encodeAll z rest' = r ++ t) ∧
    ∀ e r, (LumberjackCodec.decoder z {}).decode b ≠ (.error e, r) := by
  cases rest with
  | nil =>
    have hnil : b = [] := (List.append_eq_nil_iff.mp hb.symm).1
    subst hnil
    have hd : (LumberjackCodec.decoder z {}).decode [] = (.ok none, []) :=
      decode_nil z defaultMaxFrameSize
    rw [hd]
    exact ⟨fun f r he => by simp at he, fun e r he => by simp at he⟩
  | cons g rest' =>
    obtain ⟨v, rfl⟩ := hr g List.mem_cons_self
    have hd : (LumberjackCodec.decoder z {}).decode (b ++ t) =
        (.ok (some (.ack v)), encodeAll z rest') := by
      rw [← hb, encodeAll_cons]
      exact decode_ack_encode z v _
    constructor
    · intro f r he
      have ha := (LumberjackCodec.decoder z {}).some_append he t
      rw [hd] at ha
      simp only [Prod.mk.injEq, Except.ok.injEq, Option.some.injEq] at ha
      exact ⟨rest', by rw [ha.1], ha.2⟩
    · intro e r he
      have ha := (LumberjackCodec.decoder z {}).error_append he t
      rw [hd] at ha
      cases ha

namespace Link

variable {T : Type} {z : Flate} {toVec : T → Except String Bytes} {b : Client.ClientBuilder}
variable {cfg : ConnectionConfig} {l l' : Link T} {m : Move T}

structure Carried (z : Flate) (l : Link T) : Prop where
  sent : l.client.fed = l.handler.input ++ (l.up ++ l.client.wbuf)
  acks : ∃ rest, l.handler.written = l.client.heard ++ rest ∧
    encodeAll z rest = l.client.rbuf ++ (l.down ++ l.handler.out)

/-- A step of a client that touches none of its buffers. -/
theorem Carried.of_client (hc : l.Carried z) {cl : Client T}
    (hcl : cl.fed = l.client.fed ∧ cl.wbuf = l.client.wbuf ∧ cl.rbuf = l.client.rbuf ∧
      cl.heard = l.client.heard) : ({ l with client := cl } : Link T).Carried z := by
  obtain ⟨h1, h2, h3, h4⟩ := hcl
  constructor
  · show cl.fed = l.handler.input ++ (l.up ++ cl.wbuf)
    rw [h1, h2]
    exact hc.sent
  · show ∃ rest, l.handler.written = cl.heard ++ rest ∧
      encodeAll z rest = cl.rbuf ++ (l.down ++ l.handler.out)
    rw [h3, h4]
    exact hc.acks

theorem Carried.client (hc : l.Carried z) (hack : ∀ f ∈ l.handler.written, ∃ v, f = .ack v)
    {a : Client.Act T} {cl : Client T} (ha : QuietClient a)
    (hs : Client.Step z toVec b l.client a cl) : ({ l with client := cl } : Link T).Carried z := by
  obtain ⟨rest, hw, hb⟩ := hc.acks
  have hrest : ∀ f ∈ rest, ∃ v, f = .ack v := by
    intro f hf
    exact hack f (by rw [hw]; exact List.mem_append_right _ hf)
  cases hs with
  | write => cases ha
  | read => cases ha
  | @feed events f todo err hp hbl =>
    constructor
    · show l.client.fed ++ f.encode z = l.handler.input ++ (l.up ++ (l.client.wbuf ++ f.encode z))
      rw [hc.sent]
      simp only [List.append_assoc]
    · exact hc.acks
  | @next events f r hp he hr hd =>
    obtain ⟨rest', rfl, hr⟩ := (decode_acks hrest hb).1 f r hd
    obtain ⟨h1, h2, h3, h4, -⟩ := Client.onFrame_keeps
      { l.client with rbuf := r, heard := l.client.heard ++ [f] } events f
    constructor
    · show Client.fed _ = l.handler.input ++ (l.up ++ Client.wbuf _)
      rw [h1, h2]
      exact hc.sent
    · refine ⟨rest', ?_, ?_⟩
      · show l.handler.written = Client.heard _ ++ rest'
        rw [h4, hw, List.append_assoc]
        rfl
      · show encodeAll z rest' = Client.rbuf _ ++ _
        rw [h3]
        exact hr
  | undecodable hp he hd => exact absurd hd ((decode_acks hrest hb).2 _ _)
  | _ => exact hc.of_client ⟨rfl, rfl, rfl, rfl⟩

theorem Step.carried (hs : Step z toVec b cfg l m l') (hlog : l.handler.Logged cfg)
    (hc : l.Carried z) : l'.Carried z := by
  cases hs with
  | client ha he hs => exact hc.client hlog.acks ha hs
  | @clientWrite k cl hs =>
    cases hs with
    | write hw hk hl =>
      constructor
      · show l.client.fed = l.handler.input ++ (l.up ++ l.client.wbuf.take k ++ l.client.wbuf.drop k)
        rw [List.append_assoc, List.take_append_drop]
        exact hc.sent
      · exact hc.acks
    | giveUp ha => simp at ha
  | @clientRead chunk rest cl hs hd =>
    cases hs with
    | read hp hne hst =>
      obtain ⟨fs, hw, hb⟩ := hc.acks
      refine ⟨hc.sent, fs, hw, ?_⟩
      show encodeAll z fs = l.client.rbuf ++ chunk ++ (rest ++ l.handler.out)
      rw [hb, hd]
      simp only [List.append_assoc]
    | giveUp ha => simp at ha
  | @handler a h ha hs =>
    obtain ⟨hin, fs, hw, ho⟩ := hs.sends ha
    obtain ⟨rest, hwr, hb⟩ := hc.acks
    constructor
    · show l.client.fed = h.input ++ (l.up ++ l.client.wbuf)
      rw [hin]
      exact hc.sent
    · refine ⟨rest ++ fs, ?_, ?_⟩
      · show h.written = l.client.heard ++ (rest ++ fs)
        rw [hw, hwr, List.append_assoc]
      · show encodeAll z (rest ++ fs) = l.client.rbuf ++ (l.down ++ h.out)
        rw [encodeAll_append, hb, ho]
        simp only [List.append_assoc]
  | @serverRead chunk rest h hs hu =>
    cases hs with
    | read hr hne hd =>
      refine ⟨?_, hc.acks⟩
      show l.client.fed = l.handler.input ++ chunk ++ (rest ++ l.client.wbuf)
      rw [hc.sent, hu]
      simp only [List.append_assoc]
  | @serverWrite k h hs =>
    cases hs with
    | write hw hk hl =>
      obtain ⟨fs, hwr, hb⟩ := hc.acks
      refine ⟨hc.sent, fs, hwr, ?_⟩
      show encodeAll z fs =
        l.client.rbuf ++ (l.down ++ l.handler.out.take k ++ l.handler.out.drop k)
      rw [List.append_assoc, List.take_append_drop]
      exact hb

end Link

namespace Session

variable {ι T : Type} [DecidableEq ι] {S : Setup ι T} {s : Session ι T}

theorem run_carried {ok : Session ι T → Act ι T → Prop} {as : List (Act ι T)}
    (hrun : Run (step S) ok (init ι T) as s) (c : ι) : (s.link c).Carried S.z := by
  apply run_link (P := Link.Carried S.z) hrun
  · exact ⟨rfl, [], rfl, rfl⟩
  · intro as s s' a hrun _ _ hc hm
    have hlog := (run_hub_inv hrun).logged c
    cases hm with
    | still he => rwa [he]
    | client ha hs => exact hs.carried hlog hc
    | handler hb hs => exact hs.carried hlog hc

end Session
end Lumberjack
