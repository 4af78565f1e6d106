import Lumberjack.Wire.Alike
import Lumberjack.Server.Acks

/-!
# No decision of the server reads a payload

Two connections whose streams are built from the same frames and differ only in
payloads go through the same positions, batch by batch: the locals agree in
everything but the events, and those agree in number and length. What a batch's
events may differ in is a relation of the caller's choice, so that a difference
can be traced to a payload that was exchanged.
-/
namespace Lumberjack.Server

open Lumberjack.Stream Lumberjack.Wire

/-- Events of the same length that `R` relates. -/
def Counterpart (R : Bytes → Bytes → Prop) (e e' : Bytes) : Prop := e.length = e'.length ∧ R e e'

/-- The same locals up to the events, which are counterparts. -/
structure Collect.Twin (R : Bytes → Bytes → Prop) (c c' : Collect) : Prop where
  same : c' = { c with events := c'.events }
  events : List.Forall₂ (Counterpart R) c.events c'.events

/-- The same batch up to the events, which are counterparts. -/
structure Dispatch.Twin (R : Bytes → Bytes → Prop) (d d' : Dispatch) : Prop where
  window : d.window = d'.window
  lastSeq : d.lastSeq = d'.lastSeq
  events : List.Forall₂ (Counterpart R) d.events d'.events

inductive Position.Twin (R : Bytes → Bytes → Prop) (E : Error → Error → Prop) :
    Position → Position → Prop where
  | window : Position.Twin R E .window .window
  | inside {c c' : Collect} : c.Twin R c' → Position.Twin R E (.inside c) (.inside c')
  | stopped {r r' : Result Unit} : Agree (· = ·) E r r' → Position.Twin R E (.stopped r) (.stopped r')

structure Outcome.Twin (R : Bytes → Bytes → Prop) (E : Error → Error → Prop) (o o' : Outcome) :
    Prop where
  batches : List.Forall₂ (Dispatch.Twin R) o.batches o'.batches
  result : Agree (· = ·) E o.result o'.result

section Twins

variable {z : Flate} {max : Nat} {R : Bytes → Bytes → Prop} {E : Error → Error → Prop}

namespace Collect

namespace Twin

variable {c c' : Collect}

theorem start (R : Bytes → Bytes → Prop) (n : UInt32) : (start n).Twin R (start n) := ⟨rfl, .nil⟩

theorem received_lt (h : c.Twin R c') : c'.received < c'.window ↔ c.received < c.window := by
  rw [h.same]

theorem dispatch (h : c.Twin R c') : c.dispatch.Twin R c'.dispatch where
  window := by rw [h.same]; rfl
  lastSeq := by rw [h.same]; rfl
  events := h.events

theorem push (hE : ∀ e, E e e) (h : c.Twin R c') (seq : UInt32) {data data' : Bytes}
    (hd : Counterpart R data data') :
    Agree (Twin R) E (c.push seq data) (c'.push seq data') := by
  have hp : c'.prevSeq = c.prevSeq := by rw [h.same]
  unfold Collect.push
  rw [hp]
  split
  · exact .error (hE _)
  · refine .ok ⟨?_, ?_⟩
    · rw [store, h.same]
      rfl
    · exact List.rel_append h.events (.cons hd .nil)

/-- The loop over inflated bytes, on both sides. -/
theorem inner (hR : ∀ e, R e e) (hE : ∀ e, E e e) {buf buf' : Bytes} (h : c.Twin R c')
    (hb : Alike R NoImage buf buf') :
    Agree (Twin R) E (c.inner z max buf) (c'.inner z max buf') := by
  induction hn : buf.length using Nat.strongRecOn generalizing c c' buf buf' with
  | ind n ih =>
    have hlen := hb.length_eq
    have hrec := h.received_lt
    by_cases hstop : buf = [] ∨ ¬ c.received < c.window
    · have hstop' : buf' = [] ∨ ¬ c'.received < c'.window := by
        rw [hrec]
        refine hstop.imp_left fun hnil => ?_
        rw [hnil] at hlen
        exact List.eq_nil_of_length_eq_zero hlen.symm
      rw [inner_stop z max c buf hstop, inner_stop z max c' buf' hstop']
      exact .ok h
    · rw [not_or, not_not] at hstop
      obtain ⟨hne, hr⟩ := hstop
      have hne' : buf' ≠ [] := by
        rintro rfl
        exact hne (List.eq_nil_of_length_eq_zero hlen)
      have hr' := hrec.mpr hr
      rcases decode_alike z max (K := fun _ _ => True) hE (fun hc => hc.elim) hb with
        ⟨f, f', r, r', hd, hd', hf, hrest⟩ | ⟨e, e', hd, hd', he⟩ | ⟨rfl, hd⟩
      · have next {seq : UInt32} {data data' : Bytes} (hf : f = .json seq data)
            (hf' : f' = .json seq data') (hcp : Counterpart R data data') :
            Agree (Twin R) E (c.inner z max buf) (c'.inner z max buf') := by
          subst hf hf'
          have hs := decode_some_shrinks hd
          have hp := h.push hE seq hcp
          rw [inner_json z max hr hd, inner_json z max hr' hd']
          generalize c.push seq data = x at hp
          generalize c'.push seq data' = x' at hp
          cases hp with
          | ok ht => exact ih r.length (by omega) ht hrest rfl
          | error he => exact .error he
        cases hf with
        | same f =>
          cases f with
          | json seq data => exact next rfl rfl ⟨rfl, hR data⟩
          | window n =>
            rw [inner_eq z max hne hr, inner_eq z max hne' hr', hd, hd']
            exact .error (hE _)
          | compressed inner =>
            rw [inner_eq z max hne hr, inner_eq z max hne' hr', hd, hd']
            exact .error (hE _)
          | ack seq =>
            rw [inner_eq z max hne hr, inner_eq z max hne' hr', hd, hd']
            exact .error (hE _)
        | json seq hl hr => exact next rfl rfl ⟨hl, hr⟩
        | compressed hk =>
          rw [inner_eq z max hne hr, inner_eq z max hne' hr', hd, hd']
          exact .error (hE _)
      · rcases hx : decodeWithLimit z buf max with ⟨_, r⟩
        rcases hx' : decodeWithLimit z buf' max with ⟨_, r'⟩
        rw [hx] at hd
        rw [hx'] at hd'
        cases hd
        cases hd'
        rw [inner_eq z max hne hr, inner_eq z max hne' hr', hx, hx']
        exact .error he
      · rcases hx : decodeWithLimit z buf max with ⟨_, r⟩
        rw [hx] at hd
        cases hd
        rw [inner_eq z max hne hr, inner_eq z max hne' hr', hx]
        exact .error (hE _)

/-- One frame inside a window, on both sides. -/
theorem frame (hR : ∀ e, R e e) (hE : ∀ e, E e e) (h : c.Twin R c') {f f' : Frame}
    (hf : f.Alike R (Alike R NoImage) f') :
    Agree (Twin R) E (c.frame z max f) (c'.frame z max f') := by
  cases hf with
  | same f =>
    cases f with
    | json seq data => exact h.push hE seq ⟨rfl, hR data⟩
    | compressed bytes => exact h.inner hR hE (.rest bytes)
    | window n => exact .error (hE _)
    | ack seq => exact .error (hE _)
  | json seq hl hr => exact h.push hE seq ⟨hl, hr⟩
  | compressed hk => exact h.inner hR hE hk

end Twin
end Collect

namespace Position.Twin

variable {cfg : ConnectionConfig} {pos pos' : Position}

theorem advance (hR : ∀ e, R e e) (hE : ∀ e, E e e) (h : pos.Twin R E pos') {f f' : Frame}
    (hf : f.Alike R (Alike R NoImage) f') :
    (pos.advance z cfg f).Twin R E (pos'.advance z cfg f') := by
  cases h with
  | window =>
    cases hf with
    | same f =>
      cases f with
      | window n => exact .inside (Collect.Twin.start R n)
      | json seq data => exact .stopped (.error (hE _))
      | compressed inner => exact .stopped (.error (hE _))
      | ack seq => exact .stopped (.error (hE _))
    | json seq hl hr => exact .stopped (.error (hE _))
    | compressed hk => exact .stopped (.error (hE _))
  | @inside c c' hc =>
    have hx : Agree (Collect.Twin R) E (c.frame z cfg.maxFrameSize f) (c'.frame z cfg.maxFrameSize f') :=
      hc.frame hR hE hf
    simp only [Position.advance]
    generalize c.frame z cfg.maxFrameSize f = x at hx
    generalize c'.frame z cfg.maxFrameSize f' = x' at hx
    cases hx with
    | ok ht => exact .inside ht
    | error he => exact .stopped (.error he)
  | stopped hr => exact .stopped hr

/-- The end of the input, on both sides. -/
theorem ended (hE : ∀ e, E e e) (h : pos.Twin R E pos') {answer answer' : Option Error}
    (ha : answer = answer' ∨ ∃ e e', answer = some e ∧ answer' = some e' ∧ E e e') :
    Agree (· = ·) E (pos.ended answer) (pos'.ended answer') := by
  cases h with
  | stopped hr => exact hr
  | window =>
    rcases ha with rfl | ⟨e, e', rfl, rfl, he⟩
    · cases answer with
      | none => exact .ok rfl
      | some e => exact .error (hE e)
    · exact .error he
  | inside hc =>
    rcases ha with rfl | ⟨e, e', rfl, rfl, he⟩
    · cases answer with
      | none => exact .error (hE _)
      | some e => exact .error (hE e)
    · exact .error he

theorem isOpen (h : pos.Twin R E pos') : pos'.Open ↔ pos.Open := by
  cases h with
  | window => exact Iff.rfl
  | inside hc => exact hc.received_lt
  | stopped hr => exact Iff.rfl

end Position.Twin

/-- What two alike streams lead to from twin positions. -/
theorem outcome_alike {cfg : ConnectionConfig} {C : Bytes → Bytes → Prop} (hR : ∀ e, R e e)
    (hE : ∀ e, E e e)
    (hC : ∀ {image image'}, C image image' → image.length ≤ cfg.maxFrameSize ∧
      image'.length ≤ cfg.maxFrameSize ∧ Agree (Alike R NoImage) E
        (zlibDecompress z image cfg.maxFrameSize) (zlibDecompress z image' cfg.maxFrameSize))
    {pos pos' : Position} (hpos : pos.Twin R E pos') {b b' : Bytes} (h : Alike R C b b') :
    (pos.outcome z cfg b).Twin R E (pos'.outcome z cfg b') := by
  induction hn : b.length using Nat.strongRecOn generalizing pos pos' b b' with
  | ind n ih =>
    -- a full window is dispatched without reading, so the open positions come first
    have waiting {pos pos' : Position} (hpos : pos.Twin R E pos') (hopen : pos.Open) :
        (pos.outcome z cfg b).Twin R E (pos'.outcome z cfg b') := by
      have hopen' := hpos.isOpen.mpr hopen
      rcases decode_alike z cfg.maxFrameSize hE hC h with
        ⟨f, f', r, r', hd, hd', hf, hrest⟩ | ⟨e, e', hd, hd', he⟩ | ⟨rfl, hd⟩
      · have hs := decode_some_shrinks hd
        rw [Position.outcome_frame hopen hd, Position.outcome_frame hopen' hd']
        exact ih r.length (by omega) (hpos.advance hR hE hf) hrest rfl
      · have ha : ((cfg.decoder z).decodeEof b).1 = (some e).map .error := by
          rw [Decoder.decodeEof_error _ (Prod.ext hd rfl)]
          rfl
        have ha' : ((cfg.decoder z).decodeEof b').1 = (some e').map .error := by
          rw [Decoder.decodeEof_error _ (Prod.ext hd' rfl)]
          rfl
        rw [Position.outcome_end hopen ha, Position.outcome_end hopen' ha']
        exact ⟨.nil, hpos.ended hE (.inr ⟨e, e', rfl, rfl, he⟩)⟩
      · have ha : ((cfg.decoder z).decodeEof b).1 =
            (if b.isEmpty then none else some (cfg.decoder z).remaining).map .error := by
          rw [Decoder.decodeEof_none _ (Prod.ext hd rfl)]
          cases b.isEmpty <;> rfl
        rw [Position.outcome_end hopen ha, Position.outcome_end hopen' ha]
        exact ⟨.nil, hpos.ended hE (.inl rfl)⟩
    by_cases hopen : pos.Open
    · exact waiting hpos hopen
    · cases hpos with
      | window => exact absurd trivial hopen
      | stopped hr => exact absurd trivial hopen
      | @inside c c' hc =>
        have hrest := waiting .window trivial
        rw [Position.outcome_full hopen, Position.outcome_full (mt hc.received_lt.mp hopen)]
        exact ⟨.cons hc.dispatch hrest.batches, hrest.result⟩

end Twins

/-- The acknowledgements carry nothing but the last numbers. -/
theorem ackStream_twin (cfg : ConnectionConfig) (env : Nat → Nat × Release)
    {R : Bytes → Bytes → Prop} {ds ds' : List Dispatch} (h : List.Forall₂ (Dispatch.Twin R) ds ds') :
    ackStream cfg env ds = ackStream cfg env ds' := by
  induction h generalizing env with
  | nil => rfl
  | cons hd _ ih => rw [ackStream, ackStream, hd.lastSeq, ih]

theorem runConnection_flatten (z : Flate) (cfg : ConnectionConfig) (env : Nat → Nat × Release)
    (reads : List Bytes) :
    runConnection z cfg env (.ofReads reads) = runConnection z cfg env (.ofReads [reads.flatten]) :=
  runConnection_congr env (by simp)

/-- The handler returned by itself on the stream `s`, at its end or before it. -/
structure Handler.Returned (h : Handler) (s : Bytes) (r : Result Unit) : Prop where
  phase : h.phase = .done r
  input : h.input <+: s
  eof : h.eof = true → h.input = s

namespace Handler

variable {z : Flate} {cfg : ConnectionConfig} {h : Handler} {s : Bytes}

theorem Follows.front (hf : h.Follows z cfg) (hi : h.input <+: s) :
    h.dispatched <+: (Position.window.outcome z cfg s).batches := by
  obtain ⟨t, rfl⟩ := hi
  exact hf.batches_front t

theorem Follows.returned (hf : h.Follows z cfg) {r : Result Unit} (hret : h.Returned s r) :
    Position.window.outcome z cfg s = ⟨h.dispatched, r⟩ := by
  cases he : h.eof with
  | true =>
    rw [← hret.eof he]
    exact hf.outcome_done hret.phase
  | false =>
    obtain ⟨t, rfl⟩ := hret.input
    exact (hf.outcome_stopped hret.phase he t).1

/-- What a handler has written, from what its stream leads to and the keepalives it counted. -/
theorem Logged.written_eq (hl : h.Logged cfg) {ds : List Dispatch} (hd : h.dispatched <+: ds) :
    h.written = ackStream cfg (paced h.rounds) (ds.take h.rounds.length) ++
      List.replicate h.ticks (.ack 0) := by
  obtain ⟨t, rfl⟩ := hd
  rw [List.take_append_of_le_length hl.count.1]
  exact hl.written

end Handler

/-- **Payload opacity.** Two streams built from the same frames, where payloads of event
frames are exchanged at equal lengths, raw or inside compressed frames whose images are
within the limit; `R` is any reflexive relation between what was exchanged. Whatever the
consumer and the keepalives do, the batches agree in number, window, last number, event
count and event lengths, their events are related by `R`, the same acknowledgements are
written, and the results agree, except that a compressed frame refused for the size may
report another total; where the library reads both images in pieces of the same lengths
it does not. The same holds of any two runs of the handler, batch by batch, also of those
a consumer or the network cuts short. -/
theorem payload_opacity (z : Flate) (cfg : ConnectionConfig) (R : Bytes → Bytes → Prop)
    (hR : ∀ e, R e e) (s s' : Bytes) (h : Alike R (Images z cfg.maxFrameSize R) s s') :
    (∀ (env : Nat → Nat × Release) (reads reads' : List Bytes), reads.flatten = s →
      reads'.flatten = s' →
      List.Forall₂ (Dispatch.Twin R) (runConnection z cfg env (.ofReads reads)).batches
        (runConnection z cfg env (.ofReads reads')).batches ∧
      (runConnection z cfg env (.ofReads reads)).written =
        (runConnection z cfg env (.ofReads reads')).written ∧
      Agree (· = ·) (SameButSize cfg.maxFrameSize)
        (runConnection z cfg env (.ofReads reads)).result
        (runConnection z cfg env (.ofReads reads')).result ∧
      (Alike R (fun i i' => Images z cfg.maxFrameSize R i i' ∧ Even z cfg.maxFrameSize i i') s s' →
        (runConnection z cfg env (.ofReads reads)).result =
          (runConnection z cfg env (.ofReads reads')).result)) ∧
    (∀ (as as' : List Handler.Act) (k k' : Handler),
      Process.Run (Handler.step z cfg) Process.anything .init as k →
      Process.Run (Handler.step z cfg) Process.anything .init as' k' →
      k.input <+: s → k'.input <+: s' →
      (∀ (i : Nat) (d d' : Dispatch), k.dispatched[i]? = some d → k'.dispatched[i]? = some d' →
        d.Twin R d') ∧
      (k.rounds = k'.rounds → k.ticks = k'.ticks → k.written = k'.written) ∧
      (∀ r r', k.Returned s r → k'.Returned s' r' →
        List.Forall₂ (Dispatch.Twin R) k.dispatched k'.dispatched ∧
        Agree (· = ·) (SameButSize cfg.maxFrameSize) r r')) := by
  have htwin := outcome_alike hR (fun e => .inl rfl)
    (fun hi => ⟨hi.sizes.1, hi.sizes.2, hi.decompress⟩) (.window : Position.Twin R _ _ _) h
  constructor
  · rintro env reads reads' rfl rfl
    rw [runConnection_flatten z cfg env reads, runConnection_flatten z cfg env reads',
      runConnection_outcome, runConnection_outcome]
    refine ⟨htwin.batches, ackStream_twin cfg env htwin.batches, htwin.result, ?_⟩
    intro heven
    have hsame := outcome_alike (E := (· = ·)) hR (fun e => rfl)
      (fun hi => ⟨hi.1.sizes.1, hi.1.sizes.2, hi.1.decompress_even hi.2⟩)
      (.window : Position.Twin R _ _ _) heven
    exact hsame.result.eq
  · intro as as' k k' hrun hrun' hi hi'
    have hf := Handler.Follows.of_run hrun
    have hf' := Handler.Follows.of_run hrun'
    have hfront := hf.front hi
    have hfront' := hf'.front hi'
    refine ⟨?_, ?_, ?_⟩
    · intro i d d' hd hd'
      obtain ⟨hlt, rfl⟩ := List.getElem?_eq_some_iff.mp hd
      obtain ⟨hlt', rfl⟩ := List.getElem?_eq_some_iff.mp hd'
      apply List.forall₂_zip htwin.batches
      apply List.mem_of_getElem? (i := i)
      exact List.getElem?_zip_eq_some.mpr
        ⟨List.prefix_iff_getElem?.mp hfront i hlt, List.prefix_iff_getElem?.mp hfront' i hlt'⟩
    · intro hr ht
      rw [(Handler.Logged.of_run hrun).written_eq hfront, (Handler.Logged.of_run hrun').written_eq hfront',
        hr, ht, ackStream_twin cfg _ (List.forall₂_take _ htwin.batches)]
    · intro r r' hret hret'
      have ho := htwin
      rw [hf.returned hret, hf'.returned hret'] at ho
      exact ⟨ho.batches, ho.result⟩

/-- An event of two bytes, exchanged for another. -/
theorem payload_opacity_sample :
    (runConnection .sample ⟨1024, none⟩ prompt
      (.ofReads [[50, 87, 0, 0, 0, 1, 50, 74, 0, 0, 0, 1, 0, 0, 0, 2, 123, 125]])).written =
    (runConnection .sample ⟨1024, none⟩ prompt
      (.ofReads [[50, 87, 0, 0, 0, 1, 50, 74, 0, 0, 0, 1, 0, 0, 0, 2, 50, 87]])).written :=
  ((payload_opacity .sample ⟨1024, none⟩ (fun _ _ => True) (fun _ => trivial)
    ([50, 87, 0, 0, 0, 1] ++ (jsonWire 1 2 [123, 125] ++ []))
    ([50, 87, 0, 0, 0, 1] ++ (jsonWire 1 2 [50, 87] ++ []))
    (.frame (.window 1) (.json 1 rfl rfl trivial (.rest [])))).1 prompt _ _ rfl rfl).2.1

/-- A window whose first frame is a compressed frame that does not inflate. -/
theorem run_refused_image {z : Flate} {cfg : ConnectionConfig} {n : UInt32} (hn : 0 < n)
    {len : UInt32} {image : Bytes} (hl : image.length = len.toNat) (hm : len.toNat ≤ cfg.maxFrameSize)
    {e : Error} (hz : zlibDecompress z image cfg.maxFrameSize = .error e)
    (env : Nat → Nat × Release) :
    (runConnection z cfg env (.ofReads
      [protocolVersion :: typeWindow :: putU32 n ++ (zipWire len image ++ [])])).result = .error e := by
  have hw : (cfg.decoder z).decode
      (protocolVersion :: typeWindow :: putU32 n ++ (zipWire len image ++ [])) =
      (.ok (some (.window n)), zipWire len image ++ []) := by
    have h := decode_wire (WireForm.window n : WireForm z cfg.maxFrameSize _ _)
      (zipWire len image ++ [])
    exact h
  have hd : ((cfg.decoder z).decodeEof (zipWire len image ++ [])).1 = (some e).map .error := by
    have hx : (cfg.decoder z).decode (zipWire len image ++ []) = (.error e, []) := by
      have h := decode_zipWire z cfg.maxFrameSize hl []
      rw [if_neg (by omega), hz] at h
      exact h
    rw [Decoder.decodeEof_error _ hx]
    rfl
  have ho := Position.outcome_frame (show Position.window.Open from trivial) hw
  have hopen : (Position.inside (.start n)).Open := hn
  rw [Position.advance, Position.outcome_end hopen hd] at ho
  rw [runConnection_outcome, ho]
  rfl

/-- The same event frame up to its payload, refused by both, at different totals. -/
theorem refused_totals_differ :
    Alike (fun _ _ => True) (Images .buffered 40000 fun _ _ => True)
      ([50, 87, 0, 0, 0, 1] ++ (zipWire 73 deflated ++ []))
      ([50, 87, 0, 0, 0, 1] ++ (zipWire 33036 stored ++ [])) ∧
    (runConnection .buffered ⟨40000, none⟩ prompt
      (.ofReads [[50, 87, 0, 0, 0, 1] ++ (zipWire 73 deflated ++ [])])).result =
        .error (.frameTooLarge 40960 40000) ∧
    (runConnection .buffered ⟨40000, none⟩ prompt
      (.ofReads [[50, 87, 0, 0, 0, 1] ++ (zipWire 33036 stored ++ [])])).result =
        .error (.frameTooLarge 40953 40000) := by
  have hl : ∀ x : UInt8, (List.replicate 40950 x).length = (40950 : UInt32).toNat :=
    fun x => List.length_replicate
  have himages : Images .buffered 40000 (fun _ _ => True) deflated stored := by
    refine ⟨by decide, by rw [stored_length]; decide, bulk 98, bulk 97, inflates_deflated,
      inflates_stored, ?_⟩
    have h := Alike.json (C := NoImage) (R := fun _ _ => True) 1 (hl 98) (hl 97) trivial (.rest [])
    rwa [List.append_nil, List.append_nil] at h
  have hd : deflated.length = (73 : UInt32).toNat := deflated_length
  have hs : stored.length = (33036 : UInt32).toNat := stored_length
  refine ⟨.frame (.window 1) (.compressed hd hs himages (.rest [])), ?_, ?_⟩
  · have hm : (73 : UInt32).toNat ≤ (ConnectionConfig.mk 40000 none).maxFrameSize := by decide
    exact run_refused_image (n := 1) (by decide) hd hm decompress_deflated prompt
  · have hm : (33036 : UInt32).toNat ≤ (ConnectionConfig.mk 40000 none).maxFrameSize := by decide
    exact run_refused_image (n := 1) (by decide) hs hm decompress_stored prompt

end Lumberjack.Server
