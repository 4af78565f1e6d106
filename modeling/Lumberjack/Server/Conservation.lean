import Lumberjack.Server.Grammar

/-!
# What an accepted conversation carries and what is delivered of it

`Carries` lists the event frames of a stream without reference to windows. A
connection that ends with `Ok` delivers all of them exactly when no compressed
frame has inflated bytes left over at the moment its window fills: the loop over
those bytes stops at the window count and drops the rest without an error.
-/
namespace Lumberjack.Server

open Lumberjack.Stream Lumberjack.Wire

/-- The event frames of a stream in wire order. The inflated bytes of every
compressed frame are event frames and nothing else. -/
inductive Carries (z : Flate) (max : Nat) : List Event → Bytes → Prop where
  | nil : Carries z max [] []
  | window {n : UInt32} {es : List Event} {w v : Bytes} :
      WireForm z max (.window n) w → Carries z max es v → Carries z max es (w ++ v)
  | json {seq : UInt32} {data w v : Bytes} {es : List Event} :
      WireForm z max (.json seq data) w → Carries z max es v →
      Carries z max ((seq, data) :: es) (w ++ v)
  | compressed {fs es : List Event} {inner w v : Bytes} :
      WireForm z max (.compressed inner) w → JFrames z max fs inner → Carries z max es v →
      Carries z max (fs ++ es) (w ++ v)

/-- The payloads of all event frames of the stream, each once and in order, are
the events of the batches. -/
def Conserved (z : Flate) (max : Nat) (s : Bytes) (batches : List Dispatch) : Prop :=
  ∃ es, Carries z max es s ∧ batches.flatMap Dispatch.events = es.map Prod.snd

/-- Some compressed frame of the stream holds more than its window has room for:
further event frames, or bytes that are none. -/
def Overfull (z : Flate) (max : Nat) (s : Bytes) : Prop :=
  ∃ ds skipped p, Windows z max ds skipped p ∧ p <+: s ∧ skipped ≠ []

section Lemmas

variable {z : Flate} {max : Nat}

theorem carries_fill {room : Nat} {es fs : List Event} {sk w v : Bytes}
    (h : Fill z max room es sk w) (hsk : sk = []) (hv : Carries z max fs v) :
    Carries z max (es ++ fs) (w ++ v) := by
  induction h with
  | full => simpa using hv
  | frame hpos hd hfill ih =>
    obtain ⟨rfl, rfl⟩ := List.append_eq_nil_iff.mp hsk
    rw [List.append_assoc, List.append_assoc]
    cases hd with
    | raw hw => exact .json hw (ih rfl)
    | compressed hw hj hl hs =>
      rw [List.append_nil] at hw
      exact .compressed hw hj (ih rfl)

theorem conserved_windows {ds : List Dispatch} {sk p : Bytes} (h : Windows z max ds sk p)
    (hsk : sk = []) : Conserved z max p ds := by
  induction h with
  | nil => exact ⟨[], .nil, rfl⟩
  | @cons d ds sk sk' w v hw hws ih =>
    obtain ⟨rfl, rfl⟩ := List.append_eq_nil_iff.mp hsk
    obtain ⟨fs, hc, he⟩ := ih rfl
    cases hw with
    | @mk n es _ head body hh hf ha =>
      refine ⟨es ++ fs, ?_, ?_⟩
      · rw [List.append_assoc]
        exact .window hh (carries_fill hf rfl hc)
      · rw [List.flatMap_cons, he, List.map_append]

end Lemmas

/-- A run over a concatenation of windows succeeds and dispatches them. -/
theorem run_of_windows {z : Flate} {cfg : ConnectionConfig} (env : Nat → Nat × Release)
    {reads : List Bytes} {ds : List Dispatch} {sk : Bytes}
    (h : Windows z cfg.maxFrameSize ds sk reads.flatten) :
    (runConnection z cfg env (.ofReads reads)).result = .ok () ∧
    (runConnection z cfg env (.ofReads reads)).batches = ds := by
  obtain ⟨ds', sk', p, r, hp, hws, hr, hb, -, hres⟩ := run_spec z cfg env (.ofReads reads)
  rw [Source.pending_ofReads] at hp
  obtain ⟨h1, -, h3⟩ := hws.front h ⟨[], by rw [List.append_nil, hp]⟩ hr
  have hr0 : r = [] := by
    have hle := h3.length_le
    rw [hp, List.length_append] at hle
    exact List.eq_nil_of_length_eq_zero (by omega)
  subst hr0
  rw [List.append_nil] at hp
  obtain ⟨h4, -, -⟩ := h.front hws ⟨[], by rw [List.append_nil, List.append_nil, hp]⟩ hr
  exact ⟨hres.mpr rfl, by rw [hb]; exact (h1.eq_of_length_le h4.length_le).symm⟩

/-- The conversation keeps everything it accepts: nothing is lost on `Ok`, and a
compressed frame that does not fit its window is an error. -/
def Conserves (z : Flate) (cfg : ConnectionConfig) (env : Nat → Nat × Release)
    (reads : List Bytes) : Prop :=
  let log := runConnection z cfg env (.ofReads reads)
  (log.result = .ok () → Conserved z cfg.maxFrameSize reads.flatten log.batches) ∧
  (Overfull z cfg.maxFrameSize reads.flatten → ∃ e, log.result = .error e)

/-- **Nothing is silently discarded, except behind a full window.** The
connection keeps everything exactly when the bytes are not a concatenation of
windows in which a compressed frame has inflated bytes left over. -/
theorem conserves_iff (z : Flate) (cfg : ConnectionConfig) (env : Nat → Nat × Release)
    (reads : List Bytes) :
    Conserves z cfg env reads ↔
      ¬ ∃ ds skipped, Windows z cfg.maxFrameSize ds skipped reads.flatten ∧ skipped ≠ [] := by
  constructor
  · rintro ⟨-, hover⟩ ⟨ds, sk, hws, hsk⟩
    obtain ⟨e, he⟩ := hover ⟨ds, sk, _, hws, List.prefix_refl _, hsk⟩
    rw [(run_of_windows env hws).1] at he
    cases he
  · intro hno
    have hok (hres : (runConnection z cfg env (.ofReads reads)).result = .ok ()) :
        ∃ ds, Windows z cfg.maxFrameSize ds [] reads.flatten := by
      obtain ⟨ds, sk, p, r, hp, hws, -, -, -, hr⟩ := run_spec z cfg env (.ofReads reads)
      rw [hr.mp hres, List.append_nil, Source.pending_ofReads] at hp
      subst hp
      by_cases hsk : sk = []
      · exact ⟨ds, hsk ▸ hws⟩
      · exact absurd ⟨ds, sk, hws, hsk⟩ hno
    refine ⟨fun hres => ?_, ?_⟩
    · obtain ⟨ds, hws⟩ := hok hres
      rw [(run_of_windows env hws).2]
      exact conserved_windows hws rfl
    · rintro ⟨ds', sk', p', hws', hp', hsk'⟩
      cases hres : (runConnection z cfg env (.ofReads reads)).result with
      | error e => exact ⟨e, rfl⟩
      | ok u =>
        obtain ⟨ds, hws⟩ := hok hres
        have hnil : ∀ d s w, Window z cfg.maxFrameSize d s w → ¬ w <+: [] :=
          fun d s w hw hle => hw.ne_nil (List.prefix_nil.mp hle)
        have hs := (hws.front hws' (by rwa [List.append_nil]) hnil).2.1
        exact absurd (List.prefix_nil.mp hs) hsk'

/-- Two event frames `J(1, "{}")`, `J(2, "{}")` and their zlib image at level 3. -/
def excessInner : Bytes :=
  [50, 74, 0, 0, 0, 1, 0, 0, 0, 2, 123, 125, 50, 74, 0, 0, 0, 2, 0, 0, 0, 2, 123, 125]

def excessImage : Bytes :=
  [120, 94, 51, 242, 98, 96, 96, 96, 4, 98, 166, 234, 90, 35, 16, 155, 9, 194, 6, 0, 31, 191, 2,
    240]

/-- A window of one event, filled from a compressed frame that holds two: the
connection ends with `Ok` and the second event is gone. -/
theorem conserves_fails_excess :
    ¬ Conserves (.pinned excessInner excessImage) ⟨1024, none⟩ (fun _ => (0, .ack))
      [encodeAll (.pinned excessInner excessImage) [.window 1, .compressed excessInner]] := by
  rintro ⟨-, hover⟩
  have hw : WireForm (.pinned excessInner excessImage) 1024 (.compressed (sampleInner ++
      [50, 74, 0, 0, 0, 2, 0, 0, 0, 2, 123, 125]))
      (Frame.encode (.pinned excessInner excessImage) (.compressed excessInner)) :=
    .compressed 24 excessImage _ (by decide) (by decide) (by decide +kernel)
  have hj : JFrames (.pinned excessInner excessImage) 1024 [(1, [123, 125])] sampleInner :=
    .cons (v := []) (.json 1 2 [123, 125] (by decide) (by decide)) .nil
  have hfill : Fill (.pinned excessInner excessImage) 1024 1 _ _ _ :=
    .frame (by decide) (.compressed hw hj (by decide) (.inr rfl)) .full
  have hws := Windows.cons (Window.mk (.window 1) hfill (by simp [Ascending])) .nil
  obtain ⟨e, he⟩ := hover ⟨_, _, _, hws, by simp [encodeAll, Frame.encode], by simp⟩
  have hres : (runConnection (.pinned excessInner excessImage) ⟨1024, none⟩ (fun _ => (0, .ack))
      (.ofReads [encodeAll (.pinned excessInner excessImage)
        [.window 1, .compressed excessInner]])).result = .ok () := by
    decide +kernel
  rw [hres] at he
  cases he

end Lumberjack.Server
