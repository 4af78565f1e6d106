import Mathlib.Data.List.Basic

/-!
# Incremental decoders

A decoder is called on a buffer that grows at its end. It answers with an item,
with an error, or by asking for more input, and returns the buffer it leaves.
The fields of `Decoder` are what makes such calls independent of how the input
was cut into reads: an answer that is not a request for more input is final.
Nothing here depends on what the symbols or the items are.
-/
namespace Lumberjack.Stream

variable {α ε φ : Type}

/-- A decoder whose decisions no later input can change. `remaining` is the
error that leftover input at the end of the stream is reported as. -/
structure Decoder (α ε φ : Type) where
  decode : List α → Except ε (Option φ) × List α
  remaining : ε
  none_keeps : ∀ {b r : List α}, decode b = (.ok none, r) → r = b
  some_append : ∀ {b r : List α} {f : φ}, decode b = (.ok (some f), r) →
    ∀ t, decode (b ++ t) = (.ok (some f), r ++ t)
  error_append : ∀ {b r : List α} {e : ε}, decode b = (.error e, r) →
    ∀ t, (decode (b ++ t)).1 = .error e
  some_shrinks : ∀ {b r : List α} {f : φ}, decode b = (.ok (some f), r) → r.length < b.length

/-- What repeated calls on one buffer produced: the items, the error that
stopped them if there was one, and the buffer left. -/
structure Drained (α ε φ : Type) where
  items : List φ
  error : Option ε
  rest : List α

namespace Drained

def prepend (fs : List φ) (x : Drained α ε φ) : Drained α ε φ :=
  { x with items := fs ++ x.items }

@[simp] theorem prepend_items (fs : List φ) (x : Drained α ε φ) :
    (x.prepend fs).items = fs ++ x.items := rfl

@[simp] theorem prepend_error (fs : List φ) (x : Drained α ε φ) :
    (x.prepend fs).error = x.error := rfl

@[simp] theorem prepend_rest (fs : List φ) (x : Drained α ε φ) :
    (x.prepend fs).rest = x.rest := rfl

end Drained

namespace Decoder

variable (d : Decoder α ε φ)

/-- Call the decoder until it asks for more input or fails. -/
def drain (b : List α) : Drained α ε φ :=
  match _h : d.decode b with
  | (.ok (some f), r) => (drain r).prepend [f]
  | (.ok none, r) => ⟨[], none, r⟩
  | (.error e, r) => ⟨[], some e, r⟩
termination_by b.length
decreasing_by exact d.some_shrinks _h

theorem drain_some {b r : List α} {f : φ} (h : d.decode b = (.ok (some f), r)) :
    d.drain b = (d.drain r).prepend [f] := by
  rw [drain]
  split <;> simp_all

theorem drain_none {b r : List α} (h : d.decode b = (.ok none, r)) :
    d.drain b = ⟨[], none, b⟩ := by
  have hr := d.none_keeps h
  subst hr
  rw [drain]
  split <;> simp_all

theorem drain_error {b r : List α} {e : ε} (h : d.decode b = (.error e, r)) :
    d.drain b = ⟨[], some e, r⟩ := by
  rw [drain]
  split <;> simp_all

/-- Every item of a drained buffer was returned by one call. -/
theorem decoded_of_mem {b : List α} {f : φ} (h : f ∈ (d.drain b).items) :
    ∃ b' r, d.decode b' = (.ok (some f), r) := by
  induction hn : b.length using Nat.strongRecOn generalizing b with
  | ind n ih =>
    rcases hd : d.decode b with ⟨e | _ | g, r⟩
    · simp [d.drain_error hd] at h
    · simp [d.drain_none hd] at h
    · have hs := d.some_shrinks hd
      rw [d.drain_some hd, Drained.prepend_items, List.singleton_append] at h
      rcases List.mem_cons.mp h with rfl | h
      · exact ⟨b, r, hd⟩
      · exact ih r.length (by omega) h rfl

/-- Input that arrives after the decoder asked for more is decoded as if it had
been there from the start. -/
theorem drain_append_waiting (b t : List α) (h : (d.drain b).error = none) :
    d.drain (b ++ t) = (d.drain ((d.drain b).rest ++ t)).prepend (d.drain b).items := by
  induction hn : b.length using Nat.strongRecOn generalizing b with
  | ind n ih =>
    rcases hd : d.decode b with ⟨_ | _ | f, r⟩
    · rw [d.drain_error hd] at h
      cases h
    · rw [d.drain_none hd]
      rfl
    · have hs := d.some_shrinks hd
      rw [d.drain_some hd] at h ⊢
      rw [d.drain_some (d.some_append hd t), ih r.length (by omega) r h rfl]
      rfl

/-- Input that arrives after an error changes neither the items before it nor
the error. -/
theorem drain_append_error (b t : List α) {e : ε} (h : (d.drain b).error = some e) :
    (d.drain (b ++ t)).items = (d.drain b).items ∧ (d.drain (b ++ t)).error = some e := by
  induction hn : b.length using Nat.strongRecOn generalizing b with
  | ind n ih =>
    rcases hd : d.decode b with ⟨e' | _ | f, r⟩
    · have ha := d.error_append hd t
      rw [d.drain_error hd] at h ⊢
      rw [d.drain_error (Prod.ext ha rfl)]
      exact ⟨rfl, h⟩
    · rw [d.drain_none hd] at h
      cases h
    · have hs := d.some_shrinks hd
      rw [d.drain_some hd] at h ⊢
      rw [d.drain_some (d.some_append hd t)]
      obtain ⟨hi, he⟩ := ih r.length (by omega) r h rfl
      exact ⟨by simp [hi], he⟩

/-- The items and the final outcome once the input has ended. -/
def finish (x : Drained α ε φ) : List φ × Option ε :=
  match x.error with
  | some e => (x.items, some e)
  | none => (x.items, if x.rest.isEmpty then none else some d.remaining)

/-- Append each read to the buffer and drain it, stopping at an error. After the
last read the decoder is called once more and leftover input is an error. -/
def feed (b : List α) : List (List α) → List φ × Option ε
  | [] => d.finish (d.drain b)
  | c :: cs =>
    let x := d.drain (b ++ c)
    match x.error with
    | some e => (x.items, some e)
    | none => ((x.items ++ (feed x.rest cs).1), (feed x.rest cs).2)

theorem finish_prepend (fs : List φ) (x : Drained α ε φ) :
    d.finish (x.prepend fs) = (fs ++ (d.finish x).1, (d.finish x).2) := by
  unfold finish
  cases hx : x.error <;> simp [hx]

/-- What a stream decodes to is what its concatenation decodes to. -/
theorem feed_eq_drain (b : List α) (cs : List (List α)) :
    d.feed b cs = d.finish (d.drain (b ++ cs.flatten)) := by
  induction cs generalizing b with
  | nil => simp [feed]
  | cons c cs ih =>
    rw [List.flatten_cons, ← List.append_assoc]
    cases he : (d.drain (b ++ c)).error with
    | some e =>
      obtain ⟨hi, he'⟩ := d.drain_append_error (b ++ c) cs.flatten he
      simp only [feed, finish, he, he', hi]
    | none =>
      rw [d.drain_append_waiting (b ++ c) cs.flatten he, d.finish_prepend, ← ih]
      simp only [feed, he]

end Decoder

/-- The read half of a connection: what is buffered, and the reads still to come
before the end of the input. -/
structure Source (α : Type) where
  buffer : List α
  reads : List (List α)

namespace Source

/-- Everything not yet decoded. -/
def pending (s : Source α) : List α := s.buffer ++ s.reads.flatten

def ofReads (cs : List (List α)) : Source α := ⟨[], cs⟩

@[simp] theorem pending_ofReads (cs : List (List α)) : (ofReads cs).pending = cs.flatten := rfl

end Source

namespace Decoder

variable (d : Decoder α ε φ)

/-- One decoder call at the end of the input. -/
def decodeEof (b : List α) : Option (Except ε φ) × List α :=
  match d.decode b with
  | (.ok (some f), r) => (some (.ok f), r)
  | (.ok none, r) => (if r.isEmpty then none else some (.error d.remaining), r)
  | (.error e, r) => (some (.error e), r)

/-- The next item of a stream: decode what is buffered, read only when the
decoder asks for more, and call `decodeEof` once the input has ended. -/
def nextFrom (b : List α) : List (List α) → Option (Except ε φ) × Source α
  | [] => ((d.decodeEof b).1, ⟨(d.decodeEof b).2, []⟩)
  | c :: cs =>
    match d.decode b with
    | (.ok (some f), r) => (some (.ok f), ⟨r, c :: cs⟩)
    | (.error e, r) => (some (.error e), ⟨r, c :: cs⟩)
    | (.ok none, r) => nextFrom (r ++ c) cs

def next (s : Source α) : Option (Except ε φ) × Source α := d.nextFrom s.buffer s.reads

theorem decodeEof_some {b r : List α} {f : φ} (h : d.decode b = (.ok (some f), r)) :
    d.decodeEof b = (some (.ok f), r) := by
  simp only [decodeEof, h]

theorem decodeEof_error {b r : List α} {e : ε} (h : d.decode b = (.error e, r)) :
    d.decodeEof b = (some (.error e), r) := by
  simp only [decodeEof, h]

theorem decodeEof_none {b r : List α} (h : d.decode b = (.ok none, r)) :
    d.decodeEof b = (if b.isEmpty then none else some (.error d.remaining), b) := by
  have hr := d.none_keeps h
  subst hr
  simp only [decodeEof, h]

/-- Only a decoded item is ever returned as one, whatever stands behind it. -/
theorem decodeEof_ok {b r : List α} {f : φ} (h : d.decodeEof b = (some (.ok f), r)) :
    d.decode b = (.ok (some f), r) := by
  rcases hd : d.decode b with ⟨_ | _ | g, s⟩
  · simp [d.decodeEof_error hd] at h
  · rw [d.decodeEof_none hd] at h
    split at h <;> simp at h
  · rw [d.decodeEof_some hd] at h
    simp only [Prod.mk.injEq, Option.some.injEq, Except.ok.injEq] at h
    rw [h.1, h.2]

/-- Pulling an item depends on the pending input only, not on how it is cut
into reads; what is pending afterwards is what the decoder left. -/
theorem nextFrom_eq (b : List α) (cs : List (List α)) :
    (d.nextFrom b cs).1 = (d.decodeEof (b ++ cs.flatten)).1 ∧
    (∀ f, (d.nextFrom b cs).1 = some (.ok f) →
      (d.nextFrom b cs).2.pending = (d.decodeEof (b ++ cs.flatten)).2) := by
  induction cs generalizing b with
  | nil => simp [nextFrom, Source.pending]
  | cons c cs ih =>
    rw [List.flatten_cons]
    rcases hd : d.decode b with ⟨e | _ | f, r⟩
    · have ha := d.error_append hd (c ++ cs.flatten)
      rw [d.decodeEof_error (Prod.ext ha rfl)]
      simp [nextFrom, hd]
    · have hr := d.none_keeps hd
      subst hr
      simpa [nextFrom, hd] using ih (r ++ c)
    · rw [d.decodeEof_some (d.some_append hd (c ++ cs.flatten))]
      simp [nextFrom, hd, Source.pending]

theorem next_fst (s : Source α) : (d.next s).1 = (d.decodeEof s.pending).1 :=
  (d.nextFrom_eq s.buffer s.reads).1

theorem next_pending {s : Source α} {f : φ} (h : (d.next s).1 = some (.ok f)) :
    (d.next s).2.pending = (d.decodeEof s.pending).2 :=
  (d.nextFrom_eq s.buffer s.reads).2 f h

/-- Streams with the same pending input yield the same. -/
theorem next_congr {s s' : Source α} (h : s.pending = s'.pending) :
    (d.next s).1 = (d.next s').1 ∧
    (∀ f, (d.next s).1 = some (.ok f) → (d.next s).2.pending = (d.next s').2.pending) := by
  have h1 : (d.next s).1 = (d.next s').1 := by rw [d.next_fst, d.next_fst, h]
  refine ⟨h1, fun f hf => ?_⟩
  rw [d.next_pending hf, d.next_pending (h1 ▸ hf), h]

/-- An item pulled is one decoded from the pending input, and the converse. -/
theorem next_ok {s s' : Source α} {f : φ} (h : d.next s = (some (.ok f), s')) :
    d.decode s.pending = (.ok (some f), s'.pending) := by
  have h1 : (d.next s).1 = some (.ok f) := by rw [h]
  have h2 := d.next_pending h1
  rw [d.next_fst] at h1
  rw [h] at h2
  rw [h2]
  exact d.decodeEof_ok (Prod.ext h1 rfl)

theorem next_of_decode {s : Source α} {r : List α} {f : φ} (h : d.decode s.pending = (.ok (some f), r)) :
    ∃ s', d.next s = (some (.ok f), s') ∧ s'.pending = r := by
  have h1 : (d.next s).1 = some (.ok f) := by rw [d.next_fst, d.decodeEof_some h]
  refine ⟨(d.next s).2, Prod.ext h1 rfl, ?_⟩
  rw [d.next_pending h1, d.decodeEof_some h]

/-- The stream ends cleanly only when nothing is pending. -/
theorem next_none {s s' : Source α} (h : d.next s = (none, s')) : s.pending = [] := by
  have h1 : (d.decodeEof s.pending).1 = none := by rw [← d.next_fst, h]
  rcases hd : d.decode s.pending with ⟨_ | _ | f, r⟩
  · simp [d.decodeEof_error hd] at h1
  · rw [d.decodeEof_none hd] at h1
    by_cases he : s.pending.isEmpty
    · exact List.isEmpty_iff.mp he
    · simp [he] at h1
  · simp [d.decodeEof_some hd] at h1

/-- Every item pulled leaves strictly less input. -/
theorem next_shrinks {s s' : Source α} {f : φ} (h : d.next s = (some (.ok f), s')) :
    s'.pending.length < s.pending.length :=
  d.some_shrinks (d.next_ok h)

end Decoder
end Lumberjack.Stream
