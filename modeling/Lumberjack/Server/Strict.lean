import Lumberjack.Wire.Strict
import Lumberjack.Server.Connection

/-!
# `run_connection` with every operation that can panic

The collection loops over the decoder of `Wire.Strict`, with the increment of the
counter, the growth of the vector and of the read buffer as operations that can
stop the thread. No input stops it: the run is that of the total model, unless a
buffer or a vector outgrows the largest size.
-/
namespace Lumberjack.Server

open Lumberjack.Stream Lumberjack.Wire

namespace Strict

/-- `size_of::<Bytes>()` -/
def bytesSize : Nat := 32

/-- The sequence check, then the update. -/
def push (c : Collect) (seq : UInt32) (data : Bytes) : Checked (Result Collect) :=
  if seq ≤ c.prevSeq then return .error (.seqOutOfOrder seq c.prevSeq)
  else do
    let received ← Checked.addU32 c.received 1
    let events ← Checked.push bytesSize c.events data
    return .ok { c with prevSeq := seq, lastSeq := seq, received := received, events := events }

/-- The counter is below the window, and the vector is no longer than the counter. -/
theorem push_eq {c : Collect} (hg : c.Good) (hr : c.received < c.window) (seq : UInt32)
    (data : Bytes) : push c seq data = .ok (c.push seq data) := by
  have hlt := UInt32.lt_iff_toNat_lt.mp hr
  have hw := c.window.toNat_lt
  have hinc : Checked.addU32 c.received 1 = .ok (c.received + 1) := by
    apply Checked.addU32_eq
    rw [UInt32.toNat_one]
    omega
  have hpush : Checked.push bytesSize c.events data = .ok (c.events ++ [data]) := by
    apply Checked.push_eq
    rw [hg.length]
    unfold bytesSize isizeMax
    omega
  unfold push Collect.push
  split
  · rfl
  · rw [hinc, Checked.ok_bind, hpush]
    rfl

section Loops

variable {fits : Prop} {z : Flate} {max : Nat}

/-- A frame the strict decoder returns leaves a shorter buffer. -/
theorem decode_shrinks {b r : Bytes} {f : Frame}
    (h : Wire.Strict.decodeWithLimit z b max = .ok (.ok (some f), r)) : r.length < b.length := by
  have hy := (Wire.Strict.decode_yields (fun hf : False => hf.elim) b).eq_of_ok h
  have hs := decode_some_shrinks hy.symm
  omega

/-- The loop over the inflated bytes of a compressed frame. -/
def inner (z : Flate) (max : Nat) (c : Collect) (buf : Bytes) : Checked (Result Collect) :=
  if ¬ buf.isEmpty ∧ c.received < c.window then
    match _h : Wire.Strict.decodeWithLimit z buf max with
    | .error p => .error p
    | .ok (.error e, _) => return .error e
    | .ok (.ok (some (.json seq data)), buf) =>
      match push c seq data with
      | .error p => .error p
      | .ok (.error e) => return .error e
      | .ok (.ok c) => inner z max c buf
    | .ok (.ok (some _), _) =>
      return .error (.unexpectedFrame "compressed payload must contain only J frames")
    | .ok (.ok none, _) => return .error (.invalidFrame "compressed payload truncated")
  else return .ok c
termination_by buf.length
decreasing_by exact decode_shrinks _h

theorem inner_stop (c : Collect) (buf : Bytes) (h : buf = [] ∨ ¬ c.received < c.window) :
    inner z max c buf = .ok (.ok c) := by
  rw [inner]
  rcases h with rfl | h
  · rfl
  · rw [if_neg (fun hc => h hc.2)]
    rfl

/-- One round of the loop. -/
theorem inner_eq {c : Collect} {buf : Bytes} (hb : buf ≠ []) (hr : c.received < c.window) :
    inner z max c buf = (do
      match ← Wire.Strict.decodeWithLimit z buf max with
      | (.error e, _) => return .error e
      | (.ok (some (.json seq data)), rest) =>
        match ← push c seq data with
        | .error e => return .error e
        | .ok c => inner z max c rest
      | (.ok (some _), _) =>
        return .error (.unexpectedFrame "compressed payload must contain only J frames")
      | (.ok none, _) => return .error (.invalidFrame "compressed payload truncated")) := by
  rw [inner, if_pos ⟨by simpa using hb, hr⟩]
  split
  · rename_i hd
    rw [hd]
    rfl
  · rename_i hd
    rw [hd]
    rfl
  · rename_i seq data rest hd
    rw [hd, Checked.ok_bind]
    dsimp only
    generalize push c seq data = x
    rcases x with p | e | c₁ <;> rfl
  · rename_i f rest hne hd
    rw [hd, Checked.ok_bind]
    cases f with
    | json seq data => exact absurd rfl (hne seq data)
    | window n => rfl
    | compressed inner => rfl
    | ack seq => rfl
  · rename_i hd
    rw [hd]
    rfl

theorem inner_yields (hfits : fits → Wire.Strict.Inflatable z max) {c : Collect} (hg : c.Good)
    (buf : Bytes) : Checked.Yields fits (inner z max c buf) (c.inner z max buf) := by
  induction hn : buf.length using Nat.strongRecOn generalizing c buf with
  | ind n ih =>
    by_cases hb : buf = [] ∨ ¬ c.received < c.window
    · rw [inner_stop c buf hb, Collect.inner_stop z max c buf hb]
      exact .ok _
    rw [not_or, not_not] at hb
    rw [inner_eq hb.1 hb.2, Collect.inner_eq z max hb.1 hb.2]
    refine .bind (Wire.Strict.decode_yields hfits buf) fun _ => ?_
    rcases hd : decodeWithLimit z buf max with ⟨e | _ | f, r⟩
    · exact .ok _
    · exact .ok _
    · cases f with
      | json seq data =>
        have hs := decode_some_shrinks hd
        simp only [push_eq hg hb.2, Checked.ok_bind]
        cases hp : c.push seq data with
        | error e => exact .ok _
        | ok c₁ =>
          obtain ⟨hlt, rfl⟩ := Collect.push_ok.mp hp
          exact ih r.length (by omega) (Collect.store_good hg hb.2 hlt data) r rfl
      | window n => exact .ok _
      | compressed inner => exact .ok _
      | ack seq => exact .ok _

/-- One frame inside a window. -/
def frame (z : Flate) (max : Nat) (c : Collect) : Frame → Checked (Result Collect)
  | .json seq data => push c seq data
  | .compressed bytes => do
    let buf ← Checked.slice bytes 0 bytes.length
    inner z max c buf
  | .window _ => return .error (.unexpectedFrame "expected J or C inside window")
  | .ack _ => return .error (.unexpectedFrame "expected J or C inside window")

theorem frame_yields (hfits : fits → Wire.Strict.Inflatable z max) {c : Collect} (hg : c.Good)
    (hr : c.received < c.window) (f : Frame) :
    Checked.Yields fits (frame z max c f) (c.frame z max f) := by
  cases f with
  | json seq data => exact .inl (push_eq hg hr seq data)
  | compressed bytes =>
    rw [frame, Checked.slice_eq (Nat.zero_le _) (Nat.le_refl _), Checked.ok_bind, List.drop_zero,
      Nat.sub_zero, List.take_length]
    exact inner_yields hfits hg bytes
  | window n => exact .ok _
  | ack seq => exact .ok _

end Loops

/-- One decoder call at the end of the input. -/
def decodeEof (z : Flate) (cfg : ConnectionConfig) (b : Bytes) :
    Checked (Option (Result Frame) × Bytes) := do
  match ← Wire.Strict.decodeWithLimit z b cfg.maxFrameSize with
  | (.ok (some f), r) => return (some (.ok f), r)
  | (.ok none, r) => return (if r.isEmpty then none else some (.error (cfg.decoder z).remaining), r)
  | (.error e, r) => return (some (.error e), r)

/-- The next frame; what is read is appended to the buffer. -/
def nextFrom (z : Flate) (cfg : ConnectionConfig) (b : Bytes) :
    List Bytes → Checked (Option (Result Frame) × Source UInt8)
  | [] => do
    let (answer, r) ← decodeEof z cfg b
    return (answer, ⟨r, []⟩)
  | c :: cs => do
    match ← Wire.Strict.decodeWithLimit z b cfg.maxFrameSize with
    | (.ok (some f), r) => return (some (.ok f), ⟨r, c :: cs⟩)
    | (.error e, r) => return (some (.error e), ⟨r, c :: cs⟩)
    | (.ok none, r) =>
      let b ← Checked.extendFromSlice r c
      nextFrom z cfg b cs

/-- `framed.next().await` -/
def next (z : Flate) (cfg : ConnectionConfig) (src : Source UInt8) :
    Checked (Option (Result Frame) × Source UInt8) := nextFrom z cfg src.buffer src.reads

/-- Nothing grows beyond the largest size: neither the stream nor what its images inflate to. -/
structure Fits (z : Flate) (cfg : ConnectionConfig) (s : Bytes) : Prop where
  stream : s.length ≤ isizeMax
  inflated : Wire.Strict.Inflatable z cfg.maxFrameSize

section Reads

variable {fits : Prop} {z : Flate} {cfg : ConnectionConfig}

theorem decodeEof_yields (hfits : fits → Wire.Strict.Inflatable z cfg.maxFrameSize) (b : Bytes) :
    Checked.Yields fits (decodeEof z cfg b) ((cfg.decoder z).decodeEof b) := by
  refine .bind (Wire.Strict.decode_yields hfits b) fun _ => ?_
  rcases hd : decodeWithLimit z b cfg.maxFrameSize with ⟨e | _ | f, r⟩
  · rw [Decoder.decodeEof_error (cfg.decoder z) hd]
    exact .ok _
  · obtain rfl := decode_none_keeps hd
    rw [Decoder.decodeEof_none (cfg.decoder z) hd]
    exact .ok _
  · rw [Decoder.decodeEof_some (cfg.decoder z) hd]
    exact .ok _

theorem nextFrom_yields {b : Bytes} {cs : List Bytes}
    (hfits : fits → Fits z cfg (b ++ cs.flatten)) :
    Checked.Yields fits (nextFrom z cfg b cs) ((cfg.decoder z).nextFrom b cs) := by
  induction cs generalizing b with
  | nil => exact .bind (decodeEof_yields (fun hf => (hfits hf).inflated) b) fun _ => .ok _
  | cons c cs ih =>
    refine .bind (Wire.Strict.decode_yields (fun hf => (hfits hf).inflated) b) fun _ => ?_
    rw [Decoder.nextFrom, ConnectionConfig.decode_eq]
    rcases hd : decodeWithLimit z b cfg.maxFrameSize with ⟨e | _ | f, r⟩
    · exact .ok _
    · obtain rfl := decode_none_keeps hd
      have happ : fits → Fits z cfg ((r ++ c) ++ cs.flatten) := by
        rw [List.append_assoc, ← List.flatten_cons]
        exact hfits
      have hext : fits → (r ++ c).length ≤ isizeMax := by
        intro hf
        have hl := (happ hf).stream
        rw [List.length_append] at hl
        omega
      exact .bind (Checked.yields_extend hext) fun _ => ih happ
    · exact .ok _

theorem next_yields {src : Source UInt8} (hfits : fits → Fits z cfg src.pending) :
    Checked.Yields fits (next z cfg src) ((cfg.decoder z).next src) := nextFrom_yields hfits

/-- A frame that is pulled leaves less to read. -/
theorem next_shrinks {src src' : Source UInt8} {f : Frame}
    (h : next z cfg src = .ok (some (.ok f), src')) : src'.pending.length < src.pending.length := by
  have hy := (next_yields (fun hf : False => hf.elim)).eq_of_ok h
  exact Decoder.next_shrinks _ hy.symm

end Reads

/-- `while received < window` -/
def collect (z : Flate) (cfg : ConnectionConfig) (c : Collect) (src : Source UInt8) :
    Checked (Result Collect × Source UInt8) :=
  if c.received < c.window then
    match _h : next z cfg src with
    | .error p => .error p
    | .ok (some (.ok f), src) =>
      match frame z cfg.maxFrameSize c f with
      | .error p => .error p
      | .ok (.ok c) => collect z cfg c src
      | .ok (.error e) => return (.error e, src)
    | .ok (some (.error e), src) => return (.error e, src)
    | .ok (none, src) => return (.error .connectionClosed, src)
  else return (.ok c, src)
termination_by src.pending.length
decreasing_by exact next_shrinks _h

section Loop

variable {fits : Prop} {z : Flate} {cfg : ConnectionConfig}

theorem collect_full {c : Collect} (src : Source UInt8) (h : ¬ c.received < c.window) :
    collect z cfg c src = .ok (.ok c, src) := by
  rw [collect, if_neg h]
  rfl

theorem collect_eq {c : Collect} (src : Source UInt8) (h : c.received < c.window) :
    collect z cfg c src = (do
      match ← next z cfg src with
      | (some (.ok f), src) =>
        match ← frame z cfg.maxFrameSize c f with
        | .ok c => collect z cfg c src
        | .error e => return (.error e, src)
      | (some (.error e), src) => return (.error e, src)
      | (none, src) => return (.error .connectionClosed, src)) := by
  rw [collect, if_pos h]
  split
  · rename_i hn
    rw [hn]
    rfl
  · rename_i f src' hn
    rw [hn, Checked.ok_bind]
    dsimp only
    generalize frame z cfg.maxFrameSize c f = x
    rcases x with p | e | c₁ <;> rfl
  · rename_i hn
    rw [hn]
    rfl
  · rename_i hn
    rw [hn]
    rfl

theorem Fits.le {s s' : Bytes} (h : Fits z cfg s) (hl : s'.length ≤ s.length) : Fits z cfg s' :=
  ⟨Nat.le_trans hl h.stream, h.inflated⟩

theorem collect_yields {c : Collect} (hg : c.Good) {src : Source UInt8}
    (hfits : fits → Fits z cfg src.pending) :
    Checked.Yields fits (collect z cfg c src) (Server.collect z cfg c src) := by
  induction hn : src.pending.length using Nat.strongRecOn generalizing c src with
  | ind n ih =>
    by_cases hr : c.received < c.window
    · rw [collect_eq src hr, Server.collect_eq z cfg src hr]
      refine .bind (next_yields hfits) fun _ => ?_
      rcases hs : (cfg.decoder z).next src with ⟨_ | e | f, src'⟩
      · exact .ok _
      · exact .ok _
      · have hlt := Decoder.next_shrinks _ hs
        refine .bind (frame_yields (fun hf => (hfits hf).inflated) hg hr f) fun _ => ?_
        dsimp only
        cases hf : c.frame z cfg.maxFrameSize f with
        | error e => exact .ok _
        | ok c' =>
          exact ih _ (hn ▸ hlt) (Collect.frame_good hg hr hf).1
            (fun h => (hfits h).le (Nat.le_of_lt hlt)) rfl
    · rw [collect_full src hr, Server.collect_full src hr]
      exact .ok _

theorem collect_shrinks {n : UInt32} {capacity : Nat} {c : Collect} {src src' : Source UInt8}
    (hv : Checked.withCapacity bytesSize n.toNat = .ok capacity)
    (h : collect z cfg { Collect.start n with capacity := capacity } src = .ok (.ok c, src')) :
    src'.pending.length ≤ src.pending.length := by
  obtain rfl := Checked.withCapacity_ok hv
  have hy := (collect_yields (Collect.start_good n) (fun hf : False => hf.elim)).eq_of_ok h
  exact collect_pending_le hy.symm

end Loop

/-- `run_connection` -/
def runConnection (z : Flate) (cfg : ConnectionConfig) (env : Nat → Nat × Release)
    (src : Source UInt8) : Checked Log :=
  match _hw : next z cfg src with
  | .error p => .error p
  | .ok (some (.ok (.window n)), src) =>
    match _hv : Checked.withCapacity bytesSize n.toNat with
    | .error p => .error p
    | .ok capacity =>
      match _hc : collect z cfg { Collect.start n with capacity := capacity } src with
      | .error p => .error p
      | .ok (.ok c, src) => do
        let batch := Batch.new c.events c.lastSeq ()
        let ackRx := Oneshot.ofSends (batch.release (env 0).2)
        let acked := (ackRx.acked c.lastSeq).getD c.lastSeq
        let log ← runConnection z cfg (fun k => env (k + 1)) src
        return log.after c.dispatch (ackFrames cfg (env 0).1 acked)
      | .ok (.error e, _) => return ⟨[], [], .error e⟩
  | .ok (some (.ok _), _) => return ⟨[], [], .error (.unexpectedFrame "expected Window at batch start")⟩
  | .ok (some (.error e), _) => return ⟨[], [], .error e⟩
  | .ok (none, _) => return ⟨[], [], .ok ()⟩
termination_by src.pending.length
decreasing_by
  have h1 := next_shrinks _hw
  have h2 := collect_shrinks _hv _hc
  omega

section Run

variable {fits : Prop} {z : Flate} {cfg : ConnectionConfig}

theorem withCapacity_window (n : UInt32) : Checked.withCapacity bytesSize n.toNat = .ok n.toNat := by
  have hn := n.toNat_lt
  apply Checked.withCapacity_eq
  unfold bytesSize isizeMax
  omega

theorem runConnection_eq (env : Nat → Nat × Release) (src : Source UInt8) :
    runConnection z cfg env src = (do
      match ← next z cfg src with
      | (some (.ok (.window n)), src) =>
        match ← collect z cfg (.start n) src with
        | (.ok c, src) =>
          let log ← runConnection z cfg (fun k => env (k + 1)) src
          return log.after c.dispatch (ackFrames cfg (env 0).1 c.lastSeq)
        | (.error e, _) => return ⟨[], [], .error e⟩
      | (some (.ok _), _) => return ⟨[], [], .error (.unexpectedFrame "expected Window at batch start")⟩
      | (some (.error e), _) => return ⟨[], [], .error e⟩
      | (none, _) => return ⟨[], [], .ok ()⟩) := by
  rw [runConnection]
  split
  · rename_i hw
    rw [hw]
    rfl
  · rename_i n src₁ hw
    rw [hw, Checked.ok_bind]
    dsimp only
    split
    · rename_i hv
      rw [withCapacity_window] at hv
      cases hv
    · rename_i capacity hv
      obtain rfl := Checked.withCapacity_ok hv
      -- the locals are those of `Collect.start`, so the two loops are the same call
      split
      · rename_i p hc
        have hc' : collect z cfg (.start n) src₁ = .error p := hc
        rw [hc']
        rfl
      · rename_i c src₂ hc
        have hc' : collect z cfg (.start n) src₁ = .ok (.ok c, src₂) := hc
        rw [hc', Checked.ok_bind]
        simp only [acked_release]
      · rename_i e src₂ hc
        have hc' : collect z cfg (.start n) src₁ = .ok (.error e, src₂) := hc
        rw [hc']
        rfl
  · rename_i f src₁ hne hw
    rw [hw, Checked.ok_bind]
    cases f with
    | window n => exact absurd rfl (hne n)
    | json seq data => rfl
    | compressed inner => rfl
    | ack seq => rfl
  · rename_i hw
    rw [hw]
    rfl
  · rename_i hw
    rw [hw]
    rfl

theorem runConnection_yields (env : Nat → Nat × Release) {src : Source UInt8}
    (hfits : fits → Fits z cfg src.pending) :
    Checked.Yields fits (runConnection z cfg env src) (Server.runConnection z cfg env src) := by
  induction hn : src.pending.length using Nat.strongRecOn generalizing env src with
  | ind n ih =>
    rw [runConnection_eq, Server.runConnection_eq]
    refine .bind (next_yields hfits) fun _ => ?_
    rcases hs : (cfg.decoder z).next src with ⟨_ | e | f, src₁⟩
    · exact .ok _
    · exact .ok _
    · have hlt := Decoder.next_shrinks _ hs
      have hfits₁ : fits → Fits z cfg src₁.pending := fun h => (hfits h).le (Nat.le_of_lt hlt)
      cases f with
      | window k =>
        dsimp only
        refine .bind (collect_yields (Collect.start_good k) hfits₁) fun _ => ?_
        rw [resume]
        rcases hc : Server.collect z cfg (.start k) src₁ with ⟨e | c, src₂⟩
        · exact .ok _
        · have hle := collect_pending_le hc
          have hrun := ih src₂.pending.length (by omega) (fun k => env (k + 1))
            (fun h => (hfits₁ h).le hle) rfl
          exact .bind hrun fun _ => .ok _
      | json seq data => exact .ok _
      | compressed inner => exact .ok _
      | ack seq => exact .ok _

end Run
end Strict

/-- **No input panics the receiver.** On a target with 64-bit `usize`, with every index,
slice, cursor move and addition of the decoder, the inflate loop and the collection loops
able to stop the thread: on any bytes in any reads, under any limit, none does. What is
left is a buffer or a vector at its largest size; a computation that does not end so
returns exactly the frame, the request for more bytes or the error of the total model, and
where stream and inflated bytes stay within that size it always returns. -/
theorem receiver_never_panics (z : Flate) :
    (∀ (input : Bytes) (max : Nat) (p : Panic),
      Wire.Strict.zlibDecompress z input max = .error p → p = .capacity) ∧
    (∀ (b : Bytes) (max : Nat) (p : Panic),
      Wire.Strict.decodeWithLimit z b max = .error p → p = .capacity) ∧
    (∀ (b : Bytes) (max : Nat) (answer : Result (Option Frame) × Bytes),
      Wire.Strict.decodeWithLimit z b max = .ok answer → answer = decodeWithLimit z b max) ∧
    (∀ (b : Bytes) (max : Nat), Wire.Strict.Inflatable z max →
      Wire.Strict.decodeWithLimit z b max = .ok (decodeWithLimit z b max)) ∧
    (∀ (cfg : ConnectionConfig) (env : Nat → Nat × Release) (reads : List Bytes) (p : Panic),
      Strict.runConnection z cfg env (.ofReads reads) = .error p → p = .capacity) ∧
    (∀ (cfg : ConnectionConfig) (env : Nat → Nat × Release) (reads : List Bytes) (l : Log),
      Strict.runConnection z cfg env (.ofReads reads) = .ok l →
      l = runConnection z cfg env (.ofReads reads)) ∧
    (∀ (cfg : ConnectionConfig) (env : Nat → Nat × Release) (reads : List Bytes),
      Strict.Fits z cfg reads.flatten →
      Strict.runConnection z cfg env (.ofReads reads) =
        .ok (runConnection z cfg env (.ofReads reads))) := by
  have decodes {fits : Prop} (b : Bytes) {max : Nat} (h : fits → Wire.Strict.Inflatable z max) :
      Checked.Yields fits (Wire.Strict.decodeWithLimit z b max) (decodeWithLimit z b max) :=
    Wire.Strict.decode_yields h b
  have runs {fits : Prop} (cfg : ConnectionConfig) (env : Nat → Nat × Release) (reads : List Bytes)
      (h : fits → Strict.Fits z cfg reads.flatten) :
      Checked.Yields fits (Strict.runConnection z cfg env (.ofReads reads))
        (runConnection z cfg env (.ofReads reads)) :=
    Strict.runConnection_yields env h
  refine ⟨?_, ?_, ?_, ?_, ?_, ?_, ?_⟩
  · intro input max p h
    exact (Wire.Strict.zlibDecompress_yields (fun hf : False => hf.elim) input).eq_of_error h
  · intro b max p h
    exact (decodes b (fun hf : False => hf.elim)).eq_of_error h
  · intro b max answer h
    exact (decodes b (fun hf : False => hf.elim)).eq_of_ok h
  · intro b max h
    exact (decodes b fun _ : True => h).eq_of_fits trivial
  · intro cfg env reads p h
    exact (runs cfg env reads (fun hf : False => hf.elim)).eq_of_error h
  · intro cfg env reads l h
    exact (runs cfg env reads (fun hf : False => hf.elim)).eq_of_ok h
  · intro cfg env reads h
    exact (runs cfg env reads fun _ : True => h).eq_of_fits trivial

end Lumberjack.Server
