import Lumberjack.Wire.Inflate

/-!
# How the bounded inflate loop ends

`zlib_decompress` compares the total with the limit before every append, so its
answer follows from the totals of the reads alone: the first total over the limit
is the size it complains of, an error of the reader counts only while no total has
passed the limit, and how the reader cuts its output does not matter for anything
but that size.
-/
namespace Lumberjack.Wire

open Lumberjack.Stream (Bytes)

/-- The total after `k` more reads. -/
def runningTotal (total : Nat) (cs : List Bytes) (k : Nat) : Nat :=
  total + (cs.take k).flatten.length

/-- The states of the loop: what it has accumulated, and the reads still to come. -/
inductive Inflating (max : Nat) (r : Reader) : Bytes → List Bytes → Prop
  | start : Inflating max r [] r.reads
  | extend {out c : Bytes} {cs : List Bytes} : Inflating max r out (c :: cs) →
      out.length + c.length ≤ max → Inflating max r (out ++ c) cs

section Loop

variable {max : Nat} {r : Reader} {out : Bytes} {cs : List Bytes}

theorem Inflating.length_le (h : Inflating max r out cs) : out.length ≤ max := by
  cases h with
  | start => exact Nat.zero_le max
  | extend _ hfit => rwa [List.length_append]

/-- Nothing is lost between the accumulated output and the reads to come. -/
theorem Inflating.content (h : Inflating max r out cs) :
    out ++ cs.flatten = r.reads.flatten := by
  induction h with
  | start => rfl
  | extend _ _ ih => rwa [List.append_assoc, ← List.flatten_cons]

/-- The loop returns what it would return from any state it passes. -/
theorem Inflating.answer (h : Inflating max r out cs) :
    inflateLoop max r.ending r.reads [] = inflateLoop max r.ending cs out := by
  induction h with
  | start => rfl
  | extend _ hfit ih => rw [ih, inflateLoop, if_neg (by omega)]

/-- What the loop returns is what it has accumulated when the reads are used up. -/
theorem Inflating.finish {res : Bytes} (h : Inflating max r out cs)
    (hres : inflateLoop max r.ending cs out = .ok res) : Inflating max r res [] := by
  induction cs generalizing out with
  | nil =>
    simp only [inflateLoop] at hres
    cases hend : r.ending with
    | error e => simp [hend] at hres
    | ok u =>
      rw [hend] at hres
      cases hres
      exact h
  | cons c cs ih =>
    simp only [inflateLoop] at hres
    split at hres
    · cases hres
    · exact ih (h.extend (by omega)) hres

end Loop

/-- The first of these totals that passes the limit. -/
def FirstOver (max : Nat) (total : Nat → Nat) (size : Nat) : Prop :=
  max < size ∧ ∃ k, total k = size ∧ ∀ j < k, total j ≤ max

/-- A total that fits may be left out at the front. -/
theorem firstOver_tail {max size : Nat} {total : Nat → Nat} (h : total 0 ≤ max) :
    FirstOver max total size ↔ FirstOver max (fun k => total (k + 1)) size := by
  constructor
  · intro hover
    obtain ⟨hlt, k, hk, hbefore⟩ := hover
    cases k with
    | zero => omega
    | succ k => exact ⟨hlt, k, hk, fun j hj => hbefore (j + 1) (by omega)⟩
  · intro hover
    obtain ⟨hlt, k, hk, hbefore⟩ := hover
    refine ⟨hlt, k + 1, hk, fun j hj => ?_⟩
    cases j with
    | zero => exact h
    | succ j => exact hbefore j (by omega)

/-- A total over the limit is the first one. -/
theorem firstOver_head {max size : Nat} {total : Nat → Nat} (h : max < total 0) :
    FirstOver max total size ↔ total 0 = size := by
  constructor
  · intro hover
    obtain ⟨-, k, hk, hbefore⟩ := hover
    cases k with
    | zero => exact hk
    | succ k =>
      have hfits := hbefore 0 (by omega)
      omega
  · intro hsize
    subst hsize
    exact ⟨h, 0, rfl, fun j hj => absurd hj (Nat.not_lt_zero j)⟩

theorem runningTotal_zero (total : Nat) (cs : List Bytes) : runningTotal total cs 0 = total := rfl

theorem runningTotal_nil (total k : Nat) : runningTotal total [] k = total := by
  simp [runningTotal]

theorem runningTotal_cons (total : Nat) (c : Bytes) (cs : List Bytes) (k : Nat) :
    runningTotal total (c :: cs) (k + 1) = runningTotal (total + c.length) cs k := by
  rw [runningTotal, runningTotal, List.take_succ_cons, List.flatten_cons, List.length_append,
    Nat.add_assoc]

/-- The size the loop complains of is the first total that passes the limit. -/
theorem overflowAt_some_iff {max size total : Nat} {cs : List Bytes} (ht : total ≤ max) :
    overflowAt max (cs.map List.length) total = some size ↔
      FirstOver max (runningTotal total cs) size := by
  induction cs generalizing total with
  | nil =>
    simp only [List.map_nil, overflowAt, FirstOver, runningTotal_nil]
    constructor
    · intro h
      cases h
    · intro h
      obtain ⟨hlt, -, hsize, -⟩ := h
      omega
  | cons c cs ih =>
    rw [firstOver_tail (runningTotal_zero total (c :: cs) ▸ ht)]
    simp only [runningTotal_cons, List.map_cons, overflowAt]
    by_cases hc : total + c.length > max
    · rw [if_pos hc, firstOver_head hc, runningTotal_zero, Option.some.injEq]
    · rw [if_neg hc, ih (by omega)]

section Answers

variable {z : Flate} {input : Bytes} {max : Nat}

theorem zlibDecompress_ok_iff {out : Bytes} :
    zlibDecompress z input max = .ok out ↔
      (z.zlibDecoder input).ending = .ok () ∧ (z.zlibDecoder input).reads.flatten.length ≤ max ∧
        out = (z.zlibDecoder input).reads.flatten := by
  rw [zlibDecompress_iff]
  constructor
  · intro h
    obtain ⟨hi, hl⟩ := h
    rw [hi.content]
    exact ⟨hi.ends, hl, rfl⟩
  · intro h
    obtain ⟨hend, hl, hout⟩ := h
    subst hout
    exact ⟨⟨hend, rfl⟩, hl⟩

theorem zlibDecompress_frameTooLarge_iff {size m : Nat} :
    zlibDecompress z input max = .error (.frameTooLarge size m) ↔
      m = max ∧ FirstOver max (runningTotal 0 (z.zlibDecoder input).reads) size := by
  rw [← overflowAt_some_iff (Nat.zero_le max), zlibDecompress, inflateLoop_eq, List.length_nil]
  cases overflowAt max ((z.zlibDecoder input).reads.map List.length) 0 with
  | some first =>
    simp only [Except.error.injEq, Error.frameTooLarge.injEq, Option.some.injEq]
    tauto
  | none => cases (z.zlibDecoder input).ending <;> simp

theorem zlibDecompress_compression_iff {e : String} :
    zlibDecompress z input max = .error (.compression e) ↔
      (z.zlibDecoder input).ending = .error e ∧
        (z.zlibDecoder input).reads.flatten.length ≤ max := by
  have hnone : overflowAt max ((z.zlibDecoder input).reads.map List.length) 0 = none ↔
      0 + (z.zlibDecoder input).reads.flatten.length ≤ max := overflowAt_none_iff (Nat.zero_le max)
  rw [Nat.zero_add] at hnone
  rw [← hnone, zlibDecompress, inflateLoop_eq, List.length_nil]
  cases overflowAt max ((z.zlibDecoder input).reads.map List.length) 0 with
  | some first => simp
  | none => cases (z.zlibDecoder input).ending <;> simp

/-- The loop complains of the size exactly when some total passes the limit. -/
theorem exceeds_limit_iff :
    (∃ size, max < size ∧ zlibDecompress z input max = .error (.frameTooLarge size max)) ↔
      ∃ k, max < ((z.zlibDecoder input).reads.take k).flatten.length := by
  constructor
  · intro h
    obtain ⟨size, hlt, h⟩ := h
    obtain ⟨-, -, k, hk, -⟩ := zlibDecompress_frameTooLarge_iff.mp h
    rw [runningTotal, Nat.zero_add] at hk
    exact ⟨k, hk ▸ hlt⟩
  · intro h
    obtain ⟨k, hk⟩ := h
    have hsplit := congrArg (List.length ∘ List.flatten)
      (List.take_append_drop k (z.zlibDecoder input).reads)
    simp only [Function.comp, List.flatten_append, List.length_append] at hsplit
    cases ho : overflowAt max ((z.zlibDecoder input).reads.map List.length) 0 with
    | none =>
      have hfit := (overflowAt_none_iff (Nat.zero_le max)).mp ho
      omega
    | some size =>
      refine ⟨size, overflowAt_some ho, zlibDecompress_frameTooLarge_iff.mpr ⟨rfl, ?_⟩⟩
      exact (overflowAt_some_iff (Nat.zero_le max)).mp ho

/-- Two readers that finish with the same bytes get the same bytes, or both are too
large. -/
theorem same_content {z' : Flate} {input' : Bytes}
    (h : (z.zlibDecoder input).ending = .ok ()) (h' : (z'.zlibDecoder input').ending = .ok ())
    (hc : (z.zlibDecoder input).reads.flatten = (z'.zlibDecoder input').reads.flatten) :
    (∃ out, zlibDecompress z input max = .ok out ∧ zlibDecompress z' input' max = .ok out) ∨
      ∃ size size', zlibDecompress z input max = .error (.frameTooLarge size max) ∧
        zlibDecompress z' input' max = .error (.frameTooLarge size' max) := by
  have hi : z.Inflates input (z.zlibDecoder input).reads.flatten := ⟨h, rfl⟩
  have hi' : z'.Inflates input' (z.zlibDecoder input).reads.flatten := ⟨h', hc.symm⟩
  by_cases hl : (z.zlibDecoder input).reads.flatten.length ≤ max
  · exact .inl ⟨_, zlibDecompress_iff.mpr ⟨hi, hl⟩, zlibDecompress_iff.mpr ⟨hi', hl⟩⟩
  · obtain ⟨size, -, hs⟩ := hi.exceeds (Nat.lt_of_not_le hl)
    obtain ⟨size', -, hs'⟩ := hi'.exceeds (Nat.lt_of_not_le hl)
    exact .inr ⟨size, size', hs, hs'⟩

end Answers

/-- **The inflate loop is exact, whatever the reader does.** -/
theorem zlibDecompress_exact (z : Flate) (input : Bytes) (max : Nat) :
    (∀ out, zlibDecompress z input max = .ok out ↔
      (z.zlibDecoder input).ending = .ok () ∧ (z.zlibDecoder input).reads.flatten.length ≤ max ∧
        out = (z.zlibDecoder input).reads.flatten) ∧
    ((∃ size, max < size ∧ zlibDecompress z input max = .error (.frameTooLarge size max)) ↔
      ∃ k, max < ((z.zlibDecoder input).reads.take k).flatten.length) ∧
    (∀ size m, zlibDecompress z input max = .error (.frameTooLarge size m) →
      m = max ∧ FirstOver max (runningTotal 0 (z.zlibDecoder input).reads) size) ∧
    (∀ e, zlibDecompress z input max = .error (.compression e) ↔
      (z.zlibDecoder input).ending = .error e ∧
        (z.zlibDecoder input).reads.flatten.length ≤ max) ∧
    (∀ out cs, Inflating max (z.zlibDecoder input) out cs → out.length ≤ max ∧
      out ++ cs.flatten = (z.zlibDecoder input).reads.flatten ∧
      zlibDecompress z input max = inflateLoop max (z.zlibDecoder input).ending cs out) ∧
    (∀ out, zlibDecompress z input max = .ok out → Inflating max (z.zlibDecoder input) out []) ∧
    ∀ (z' : Flate) (input' : Bytes), (z.zlibDecoder input).ending = .ok () →
      (z'.zlibDecoder input').ending = .ok () →
      (z.zlibDecoder input).reads.flatten = (z'.zlibDecoder input').reads.flatten →
      (∃ out, zlibDecompress z input max = .ok out ∧ zlibDecompress z' input' max = .ok out) ∨
        ∃ size size', zlibDecompress z input max = .error (.frameTooLarge size max) ∧
          zlibDecompress z' input' max = .error (.frameTooLarge size' max) := by
  refine ⟨fun out => zlibDecompress_ok_iff, exceeds_limit_iff,
    fun size m => zlibDecompress_frameTooLarge_iff.mp, fun e => zlibDecompress_compression_iff,
    fun out cs h => ⟨h.length_le, h.content, h.answer⟩, fun out h => ?_, ?_⟩
  · exact Inflating.start.finish h
  · intro z' input' h h' hc
    exact same_content h h' hc

/-- The size comes before an error that the reader would have come to. -/
example : inflateLoop 2 (.error "corrupt deflate stream") [[1, 2], [3]] [] =
    .error (.frameTooLarge 3 2) := by decide

end Lumberjack.Wire
