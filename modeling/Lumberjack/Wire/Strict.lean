import Lumberjack.Stream.Checked
import Lumberjack.Wire.Frame

/-!
# The decoder with every operation that can panic

`decode_with_limit` and `zlib_decompress` once more, statement by statement, with
the operations that stop the thread outside their domain. Every one of them is
guarded: on any buffer and any limit the result is that of the total decoder,
unless the inflated bytes outgrow the largest vector.
-/
namespace Lumberjack.Wire

open Lumberjack.Stream

namespace Strict

/-- The loop of `zlib_decompress`, with the array it reads into and its output. -/
def inflateLoop (max : Nat) (ending : Except String Unit) :
    List Bytes → Bytes → Bytes → Checked (Result Bytes)
  | [], _, out =>
    match ending with
    | .ok () => return .ok out
    | .error e => return .error (.compression e)
  | c :: cs, chunk, out => do
    let n := c.length
    -- `dec.read(&mut chunk)` overwrites the first `n` bytes
    let chunk := c ++ chunk.drop n
    let total ← Checked.addUsize out.length n
    if total > max then
      let size ← Checked.addUsize out.length n
      return .error (.frameTooLarge size max)
    else
      let bytes ← Checked.slice chunk 0 n
      let out ← Checked.extendFromSlice out bytes
      inflateLoop max ending cs chunk out

def zlibDecompress (z : Flate) (input : Bytes) (max : Nat) : Checked (Result Bytes) :=
  inflateLoop max (z.zlibDecoder input).ending (z.zlibDecoder input).reads (List.replicate 8192 0) []

/-- `u32::from_be_bytes(src[lo..hi].try_into().unwrap()) as usize` -/
def lengthField (src : Bytes) (lo hi : Nat) : Checked Nat := do
  let bytes ← Checked.slice src lo hi
  let word ← Checked.tryIntoArray bytes
  return (u32FromBeBytes word).toNat

/-- `Frame::decode_with_limit` -/
def decodeWithLimit (z : Flate) (src : Bytes) (maxFrameSize : Nat) :
    Checked (Result (Option Frame) × Bytes) := do
  if src.length < 2 then return (.ok none, src)
  else
    let version ← Checked.index src 0
    if version ≠ protocolVersion then
      return (.error (.invalidFrame "unsupported protocol version"), src)
    else
      let ty ← Checked.index src 1
      if ty = typeWindow then
        if src.length < 2 + 4 then return (.ok none, src)
        else
          let src ← Checked.advance src 2
          let (n, src) ← Checked.getU32 src
          return (.ok (some (.window n)), src)
      else if ty = typeJson then
        if src.length < 2 + 4 + 4 then return (.ok none, src)
        else
          let len ← lengthField src 6 10
          if len > maxFrameSize then return (.error (.frameTooLarge len maxFrameSize), src)
          else
            let whole ← Checked.addUsize (2 + 4 + 4) len
            if src.length < whole then return (.ok none, src)
            else
              let src ← Checked.advance src 2
              let (seq, src) ← Checked.getU32 src
              let (_len, src) ← Checked.getU32 src
              let (data, src) ← Checked.splitTo src len
              return (.ok (some (.json seq data)), src)
      else if ty = typeAck then
        if src.length < 2 + 4 then return (.ok none, src)
        else
          let src ← Checked.advance src 2
          let (seq, src) ← Checked.getU32 src
          return (.ok (some (.ack seq)), src)
      else if ty = typeCompressed then
        if src.length < 2 + 4 then return (.ok none, src)
        else
          let len ← lengthField src 2 6
          if len > maxFrameSize then return (.error (.frameTooLarge len maxFrameSize), src)
          else
            let whole ← Checked.addUsize (2 + 4) len
            if src.length < whole then return (.ok none, src)
            else
              let src ← Checked.advance src (2 + 4)
              let (payload, src) ← Checked.splitTo src len
              match ← zlibDecompress z payload maxFrameSize with
              | .ok inflated => return (.ok (some (.compressed inflated)), src)
              | .error e => return (.error e, src)
      else return (.error (.invalidFrame "unknown frame type"), src)

/-- Inflated bytes stay within the largest vector: the limit does, or what the images
inflate to. -/
def Inflatable (z : Flate) (max : Nat) : Prop :=
  max ≤ isizeMax ∨ ∀ image, (z.zlibDecoder image).reads.flatten.length ≤ isizeMax

/-- The array has 8192 bytes throughout, and no read is longer. -/
theorem inflateLoop_yields {fits : Prop} {max : Nat} {ending : Except String Unit}
    {cs : List Bytes} {chunk out : Bytes} (hcs : ∀ c ∈ cs, c.length ≤ 8192)
    (hchunk : chunk.length = 8192) (hout : out.length ≤ isizeMax)
    (hfits : fits → max ≤ isizeMax ∨ (out ++ cs.flatten).length ≤ isizeMax) :
    Checked.Yields fits (inflateLoop max ending cs chunk out) (Wire.inflateLoop max ending cs out) := by
  induction cs generalizing chunk out with
  | nil =>
    cases ending with
    | ok u => exact .ok _
    | error e => exact .ok _
  | cons c cs ih =>
    have hc := hcs c List.mem_cons_self
    have hadd : Checked.addUsize out.length c.length = .ok (out.length + c.length) := by
      apply Checked.addUsize_eq
      unfold isizeMax at hout
      omega
    have hlen : (c ++ chunk.drop c.length).length = 8192 := by
      rw [List.length_append, List.length_drop]
      omega
    have hslice : Checked.slice (c ++ chunk.drop c.length) 0 c.length = .ok c := by
      rw [Checked.slice_eq (Nat.zero_le _) (by omega), List.drop_zero, Nat.sub_zero, List.take_left]
    simp only [inflateLoop, Wire.inflateLoop, hadd, hslice, Checked.ok_bind]
    refine .ite (fun _ => .ok _) fun hle => ?_
    have hext : fits → (out ++ c).length ≤ isizeMax := by
      intro hf
      rw [List.length_append]
      rcases hfits hf with hm | hl
      · omega
      · simp only [List.flatten_cons, List.length_append] at hl
        omega
    refine .bind (Checked.yields_extend hext) fun hx => ?_
    refine ih (fun c hc => hcs c (List.mem_cons_of_mem _ hc)) hlen (Checked.extend_length hx) ?_
    intro hf
    rw [List.append_assoc, ← List.flatten_cons]
    exact hfits hf

theorem zlibDecompress_yields {fits : Prop} {z : Flate} {max : Nat} (hfits : fits → Inflatable z max)
    (input : Bytes) :
    Checked.Yields fits (zlibDecompress z input max) (Wire.zlibDecompress z input max) := by
  refine inflateLoop_yields (fun c hc => ((z.zlibDecoder input).sized c hc).2) List.length_replicate
    (Nat.zero_le _) fun hf => ?_
  exact (hfits hf).imp_right fun h => h input

theorem lengthField_eq {src : Bytes} {lo hi : Nat} (hlo : hi = lo + 4) (hhi : hi ≤ src.length) :
    lengthField src lo hi = .ok (u32FromBeBytes (slice src lo hi)).toNat := by
  have hs : Checked.slice src lo hi = .ok (slice src lo hi) := Checked.slice_eq (by omega) hhi
  have hl : (slice src lo hi).length = 4 := by
    simp only [slice, List.length_take, List.length_drop]
    omega
  simp only [lengthField, hs, Checked.ok_bind, Checked.tryIntoArray_eq hl]
  rfl

/-- The branch of a frame that is one word. -/
theorem word_yields {fits : Prop} (src : Bytes) (mk : UInt32 → Frame) :
    Checked.Yields fits
      (if src.length < 2 + 4 then return (.ok none, src)
      else do
        let src ← Checked.advance src 2
        let (n, src) ← Checked.getU32 src
        return (.ok (some (mk n)), src))
      (if src.length < 2 + 4 then (.ok none, src)
      else
        let (n, src) := getU32 (src.drop 2)
        (.ok (some (mk n)), src) : Result (Option Frame) × Bytes) := by
  refine .ite (fun _ => .ok _) fun h => ?_
  have hg : 4 ≤ (src.drop 2).length := by
    rw [List.length_drop]
    omega
  rw [Checked.advance_eq (by omega), Checked.ok_bind, Checked.getU32_eq hg]
  exact .ok _

/-- Every partial operation of the decoder is guarded. -/
theorem decode_yields {fits : Prop} {z : Flate} {max : Nat} (hfits : fits → Inflatable z max)
    (src : Bytes) :
    Checked.Yields fits (decodeWithLimit z src max) (Wire.decodeWithLimit z src max) := by
  unfold decodeWithLimit Wire.decodeWithLimit
  by_cases h2 : src.length < 2
  · rw [if_pos h2, dif_pos h2]
    exact .ok _
  have h0 := Checked.index_eq (show 0 < src.length by omega)
  have h1 := Checked.index_eq (show 1 < src.length by omega)
  rw [if_neg h2, dif_neg h2]
  simp only [h0, h1, Checked.ok_bind]
  refine .ite (fun _ => .ok _) fun _ => ?_
  refine .ite (fun _ => word_yields src Frame.window) fun _ => ?_
  refine .ite (fun _ => ?_) fun _ => ?_
  · -- an event frame: the length field, then the two words and the payload it announces
    refine .ite (fun _ => .ok _) fun h10 => ?_
    rw [lengthField_eq rfl (by omega), Checked.ok_bind]
    have hlen := (u32FromBeBytes (slice src 6 10)).toNat_lt
    generalize (u32FromBeBytes (slice src 6 10)).toNat = len at hlen ⊢
    refine .ite (fun _ => .ok _) fun _ => ?_
    rw [Checked.addUsize_eq (by omega), Checked.ok_bind]
    refine .ite (fun _ => .ok _) fun hs => ?_
    have hseq : 4 ≤ (src.drop 2).length := by
      rw [List.length_drop]
      omega
    have hlast : 4 ≤ (getU32 (src.drop 2)).2.length := by
      simp only [getU32, List.length_drop]
      omega
    have hdata : len ≤ (getU32 (getU32 (src.drop 2)).2).2.length := by
      simp only [getU32, List.length_drop]
      omega
    rw [Checked.advance_eq (by omega), Checked.ok_bind, Checked.getU32_eq hseq, Checked.ok_bind]
    simp only [Checked.getU32_eq hlast, Checked.splitTo_eq hdata, Checked.ok_bind]
    exact .ok _
  refine .ite (fun _ => word_yields src Frame.ack) fun _ => ?_
  refine .ite (fun _ => ?_) fun _ => .ok _
  · -- a compressed frame: the length field, then the image it announces
    refine .ite (fun _ => .ok _) fun h6 => ?_
    rw [lengthField_eq rfl (by omega), Checked.ok_bind]
    have hlen := (u32FromBeBytes (slice src 2 6)).toNat_lt
    generalize (u32FromBeBytes (slice src 2 6)).toNat = len at hlen ⊢
    refine .ite (fun _ => .ok _) fun _ => ?_
    rw [Checked.addUsize_eq (by omega), Checked.ok_bind]
    refine .ite (fun _ => .ok _) fun hs => ?_
    have hpayload : len ≤ (src.drop (2 + 4)).length := by
      rw [List.length_drop]
      omega
    rw [Checked.advance_eq (by omega), Checked.ok_bind, Checked.splitTo_eq hpayload, Checked.ok_bind]
    refine .bind (zlibDecompress_yields hfits _) fun _ => ?_
    cases Wire.zlibDecompress z ((src.drop (2 + 4)).take len) max with
    | ok inflated => exact .ok _
    | error e => exact .ok _

end Strict
end Lumberjack.Wire
