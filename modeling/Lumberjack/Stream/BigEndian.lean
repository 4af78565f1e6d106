import Mathlib.Algebra.Group.Nat.Defs
import Mathlib.Data.List.Basic

/-!
# Big-endian 32-bit words

`putU32` appends four bytes, most significant first; `getU32` reads them back
and advances. Both directions are exact: four bytes are one word and no other.
-/
namespace Lumberjack.Stream

abbrev Bytes := List UInt8

def putU32 (n : UInt32) : Bytes :=
  [.ofNat (n.toNat / 2^24), .ofNat (n.toNat / 2^16), .ofNat (n.toNat / 2^8), .ofNat n.toNat]

def u32FromBeBytes : Bytes → UInt32
  | a :: b :: c :: d :: _ =>
    .ofNat (a.toNat * 2^24 + b.toNat * 2^16 + c.toNat * 2^8 + d.toNat)
  | _ => 0

/-- Read a word off the front of a buffer. -/
def getU32 (src : Bytes) : UInt32 × Bytes := (u32FromBeBytes (src.take 4), src.drop 4)

/-- Narrowing to a word is exact below `2^32` only. -/
theorem ofNat_exact_iff {n : Nat} : (UInt32.ofNat n).toNat = n ↔ n < 2^32 := by
  rw [UInt32.toNat_ofNat']
  omega

@[simp] theorem putU32_length (n : UInt32) : (putU32 n).length = 4 := rfl

theorem u32FromBeBytes_putU32 (n : UInt32) (t : Bytes) : u32FromBeBytes (putU32 n ++ t) = n := by
  have hn := n.toNat_lt
  apply UInt32.toNat_inj.mp
  simp only [putU32, u32FromBeBytes, List.cons_append, UInt8.toNat_ofNat', UInt32.toNat_ofNat']
  omega

@[simp] theorem u32FromBeBytes_putU32_nil (n : UInt32) : u32FromBeBytes (putU32 n) = n := by
  simpa using u32FromBeBytes_putU32 n []

theorem getU32_putU32 (n : UInt32) (t : Bytes) : getU32 (putU32 n ++ t) = (n, t) := by
  have h4 : (putU32 n).length = 4 := rfl
  simp only [getU32, ← h4, List.take_left, List.drop_left, u32FromBeBytes_putU32_nil]

/-- Four bytes are the encoding of the word they are read as. -/
theorem putU32_u32FromBeBytes (a b c d : UInt8) (t : Bytes) :
    putU32 (u32FromBeBytes (a :: b :: c :: d :: t)) = [a, b, c, d] := by
  have ha := a.toNat_lt
  have hb := b.toNat_lt
  have hc := c.toNat_lt
  have hd := d.toNat_lt
  have hw : (u32FromBeBytes (a :: b :: c :: d :: t)).toNat =
      a.toNat * 2^24 + b.toNat * 2^16 + c.toNat * 2^8 + d.toNat := by
    simp only [u32FromBeBytes, UInt32.toNat_ofNat']
    omega
  simp only [putU32, hw, List.cons.injEq, and_true]
  refine ⟨?_, ?_, ?_, ?_⟩ <;>
    (apply UInt8.toNat_inj.mp; rw [UInt8.toNat_ofNat']; omega)

/-- A buffer of at least four bytes starts with the encoding of its first word. -/
theorem putU32_getU32 (src : Bytes) (h : 4 ≤ src.length) :
    src = putU32 (getU32 src).1 ++ (getU32 src).2 := by
  match src, h with
  | a :: b :: c :: d :: t, _ =>
    simp [getU32, putU32_u32FromBeBytes]

end Lumberjack.Stream
