import Lumberjack.Stream.BigEndian

/-!
# Operations that can panic

Indexing, slicing, cursor moves, machine arithmetic and growing a buffer, each
stopping the thread outside its domain, for a target with 64-bit `usize`. A
computation over them is compared with a total one: `Yields` says that it does
not stop and returns the same value, except that a buffer or a vector may reach
its largest size where that is not excluded.
-/
namespace Lumberjack.Stream

/-- What stopped the thread. `capacity` is a buffer or a vector that would grow
beyond `isize::MAX` bytes, `layout` a request for more than that at once. -/
inductive Panic where
  | index
  | slice
  | tryInto
  | advance
  | getU32
  | splitTo
  | overflow
  | layout
  | capacity
  deriving DecidableEq

abbrev Checked (α : Type) := Except Panic α

def isizeMax : Nat := 2^63 - 1

namespace Checked

/-- `src[i]` -/
def index (src : Bytes) (i : Nat) : Checked UInt8 :=
  match src[i]? with
  | some x => .ok x
  | none => .error .index

/-- `src[lo..hi]` -/
def slice (src : Bytes) (lo hi : Nat) : Checked Bytes :=
  if lo ≤ hi ∧ hi ≤ src.length then .ok ((src.drop lo).take (hi - lo)) else .error .slice

/-- `src.try_into().unwrap()` for an array of four bytes. -/
def tryIntoArray (src : Bytes) : Checked Bytes :=
  if src.length = 4 then .ok src else .error .tryInto

/-- `src.advance(n)` -/
def advance (src : Bytes) (n : Nat) : Checked Bytes :=
  if n ≤ src.length then .ok (src.drop n) else .error .advance

/-- `src.get_u32()` -/
def getU32 (src : Bytes) : Checked (UInt32 × Bytes) :=
  if 4 ≤ src.length then .ok (Stream.getU32 src) else .error .getU32

/-- `src.split_to(n)`, and what it leaves. -/
def splitTo (src : Bytes) (n : Nat) : Checked (Bytes × Bytes) :=
  if n ≤ src.length then .ok (src.take n, src.drop n) else .error .splitTo

/-- `a + b` on `usize`. -/
def addUsize (a b : Nat) : Checked Nat := if a + b < 2^64 then .ok (a + b) else .error .overflow

/-- `a + b` on `u32`. -/
def addU32 (a b : UInt32) : Checked UInt32 :=
  if a.toNat + b.toNat < 2^32 then .ok (a + b) else .error .overflow

/-- `a + b` on `u16`. -/
def addU16 (a b : UInt16) : Checked UInt16 :=
  if a.toNat + b.toNat < 2^16 then .ok (a + b) else .error .overflow

/-- `a - b` on `u16`. -/
def subU16 (a b : UInt16) : Checked UInt16 := if b ≤ a then .ok (a - b) else .error .overflow

/-- Append bytes to a buffer. -/
def extendFromSlice (buf bytes : Bytes) : Checked Bytes :=
  if (buf ++ bytes).length ≤ isizeMax then .ok (buf ++ bytes) else .error .capacity

/-- `Vec::with_capacity(n)` for elements of this size. -/
def withCapacity (size n : Nat) : Checked Nat :=
  if n * size ≤ isizeMax then .ok n else .error .layout

/-- `v.push(x)` for elements of this size. -/
def push {α : Type} (size : Nat) (v : List α) (x : α) : Checked (List α) :=
  if (v.length + 1) * size ≤ isizeMax then .ok (v ++ [x]) else .error .capacity

section Domain

variable {src : Bytes} {n : Nat}

theorem index_eq {i : Nat} (h : i < src.length) : index src i = .ok src[i] := by
  simp [index, h]

theorem slice_eq {lo hi : Nat} (hlo : lo ≤ hi) (hhi : hi ≤ src.length) :
    slice src lo hi = .ok ((src.drop lo).take (hi - lo)) := if_pos ⟨hlo, hhi⟩

theorem tryIntoArray_eq (h : src.length = 4) : tryIntoArray src = .ok src := if_pos h

theorem advance_eq (h : n ≤ src.length) : advance src n = .ok (src.drop n) := if_pos h

theorem getU32_eq (h : 4 ≤ src.length) : getU32 src = .ok (Stream.getU32 src) := if_pos h

theorem splitTo_eq (h : n ≤ src.length) : splitTo src n = .ok (src.take n, src.drop n) := if_pos h

theorem addUsize_eq {a b : Nat} (h : a + b < 2^64) : addUsize a b = .ok (a + b) := if_pos h

theorem addU32_eq {a b : UInt32} (h : a.toNat + b.toNat < 2^32) : addU32 a b = .ok (a + b) := if_pos h

theorem addU16_eq {a b : UInt16} (h : a.toNat + b.toNat < 2^16) : addU16 a b = .ok (a + b) := if_pos h

theorem subU16_eq {a b : UInt16} (h : b ≤ a) : subU16 a b = .ok (a - b) := if_pos h

theorem withCapacity_eq {size : Nat} (h : n * size ≤ isizeMax) : withCapacity size n = .ok n := if_pos h

theorem withCapacity_ok {size m : Nat} (h : withCapacity size n = .ok m) : m = n := by
  unfold withCapacity at h
  split at h
  · cases h
    rfl
  · cases h

theorem extend_length {buf bytes r : Bytes} (h : extendFromSlice buf bytes = .ok r) :
    r.length ≤ isizeMax := by
  unfold extendFromSlice at h
  split at h
  · cases h
    assumption
  · cases h

theorem push_eq {α : Type} {size : Nat} {v : List α} (h : (v.length + 1) * size ≤ isizeMax) (x : α) :
    push size v x = .ok (v ++ [x]) := if_pos h

end Domain

section Yields

variable {α β : Type} {fits : Prop} {x : Checked α} {v : α}

/-- The computation returns `v`, or a buffer reached its largest size, which it does not
do when everything `fits`. -/
def Yields (fits : Prop) (x : Checked α) (v : α) : Prop :=
  x = .ok v ∨ (¬ fits ∧ x = .error .capacity)

@[simp] theorem ok_bind (v : α) (f : α → Checked β) : ((.ok v : Checked α) >>= f) = f v := rfl

theorem Yields.ok (v : α) : Yields fits (.ok v) v := .inl rfl

theorem Yields.bind {f : α → Checked β} {w : β} (hx : Yields fits x v)
    (hf : x = .ok v → Yields fits (f v) w) : Yields fits (x >>= f) w := by
  rcases hx with rfl | ⟨hn, rfl⟩
  · exact hf rfl
  · exact .inr ⟨hn, rfl⟩

/-- A test that both computations make. -/
theorem Yields.ite {c : Prop} [Decidable c] {y : Checked α} {w : α} (ht : c → Yields fits x v)
    (he : ¬ c → Yields fits y w) : Yields fits (if c then x else y) (if c then v else w) := by
  by_cases h : c
  · rw [if_pos h, if_pos h]
    exact ht h
  · rw [if_neg h, if_neg h]
    exact he h

theorem Yields.eq_of_ok {w : α} (hx : Yields fits x v) (h : x = .ok w) : w = v := by
  rcases hx with hx | ⟨-, hx⟩ <;> (rw [hx] at h; cases h)
  rfl

theorem Yields.eq_of_error {p : Panic} (hx : Yields fits x v) (h : x = .error p) : p = .capacity := by
  rcases hx with hx | ⟨-, hx⟩ <;> (rw [hx] at h; cases h)
  rfl

theorem Yields.eq_of_fits (hx : Yields fits x v) (h : fits) : x = .ok v :=
  hx.resolve_right fun hn => hn.1 h

theorem yields_extend {buf bytes : Bytes} (h : fits → (buf ++ bytes).length ≤ isizeMax) :
    Yields fits (extendFromSlice buf bytes) (buf ++ bytes) := by
  unfold extendFromSlice
  split
  · exact .ok _
  · rename_i hlt
    exact .inr ⟨fun hf => hlt (h hf), rfl⟩

end Yields
end Checked
end Lumberjack.Stream
