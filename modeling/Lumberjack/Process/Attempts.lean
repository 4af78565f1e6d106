import Mathlib.Data.List.Rotate

/-!
# Trying candidates in turn

Candidates are tried one after another until one of them gives an answer, and the
ones tried are kept. A modular counter that starts at an offset visits the numbers
below its modulus in a rotation, so each of them once. Nothing here depends on what
the candidates or the answers are.
-/
namespace Lumberjack.Process

variable {α β : Type}

/-- Try the candidates until one answers: the candidates tried, and the answer. -/
def tryEach (f : α → Option β) : List α → List α × Option β
  | [] => ([], none)
  | x :: xs =>
    match f x with
    | some b => ([x], some b)
    | none => (x :: (tryEach f xs).1, (tryEach f xs).2)

/-- Either nobody answers and all are tried, or the first one that answers is the last
one tried. -/
theorem tryEach_cases (f : α → Option β) (xs : List α) :
    (tryEach f xs = (xs, none) ∧ ∀ x ∈ xs, f x = none) ∨
      ∃ before x rest b, xs = before ++ x :: rest ∧ (∀ y ∈ before, f y = none) ∧ f x = some b ∧
        tryEach f xs = (before ++ [x], some b) := by
  induction xs with
  | nil => exact .inl ⟨rfl, by simp⟩
  | cons x xs ih =>
    cases hx : f x with
    | some b => exact .inr ⟨[], x, xs, b, rfl, by simp, hx, by simp [tryEach, hx]⟩
    | none =>
      rcases ih with ⟨htry, hall⟩ | ⟨before, y, rest, b, rfl, hbefore, hy, htry⟩
      · exact .inl ⟨by simp [tryEach, hx, htry], List.forall_mem_cons.mpr ⟨hx, hall⟩⟩
      · exact .inr ⟨x :: before, y, rest, b, rfl, List.forall_mem_cons.mpr ⟨hx, hbefore⟩, hy,
          by simp [tryEach, hx, htry]⟩

/-- The numbers a counter modulo `n` visits from an offset on, shifted by `start`. -/
theorem map_counter_eq_rotate (start n offset : Nat) :
    (List.range n).map (fun i => start + (offset + i) % n) = (List.range' start n).rotate offset := by
  apply List.ext_getElem
  · simp
  · intro i _ _
    simp [List.getElem_rotate, Nat.add_comm]

end Lumberjack.Process
