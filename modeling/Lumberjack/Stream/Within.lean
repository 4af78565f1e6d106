import Lumberjack.Stream.Decoder

/-!
# A decoder within another

Two decoders of the same stream that differ only in what the first refuses. As long
as it does not refuse, the first answers as the second does, and so does every loop
that is built on it. Nothing here depends on what the symbols or the items are.
-/
namespace Lumberjack.Stream

variable {α β ε φ : Type}

/-- The first result is the second, or one of the errors it may stop with instead. -/
def UpTo (odd : ε → Prop) (x y : Except ε β) : Prop := x = y ∨ ∃ e, odd e ∧ x = .error e

namespace UpTo

variable {odd : ε → Prop} {x y : Except ε β}

theorem refl (odd : ε → Prop) (x : Except ε β) : UpTo odd x x := .inl rfl

theorem stopped {e : ε} (he : odd e) (y : Except ε β) : UpTo odd (.error e) y := .inr ⟨e, he, rfl⟩

theorem ok {v : β} (h : UpTo odd x y) (hx : x = .ok v) : y = .ok v := by
  rcases h with rfl | ⟨e, -, he⟩
  · exact hx
  · rw [he] at hx
    cases hx

theorem error {e : ε} (h : UpTo odd x y) (hx : x = .error e) : odd e ∨ y = .error e := by
  rcases h with rfl | ⟨e', ho, he⟩
  · exact .inr hx
  · rw [he] at hx
    cases hx
    exact .inl ho

end UpTo

/-- The first decoder answers as the second, or refuses with one of these errors. -/
structure Decoder.Within (odd : ε → Prop) (d d' : Decoder α ε φ) : Prop where
  answer : ∀ b, UpTo odd (d.decode b).1 (d'.decode b).1
  rest : ∀ {b r f}, d.decode b = (.ok (some f), r) → d'.decode b = (.ok (some f), r)
  remaining : d.remaining = d'.remaining

end Lumberjack.Stream
