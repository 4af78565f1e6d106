import Mathlib.Logic.Function.Basic
import Lumberjack.Process.Run

/-!
# Stop and wait

Several senders hand items to one receiver. A sender submits an item, the receiver takes
it, later frees it, and the sender has it confirmed; only then does it submit the next.
This is the whole protocol: four counters for each sender, with no wire in between.
-/
namespace Lumberjack.Process

variable {ι β : Type}

@[ext]
structure StopAndWait (ι β : Type) where
  submitted : ι → List β
  taken : ι → Nat
  freed : ι → Nat
  confirmed : ι → Nat

namespace StopAndWait

def init (ι β : Type) : StopAndWait ι β := ⟨fun _ => [], fun _ => 0, fun _ => 0, fun _ => 0⟩

inductive Act (ι β : Type) where
  | submit (c : ι) (b : β)
  | take (c : ι)
  | free (c : ι)
  | confirm (c : ι)

/-- What the receiver has taken from one sender, in order. -/
def received (s : StopAndWait ι β) (c : ι) : List β := (s.submitted c).take (s.taken c)

variable [DecidableEq ι]

def step (s : StopAndWait ι β) : Act ι β → Option (StopAndWait ι β)
  | .submit c b =>
    if s.confirmed c = (s.submitted c).length then
      some { s with submitted := Function.update s.submitted c (s.submitted c ++ [b]) }
    else none
  | .take c =>
    if s.taken c < (s.submitted c).length then
      some { s with taken := Function.update s.taken c (s.taken c + 1) }
    else none
  | .free c =>
    if s.freed c < s.taken c then some { s with freed := Function.update s.freed c (s.freed c + 1) }
    else none
  | .confirm c =>
    if s.confirmed c < s.freed c then
      some { s with confirmed := Function.update s.confirmed c (s.confirmed c + 1) }
    else none

/-- Each sender has at most one item between its submission and its confirmation. -/
def Ordered (s : StopAndWait ι β) : Prop :=
  ∀ c, s.confirmed c ≤ s.freed c ∧ s.freed c ≤ s.taken c ∧ s.taken c ≤ (s.submitted c).length ∧
    (s.submitted c).length ≤ s.confirmed c + 1

variable {s s' : StopAndWait ι β} {a : Act ι β}

theorem step_ordered (h : s.Ordered) (hs : s.step a = some s') : s'.Ordered := by
  intro d
  have hd := h d
  cases a with
  | submit c b =>
    simp only [step] at hs
    split at hs
    · rename_i hg
      cases hs
      by_cases hc : d = c
      · subst hc
        simp only [Function.update_self, List.length_append, List.length_singleton]
        omega
      · simpa only [Function.update_of_ne hc] using hd
    · cases hs
  | take c | free c | confirm c =>
    simp only [step] at hs
    split at hs
    · rename_i hg
      cases hs
      by_cases hc : d = c
      · subst hc
        simp only [Function.update_self]
        omega
      · simpa only [Function.update_of_ne hc] using hd
    · cases hs

theorem run_ordered {ok : StopAndWait ι β → Act ι β → Prop} {as : List (Act ι β)}
    (hrun : Run step ok (init ι β) as s) : s.Ordered := by
  apply hrun.invariant
  · intro c
    simp [init]
  · intro s a s' h _ hs
    exact step_ordered h hs

end StopAndWait
end Lumberjack.Process
