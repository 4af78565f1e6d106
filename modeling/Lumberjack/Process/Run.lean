import Mathlib.Data.List.Basic

/-!
# Runs of a step function

A system is a function `step` that answers `none` where an action is not
enabled. A run lists its actions, and each of them is admitted by a guard that
may look at the state it is taken in, so that "in every run whose steps all meet
a condition" is a hypothesis about one relation. Interleaving is in the choice of
the actions. Nothing here depends on what the states or the actions are.
-/
namespace Lumberjack.Process

variable {σ τ α β : Type}

/-- Take the actions one after another. -/
def exec (step : σ → α → Option σ) : σ → List α → Option σ
  | s, [] => some s
  | s, a :: as => (step s a).bind fun s' => exec step s' as

/-- `s` is reached from `s₀` by the given actions, each admitted where it is taken. -/
inductive Run (step : σ → α → Option σ) (ok : σ → α → Prop) (s₀ : σ) : List α → σ → Prop
  | refl : Run step ok s₀ [] s₀
  | tail {as : List α} {s s' : σ} {a : α} : Run step ok s₀ as s → ok s a → step s a = some s' →
      Run step ok s₀ (as ++ [a]) s'

/-- The guard that admits every action. -/
def anything : σ → α → Prop := fun _ _ => True

instance (s : σ) (a : α) : Decidable (anything s a) := .isTrue trivial

theorem exec_append (step : σ → α → Option σ) (s : σ) (as bs : List α) :
    exec step s (as ++ bs) = (exec step s as).bind fun s' => exec step s' bs := by
  induction as generalizing s with
  | nil => rfl
  | cons a as ih =>
    simp only [List.cons_append, exec]
    cases step s a with
    | none => rfl
    | some s' => exact ih s'

/-- Two systems that agree where an invariant holds, except at steps of one kind, run
alike up to the first of these. -/
theorem exec_apart {step : σ → α → Option σ} {step' : τ → α → Option τ} {f : σ → τ} {I : σ → Prop}
    {apart : σ → α → Prop}
    (h : ∀ {s a}, I s → apart s a ∨
      (step' (f s) a = (step s a).map f ∧ ∀ s', step s a = some s' → I s'))
    {s : σ} (hs : I s) (as : List α) :
    exec step' (f s) as = (exec step s as).map f ∨
      ∃ bs a cs t, as = bs ++ a :: cs ∧ exec step s bs = some t ∧ exec step' (f s) bs = some (f t) ∧
        I t ∧ apart t a := by
  induction as generalizing s with
  | nil => exact .inl rfl
  | cons a as ih =>
    rcases h (a := a) hs with ha | ⟨he, hi⟩
    · exact .inr ⟨[], a, as, s, rfl, rfl, rfl, hs, ha⟩
    · cases hstep : step s a with
      | none => exact .inl (by simp [exec, he, hstep])
      | some s' =>
        rcases ih (hi s' hstep) with hr | ⟨bs, a', cs, t, rfl, ht, ht', hit, ha⟩
        · exact .inl (by simp [exec, he, hstep, hr])
        · exact .inr ⟨a :: bs, a', cs, t, rfl, by simp [exec, hstep, ht], by simp [exec, he, hstep, ht'],
            hit, ha⟩

namespace Run

variable {step : σ → α → Option σ} {ok ok' : σ → α → Prop} {s₀ s s' : σ} {as bs : List α}

theorem single {a : α} (hok : ok s a) (hs : step s a = some s') : Run step ok s [a] s' :=
  .tail .refl hok hs

theorem trans (h₁ : Run step ok s₀ as s) (h₂ : Run step ok s bs s') :
    Run step ok s₀ (as ++ bs) s' := by
  induction h₂ with
  | refl => rwa [List.append_nil]
  | tail _ hok hs ih =>
    rw [← List.append_assoc]
    exact .tail ih hok hs

theorem mono (hm : ∀ s a, ok s a → ok' s a) (h : Run step ok s₀ as s) : Run step ok' s₀ as s := by
  induction h with
  | refl => exact .refl
  | tail _ hok hs ih => exact .tail ih (hm _ _ hok) hs

/-- What holds at the start and is kept by every admitted step holds throughout. -/
theorem invariant {P : σ → Prop} (h : Run step ok s₀ as s) (hinit : P s₀)
    (hstep : ∀ {s a s'}, P s → ok s a → step s a = some s' → P s') : P s := by
  induction h with
  | refl => exact hinit
  | tail _ hok hs ih => exact hstep ih hok hs

/-- A run takes its actions one after another. -/
theorem exec_eq (h : Run step ok s₀ as s) : exec step s₀ as = some s := by
  induction h with
  | refl => rfl
  | tail _ _ hs ih =>
    rw [exec_append, ih]
    simp [exec, hs]

theorem front (h : Run step ok s₀ as s) (hb : bs <+: as) : ∃ s', Run step ok s₀ bs s' := by
  induction h with
  | refl => exact ⟨s₀, List.prefix_nil.mp hb ▸ .refl⟩
  | tail hr hok hs ih =>
    rcases List.prefix_concat_iff.mp hb with rfl | hb
    · exact ⟨_, .tail hr hok hs⟩
    · exact ih hb

/-- When a guard admits exactly the steps that keep `P`, the runs it admits are the runs
that have `P` in every state they pass. `I` is an invariant of all runs. -/
theorem guarded_iff {P I : σ → Prop} (h : Run step anything s₀ as s) (hI : I s₀)
    (hinv : ∀ {s a s'}, I s → step s a = some s' → I s') (hP : P s₀)
    (hok : ∀ {s a s'}, I s → P s → step s a = some s' → (ok s a ↔ P s')) :
    Run step ok s₀ as s ↔ ∀ bs s', bs <+: as → Run step anything s₀ bs s' → P s' := by
  constructor
  · intro hg bs s' hb hr
    obtain ⟨s₁, hg₁⟩ := hg.front hb
    have heq : s₁ = s' := Option.some.inj (hg₁.exec_eq.symm.trans hr.exec_eq)
    have hboth : I s₁ ∧ P s₁ := hg₁.invariant (P := fun s => I s ∧ P s) ⟨hI, hP⟩
      (fun hp hg hs => ⟨hinv hp.1 hs, (hok hp.1 hp.2 hs).mp hg⟩)
    exact heq ▸ hboth.2
  · intro hall
    induction h with
    | refl => exact .refl
    | @tail as s s' a hr _ hs ih =>
      have hs' := hall _ _ List.prefix_rfl (.tail hr trivial hs)
      have hp := hall as s (List.prefix_append as [a]) hr
      have hi : I s := hr.invariant hI (fun hi _ hs => hinv hi hs)
      refine .tail (ih fun bs t hb => hall bs t (hb.trans (List.prefix_append as [a]))) ?_ hs
      exact (hok hi hp hs).mpr hs'

/-- A run of the function with its guard built in. -/
theorem of_exec [∀ s a, Decidable (ok s a)]
    (h : exec (fun s a => if ok s a then step s a else none) s as = some s') :
    Run step ok s as s' := by
  induction as generalizing s with
  | nil =>
    cases h
    exact .refl
  | cons a as ih =>
    simp only [exec] at h
    by_cases hok : ok s a
    · rw [if_pos hok] at h
      cases hs : step s a with
      | none =>
        rw [hs] at h
        cases h
      | some s₁ =>
        rw [hs] at h
        exact (single hok hs).trans (ih h)
    · rw [if_neg hok] at h
      cases h

/-- The same, for a run of which only `f` of the last state is computed. -/
theorem exists_of_exec [∀ s a, Decidable (ok s a)] {f : σ → τ} {x : τ}
    (h : (exec (fun s a => if ok s a then step s a else none) s as).map f = some x) :
    ∃ s', Run step ok s as s' ∧ f s' = x := by
  obtain ⟨s', hs, hf⟩ := Option.map_eq_some_iff.mp h
  exact ⟨s', of_exec hs, hf⟩

/-- A run and one more step, compared through `f`. -/
theorem exists_step_of_exec [∀ s a, Decidable (ok s a)] {a : α} {f : σ → σ → τ} {x : τ}
    (h : ((exec (fun s a => if ok s a then step s a else none) s as).bind
      fun s₁ => (step s₁ a).map (f s₁)) = some x) :
    ∃ s₁ s₂, Run step ok s as s₁ ∧ step s₁ a = some s₂ ∧ f s₁ s₂ = x := by
  obtain ⟨s₁, hs, hf⟩ := Option.bind_eq_some_iff.mp h
  obtain ⟨s₂, hs₂, hx⟩ := Option.map_eq_some_iff.mp hf
  exact ⟨s₁, s₂, of_exec hs, hs₂, hx⟩

/-- What holds of every action of a run may be added to its guard. -/
theorem restrict {Q : α → Prop} (h : Run step ok s₀ as s) (hq : ∀ a ∈ as, Q a) :
    Run step (fun s a => ok s a ∧ Q a) s₀ as s := by
  induction h with
  | refl => exact .refl
  | tail _ hok hs ih =>
    exact .tail (ih fun a ha => hq a (List.mem_append_left _ ha)) ⟨hok, hq _ (by simp)⟩ hs

/-- Every step of a run is taken in a state that was reached. -/
theorem reached (h : Run step ok s₀ as s) :
    Run step (fun t a => ok t a ∧ ∃ bs, Run step ok s₀ bs t) s₀ as s := by
  induction h with
  | refl => exact .refl
  | tail hr hok hs ih => exact .tail ih ⟨hok, _, hr⟩ hs

/-- A system seen through `f`: each of its steps is a step of the other system
or leaves what is seen unchanged. -/
theorem simulate {step' : τ → β → Option τ} {okB : τ → β → Prop} {f : σ → τ}
    (h : Run step ok s₀ as s)
    (hstep : ∀ {s a s'}, ok s a → step s a = some s' →
      f s' = f s ∨ ∃ b, okB (f s) b ∧ step' (f s) b = some (f s')) :
    ∃ bs, Run step' okB (f s₀) bs (f s) := by
  induction h with
  | refl => exact ⟨[], .refl⟩
  | tail _ hok hs ih =>
    obtain ⟨bs, hb⟩ := ih
    rcases hstep hok hs with he | ⟨b, hokb, hsb⟩
    · exact ⟨bs, he ▸ hb⟩
    · exact ⟨bs ++ [b], .tail hb hokb hsb⟩

/-- A component is a function of the actions that concern it: `own` selects them,
and every other action leaves the component as it is. `P` is an invariant of the
whole system. -/
theorem project {step' : τ → β → Option τ} {f : σ → τ} {own : α → Option β} {P : σ → Prop}
    (h : Run step ok s₀ as s) (hinit : P s₀)
    (hinv : ∀ {s a s'}, P s → ok s a → step s a = some s' → P s')
    (hown : ∀ {s a s'}, P s → ok s a → step s a = some s' →
      match own a with
      | some b => step' (f s) b = some (f s')
      | none => f s' = f s) :
    exec step' (f s₀) (as.filterMap own) = some (f s) := by
  induction h with
  | refl => rfl
  | @tail as s s' a hr hok hs ih =>
    have hp : P s := hr.invariant hinit hinv
    have ha := hown hp hok hs
    rw [List.filterMap_append, exec_append, ih]
    cases hb : own a with
    | none =>
      simp only [hb] at ha
      simp [List.filterMap, hb, exec, ha]
    | some b =>
      simp only [hb] at ha
      simp [List.filterMap, hb, exec, ha]

/-- The same, where the component has a guard of its own: its share of the run is a run. -/
theorem share {step' : τ → β → Option τ} {okB : τ → β → Prop} {f : σ → τ} {own : α → Option β}
    (h : Run step ok s₀ as s)
    (hown : ∀ {s a s'}, ok s a → step s a = some s' →
      match own a with
      | some b => okB (f s) b ∧ step' (f s) b = some (f s')
      | none => f s' = f s) :
    Run step' okB (f s₀) (as.filterMap own) (f s) := by
  induction h with
  | refl => exact .refl
  | @tail as s s' a _ hok hs ih =>
    have ha := hown hok hs
    rw [List.filterMap_append]
    cases hb : own a with
    | none =>
      simp only [hb] at ha
      simpa [List.filterMap, hb, ha] using ih
    | some b =>
      simp only [hb] at ha
      simpa [List.filterMap, hb] using Run.tail ih ha.1 ha.2

/-- A goal is reached when, from every state that keeps `P` and is not there yet,
some admitted step keeps `P` and lowers a measure. -/
theorem reaches {P Goal : σ → Prop} (μ : σ → Nat)
    (hstep : ∀ s, P s → Goal s ∨ ∃ a s', ok s a ∧ step s a = some s' ∧ P s' ∧ μ s' < μ s) (hs : P s) :
    ∃ bs s', Run step ok s bs s' ∧ P s' ∧ Goal s' := by
  induction hn : μ s using Nat.strongRecOn generalizing s with
  | ind n ih =>
    rcases hstep s hs with hg | ⟨a, s₁, hok, ha, hp, hlt⟩
    · exact ⟨[], s, .refl, hs, hg⟩
    · obtain ⟨bs, s₂, hr, hp₂, hg⟩ := ih (μ s₁) (hn ▸ hlt) hp rfl
      exact ⟨[a] ++ bs, s₂, (single hok ha).trans hr, hp₂, hg⟩

end Run
end Lumberjack.Process
