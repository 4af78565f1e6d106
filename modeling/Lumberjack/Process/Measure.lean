import Lumberjack.Process.Run

/-!
# Measures of a run

A system of several parties is measured by the sum of what each of them has left.
A step of one party changes one summand. What the parties own together is made of
what each of them owns. When every step lowers the measure, the
measure bounds the length of every run, and a run that cannot be continued has
reached what a state with no step left must be.
-/
namespace Lumberjack.Process

variable {ι σ α : Type}

/-- The sum of a weight over the parties of a list. -/
def tally (w : ι → Nat) : List ι → Nat
  | [] => 0
  | c :: cs => w c + tally w cs

theorem tally_concat (w : ι → Nat) (cs : List ι) (c : ι) :
    tally w (cs ++ [c]) = tally w cs + w c := by
  induction cs with
  | nil => simp [tally]
  | cons d cs ih =>
    simp only [List.cons_append, tally, ih]
    omega

theorem tally_congr {w w' : ι → Nat} {cs : List ι} (h : ∀ c ∈ cs, w c = w' c) :
    tally w cs = tally w' cs := by
  induction cs with
  | nil => rfl
  | cons d cs ih =>
    have hd := h d List.mem_cons_self
    have hcs := ih (fun c hc => h c (List.mem_cons_of_mem d hc))
    simp only [tally, hd, hcs]

/-- One party moves: the sum changes by the change of its weight. -/
theorem tally_move {w w' : ι → Nat} {cs : List ι} {c : ι} (hn : cs.Nodup) (hc : c ∈ cs)
    (h : ∀ d, d ≠ c → w' d = w d) : tally w' cs + w c = tally w cs + w' c := by
  induction cs with
  | nil => cases hc
  | cons d cs ih =>
    obtain ⟨hd, hn⟩ := List.nodup_cons.mp hn
    simp only [tally]
    rcases List.mem_cons.mp hc with rfl | hc
    · have hcs : tally w' cs = tally w cs := by
        apply tally_congr
        intro e he
        apply h e
        intro hec
        rw [hec] at he
        exact hd he
      omega
    · have hne : d ≠ c := by
        intro hdc
        rw [hdc] at hd
        exact hd hc
      have hmove := ih hn hc
      have hkeep := h d hne
      omega

theorem tally_zero (cs : List ι) : tally (fun _ => 0) cs = 0 := by
  induction cs with
  | nil => rfl
  | cons c cs ih => rw [tally, ih]

/-- Counting is a sum of zeros and ones. -/
theorem countP_eq_tally (p : ι → Bool) (cs : List ι) :
    cs.countP p = tally (fun c => (p c).toNat) cs := by
  induction cs with
  | nil => rfl
  | cons d cs ih =>
    rw [List.countP_cons, ih, tally]
    cases p d with
    | false => simp
    | true => simp [Nat.add_comm]

section Owners

variable {β : Type} [DecidableEq ι]

/-- A list is made of the parts that belong to each owner. -/
theorem perm_flatMap_owner (key : β → Option ι) {cs : List ι} {bs : List β} (hn : cs.Nodup)
    (hkey : ∀ b ∈ bs, ∃ c ∈ cs, key b = some c) :
    bs.Perm (cs.flatMap fun c => bs.filter fun b => key b = some c) := by
  induction cs generalizing bs with
  | nil =>
    cases bs with
    | nil => exact .refl _
    | cons b bs =>
      obtain ⟨c, hc, -⟩ := hkey b List.mem_cons_self
      cases hc
  | cons c cs ih =>
    obtain ⟨hc, hn⟩ := List.nodup_cons.mp hn
    rw [List.flatMap_cons]
    refine (List.filter_append_perm (fun b => key b = some c) bs).symm.trans (.append (.refl _) ?_)
    have hrest : ∀ b ∈ bs.filter (fun b => !decide (key b = some c)), ∃ d ∈ cs, key b = some d := by
      intro b hb
      obtain ⟨hb, hne⟩ := List.mem_filter.mp hb
      obtain ⟨d, hd, hk⟩ := hkey b hb
      rcases List.mem_cons.mp hd with rfl | hd
      · simp [hk] at hne
      · exact ⟨d, hd, hk⟩
    refine (ih hn hrest).trans (.of_eq ?_)
    apply List.flatMap_congr
    intro d hd
    rw [List.filter_filter]
    apply List.filter_congr
    intro b _
    have hdc : d ≠ c := by
      intro hdc
      rw [hdc] at hd
      exact hc hd
    by_cases hk : key b = some d
    · simp [hk, hdc]
    · simp [hk]

omit [DecidableEq ι] in
/-- Parties that own at most one thing each. -/
theorem flatMap_length_le {f : ι → List β} {cs : List ι} (h : ∀ c, (f c).length ≤ 1) :
    (cs.flatMap f).length ≤ cs.length := by
  induction cs with
  | nil => exact Nat.le_refl _
  | cons c cs ih =>
    have hc := h c
    rw [List.flatMap_cons, List.length_append, List.length_cons]
    omega

end Owners

namespace Run

variable {step : σ → α → Option σ} {ok : σ → α → Prop} {s₀ s : σ} {as : List α}

/-- Each step lowers a measure, up to what it brings in. So a run is no longer than what
there was at first and what its steps brought in. `P` is an invariant of these runs. -/
theorem amortized {P : σ → Prop} (μ : σ → Nat) (cost : α → Nat) (h : Run step ok s₀ as s)
    (hinit : P s₀)
    (hstep : ∀ {s a s'}, P s → ok s a → step s a = some s' → P s' ∧ μ s' < μ s + cost a) :
    P s ∧ as.length + μ s ≤ μ s₀ + tally cost as := by
  induction h with
  | refl => exact ⟨hinit, by simp [tally]⟩
  | tail _ hok hs ih =>
    obtain ⟨hp, hle⟩ := ih
    obtain ⟨hp', hlt⟩ := hstep hp hok hs
    refine ⟨hp', ?_⟩
    rw [List.length_append, List.length_singleton, tally_concat]
    omega

/-- Steps that all lower a measure are no more than the measure. -/
theorem bounded {P : σ → Prop} (μ : σ → Nat) (h : Run step ok s₀ as s) (hinit : P s₀)
    (hstep : ∀ {s a s'}, P s → ok s a → step s a = some s' → P s' ∧ μ s' < μ s) :
    P s ∧ as.length + μ s ≤ μ s₀ := by
  have hrun := h.amortized μ (fun _ => 0) hinit hstep
  rwa [tally_zero, Nat.add_zero] at hrun

end Run
end Lumberjack.Process
