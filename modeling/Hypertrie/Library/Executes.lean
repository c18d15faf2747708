import Hypertrie.Library.Ensures

/-! Loops whose steps have a precondition: what a run has to meet is said of
each of its steps, in the state in which the step is made. -/

/-- The loop runs to its end, and each step is made in a state that meets its precondition. -/
inductive Executes {σ α : Type} (p : σ → α → Prop) (f : σ → α → Option σ) :
    List α → σ → σ → Prop where
  | nil (s : σ) : Executes p f [] s s
  | cons {a : α} {rest : List α} {s s' s'' : σ} : p s a → f s a = some s' →
      Executes p f rest s' s'' → Executes p f (a :: rest) s s''

namespace Executes

variable {σ α : Type} {p : σ → α → Prop} {f : σ → α → Option σ} {l : List α} {s s' : σ}

theorem foldlM_eq (h : Executes p f l s s') : l.foldlM f s = some s' := by
  induction h with
  | nil => rfl
  | cons _ hf _ ih => simpa [hf] using ih

/-- Loop rule: the invariant gives the precondition of the next step. -/
theorem of_invariant {I : List α → σ → Prop} (h : I l s)
    (hstep : ∀ a rest s, I (a :: rest) s → p s a ∧ Ensures (f s a) (I rest)) :
    ∃ s', Executes p f l s s' ∧ I [] s' := by
  induction l generalizing s with
  | nil => exact ⟨s, .nil s, h⟩
  | cons a rest ih =>
    obtain ⟨hpre, s₁, hf, h₁⟩ := hstep a rest s h
    obtain ⟨s', hrest, h'⟩ := ih h₁
    exact ⟨s', .cons hpre hf hrest, h'⟩

/-- Loop rule for jobs with keys. -/
theorem of_pending {κ : Type} {g : α → κ} {I : List κ → σ → Prop} (more : List κ)
    (hn : (l.map g ++ more).Nodup) (h : I (l.map g ++ more) s)
    (hstep : ∀ a ∈ l, ∀ rest s, g a ∉ rest → I (g a :: rest) s →
      p s a ∧ Ensures (f s a) (I rest)) :
    ∃ s', Executes p f l s s' ∧ I more s' := by
  induction l generalizing s with
  | nil => exact ⟨s, .nil s, h⟩
  | cons a rest ih =>
    rw [List.map_cons, List.cons_append] at hn h
    obtain ⟨ha, hn⟩ := List.nodup_cons.mp hn
    obtain ⟨hpre, s₁, hf, h₁⟩ := hstep a List.mem_cons_self _ s ha h
    obtain ⟨s', hrest, h'⟩ := ih hn h₁ fun b hb => hstep b (List.mem_cons_of_mem _ hb)
    exact ⟨s', .cons hpre hf hrest, h'⟩

end Executes
