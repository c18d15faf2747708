import Mathlib

/-! Total correctness of programs that may fail. `none` stands for a failed
run, so a postcondition is only met by a run that returns. -/

/-- The program returns, and what it returns satisfies `post`. -/
def Ensures {α : Type} (prog : Option α) (post : α → Prop) : Prop :=
  ∃ a, prog = some a ∧ post a

namespace Ensures

variable {α β σ : Type}

theorem pure {post : α → Prop} {a : α} (h : post a) : Ensures (some a) post :=
  ⟨a, rfl, h⟩

theorem bind {prog : Option α} {next : α → Option β} {mid : α → Prop} {post : β → Prop}
    (h : Ensures prog mid) (hn : ∀ a, mid a → Ensures (next a) post) :
    Ensures (prog.bind next) post := by
  obtain ⟨a, rfl, ha⟩ := h
  exact hn a ha

theorem mono {prog : Option α} {post post' : α → Prop}
    (h : Ensures prog post) (hp : ∀ a, post a → post' a) : Ensures prog post' := by
  obtain ⟨a, e, ha⟩ := h
  exact ⟨a, e, hp a ha⟩

theorem and {prog : Option α} {post post' : α → Prop} (h : Ensures prog post)
    (h' : Ensures prog post') : Ensures prog (fun a => post a ∧ post' a) := by
  obtain ⟨a, rfl, ha⟩ := h
  obtain ⟨a', heq, ha'⟩ := h'
  obtain rfl := Option.some.inj heq
  exact ⟨a, rfl, ha, ha'⟩

theorem map {prog : Option α} {f : α → β} {post : β → Prop}
    (h : Ensures prog (fun a => post (f a))) : Ensures (prog.map f) post := by
  obtain ⟨a, rfl, ha⟩ := h
  exact ⟨f a, rfl, ha⟩

theorem mapM {f : α → Option β} {R : α → β → Prop} {l : List α} (h : ∀ a ∈ l, Ensures (f a) (R a)) :
    Ensures (l.mapM f) (List.Forall₂ R l) := by
  induction l with
  | nil => exact pure .nil
  | cons a l ih =>
    obtain ⟨ha, h⟩ := List.forall_mem_cons.mp h
    rw [List.mapM_cons]
    exact bind ha fun b hb => bind (ih h) fun bs hbs => pure (.cons hb hbs)

theorem mapM_eq_some {f : α → Option β} {g : α → β} {l : List α}
    (h : ∀ a ∈ l, f a = some (g a)) : l.mapM f = some (l.map g) := by
  induction l with
  | nil => rfl
  | cons a l ih =>
    rw [List.mapM_cons, h a List.mem_cons_self, ih fun b hb => h b (List.mem_cons_of_mem a hb)]
    rfl

/-- Loop rule: the invariant may speak of the elements that are still to come. -/
theorem foldlM {f : σ → α → Option σ} {I : List α → σ → Prop} {l : List α} {s : σ}
    (h : I l s) (hstep : ∀ a rest s, I (a :: rest) s → Ensures (f s a) (I rest)) :
    Ensures (l.foldlM f s) (I []) := by
  induction l generalizing s with
  | nil => exact pure h
  | cons a rest ih =>
    rw [List.foldlM_cons]
    exact (hstep a rest s h).bind fun _ h' => ih h'

end Ensures

/-- A loop fails if the body fails for one of the elements in every state. -/
theorem foldlM_eq_none {α σ : Type} {f : σ → α → Option σ} {l : List α} {s : σ} {a : α} (hm : a ∈ l)
    (h : ∀ s, f s a = none) : l.foldlM f s = none := by
  induction l generalizing s with
  | nil => cases hm
  | cons first rest ih =>
    rw [List.foldlM_cons]
    rcases List.mem_cons.mp hm with rfl | hm
    · simp [h]
    · simp [ih hm]

/-- Loop rule for a fold that cannot fail. -/
theorem foldl_invariant {α σ : Type} {f : σ → α → σ} {I : List α → σ → Prop}
    {l : List α} {s : σ} (h : I l s)
    (hstep : ∀ a rest s, I (a :: rest) s → I rest (f s a)) : I [] (l.foldl f s) := by
  induction l generalizing s with
  | nil => exact h
  | cons a rest ih => exact ih (hstep a rest s h)
