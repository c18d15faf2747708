import Hypertrie.Library.Ensures

/-! Partial correctness of programs that may fail. A failed run meets every
postcondition, so the program itself need not be known to return. -/

/-- If the program returns, what it returns satisfies `post`. -/
def Permits {α : Type} (prog : Option α) (post : α → Prop) : Prop :=
  ∀ a, prog = some a → post a

namespace Permits

variable {α β : Type} {prog : Option α} {post post' : α → Prop}

theorem none (post : α → Prop) : Permits none post := by
  intro a h
  cases h

theorem pure {a : α} (h : post a) : Permits (some a) post := by
  intro a' he
  cases he
  exact h

theorem bind {next : α → Option β} {mid : α → Prop} {post : β → Prop} (h : Permits prog mid)
    (hn : ∀ a, mid a → Permits (next a) post) : Permits (prog.bind next) post := by
  intro b hb
  obtain ⟨a, ha, hb⟩ := Option.bind_eq_some_iff.mp hb
  exact hn a (h a ha) b hb

/-- Nothing needs to be known of what the first program returns. -/
theorem bind_any {next : α → Option β} {post : β → Prop}
    (hn : ∀ a, prog = some a → Permits (next a) post) : Permits (prog.bind next) post := by
  intro b hb
  obtain ⟨a, ha, hb⟩ := Option.bind_eq_some_iff.mp hb
  exact hn a ha b hb

theorem mono (h : Permits prog post) (hp : ∀ a, post a → post' a) : Permits prog post' :=
  fun a ha => hp a (h a ha)

theorem map {f : α → β} {post : β → Prop} (h : Permits prog (fun a => post (f a))) :
    Permits (prog.map f) post := by
  intro b hb
  obtain ⟨a, ha, rfl⟩ := Option.map_eq_some_iff.mp hb
  exact h a ha

theorem mapM {f : α → Option β} {R : α → β → Prop} {l : List α} (h : ∀ a ∈ l, Permits (f a) (R a)) :
    Permits (l.mapM f) (List.Forall₂ R l) := by
  induction l with
  | nil => exact pure .nil
  | cons a l ih =>
    obtain ⟨ha, h⟩ := List.forall_mem_cons.mp h
    rw [List.mapM_cons]
    exact bind ha fun b hb => bind (ih h) fun bs hbs => pure (.cons hb hbs)

end Permits

/-- A program that returns at all permits what it ensures. -/
theorem Ensures.permits {α : Type} {prog : Option α} {post : α → Prop} (h : Ensures prog post) :
    Permits prog post := by
  obtain ⟨a, rfl, hpost⟩ := h
  exact Permits.pure hpost
