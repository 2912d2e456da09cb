import Mathlib.Data.List.Induction

/-!
# Logs

A log grows at its end. `Each P` says that every entry meets `P` with the
entries before it, so it is kept by an entry that meets `P` with the log so far.
-/
namespace PaxosSolutions.Lib
variable {α : Type} {P : List α → α → Prop}

def Each (P : List α → α → Prop) (log : List α) : Prop :=
  ∀ pre a post, log = pre ++ a :: post → P pre a

theorem each_nil : Each P [] := by
  intro pre a post h
  cases pre <;> cases h

theorem Each.concat {log : List α} {a : α} (h : Each P log) (ha : P log a) :
    Each P (log ++ [a]) := by
  intro pre b post hl
  rcases List.eq_nil_or_concat post with rfl | ⟨q, c, rfl⟩
  · obtain ⟨rfl, hb⟩ := List.append_inj' hl rfl
    cases hb
    exact ha
  · rw [List.concat_eq_append, ← List.cons_append, ← List.append_assoc] at hl
    obtain ⟨rfl, -⟩ := List.append_inj' hl rfl
    exact h pre b q rfl

/-- Entries that meet `P` after any log -/
theorem Each.append {log l : List α} (h : Each P log) (hl : ∀ a ∈ l, ∀ pre, P pre a) :
    Each P (log ++ l) := by
  induction l using List.reverseRecOn with
  | nil => rwa [List.append_nil]
  | append_singleton l a ih =>
      rw [← List.append_assoc]
      apply Each.concat
      · exact ih fun b hb => hl b (List.mem_append_left _ hb)
      · exact hl a (by simp) _

end PaxosSolutions.Lib
