import PaxosSolutions.Lib.Handler

/-!
# Frames of handlers

What a handler leaves alone of its state and what it puts out, whether it
returns or stops.
-/
namespace PaxosSolutions.Lib.Handler
variable {σ ω ε α β γ : Type}

/-- The view of the state is the same after as before, and every event has `P`. -/
def Frames (view : σ → γ) (P : ω → Prop) (x : Handler σ ω ε α) : Prop :=
  ∀ s, view (x s).st = view s ∧ ∀ o ∈ (x s).out, P o

namespace Frames
variable {view : σ → γ} {P Q : ω → Prop}

theorem pure (a : α) : Frames view P (pure a : Handler σ ω ε α) := fun _ => ⟨rfl, by simp⟩

theorem bind {x : Handler σ ω ε α} {f : α → Handler σ ω ε β} (hx : Frames view P x)
    (hf : ∀ a, Frames view P (f a)) : Frames view P (x >>= f) := by
  intro s
  obtain ⟨hview, hout⟩ := hx s
  rw [bind_apply]
  unfold Handler.bind
  cases (x s).val with
  | error e => exact ⟨hview, hout⟩
  | ok a =>
      obtain ⟨hview', hout'⟩ := hf a (x s).st
      refine ⟨hview'.trans hview, ?_⟩
      intro o ho
      rcases List.mem_append.mp ho with ho | ho
      · exact hout o ho
      · exact hout' o ho

theorem read {f : σ → Handler σ ω ε β} (h : ∀ s, Frames view P (f s)) :
    Frames view P (Handler.read >>= f) := fun s => h s s

theorem modify {g : σ → σ} (h : ∀ s, view (g s) = view s) :
    Frames view P (Handler.modify g : Handler σ ω ε Unit) := fun s => ⟨h s, by simp⟩

theorem emit {o : ω} (h : P o) : Frames view P (Handler.emit o : Handler σ ω ε Unit) :=
  fun _ => ⟨rfl, by simpa using h⟩

theorem fail (e : ε) : Frames view P (Handler.fail e : Handler σ ω ε α) := fun _ => ⟨rfl, by simp⟩

theorem ite {c : Prop} [Decidable c] {x y : Handler σ ω ε α} (hx : Frames view P x)
    (hy : Frames view P y) : Frames view P (if c then x else y) := by
  split
  · exact hx
  · exact hy

theorem when {c : Prop} [Decidable c] {x : Handler σ ω ε Unit} (hx : Frames view P x) :
    Frames view P (Handler.when c x) := ite hx (pure ())

theorem each {ι : Type} {f : ι → Handler σ ω ε Unit} {l : List ι} (h : ∀ i, Frames view P (f i)) :
    Frames view P (Handler.each f l) := by
  induction l with
  | nil => exact pure ()
  | cons i is ih => exact bind (h i) fun _ => ih

end Frames

/-- A run that returns goes through a state in between. -/
theorem bind_ok {x : Handler σ ω ε α} {f : α → Handler σ ω ε β} {s t : σ} {b : β} {o : List ω}
    (h : (x >>= f) s = ⟨.ok b, t, o⟩) :
    ∃ a u o₁ o₂, x s = ⟨.ok a, u, o₁⟩ ∧ f a u = ⟨.ok b, t, o₂⟩ ∧ o = o₁ ++ o₂ := by
  rw [bind_apply] at h
  unfold Handler.bind at h
  cases hx : x s with
  | mk val u o₁ =>
      rw [hx] at h
      cases val with
      | error e => cases h
      | ok a =>
          cases hf : f a u with
          | mk val' t' o₂ =>
              simp only [hf] at h
              cases h
              exact ⟨a, u, o₁, o₂, rfl, hf, rfl⟩

theorem Total.each {ι : Type} {f : ι → Handler σ ω ε Unit} {l : List ι} (h : ∀ i, Total (f i)) :
    Total (Handler.each f l) := by
  induction l with
  | nil => exact Total.pure ()
  | cons i is ih => exact Total.bind (h i) fun _ => ih

end PaxosSolutions.Lib.Handler
