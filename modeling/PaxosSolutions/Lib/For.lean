import Mathlib.Data.List.Basic

/-!
# Counting loops

`for` loops over an interval of numbers, up and down, as functions of the state.
An invariant that is indexed by the number reached carries them.
-/
namespace PaxosSolutions.Lib
variable {σ : Type}

/-- `for( i = lo; i <= hi; i++ )` -/
def forUp (lo hi : ℕ) (f : ℕ → σ → σ) (s : σ) : σ :=
  (List.range' lo (hi + 1 - lo)).foldl (fun s i => f i s) s

/-- `for( i = hi; i >= lo; i-- )` -/
def forDown (hi lo : ℕ) (f : ℕ → σ → σ) (s : σ) : σ :=
  (List.range' lo (hi + 1 - lo)).foldr f s

theorem foldl_range' {f : ℕ → σ → σ} {I : ℕ → σ → Prop} {n lo : ℕ} {s : σ} (h₀ : I lo s)
    (hstep : ∀ i t, lo ≤ i → i < lo + n → I i t → I (i + 1) (f i t)) :
    I (lo + n) ((List.range' lo n).foldl (fun s i => f i s) s) := by
  induction n generalizing lo s with
  | zero => exact h₀
  | succ n ih =>
      rw [List.range'_succ, List.foldl_cons, show lo + (n + 1) = lo + 1 + n by omega]
      refine ih (hstep lo s (Nat.le_refl _) (by omega) h₀) ?_
      intro i t hi hlt
      exact hstep i t (by omega) (by omega)

theorem foldr_range' {f : ℕ → σ → σ} {I : ℕ → σ → Prop} {n lo : ℕ} {s : σ} (h₀ : I (lo + n) s)
    (hstep : ∀ i t, lo ≤ i → i < lo + n → I (i + 1) t → I i (f i t)) :
    I lo ((List.range' lo n).foldr f s) := by
  induction n generalizing lo with
  | zero => exact h₀
  | succ n ih =>
      rw [List.range'_succ, List.foldr_cons]
      refine hstep lo _ (Nat.le_refl _) (by omega) (ih ?_ ?_)
      · rw [show lo + 1 + n = lo + (n + 1) by omega]
        exact h₀
      · intro i t hi hlt
        exact hstep i t (by omega) (by omega)

/-- What the turns before `i` have done carries the loop upwards. -/
theorem forUp_rule {f : ℕ → σ → σ} {I : ℕ → σ → Prop} {lo hi : ℕ} {s : σ} (hle : lo ≤ hi + 1)
    (h₀ : I lo s) (hstep : ∀ i t, lo ≤ i → i ≤ hi → I i t → I (i + 1) (f i t)) :
    I (hi + 1) (forUp lo hi f s) := by
  have h := foldl_range' (f := f) (I := I) (n := hi + 1 - lo) h₀ fun i t hlo hlt =>
    hstep i t hlo (by omega)
  rw [show lo + (hi + 1 - lo) = hi + 1 by omega] at h
  exact h

/-- What the turns from `i` on have done carries the loop downwards. -/
theorem forDown_rule {f : ℕ → σ → σ} {I : ℕ → σ → Prop} {lo hi : ℕ} {s : σ} (hle : lo ≤ hi + 1)
    (h₀ : I (hi + 1) s) (hstep : ∀ i t, lo ≤ i → i ≤ hi → I (i + 1) t → I i (f i t)) :
    I lo (forDown hi lo f s) := by
  refine foldr_range' (f := f) (I := I) (n := hi + 1 - lo) ?_ fun i t hlo hlt =>
    hstep i t hlo (by omega)
  rw [show lo + (hi + 1 - lo) = hi + 1 by omega]
  exact h₀

end PaxosSolutions.Lib
