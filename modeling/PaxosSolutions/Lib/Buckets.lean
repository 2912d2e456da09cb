import Mathlib.Algebra.Ring.Nat
import Mathlib.Algebra.BigOperators.Group.List.Lemmas
import Mathlib.Data.List.Range
import Mathlib.Logic.Function.Basic

/-!
# Items spread over chains

Items that come in one after the other are spread over chains by a code of theirs. Each
chain has its items in the order they came, so what is looked for by a test that fixes
the code is found in the one chain as in the whole row.
-/
namespace PaxosSolutions.Lib
variable {α : Type} {n i : ℕ} {f : α → ℕ} {chains : ℕ → List α} {l : List α} {x : α} {p : α → Bool}

/-- Each of the chains has the items of `l` with its code. -/
def Spread (f : α → ℕ) (chains : ℕ → List α) (l : List α) : Prop :=
  ∀ i, chains i = l.filter fun x => f x = i

theorem Spread.nil : Spread f (fun _ => []) [] := fun _ => rfl

theorem Spread.append (h : Spread f chains l) :
    Spread f (Function.update chains (f x) (chains (f x) ++ [x])) (l ++ [x]) := by
  intro i
  rw [List.filter_append]
  by_cases hx : f x = i
  · subst hx
    rw [Function.update_self, h]
    simp
  · rw [Function.update_of_ne (Ne.symm hx), h]
    simp [hx]

theorem Spread.filter (h : Spread f chains l) :
    Spread f (fun i => (chains i).filter p) (l.filter p) := by
  intro i
  change (chains i).filter p = _
  rw [h, List.filter_filter, List.filter_filter]
  apply List.filter_congr
  intro x _
  rw [Bool.and_comm]

/-- What passes a test that fixes the code is in one chain. -/
theorem Spread.filter_chain (h : Spread f chains l) (hp : ∀ x ∈ l, p x = true → f x = i) :
    (chains i).filter p = l.filter p := by
  rw [h, List.filter_filter]
  apply List.filter_congr
  intro x hx
  cases hpx : p x with
  | false => rfl
  | true => simp [hp x hx hpx]

theorem Spread.find_chain (h : Spread f chains l) (hp : ∀ x ∈ l, p x = true → f x = i) :
    (chains i).find? p = l.find? p := by
  rw [← List.head?_filter, ← List.head?_filter, h.filter_chain hp]

theorem Spread.mem (h : Spread f chains l) : x ∈ chains i ↔ x ∈ l ∧ f x = i := by
  rw [h, List.mem_filter, decide_eq_true_eq]

theorem sum_range_indicator (hx : i < n) :
    ((List.range n).map fun j => if i = j then 1 else 0).sum = 1 := by
  induction n with
  | zero => omega
  | succ n ih =>
      rw [List.range_succ, List.map_append, List.sum_append, List.map_singleton, List.sum_singleton]
      by_cases h : i = n
      · have hbelow : ((List.range n).map fun j => if i = j then 1 else 0) =
            (List.range n).map fun _ => 0 := by
          apply List.map_congr_left
          intro j hj
          have := List.mem_range.mp hj
          exact if_neg (by omega)
        rw [hbelow, if_pos h]
        simp
      · rw [ih (by omega), if_neg h]

/-- The chains have all items, if all codes are of theirs. -/
theorem Spread.length (h : Spread f chains l) (hf : ∀ x ∈ l, f x < n) :
    ((List.range n).flatMap chains).length = l.length := by
  have hchains : (List.range n).map (fun i => (chains i).length) =
      (List.range n).map fun i => (l.filter fun x => f x = i).length := by
    apply List.map_congr_left
    intro i _
    rw [h]
  rw [List.length_flatMap, hchains]
  clear h hchains
  induction l with
  | nil => simp
  | cons x l ih =>
      have hcons : ((List.range n).map fun i => ((x :: l).filter fun x => f x = i).length) =
          (List.range n).map fun i => (if f x = i then 1 else 0) +
            (l.filter fun x => f x = i).length := by
        apply List.map_congr_left
        intro i _
        rw [List.filter_cons]
        by_cases hx : f x = i
        · simp [hx, Nat.add_comm]
        · simp [hx]
      rw [hcons, List.sum_map_add, sum_range_indicator (hf x List.mem_cons_self),
        ih fun y hy => hf y (List.mem_cons_of_mem x hy), List.length_cons, Nat.add_comm]

/-- The items with other names than one of the items, and that one, are all, if no two have
one name. -/
theorem perm_cons_filter {κ : Type} [DecidableEq κ] {g : α → κ} (hn : (l.map g).Nodup)
    (hx : x ∈ l) : l.Perm (x :: l.filter fun y => g y ≠ g x) := by
  induction l with
  | nil => cases hx
  | cons y l ih =>
      rw [List.map_cons, List.nodup_cons] at hn
      rcases List.mem_cons.mp hx with rfl | hx
      · have hall : (l.filter fun y => g y ≠ g x) = l := by
          apply List.filter_eq_self.mpr
          intro y hy
          refine decide_eq_true ?_
          intro hyx
          exact hn.1 (List.mem_map.mpr ⟨y, hy, hyx⟩)
        rw [List.filter_cons_of_neg (by simp), hall]
      · have hyx : g y ≠ g x := by
          intro h
          exact hn.1 (List.mem_map.mpr ⟨x, hx, h.symm⟩)
        rw [List.filter_cons, if_pos (decide_eq_true hyx)]
        exact ((ih hn.2 hx).cons y).trans (List.Perm.swap x y _)

/-- One item has its name. -/
theorem filter_name {κ : Type} [DecidableEq κ] {g : α → κ} (hn : (l.map g).Nodup) (hx : x ∈ l) :
    (l.filter fun y => g y = g x) = [x] := by
  have hperm := (perm_cons_filter hn hx).filter fun y => g y = g x
  have hnone : (l.filter fun y => g y ≠ g x).filter (fun y => g y = g x) = [] := by
    refine List.filter_eq_nil_iff.mpr fun y hy => ?_
    simpa using (List.mem_filter.mp hy).2
  rw [List.filter_cons, if_pos (decide_eq_true rfl), hnone] at hperm
  exact hperm.eq_singleton

end PaxosSolutions.Lib
