import Mathlib.Data.List.Nodup
import Mathlib.Tactic.SplitIfs

/-!
# Searches that go on behind an element

A search of a row that has nothing to go by but the key of the element it found
last skips the row up to that element, and has a flag for whether it has met
it. Where no two elements have one key, each search finds the next element that
passes, so that searching again and again finds all of them in order.
-/
namespace PaxosSolutions.Lib
variable {α κ : Type} [DecidableEq κ]

/-- The first element that passes `p` behind the one with the key `current`, or from the
front on if there is none, and the flag at the end. -/
def resume (key : α → κ) (p : α → Bool) (current : Option κ) : List α → Bool → Option α × Bool
  | [], flag => (none, flag)
  | x :: xs, flag =>
      if (current.isNone || flag) && p x then (some x, flag)
      else resume key p current xs (flag || current == some (key x))

section
variable {key : α → κ} {p : α → Bool} {current : Option κ} {flag : Bool} {xs ys : List α}

/-- A row is searched after another one in which nothing was found. -/
theorem resume_append : resume key p current (xs ++ ys) flag =
    match resume key p current xs flag with
    | (some x, flag) => (some x, flag)
    | (none, flag) => resume key p current ys flag := by
  induction xs generalizing flag with
  | nil => rfl
  | cons x xs ih =>
      rw [List.cons_append, resume, resume]
      split_ifs
      · rfl
      · exact ih

/-- From where there is nothing to skip, it is the first element that passes. -/
theorem resume_open (h : (current.isNone || flag) = true) :
    (resume key p current xs flag).1 = xs.find? p := by
  induction xs generalizing flag with
  | nil => rfl
  | cons x xs ih =>
      rw [resume, h, Bool.true_and, List.find?_cons]
      cases hx : p x with
      | true => rfl
      | false =>
          refine ih ?_
          rw [← Bool.or_assoc, h, Bool.true_or]

/-- What comes before the element that was found last is skipped. -/
theorem resume_behind {x : α} {pre post : List α} (hpre : key x ∉ pre.map key) :
    (resume key p (some (key x)) (pre ++ x :: post) false).1 = post.find? p := by
  induction pre with
  | nil =>
      have hself : (false || some (key x) == some (key x)) = true := by simp
      rw [List.nil_append, resume, hself]
      exact resume_open (Bool.or_true _)
  | cons y pre ih =>
      rw [List.map_cons, List.mem_cons, not_or] at hpre
      have hy : (false || some (key x) == some (key y)) = false := by simpa using hpre.1
      rw [List.cons_append, resume, hy]
      exact ih hpre.2

/-- The first search finds the first element that passes. -/
theorem resume_first : (resume key p none xs flag).1 = (xs.filter p)[0]? := by
  rw [← List.head?_eq_getElem?, List.head?_filter]
  exact resume_open rfl

/-- Each other search finds the one after the one found last. -/
theorem resume_next {n : ℕ} {x : α} (hxs : (xs.map key).Nodup) (hx : (xs.filter p)[n]? = some x) :
    (resume key p (some (key x)) xs false).1 = (xs.filter p)[n + 1]? := by
  obtain ⟨hmem, hp⟩ := List.mem_filter.mp (List.mem_of_getElem? hx)
  obtain ⟨pre, post, rfl⟩ := List.append_of_mem hmem
  have hsplit : (pre ++ x :: post).filter p = pre.filter p ++ x :: post.filter p := by
    rw [List.filter_append, List.filter_cons, if_pos hp]
  have hpre : key x ∉ pre.map key := by
    rw [List.map_append, List.map_cons, List.nodup_append] at hxs
    exact fun h => hxs.2.2 _ h _ List.mem_cons_self rfl
  -- the place of `x` among those that pass
  have hn : n = (pre.filter p).length := by
    have hnodup := hxs.of_map.filter p
    rw [hsplit] at hnodup hx
    have hlt := (List.getElem?_eq_some_iff.mp hx).1
    refine (List.getElem?_inj hlt hnodup).mp (hx.trans ?_)
    rw [List.getElem?_append_right (Nat.le_refl _), Nat.sub_self]
    rfl
  rw [resume_behind hpre, hsplit, hn, List.getElem?_append_right (Nat.le_add_right _ 1),
    Nat.add_sub_cancel_left, List.getElem?_cons_succ, ← List.head?_filter, List.head?_eq_getElem?]

end

end PaxosSolutions.Lib
