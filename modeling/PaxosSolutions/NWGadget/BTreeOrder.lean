import PaxosSolutions.NWGadget.BTreeUnderflow

/-!
# The keys in order

The keys below a row of entries are those below its first child, and then each
item with those below the child after it. What an operation leaves of a row is
followed here in the keys: divided, put together, with an entry more or less.
-/
namespace PaxosSolutions.NWGadget
open Lib BTHeap

variable {α : Type}

/-- The keys of a row with `m` items, over the keys of a child. -/
def rowKeys (K : Option BTAddr → List α) (e : ℕ → α × Option BTAddr) (m : ℕ) : List α :=
  K (e 0).2 ++ (List.range m).flatMap fun i => (e (i + 1)).1 :: K (e (i + 1)).2

/-- What comes before child `j` of a row. -/
def rowBefore (K : Option BTAddr → List α) (e : ℕ → α × Option BTAddr) (j : ℕ) : List α :=
  (List.range j).flatMap fun i => K (e i).2 ++ [(e (i + 1)).1]

/-- What comes behind child `j`. -/
def rowBehind (K : Option BTAddr → List α) (e : ℕ → α × Option BTAddr) (j m : ℕ) : List α :=
  (List.range' j (m - j)).flatMap fun i => (e (i + 1)).1 :: K (e (i + 1)).2

section Rows
variable {K K' : Option BTAddr → List α} {e e' : ℕ → α × Option BTAddr} {i j m R : ℕ} {x V : α}
  {d : Option BTAddr}

theorem rowBefore_succ : rowBefore K e (j + 1) = rowBefore K e j ++ (K (e j).2 ++ [(e (j + 1)).1]) := by
  unfold rowBefore
  rw [List.range_succ, List.flatMap_append, List.flatMap_singleton]

theorem rowBehind_self : rowBehind K e m m = [] := by
  unfold rowBehind
  rw [Nat.sub_self]
  rfl

theorem rowBehind_cons (hj : j < m) :
    rowBehind K e j m = (e (j + 1)).1 :: (K (e (j + 1)).2 ++ rowBehind K e (j + 1) m) := by
  unfold rowBehind
  rw [show m - j = m - (j + 1) + 1 by omega, List.range'_succ, List.flatMap_cons]
  rfl

/-- A row around one of its children. -/
theorem rowKeys_at (hj : j ≤ m) :
    rowKeys K e m = rowBefore K e j ++ (K (e j).2 ++ rowBehind K e j m) := by
  induction j with
  | zero =>
      unfold rowKeys rowBefore rowBehind
      rw [Nat.sub_zero, List.range_eq_range']
      rfl
  | succ j ih =>
      rw [ih (by omega), rowBehind_cons (by omega), rowBefore_succ]
      simp only [List.append_assoc, List.cons_append, List.nil_append]

/-- A row around one of its items. -/
theorem rowKeys_pair (hj : j < m) : rowKeys K e m = rowBefore K e j ++
    ((K (e j).2 ++ (e (j + 1)).1 :: K (e (j + 1)).2) ++ rowBehind K e (j + 1) m) := by
  rw [rowKeys_at (Nat.le_of_lt hj), rowBehind_cons hj]
  simp only [List.append_assoc, List.cons_append]

theorem rowBefore_congr (hchild : ∀ r < j, K (e r).2 = K' (e' r).2)
    (hitem : ∀ r, 1 ≤ r → r ≤ j → (e r).1 = (e' r).1) : rowBefore K e j = rowBefore K' e' j := by
  unfold rowBefore
  refine List.flatMap_congr ?_
  intro i hi
  have hlt := List.mem_range.mp hi
  rw [hchild i hlt, hitem (i + 1) (by omega) (by omega)]

theorem rowBehind_congr (hchild : ∀ r, j < r → r ≤ m → K (e r).2 = K' (e' r).2)
    (hitem : ∀ r, j < r → r ≤ m → (e r).1 = (e' r).1) :
    rowBehind K e j m = rowBehind K' e' j m := by
  unfold rowBehind
  refine List.flatMap_congr ?_
  intro i hi
  have hlt := List.mem_range'_1.mp hi
  rw [hchild (i + 1) (by omega) (by omega), hitem (i + 1) (by omega) (by omega)]

theorem rowKeys_congr (hchild : ∀ r ≤ m, K (e r).2 = K' (e' r).2)
    (hitem : ∀ r, 1 ≤ r → r ≤ m → (e r).1 = (e' r).1) : rowKeys K e m = rowKeys K' e' m := by
  rw [rowKeys_at (Nat.zero_le m), rowKeys_at (Nat.zero_le m), hchild 0 (Nat.zero_le m),
    rowBehind_congr (fun r _ h => hchild r h) fun r h h' => hitem r h h']
  rfl

/-- The end of a row that lies a few places on. -/
theorem rowBehind_shift {s : ℕ} (hs : ∀ r, j < r → r ≤ m → e' (r + s) = e r) :
    rowBehind K e' (j + s) (m + s) = rowBehind K e j m := by
  induction hn : m - j generalizing j with
  | zero =>
      unfold rowBehind
      rw [hn, show m + s - (j + s) = 0 by omega]
      rfl
  | succ n ih =>
      have hrest := ih (j := j + 1) (fun r h h' => hs r (by omega) h') (by omega)
      rw [rowBehind_cons (show j + s < m + s by omega), rowBehind_cons (show j < m by omega),
        show j + s + 1 = j + 1 + s by omega, hs (j + 1) (by omega) (by omega), hrest]

section Known
variable [Inhabited α]

/-- The two halves of a row with the item between them. -/
theorem rowKeys_split (hi : i < m) : rowKeys K e m =
    rowKeys K e i ++ (e (i + 1)).1 :: rowKeys K (rowAfter e (i + 1)) (m - i - 1) := by
  have hrest : rowBehind K (rowAfter e (i + 1)) 0 (m - i - 1) = rowBehind K e (i + 1) m := by
    have hshift : rowBehind K e (0 + (i + 1)) (m - i - 1 + (i + 1)) =
        rowBehind K (rowAfter e (i + 1)) 0 (m - i - 1) :=
      rowBehind_shift fun r hr _ => by rw [rowAfter_of_pos hr, Nat.add_comm]
    rw [← hshift, Nat.zero_add, show m - i - 1 + (i + 1) = m by omega]
  rw [rowKeys_pair hi, rowKeys_at (Nat.le_refl i), rowBehind_self, List.append_nil,
    rowKeys_at (Nat.zero_le (m - i - 1)), hrest, rowAfter_child]
  simp only [List.append_assoc, List.cons_append]
  rfl

/-- Two rows with the item between them. -/
theorem rowKeys_across {eL eR : ℕ → α × Option BTAddr} {mL mR : ℕ} :
    rowKeys K (rowAcross eL mL x eR) (mL + mR + 1) = rowKeys K eL mL ++ x :: rowKeys K eR mR := by
  have hleft : rowKeys K (rowAcross eL mL x eR) mL = rowKeys K eL mL := by
    refine rowKeys_congr ?_ ?_
    · intro r hr
      rw [rowAcross_left hr]
    · intro r _ hr
      rw [rowAcross_left hr]
  have hright : rowKeys K (rowAfter (rowAcross eL mL x eR) (mL + 1)) mR = rowKeys K eR mR := by
    refine rowKeys_congr ?_ ?_
    · intro r _
      rw [rowAfter_child]
      by_cases hr : r = 0
      · rw [hr, Nat.add_zero, rowAcross_mid]
      · rw [rowAcross_right (by omega)]
    · intro r hr _
      rw [rowAfter_of_pos hr, rowAcross_right hr]
  rw [rowKeys_split (show mL < mL + mR + 1 by omega), hleft, rowAcross_mid,
    show mL + mR + 1 - mL - 1 = mR by omega, hright]

end Known

/-- A row with a new entry after child `R`. -/
theorem rowKeys_widened (hR : R ≤ m) : rowKeys K (widened e R (V, d)) (m + 1) =
    rowBefore K e R ++ ((K (e R).2 ++ V :: K d) ++ rowBehind K e R m) := by
  have hlow : ∀ r ≤ R, widened e R (V, d) r = e r := fun r hr => if_pos hr
  have hmid : widened e R (V, d) (R + 1) = (V, d) := by
    unfold widened
    rw [if_neg (by omega), if_pos rfl]
  have hbefore : rowBefore K (widened e R (V, d)) R = rowBefore K e R := by
    refine rowBefore_congr ?_ ?_
    · intro r hr
      rw [hlow r (by omega)]
    · intro r _ hr
      rw [hlow r hr]
  have hbehind : rowBehind K (widened e R (V, d)) (R + 1) (m + 1) = rowBehind K e R m := by
    refine rowBehind_shift ?_
    intro r hr _
    unfold widened
    rw [if_neg (by omega), if_neg (by omega), Nat.add_sub_cancel]
  rw [rowKeys_pair (show R < m + 1 by omega), hlow R (Nat.le_refl R), hmid, hbefore, hbehind]

/-- A row without an item and the child after it. -/
theorem rowKeys_without (hj : j < m) : rowKeys K (without e (j + 1)) (m - 1) =
    rowBefore K e j ++ (K (e j).2 ++ rowBehind K e (j + 1) m) := by
  have hlow : ∀ r ≤ j, without e (j + 1) r = e r := fun r hr => if_pos (by omega)
  have hbefore : rowBefore K (without e (j + 1)) j = rowBefore K e j := by
    refine rowBefore_congr ?_ ?_
    · intro r hr
      rw [hlow r (by omega)]
    · intro r _ hr
      rw [hlow r hr]
  have hbehind : rowBehind K e (j + 1) (m - 1 + 1) = rowBehind K (without e (j + 1)) j (m - 1) := by
    refine rowBehind_shift ?_
    intro r hr _
    exact (if_neg (by omega)).symm
  rw [rowKeys_at (show j ≤ m - 1 by omega), hlow j (Nat.le_refl j), hbefore, ← hbehind,
    show m - 1 + 1 = m by omega]

/-- A row in which an item was replaced. -/
theorem rowKeys_update (hj : j < m) : rowKeys K (Function.update e (j + 1) (V, d)) m =
    rowBefore K e j ++ ((K (e j).2 ++ V :: K d) ++ rowBehind K e (j + 1) m) := by
  have hne : ∀ r, r ≠ j + 1 → Function.update e (j + 1) (V, d) r = e r := fun r hr =>
    Function.update_of_ne hr ..
  have hbefore : rowBefore K (Function.update e (j + 1) (V, d)) j = rowBefore K e j := by
    refine rowBefore_congr ?_ ?_
    · intro r hr
      rw [hne r (by omega)]
    · intro r _ hr
      rw [hne r (by omega)]
  have hbehind : rowBehind K (Function.update e (j + 1) (V, d)) (j + 1) m =
      rowBehind K e (j + 1) m := by
    refine rowBehind_congr ?_ ?_
    · intro r hr _
      rw [hne r (by omega)]
    · intro r hr _
      rw [hne r (by omega)]
  rw [rowKeys_pair hj, hne j (by omega), Function.update_self, hbefore, hbehind]

end Rows

section Pages
variable [Inhabited α]

/-- The keys below a page, in order, as far down as the fuel goes. -/
def BTHeap.keys (h : BTHeap α) : ℕ → Option BTAddr → List α
  | 0, _ => []
  | _ + 1, none => []
  | fuel + 1, some p => rowKeys (h.keys fuel) (h.ent p) (h p).pM

/-- The keys of a tree in order. -/
def BTree.inOrder (t : BTree α) : List α := t.heap.keys t.bNext t.bRoot

theorem BTHeap.keys_none {h : BTHeap α} {fuel : ℕ} : h.keys fuel none = [] := by
  cases fuel <;> rfl

theorem BTHeap.keys_some {h : BTHeap α} {fuel : ℕ} {p : BTAddr} :
    h.keys (fuel + 1) (some p) = rowKeys (h.keys fuel) (h.ent p) (h p).pM := rfl

end Pages

end PaxosSolutions.NWGadget
