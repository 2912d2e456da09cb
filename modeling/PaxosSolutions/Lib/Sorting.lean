import Mathlib.Data.Int.Order.Basic
import Mathlib.Data.List.Pairwise
import Mathlib.Data.List.Sort
import Mathlib.Order.Defs.LinearOrder
import Mathlib.Tactic.Push

/-!
# Sorting with a comparison function

A comparison function answers with a number whose sign says which of its arguments
comes first. A sort puts a list in the order of the function if the function is a
total preorder on the elements of the list, and in any order if it is not. So the
lists it puts in the order that is meant are those on which the function has the
sign of that order.
-/
namespace PaxosSolutions.Lib
variable {α : Type} {cmp : α → α → ℤ} {l : List α}

/-- The signs agree on the elements of a list. -/
structure TotalPreorderOn (cmp : α → α → ℤ) (l : List α) : Prop where
  antisymm : ∀ a ∈ l, ∀ b ∈ l, cmp a b < 0 ↔ 0 < cmp b a
  trans : ∀ a ∈ l, ∀ b ∈ l, ∀ c ∈ l, cmp a b ≤ 0 → cmp b c ≤ 0 → cmp a c ≤ 0

/-- What is known of a sort, such as `qsort`. -/
structure Sorts (sort : (α → α → ℤ) → List α → List α) : Prop where
  perm : ∀ cmp l, (sort cmp l).Perm l
  sorted : ∀ cmp l, TotalPreorderOn cmp l → (sort cmp l).Pairwise fun a b => cmp a b ≤ 0

/-- A sort by insertion. -/
def sortBy (cmp : α → α → ℤ) (l : List α) : List α :=
  (l.attach.insertionSort fun x y => cmp x.1 y.1 ≤ 0).map Subtype.val

theorem TotalPreorderOn.total (h : TotalPreorderOn cmp l) {a b : α} (ha : a ∈ l) (hb : b ∈ l) :
    cmp a b ≤ 0 ∨ cmp b a ≤ 0 := by
  rcases le_or_gt (cmp a b) 0 with hab | hab
  · exact .inl hab
  · exact .inr ((h.antisymm b hb a ha).mpr hab).le

theorem TotalPreorderOn.of_perm {l' : List α} (h : TotalPreorderOn cmp l) (hp : l.Perm l') :
    TotalPreorderOn cmp l' where
  antisymm a ha b hb := h.antisymm a (hp.mem_iff.mpr ha) b (hp.mem_iff.mpr hb)
  trans a ha b hb c hc := h.trans a (hp.mem_iff.mpr ha) b (hp.mem_iff.mpr hb) c (hp.mem_iff.mpr hc)

theorem sortBy_perm (cmp : α → α → ℤ) (l : List α) : (sortBy cmp l).Perm l := by
  have h := (List.perm_insertionSort (fun x y => cmp x.1 y.1 ≤ 0) l.attach).map Subtype.val
  rwa [List.attach_map_subtype_val] at h

theorem sortBy_sorted (h : TotalPreorderOn cmp l) :
    (sortBy cmp l).Pairwise fun a b => cmp a b ≤ 0 := by
  let r : {x // x ∈ l} → {x // x ∈ l} → Prop := fun x y => cmp x.1 y.1 ≤ 0
  have : Std.Total r := ⟨fun x y => h.total x.2 y.2⟩
  have : IsTrans _ r := ⟨fun x y z => h.trans x.1 x.2 y.1 y.2 z.1 z.2⟩
  exact (List.pairwise_insertionSort r l.attach).map Subtype.val fun _ _ hxy => hxy

theorem sortBy_sorts : Sorts (sortBy (α := α)) where
  perm := sortBy_perm
  sorted _ _ := sortBy_sorted

/-- The comparison has the sign of an order. -/
def SignOf (cmp : α → α → ℤ) (ord : α → α → Ordering) (a b : α) : Prop :=
  compare (cmp a b) 0 = ord a b

variable {ord : α → α → Ordering}

theorem SignOf.lt_iff {a b : α} (h : SignOf cmp ord a b) : cmp a b < 0 ↔ ord a b = .lt := by
  rw [← h, compare_lt_iff_lt]

theorem SignOf.gt_iff {a b : α} (h : SignOf cmp ord a b) : 0 < cmp a b ↔ ord a b = .gt := by
  rw [← h, compare_gt_iff_gt]

theorem SignOf.le_iff {a b : α} (h : SignOf cmp ord a b) : cmp a b ≤ 0 ↔ (ord a b).isLE := by
  rw [← h, ← not_lt, ← compare_gt_iff_gt, Ordering.isLE_iff_ne_gt]

section Order
variable [Std.TransCmp ord]

/-- A comparison with the signs of an order is a total preorder. -/
theorem totalPreorderOn_of_signs (h : ∀ a ∈ l, ∀ b ∈ l, SignOf cmp ord a b) :
    TotalPreorderOn cmp l where
  antisymm a ha b hb := by
    rw [(h a ha b hb).lt_iff, (h b hb a ha).gt_iff, Std.OrientedCmp.gt_iff_lt]
  trans a ha b hb c hc := by
    rw [(h a ha b hb).le_iff, (h b hb c hc).le_iff, (h a ha c hc).le_iff]
    exact Std.TransCmp.isLE_trans

/-- The sort that puts two elements of the list in the order `a`, `b` if the
comparison is no total preorder. -/
noncomputable def sortFirst (a b : α) (l : List α) (cmp : α → α → ℤ) (l' : List α) : List α :=
  open Classical in
  if TotalPreorderOn cmp l' ∨ l' ≠ l then sortBy cmp l' else a :: b :: (l.erase a).erase b

theorem sortFirst_sorts {a b : α} (ha : a ∈ l) (hb : b ∈ l) (hne : a ≠ b) :
    Sorts (sortFirst a b l) where
  perm cmp l' := by
    classical
    unfold sortFirst
    split
    case isTrue => exact sortBy_perm cmp l'
    case isFalse h =>
      push Not at h
      have hb' : b ∈ l.erase a := (List.mem_erase_of_ne hne.symm).mpr hb
      rw [h.2]
      calc a :: b :: (l.erase a).erase b
        _ |>.Perm (a :: l.erase a) := (List.perm_cons_erase hb').symm.cons a
        _ |>.Perm l := (List.perm_cons_erase ha).symm
  sorted cmp l' h := by
    rw [sortFirst, if_pos (.inl h)]
    exact sortBy_sorted h

/-- Of two elements of a list one is before the other. -/
theorem pairwise_either {r : α → α → Prop} (h : l.Pairwise r) {a b : α} (ha : a ∈ l) (hb : b ∈ l)
    (hne : a ≠ b) : r a b ∨ r b a := by
  have : Std.Symm fun x y => r x y ∨ r y x := ⟨fun _ _ hxy => hxy.symm⟩
  have hsymm : l.Pairwise fun x y => r x y ∨ r y x := h.imp fun hxy => .inl hxy
  exact hsymm.forall ha hb hne

/-- A list that is in both orders shows the sign at two of its elements. -/
theorem signOf_of_pairwise (hcmp : l.Pairwise fun a b => cmp a b ≤ 0)
    (hord : l.Pairwise fun a b => (ord a b).isLE) (hpre : TotalPreorderOn cmp l)
    (hzero : ∀ a ∈ l, ∀ b ∈ l, cmp a b = 0 ↔ ord a b = .eq) {a b : α} (ha : a ∈ l) (hb : b ∈ l) :
    SignOf cmp ord a b := by
  unfold SignOf
  by_cases heq : ord a b = .eq
  · rw [heq, compare_eq_iff_eq]
    exact (hzero a ha b hb).mpr heq
  have hne : a ≠ b := by
    rintro rfl
    exact heq Std.ReflCmp.compare_self
  have hnz : cmp a b ≠ 0 := fun h => heq ((hzero a ha b hb).mp h)
  rcases pairwise_either (hcmp.and hord) ha hb hne with ⟨hle, hlt⟩ | ⟨hle, hlt⟩
  · have hab : ord a b = .lt := (Ordering.isLE_iff_eq_lt_or_eq_eq.mp hlt).resolve_right heq
    rw [hab, compare_lt_iff_lt]
    omega
  · have hba : ord b a ≠ .eq := fun h => heq (Std.OrientedCmp.eq_symm h)
    have hlt' : ord b a = .lt := (Ordering.isLE_iff_eq_lt_or_eq_eq.mp hlt).resolve_right hba
    have hneg : cmp b a < 0 := by
      have := (hzero b hb a ha).not.mpr hba
      omega
    rw [Std.OrientedCmp.gt_of_lt hlt', compare_gt_iff_gt]
    exact (hpre.antisymm b hb a ha).mp hneg

/-- Where the comparison is 0 for what is equal in the order only, it has the sign of
the order on a list if every sort puts the list in the order. -/
theorem sorts_iff_signs (hzero : ∀ a ∈ l, ∀ b ∈ l, cmp a b = 0 ↔ ord a b = .eq) :
    (∀ sort, Sorts sort → (sort cmp l).Pairwise fun a b => (ord a b).isLE) ↔
      ∀ a ∈ l, ∀ b ∈ l, SignOf cmp ord a b := by
  constructor
  · intro h
    by_cases hpre : TotalPreorderOn cmp l
    · intro a ha b hb
      have hmem : ∀ x, x ∈ sortBy cmp l ↔ x ∈ l := fun x => (sortBy_perm cmp l).mem_iff
      have hcmp := sortBy_sorted hpre
      exact signOf_of_pairwise hcmp (h sortBy sortBy_sorts) (hpre.of_perm (sortBy_perm cmp l).symm)
        (fun x hx y hy => hzero x ((hmem x).mp hx) y ((hmem y).mp hy))
        ((hmem a).mpr ha) ((hmem b).mpr hb)
    -- a sort may put any two elements first, so the order takes them for equal
    · have hall : ∀ x ∈ l, ∀ y ∈ l, ord x y = .eq := by
        intro x hx y hy
        by_cases hxy : x = y
        · rw [hxy]
          exact Std.ReflCmp.compare_self
        have hfirst := h _ (sortFirst_sorts hx hy hxy)
        have hsecond := h _ (sortFirst_sorts hy hx (Ne.symm hxy))
        rw [sortFirst, if_neg (by simp [hpre])] at hfirst hsecond
        have hle : (ord x y).isLE := (List.pairwise_cons.mp hfirst).1 y List.mem_cons_self
        have hge : (ord y x).isLE := (List.pairwise_cons.mp hsecond).1 x List.mem_cons_self
        exact Std.OrientedCmp.isLE_antisymm hle hge
      intro a ha b hb
      unfold SignOf
      rw [hall a ha b hb, compare_eq_iff_eq]
      exact (hzero a ha b hb).mpr (hall a ha b hb)
  · intro h sort hsort
    have hsorted := hsort.sorted cmp l (totalPreorderOn_of_signs h)
    have hmem : ∀ a ∈ sort cmp l, a ∈ l := fun a => (hsort.perm cmp l).mem_iff.mp
    refine hsorted.imp_of_mem fun ha hb hab => ?_
    exact (h _ (hmem _ ha) _ (hmem _ hb)).le_iff.mp hab

end Order

end PaxosSolutions.Lib
