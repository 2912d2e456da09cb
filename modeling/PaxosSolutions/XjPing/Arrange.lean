import PaxosSolutions.XjPing.Table
import Mathlib.Data.Finset.Card

/-!
# Records put in a new order in place

A sort orders the places of the records, and says for each place which record is to
come there. The records are then moved along the cycles of this permutation, with
room for one record besides. What is done is marked in the permutation itself: a
place that has its record becomes its own successor.
-/
namespace PaxosSolutions.XjPing
open Function

/-- `r_sort_index_t`. A record is where its slot is. -/
structure SortIndex where
  iId : ℕ
  iHead : ℕ
deriving DecidableEq, Repr

/-- The records and the permutation while records are moved. -/
structure Arranging where
  head : ℕ → RHead
  rel : ℕ → SortIndex

/-- A copied record has the numbers of the place it is copied to. -/
def RHead.numbered (rp dst : RHead) : RHead := { rp with rRel := dst.rRel, rAbs := dst.rAbs }

/-- The record `rp` comes to the place `j`, which is done. -/
def Arranging.put (abs : ℕ → ℕ) (j : ℕ) (rp : RHead) (s : Arranging) : Arranging where
  head := update s.head (abs j) (rp.numbered (s.head (abs j)))
  rel := update s.rel j { s.rel j with iId := j }

/-- The loop of `_rdb_arrange_data` over the cycle of `is`. It ends at the last place
of the cycle, or after too many places. -/
def arrangeCycle (abs : ℕ → ℕ) (is : ℕ) : ℕ → ℕ → Arranging → Arranging × Option ℕ
  | 0, _, s => (s, none)
  | k + 1, j, s =>
      let l := (s.rel j).iId
      let s := s.put abs j (s.head (s.rel j).iHead)
      if (s.rel l).iId = is then (s, some l) else arrangeCycle abs is k l s

/-- The loop of `_rdb_arrange_data` over the next `k` of `n` places. It answers
whether it has come to its end, which it does not on `E_RDB_CONFUSED`. -/
def arrangeFrom (abs : ℕ → ℕ) (n : ℕ) : ℕ → ℕ → Arranging → Arranging × Bool
  | 0, _, s => (s, true)
  | k + 1, i, s =>
      if (s.rel i).iId = i then arrangeFrom abs n k (i + 1) s
      else
        let wp := s.head (abs i)
        match arrangeCycle abs i n i s with
        | (s, some j) => arrangeFrom abs n k (i + 1) (s.put abs j wp)
        | (s, none) => (s, false)

/-- `_rdb_arrange_data` -/
def rdbArrangeData (abs : ℕ → ℕ) (n : ℕ) (s : Arranging) : Arranging × Bool :=
  arrangeFrom abs n n 0 s

/-! ### The permutation -/

/-- The order of `n` places: which record comes to which place. -/
structure Reorder (n : ℕ) (abs σ : ℕ → ℕ) : Prop where
  lt : ∀ {x}, x < n → σ x < n
  inj : ∀ {x y}, x < n → y < n → σ x = σ y → x = y
  absInj : ∀ {x y}, x < n → y < n → abs x = abs y → x = y

/-- A place that has its record -/
def Arranging.Done (s : Arranging) (x : ℕ) : Prop := (s.rel x).iId = x

/-- The records of the places that are done have been moved, the others have not. -/
structure Moving (n : ℕ) (abs σ : ℕ → ℕ) (head : ℕ → RHead) (s : Arranging) : Prop where
  iHead : ∀ x < n, (s.rel x).iHead = abs (σ x)
  iId : ∀ x < n, ¬s.Done x → (s.rel x).iId = σ x
  todo : ∀ x < n, ¬s.Done x → s.head (abs x) = head (abs x)
  done : ∀ x < n, s.Done x → s.head (abs x) = (head (abs (σ x))).numbered (head (abs x))
  other : ∀ a, (∀ x < n, abs x ≠ a) → s.head a = head a

/-- A cycle of which nothing has been moved, but for that of `is`. -/
def Arranging.OpenAt (s : Arranging) (n : ℕ) (σ : ℕ → ℕ) (is : ℕ) : Prop :=
  ∀ x < n, ¬s.Done x → σ x ≠ is → ¬s.Done (σ x)

def Arranging.Closed (s : Arranging) (n : ℕ) (σ : ℕ → ℕ) : Prop :=
  ∀ x < n, ¬s.Done x → ¬s.Done (σ x)

variable {n i is j k l x y : ℕ} {abs σ : ℕ → ℕ} {head : ℕ → RHead} {s : Arranging} {rp : RHead}

theorem put_done : (s.put abs j rp).Done x ↔ x = j ∨ s.Done x := by
  unfold Arranging.Done Arranging.put
  by_cases h : x = j
  · simp [h]
  · simp [h]

theorem not_put_done : ¬(s.put abs j rp).Done x ↔ x ≠ j ∧ ¬s.Done x := by
  rw [put_done, not_or]

theorem put_iId_ne (h : x ≠ j) : ((s.put abs j rp).rel x).iId = (s.rel x).iId := by
  simp [Arranging.put, h]

/-- The record of a place is put there. -/
theorem Moving.put (h : Moving n abs σ head s) (hσ : Reorder n abs σ) (hj : j < n)
    (hdone : ¬s.Done j) (hrp : rp = head (abs (σ j))) : Moving n abs σ head (s.put abs j rp) where
  iHead x hx := by
    rw [← h.iHead x hx]
    by_cases hxj : x = j <;> simp [Arranging.put, hxj]
  iId x hx hnd := by
    obtain ⟨hxj, hnd⟩ := not_put_done.mp hnd
    rw [put_iId_ne hxj, h.iId x hx hnd]
  todo x hx hnd := by
    obtain ⟨hxj, hnd⟩ := not_put_done.mp hnd
    have habs : abs x ≠ abs j := fun he => hxj (hσ.absInj hx hj he)
    rw [← h.todo x hx hnd]
    exact update_of_ne habs ..
  done x hx hd := by
    by_cases hxj : x = j
    · subst hxj
      rw [← h.todo x hx hdone, ← hrp]
      exact update_self ..
    · have habs : abs x ≠ abs j := fun he => hxj (hσ.absInj hx hj he)
      rw [← h.done x hx ((put_done.mp hd).resolve_left hxj)]
      exact update_of_ne habs ..
  other a ha := by
    rw [← h.other a ha]
    exact update_of_ne (ha j hj).symm ..

/-! ### One cycle -/

/-- The places that are not done -/
def Arranging.left (s : Arranging) (n : ℕ) : Finset ℕ :=
  (Finset.range n).filter fun x => (s.rel x).iId ≠ x

theorem mem_left : x ∈ s.left n ↔ x < n ∧ ¬s.Done x := by
  rw [Arranging.left, Finset.mem_filter, Finset.mem_range]
  rfl

theorem left_put_lt (abs : ℕ → ℕ) (rp : RHead) (hj : j < n) (hdone : ¬s.Done j) :
    ((s.put abs j rp).left n).card < (s.left n).card := by
  refine Finset.card_lt_card ⟨fun x hx => ?_, fun hsub => ?_⟩
  · obtain ⟨hx, hnd⟩ := mem_left.mp hx
    exact mem_left.mpr ⟨hx, (not_put_done.mp hnd).2⟩
  · have hleft := mem_left.mp (hsub (mem_left.mpr ⟨hj, hdone⟩))
    exact hleft.2 (put_done.mpr (.inl rfl))

/-- What is known before a place `j` of the cycle of `is` that is not the last one:
what leads there has been done, if it is not the first one. -/
structure CycleAt (n : ℕ) (abs σ : ℕ → ℕ) (head : ℕ → RHead) (is j : ℕ) (s : Arranging) : Prop where
  moving : Moving n abs σ head s
  lt : j < n
  todo : ¬s.Done j
  next : σ j ≠ is
  openAt : s.OpenAt n σ is
  entered : ∀ x < n, ¬s.Done x → σ x = j → j = is

/-- What is known at the last place `l` of the cycle of `is`. -/
structure CycleEnd (n : ℕ) (abs σ : ℕ → ℕ) (head : ℕ → RHead) (is l : ℕ) (s : Arranging) : Prop where
  moving : Moving n abs σ head s
  lt : l < n
  todo : ¬s.Done l
  next : σ l = is
  openAt : s.OpenAt n σ is
  entered : ∀ x < n, ¬s.Done x → σ x ≠ l

/-- The record of the next place comes to the place `j`. -/
def Arranging.move (abs : ℕ → ℕ) (j : ℕ) (s : Arranging) : Arranging :=
  s.put abs j (s.head (s.rel j).iHead)

theorem CycleAt.next_todo (h : CycleAt n abs σ head is j s) : ¬(s.move abs j).Done (σ j) := by
  have hne : σ j ≠ j := by
    rw [← h.moving.iId j h.lt h.todo]
    exact h.todo
  exact not_put_done.mpr ⟨hne, h.openAt j h.lt h.todo h.next⟩

theorem CycleAt.move_moving (h : CycleAt n abs σ head is j s) (hσ : Reorder n abs σ) :
    Moving n abs σ head (s.move abs j) := by
  refine h.moving.put hσ h.lt h.todo ?_
  rw [h.moving.iHead j h.lt]
  exact h.moving.todo (σ j) (hσ.lt h.lt) (h.openAt j h.lt h.todo h.next)

theorem CycleAt.move_openAt (h : CycleAt n abs σ head is j s) : (s.move abs j).OpenAt n σ is := by
  intro x hx hnd hxis
  obtain ⟨_, hnd⟩ := not_put_done.mp hnd
  refine not_put_done.mpr ⟨fun hxj => ?_, h.openAt x hx hnd hxis⟩
  exact hxis (hxj.trans (h.entered x hx hnd hxj))

/-- Only the place `j` leads to the next one. -/
theorem CycleAt.move_entered (h : CycleAt n abs σ head is j s) (hσ : Reorder n abs σ) (hx : x < n)
    (hnd : ¬(s.move abs j).Done x) : σ x ≠ σ j :=
  fun he => (not_put_done.mp hnd).1 (hσ.inj hx h.lt he)

/-- The loop goes through the cycle to its last place. -/
theorem arrangeCycle_spec (hσ : Reorder n abs σ) (h : CycleAt n abs σ head is j s)
    (hk : (s.left n).card ≤ k) : ∃ l u, arrangeCycle abs is k j s = (u, some l) ∧
      CycleEnd n abs σ head is l u ∧ u.Done j ∧ ∀ x, s.Done x → u.Done x := by
  induction k generalizing j s with
  | zero =>
      have hmem := mem_left.mpr ⟨h.lt, h.todo⟩
      rw [Finset.card_eq_zero.mp (Nat.le_zero.mp hk)] at hmem
      cases hmem
  | succ k ih =>
      have hleft := left_put_lt abs (s.head (s.rel j).iHead) h.lt h.todo
      have hmoving := h.move_moving hσ
      have hlt := hσ.lt h.lt
      have hl : (s.rel j).iId = σ j := h.moving.iId j h.lt h.todo
      have hnext : ((s.move abs j).rel (σ j)).iId = σ (σ j) := hmoving.iId (σ j) hlt h.next_todo
      have hmono : ∀ x, s.Done x → (s.move abs j).Done x := fun x hd => put_done.mpr (.inr hd)
      have hj : (s.move abs j).Done j := put_done.mpr (.inl rfl)
      rw [arrangeCycle, hl]
      change ∃ l u, (if ((s.move abs j).rel (σ j)).iId = is then (s.move abs j, some (σ j))
        else arrangeCycle abs is k (σ j) (s.move abs j)) = (u, some l) ∧ _
      rw [hnext]
      by_cases hend : σ (σ j) = is
      · exact ⟨σ j, s.move abs j, if_pos hend, ⟨hmoving, hlt, h.next_todo, hend, h.move_openAt,
          fun x hx hnd => h.move_entered hσ hx hnd⟩, hj, hmono⟩
      · have hat : CycleAt n abs σ head is (σ j) (s.move abs j) :=
          ⟨hmoving, hlt, h.next_todo, hend, h.move_openAt,
            fun x hx hnd he => absurd he (h.move_entered hσ hx hnd)⟩
        have hk : ((s.move abs j).left n).card ≤ k := Nat.le_of_lt_succ (hleft.trans_le hk)
        obtain ⟨l, u, hrun, hcycle, _, hkept⟩ := ih hat hk
        exact ⟨l, u, (if_neg hend).trans hrun, hcycle, hkept j hj, fun x hd => hkept x (hmono x hd)⟩

/-- With the first record at the last place the cycle is closed. -/
theorem CycleEnd.closed (h : CycleEnd n abs σ head is l s) (hσ : Reorder n abs σ) :
    (s.put abs l rp).Closed n σ := by
  intro x hx hnd
  obtain ⟨hxl, hnd⟩ := not_put_done.mp hnd
  have hxis : σ x ≠ is := fun he => hxl (hσ.inj hx h.lt (he.trans h.next.symm))
  exact not_put_done.mpr ⟨h.entered x hx hnd, h.openAt x hx hnd hxis⟩

/-! ### All cycles -/

theorem arrangeFrom_spec (hσ : Reorder n abs σ) (hmoving : Moving n abs σ head s)
    (hclosed : s.Closed n σ) (hik : i + k = n) (hbelow : ∀ x < i, s.Done x) :
    ∃ u, arrangeFrom abs n k i s = (u, true) ∧ Moving n abs σ head u ∧ ∀ x < n, u.Done x := by
  induction k generalizing i s with
  | zero =>
      obtain rfl : i = n := hik
      exact ⟨s, rfl, hmoving, hbelow⟩
  | succ k ih =>
      rw [arrangeFrom]
      by_cases hi : (s.rel i).iId = i
      · rw [if_pos hi]
        refine ih hmoving hclosed (by omega) fun x hx => ?_
        rcases Nat.lt_succ_iff_lt_or_eq.mp hx with hx | rfl
        · exact hbelow x hx
        · exact hi
      · rw [if_neg hi]
        have hlt : i < n := by omega
        have hne : σ i ≠ i := by
          rw [← hmoving.iId i hlt hi]
          exact hi
        have hat : CycleAt n abs σ head i i s :=
          ⟨hmoving, hlt, hi, hne, fun x hx hnd _ => hclosed x hx hnd, fun _ _ _ _ => rfl⟩
        have hcard : (s.left n).card ≤ n := by
          refine (Finset.card_filter_le ..).trans_eq ?_
          exact Finset.card_range n
        obtain ⟨l, u, hrun, hcycle, hdone, hkept⟩ := arrangeCycle_spec hσ hat hcard
        dsimp only
        rw [hrun]
        have hwp : s.head (abs i) = head (abs (σ l)) := by
          rw [hcycle.next]
          exact hmoving.todo i hlt hi
        refine ih (hcycle.moving.put hσ hcycle.lt hcycle.todo hwp) (hcycle.closed hσ) (by omega) ?_
        intro x hx
        rcases Nat.lt_succ_iff_lt_or_eq.mp hx with hx | rfl
        · exact put_done.mpr (.inr (hkept x (hbelow x hx)))
        · exact put_done.mpr (.inr hdone)

/-- The index table after the sort: the record of the place `σ x` comes to `x`. -/
def reordered (abs σ : ℕ → ℕ) (x : ℕ) : SortIndex := ⟨σ x, abs (σ x)⟩

/-- Every permutation is carried out, and each place keeps its numbers. -/
theorem rdbArrangeData_spec (head : ℕ → RHead) (hσ : Reorder n abs σ) {rel : ℕ → SortIndex}
    (hrel : ∀ x < n, rel x = reordered abs σ x) :
    ∃ u, rdbArrangeData abs n ⟨head, rel⟩ = (u, true) ∧
      (∀ x < n, u.head (abs x) = (head (abs (σ x))).numbered (head (abs x))) ∧
      ∀ a, (∀ x < n, abs x ≠ a) → u.head a = head a := by
  have hid (x : ℕ) (hx : x < n) : (rel x).iId = σ x := congrArg SortIndex.iId (hrel x hx)
  have hdone (x : ℕ) (hx : x < n) : Arranging.Done ⟨head, rel⟩ x ↔ σ x = x := by
    rw [← hid x hx]
    rfl
  have hmoving : Moving n abs σ head ⟨head, rel⟩ := by
    refine ⟨fun x hx => ?_, fun x hx _ => hid x hx, fun _ _ _ => rfl, fun x hx hd => ?_,
      fun _ _ => rfl⟩
    · exact congrArg SortIndex.iHead (hrel x hx)
    · rw [(hdone x hx).mp hd]
      rfl
  have hclosed : Arranging.Closed ⟨head, rel⟩ n σ := by
    intro x hx hnd hd
    have hσx := (hdone (σ x) (hσ.lt hx)).mp hd
    exact hnd ((hdone x hx).mpr (hσ.inj (hσ.lt hx) hx hσx))
  obtain ⟨u, hrun, hu, hall⟩ := arrangeFrom_spec hσ hmoving hclosed (Nat.zero_add n)
    fun x hx => absurd hx (Nat.not_lt_zero x)
  exact ⟨u, hrun, fun x hx => hu.done x hx (hall x hx), hu.other⟩

end PaxosSolutions.XjPing
