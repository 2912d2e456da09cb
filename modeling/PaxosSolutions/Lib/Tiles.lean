import Mathlib.Algebra.Ring.Nat
import Mathlib.Algebra.BigOperators.Group.List.Basic
import Mathlib.Algebra.Order.BigOperators.Group.List

/-!
# Tiles

Things of some length each that lie one behind the other from a place on. A
place has one tile at most, and two tiles do not overlap.
-/
namespace PaxosSolutions.Lib.Tiles
variable {α : Type} {len : α → ℕ} {l A B : List α} {a b : α} {i j k : ℕ}

/-- The length of a row -/
def span (len : α → ℕ) (l : List α) : ℕ := (l.map len).sum

/-- The tiles of a row by their places -/
def places (len : α → ℕ) : ℕ → List α → List (ℕ × α)
  | _, [] => []
  | i, a :: l => (i, a) :: places len (i + len a) l

@[simp] theorem span_nil : span len [] = 0 := rfl

@[simp] theorem span_cons : span len (a :: l) = len a + span len l := List.sum_cons

@[simp] theorem span_append : span len (A ++ B) = span len A + span len B := by
  unfold span
  rw [List.map_append, List.sum_append]

theorem places_append (i : ℕ) (A B : List α) :
    places len i (A ++ B) = places len i A ++ places len (i + span len A) B := by
  induction A generalizing i with
  | nil => rfl
  | cons a A ih =>
      rw [List.cons_append, places, ih, places, List.cons_append, span_cons, Nat.add_assoc]

/-- A tile is at a place if the tiles before it reach up to there. -/
theorem mem_places : (i, a) ∈ places len k l ↔ ∃ A B, l = A ++ a :: B ∧ i = k + span len A := by
  induction l generalizing k with
  | nil =>
      refine iff_of_false List.not_mem_nil ?_
      rintro ⟨A, B, h, -⟩
      exact List.append_ne_nil_of_right_ne_nil A (List.cons_ne_nil a B) h.symm
  | cons b l ih =>
      rw [places, List.mem_cons, ih]
      constructor
      · rintro (h | ⟨A, B, rfl, rfl⟩)
        · obtain ⟨rfl, rfl⟩ := Prod.mk.inj h
          exact ⟨[], l, rfl, rfl⟩
        · exact ⟨b :: A, B, rfl, by rw [span_cons, Nat.add_assoc]⟩
      · rintro ⟨A, B, h, rfl⟩
        cases A with
        | nil =>
            obtain ⟨rfl, rfl⟩ := List.cons.inj h
            exact .inl rfl
        | cons c A =>
            obtain ⟨rfl, rfl⟩ := List.cons.inj h
            exact .inr ⟨A, B, rfl, by rw [span_cons, Nat.add_assoc]⟩

theorem mem_places_mid (A B : List α) (a : α) : (span len A, a) ∈ places len 0 (A ++ a :: B) :=
  mem_places.mpr ⟨A, B, rfl, (Nat.zero_add _).symm⟩

theorem le_of_mem (h : (i, a) ∈ places len k l) : k ≤ i ∧ i + len a ≤ k + span len l := by
  obtain ⟨A, B, rfl, rfl⟩ := mem_places.mp h
  rw [span_append, span_cons]
  omega

/-- Two tiles are one tile or do not overlap. -/
theorem apart (h : (i, a) ∈ places len k l) (h' : (j, b) ∈ places len k l) :
    (i = j ∧ a = b) ∨ i + len a ≤ j ∨ j + len b ≤ i := by
  induction l generalizing k with
  | nil => cases h
  | cons c l ih =>
      rw [places, List.mem_cons] at h h'
      rcases h with h | h
      · obtain ⟨rfl, rfl⟩ := Prod.mk.inj h
        rcases h' with h' | h'
        · obtain ⟨rfl, rfl⟩ := Prod.mk.inj h'
          exact .inl ⟨rfl, rfl⟩
        · exact .inr (.inl (le_of_mem h').1)
      · rcases h' with h' | h'
        · obtain ⟨rfl, rfl⟩ := Prod.mk.inj h'
          exact .inr (.inr (le_of_mem h).1)
        · exact ih h h'

/-- A place with a tile of some length has no other tile. -/
theorem unique (hlen : ∀ a, 0 < len a) (h : (i, a) ∈ places len k l) (h' : (i, b) ∈ places len k l) :
    a = b := by
  have ha := hlen a
  have hb := hlen b
  rcases apart h h' with ⟨-, h⟩ | h | h
  · exact h
  · omega
  · omega

theorem places_sorted (hlen : ∀ a, 0 < len a) (k : ℕ) (l : List α) :
    (places len k l).Pairwise fun x y => x.1 < y.1 := by
  induction l generalizing k with
  | nil => exact List.Pairwise.nil
  | cons a l ih =>
      refine List.pairwise_cons.mpr ⟨?_, ih (k + len a)⟩
      rintro ⟨i, b⟩ hb
      have hk := (le_of_mem hb).1
      have ha := hlen a
      omega

/-- What lies on the tiles that are not exchanged stays where it is. -/
theorem places_exchange {X Y : List α} (hXY : span len X = span len Y)
    (h : (i, a) ∈ places len k (A ++ X ++ B))
    (hX : (i, a) ∉ places len (k + span len A) X) :
    (i, a) ∈ places len k (A ++ Y ++ B) := by
  rw [places_append, places_append, List.mem_append, List.mem_append, span_append] at h ⊢
  rcases h with (h | h) | h
  · exact .inl (.inl h)
  · exact absurd h hX
  · exact .inr (hXY ▸ h)

/-- A place where a tile begins, or the end of the row -/
def Edge (len : α → ℕ) (l : List α) (i : ℕ) : Prop := ∃ A B, l = A ++ B ∧ i = span len A

theorem edge_append (A B : List α) : Edge len (A ++ B) (span len A) := ⟨A, B, rfl, rfl⟩

theorem edge_of_mem (h : (i, a) ∈ places len 0 l) : Edge len l i := by
  obtain ⟨A, B, rfl, rfl⟩ := mem_places.mp h
  rw [Nat.zero_add]
  exact edge_append A _

/-- A tile has no edge inside. -/
theorem not_edge_inside (hi : span len A < i) (hi' : i < span len A + len a) :
    ¬ Edge len (A ++ a :: B) i := by
  rintro ⟨C, D, h, rfl⟩
  rcases List.append_eq_append_iff.mp h with ⟨E, rfl, hE⟩ | ⟨E, rfl, -⟩
  · rw [span_append] at hi hi'
    cases E with
    | nil => exact Nat.lt_irrefl _ hi
    | cons e E =>
        obtain ⟨rfl, -⟩ := List.cons.inj hE
        rw [span_cons] at hi'
        omega
  · rw [span_append] at hi
    omega

/-- The edges stay where a tile is cut into several. -/
theorem Edge.cut {Y : List α} (h : Edge len (A ++ a :: B) i) (hY : span len Y = len a) :
    Edge len (A ++ (Y ++ B)) i := by
  obtain ⟨C, D, h, rfl⟩ := h
  rcases List.append_eq_append_iff.mp h with ⟨E, rfl, hE⟩ | ⟨E, rfl, -⟩
  · cases E with
    | nil =>
        rw [List.append_nil]
        exact edge_append A _
    | cons e E =>
        obtain ⟨rfl, rfl⟩ := List.cons.inj hE
        refine ⟨A ++ (Y ++ E), D, ?_, by simp only [span_append, span_cons, hY]⟩
        rw [List.append_assoc, List.append_assoc]
        rfl
  · exact ⟨C, E ++ (Y ++ B), List.append_assoc _ _ _, rfl⟩

end PaxosSolutions.Lib.Tiles
