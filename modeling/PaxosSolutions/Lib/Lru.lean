import Mathlib.Data.List.Nodup

/-!
# Rows of elements in the order of their use

A cache keeps a row of elements under keys, the one that was used longest ago
first. An element that is used goes to the end of the row, one that is changed
stays where it is, and a new one finds room or takes that of the first.
-/
namespace PaxosSolutions.Lib.Lru
variable {κ α : Type} (key : α → κ) {k : κ} {a b : α} {as : List α}

/-- No two elements have one key. -/
def Unique (as : List α) : Prop := (as.map key).Nodup

/-- There is no bound, or the row is shorter. -/
def Room (max : ℕ) (as : List α) : Prop := max = 0 ∨ as.length < max

instance (max : ℕ) (as : List α) : Decidable (Room max as) :=
  inferInstanceAs (Decidable (_ ∨ _))

variable {key}

theorem Unique.eq (h : Unique key as) (ha : a ∈ as) (hb : b ∈ as) (hk : key a = key b) : a = b :=
  List.inj_on_of_nodup_map h ha hb hk

theorem Unique.filter (h : Unique key as) (p : α → Bool) : Unique key (as.filter p) :=
  h.sublist (List.filter_sublist.map key)

theorem Unique.tail (h : Unique key (a :: as)) : Unique key as := (List.nodup_cons.mp h).2

theorem Unique.snoc (h : Unique key as) (ha : ∀ b ∈ as, key b ≠ key a) :
    Unique key (as ++ [a]) := by
  unfold Unique
  rw [List.map_append]
  refine List.Nodup.append h (List.nodup_singleton _) ?_
  intro k hk hka
  obtain ⟨b, hb, rfl⟩ := List.mem_map.mp hk
  exact ha b hb (List.mem_singleton.mp hka)

variable (key) [DecidableEq κ]

def find (k : κ) (as : List α) : Option α := as.find? fun a => key a = k

def without (k : κ) (as : List α) : List α := as.filter fun a => key a ≠ k

/-- The element goes to the end of the row. -/
def use (a : α) (as : List α) : List α := without key (key a) as ++ [a]

/-- The element takes the place of that of its key. -/
def set (a : α) (as : List α) : List α := as.map fun b => if key b = key a then a else b

variable {key}

theorem find_some (h : find key k as = some a) : a ∈ as ∧ key a = k :=
  ⟨List.mem_of_find?_eq_some h, by simpa using List.find?_some h⟩

theorem find_none : find key k as = none ↔ ∀ a ∈ as, key a ≠ k := by simp [find]

theorem mem_without : a ∈ without key k as ↔ a ∈ as ∧ key a ≠ k := by simp [without]

theorem mem_use : b ∈ use key a as ↔ b ∈ as ∧ key b ≠ key a ∨ b = a := by
  unfold use
  rw [List.mem_append, mem_without, List.mem_singleton]

theorem mem_set (h : b ∈ set key a as) : b = a ∨ b ∈ as ∧ key b ≠ key a := by
  obtain ⟨d, hd, hb⟩ := List.mem_map.mp h
  split at hb
  · exact .inl hb.symm
  · rename_i hne
    exact .inr (hb ▸ ⟨hd, hne⟩)

theorem Unique.find (h : Unique key as) (ha : a ∈ as) : find key (key a) as = some a := by
  cases hf : Lru.find key (key a) as with
  | none => exact absurd rfl (find_none.mp hf a ha)
  | some b =>
      obtain ⟨hb, hk⟩ := find_some hf
      rw [h.eq hb ha hk]

theorem Unique.use (h : Unique key as) : Unique key (use key a as) :=
  (h.filter _).snoc fun _ hb => (mem_without.mp hb).2

theorem map_set : (set key a as).map key = as.map key := by
  unfold set
  rw [List.map_map]
  refine List.map_congr_left fun b _ => ?_
  dsimp only [Function.comp_apply]
  split
  · rename_i h
    exact h.symm
  · rfl

theorem Unique.set (h : Unique key as) : Unique key (set key a as) := by
  unfold Unique
  rw [map_set]
  exact h

end PaxosSolutions.Lib.Lru
