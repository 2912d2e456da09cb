import Mathlib.Algebra.BigOperators.Group.List.Lemmas
import Mathlib.Data.List.Range
import Mathlib.Logic.Function.Basic

/-!
# Hash tables

`Hash_t` keeps chains in buckets chosen by the code of the key. A put goes to
the end of a chain and several items may share a key, so the table is a map
from keys to the values put under them, the oldest first.
-/
namespace PaxosSolutions.NWGadget

/-- `Hash_t`: bucket count, item count kept apart, and the chains. -/
structure Hash (κ β : Type) where
  hN : ℕ
  hCount : ℕ
  hHashCode : κ → ℕ
  hHeads : ℕ → List (κ × β)

namespace Hash
variable {κ β : Type}

/-- `HashInit` -/
def init (size : ℕ) (code : κ → ℕ) : Hash κ β := ⟨size, 0, code, fun _ => []⟩

/-- `HashCode`: the remainder of the key's code. -/
def index (h : Hash κ β) (key : κ) : ℕ := h.hHashCode key % h.hN

/-- `HashPut` -/
def put (h : Hash κ β) (key : κ) (v : β) : Hash κ β :=
  { h with
    hHeads := Function.update h.hHeads (h.index key) (h.hHeads (h.index key) ++ [(key, v)])
    hCount := h.hCount + 1 }

/-- The items in the order of the buckets. -/
def items (h : Hash κ β) : List (κ × β) := (List.range h.hN).flatMap h.hHeads

/-- The counter is right and every item is in the bucket of its key. -/
structure WF (h : Hash κ β) : Prop where
  pos : 0 < h.hN
  count : h.hCount = h.items.length
  place : ∀ i, ∀ x ∈ h.hHeads i, h.index x.1 = i

@[simp] theorem index_put (h : Hash κ β) (k k' : κ) (v : β) :
    (h.put k v).index k' = h.index k' := rfl

theorem wf_init {size : ℕ} (hs : 0 < size) (code : κ → ℕ) :
    (init size code : Hash κ β).WF where
  pos := hs
  count := by simp [items, init]
  place := by simp [init]

private theorem length_flatMap_update (f : ℕ → List (κ × β)) {n i : ℕ} (hi : i < n)
    (l : List (κ × β)) :
    ((List.range n).flatMap (Function.update f i l)).length + (f i).length =
      ((List.range n).flatMap f).length + l.length := by
  induction n with
  | zero => omega
  | succ n ih =>
      rw [List.range_succ]
      simp only [List.flatMap_append, List.length_append, List.flatMap_singleton]
      by_cases h : i = n
      · subst h
        have hc : (List.range i).flatMap (Function.update f i l) = (List.range i).flatMap f := by
          refine List.flatMap_congr fun j hj => ?_
          rw [Function.update_of_ne (by have := List.mem_range.mp hj; omega)]
        rw [hc, Function.update_self]
        omega
      · rw [Function.update_of_ne (Ne.symm h)]
        have := ih (by omega)
        omega

theorem WF.put {h : Hash κ β} (hw : h.WF) (k : κ) (v : β) : (h.put k v).WF where
  pos := hw.pos
  count := by
    have hl := length_flatMap_update h.hHeads (Nat.mod_lt (h.hHashCode k) hw.pos)
      (h.hHeads (h.index k) ++ [(k, v)])
    have hc := hw.count
    simp only [items, Hash.put, index, List.length_append, List.length_singleton] at hl hc ⊢
    omega
  place := by
    intro i x hx
    simp only [Hash.put] at hx
    by_cases hi : i = h.index k
    · subst hi
      rw [Function.update_self, List.mem_append, List.mem_singleton] at hx
      rcases hx with hx | rfl
      · exact hw.place _ x hx
      · rfl
    · rw [Function.update_of_ne hi] at hx
      exact hw.place i x hx

variable [DecidableEq κ]

/-- `HashGetItem`: the first item of the chain with an equal key. -/
def getItem (h : Hash κ β) (key : κ) : Option (κ × β) :=
  (h.hHeads (h.index key)).find? fun i => i.1 = key

/-- `HashRemoveItem` of the item that `HashGetItem` finds under the key. -/
def removeItem (h : Hash κ β) (key : κ) : Hash κ β :=
  { h with
    hHeads := Function.update h.hHeads (h.index key)
      ((h.hHeads (h.index key)).eraseP fun i => i.1 = key)
    hCount := h.hCount - 1 }

/-- The values under a key, the oldest first. -/
def valuesAt (h : Hash κ β) (key : κ) : List β :=
  ((h.hHeads (h.index key)).filter fun i => i.1 = key).map (·.2)

@[simp] theorem index_removeItem (h : Hash κ β) (k k' : κ) :
    (h.removeItem k).index k' = h.index k' := rfl

@[simp] theorem valuesAt_init (size : ℕ) (code : κ → ℕ) (k : κ) :
    (init size code : Hash κ β).valuesAt k = [] := rfl

theorem getItem_value (h : Hash κ β) (k : κ) :
    (h.getItem k).map (·.2) = (h.valuesAt k).head? := by
  unfold getItem valuesAt
  rw [List.head?_map, List.head?_filter]

theorem getItem_key {h : Hash κ β} {k : κ} {i : κ × β} (hi : h.getItem k = some i) : i.1 = k := by
  simpa using List.find?_some hi

theorem valuesAt_put (h : Hash κ β) (k k' : κ) (v : β) :
    (h.put k v).valuesAt k' = h.valuesAt k' ++ if k' = k then [v] else [] := by
  unfold valuesAt
  rw [index_put]
  by_cases hi : h.index k' = h.index k
  · simp only [put, hi, Function.update_self, List.filter_append, List.map_append]
    by_cases hk : k' = k
    · simp [hk]
    · simp [hk, Ne.symm hk]
  · have hk : k' ≠ k := fun e => hi (by rw [e])
    simp [put, Function.update_of_ne hi, hk]

private theorem filter_eraseP (k : κ) (l : List (κ × β)) :
    (l.eraseP fun i => i.1 = k).filter (fun i => i.1 = k) =
      (l.filter fun i => i.1 = k).tail := by
  induction l with
  | nil => rfl
  | cons x xs ih =>
      by_cases hx : x.1 = k
      · simp [hx]
      · simp [hx, ih]

private theorem filter_eraseP_ne {k k' : κ} (hk : k' ≠ k) (l : List (κ × β)) :
    (l.eraseP fun i => i.1 = k).filter (fun i => i.1 = k') = l.filter fun i => i.1 = k' := by
  induction l with
  | nil => rfl
  | cons x xs ih =>
      by_cases hx : x.1 = k
      · simp [hx, Ne.symm hk]
      · simp [hx, List.filter_cons, ih]

theorem valuesAt_removeItem (h : Hash κ β) (k k' : κ) :
    (h.removeItem k).valuesAt k' = if k' = k then (h.valuesAt k).tail else h.valuesAt k' := by
  unfold valuesAt
  rw [index_removeItem]
  by_cases hi : h.index k' = h.index k
  · simp only [removeItem, hi, Function.update_self]
    split_ifs with hk
    · rw [hk, filter_eraseP, List.map_tail]
    · rw [filter_eraseP_ne hk]
  · have hk : k' ≠ k := fun e => hi (by rw [e])
    simp [removeItem, Function.update_of_ne hi, hk]

theorem mem_valuesAt {h : Hash κ β} {k : κ} {v : β} :
    v ∈ h.valuesAt k ↔ (k, v) ∈ h.hHeads (h.index k) := by
  simp only [valuesAt, List.mem_map, List.mem_filter, decide_eq_true_eq]
  constructor
  · rintro ⟨⟨a, b⟩, ⟨hm, rfl⟩, rfl⟩
    exact hm
  · exact fun hm => ⟨(k, v), ⟨hm, rfl⟩, rfl⟩

theorem WF.mem_items {h : Hash κ β} (hw : h.WF) {k : κ} {v : β} :
    (k, v) ∈ h.items ↔ v ∈ h.valuesAt k := by
  rw [mem_valuesAt]
  simp only [items, List.mem_flatMap, List.mem_range]
  constructor
  · rintro ⟨i, -, hm⟩
    rwa [hw.place i _ hm]
  · exact fun hm => ⟨_, Nat.mod_lt _ hw.pos, hm⟩

theorem WF.removeItem {h : Hash κ β} (hw : h.WF) {k : κ} {i : κ × β}
    (hg : h.getItem k = some i) : (h.removeItem k).WF where
  pos := hw.pos
  count := by
    have hl := length_flatMap_update h.hHeads (Nat.mod_lt (h.hHashCode k) hw.pos)
      ((h.hHeads (h.index k)).eraseP fun i => i.1 = k)
    have hm := List.mem_of_find?_eq_some hg
    have he := List.length_eraseP_of_mem hm (p := fun i => decide (i.1 = k))
      (by simpa using getItem_key hg)
    have hp := List.length_pos_of_mem hm
    have hc := hw.count
    simp only [items, Hash.removeItem, index] at hl hc he hp ⊢
    omega
  place := by
    intro j x hx
    simp only [Hash.removeItem] at hx
    by_cases hi : j = h.index k
    · subst hi
      rw [Function.update_self] at hx
      exact hw.place _ x (List.mem_of_mem_eraseP hx)
    · rw [Function.update_of_ne hi] at hx
      exact hw.place j x hx

end Hash

end PaxosSolutions.NWGadget
