import PaxosSolutions.NWGadget.BTreeFind

/-!
# The height of a B-tree

Every page but the root has at least as many items as the order of the tree, so
the keys below a page grow with the power of its level. A tree has no page that
is deeper than the logarithm of its keys, and the descents of the insertion and
of the searches visit no more pages than that.
-/
namespace PaxosSolutions.NWGadget
open Lib BTHeap

variable {α : Type}

/-- A row whose children have `c` keys or more, counted with one more each -/
theorem le_rowKeys {K : Option BTAddr → List α} {e : ℕ → α × Option BTAddr} {c m : ℕ}
    (hK : ∀ r ≤ m, c ≤ (K (e r).2).length + 1) : (m + 1) * c ≤ (rowKeys K e m).length + 1 := by
  induction m with
  | zero =>
      have h := hK 0 (Nat.le_refl 0)
      rw [rowKeys_at (Nat.le_refl 0), rowBehind_self, List.append_nil, Nat.zero_add, Nat.one_mul]
      exact h
  | succ m ih =>
      have hlast := hK (m + 1) (Nat.le_refl _)
      have hrow := ih fun r hr => hK r (by omega)
      rw [rowKeys_at (Nat.le_refl m), rowBehind_self, List.append_nil, List.length_append] at hrow
      rw [rowKeys_at (Nat.le_refl _), rowBehind_self, List.append_nil, rowBefore_succ,
        List.length_append, List.length_append, List.length_append, List.length_singleton]
      rw [Nat.succ_mul]
      omega

variable [Inhabited α]

section Height
variable {t : BTree α} {root p : BTAddr} {lv : BTAddr → Option ℕ} {top k d fuel : ℕ} {keys : List α}

/-- The keys below a page that is not the root -/
theorem Grown.pow_le (hg : Grown t root lv top keys) (hp : lv p = some k) (hne : p ≠ root) :
    (t.bN + 1) ^ (k + 1) ≤ (t.heap.keys (k + 1) (some p)).length + 1 := by
  have hroom : ∀ q j, lv q = some j → q ≠ root → t.bN + 1 ≤ (t.heap q).pM + 1 := by
    intro q j hq hqne
    have hlow := (hg.filled q j hq).1
    rw [if_neg hqne] at hlow
    exact Nat.succ_le_succ hlow
  induction k generalizing p with
  | zero =>
      rw [keys_some, Nat.zero_add, Nat.pow_one]
      refine (hroom p 0 hp hne).trans ((Nat.mul_one _).symm.le.trans ?_)
      exact le_rowKeys fun r _ => Nat.le_add_left 1 _
  | succ k ih =>
      rw [keys_some, Nat.pow_succ, Nat.mul_comm]
      refine (Nat.mul_le_mul_right _ (hroom p _ hp hne)).trans (le_rowKeys fun r hr => ?_)
      obtain ⟨c, hc, hlv⟩ := (hg.shape.page p (k + 1) hp).below r hr
      rw [hc]
      exact ih hlv (ChildOf.ne_root hg.shape ⟨hp, hr, hc⟩)

/-- The keys of a tree, which has an item in its root -/
theorem Grown.height (hg : Grown t root lv top keys) : 2 * (t.bN + 1) ^ top ≤ keys.length + 1 := by
  have hlow := hg.pos hg.shape.atTop
  rw [← hg.keys, keys_some]
  refine (Nat.mul_le_mul_right _ (show 2 ≤ (t.heap root).pM + 1 by omega)).trans ?_
  refine le_rowKeys fun r hr => ?_
  cases htop : top with
  | zero =>
      rw [Nat.pow_zero]
      exact Nat.le_add_left 1 _
  | succ k =>
      have hat := hg.shape.atTop
      rw [htop] at hat
      obtain ⟨c, hc, hlv⟩ := (hg.shape.page root (k + 1) hat).below r hr
      rw [hc]
      exact hg.pow_le hlv (ChildOf.ne_root hg.shape ⟨hat, hr, hc⟩)

/-- With so many pages the descent of an insertion comes to a leaf. -/
theorem Grown.findLeaf_some (hg : Grown t root lv top keys) (hc : Preorders t.bCompare)
    (ho : Ordered t.bCompare keys) (hfuel : top < fuel) (pKey : α) :
    (t.findLeaf pKey fuel root).isSome := by
  rw [← hg.keys] at ho
  obtain ⟨a, R, X, Y, hrun, -⟩ := findLeaf_spot hg.shape hg.shape.context_root (ho.cut hc pKey)
    (fun x hx => absurd hx List.not_mem_nil) (fun x hx => absurd hx List.not_mem_nil) hfuel
  rw [hrun]
  rfl

theorem Grown.findLower_some (hg : Grown t root lv top keys) (hc : Preorders t.bCompare)
    (ho : Ordered t.bCompare keys) (hfuel : top < fuel) (pKey : α) (cur : BTCursor α) :
    (findLower t pKey fuel (some root) { cur with cPage := none }).isSome := by
  rw [← hg.keys] at ho
  have hopen : At t root lv top (fun x => decide (t.bCompare x pKey < 0)) { cur with cPage := none }
      ([] ++ t.heap.keys (top + 1) (some root)) [] := .inl ⟨rfl, rfl⟩
  obtain ⟨cur', L, M, hrun, -⟩ := findLower_at hg.shape hc ho (fun q j hq => hg.pos hq)
    hg.shape.context_root (fun x hx => absurd hx List.not_mem_nil) hopen hfuel
  rw [hrun]
  rfl

theorem Grown.findUpper_some (hg : Grown t root lv top keys) (hc : Preorders t.bCompare)
    (ho : Ordered t.bCompare keys) (hfuel : top < fuel) (pKey : α) (cur : BTCursor α) :
    (findUpper t pKey fuel (some root) { cur with cPage := none }).isSome := by
  rw [← hg.keys] at ho
  have hopen : UpTo t root lv top (fun x => decide (t.bCompare x pKey ≤ 0))
      { cur with cPage := none } [] (t.heap.keys (top + 1) (some root) ++ []) := .inl ⟨rfl, rfl⟩
  obtain ⟨cur', L, M, hrun, -⟩ := findUpper_upTo hg.shape hc ho (fun q j hq => hg.pos hq)
    hg.shape.context_root (fun x hx => absurd hx List.not_mem_nil)
    (fun x hx => absurd hx List.not_mem_nil) hopen hfuel
  rw [hrun]
  rfl

end Height

section Runs
variable {n : ℕ} {fCompare : α → α → ℤ} {t : BTree α} {I D : Multiset α}

/-- In every tree of a run a page at distance `d` from the root needs `2 * (n + 1) ^ d - 1` keys.
So the descents of an insertion and of a search for any key end within as many pages as that
allows for the keys there are. -/
theorem btRuns_height (hn : 1 ≤ n) (hc : Preorders fCompare) (hr : BTRuns n fCompare t I D) :
    (∀ d p, t.HasPage d p → 2 * (n + 1) ^ d ≤ t.inOrder.length + 1) ∧
      ∀ root fuel, t.bRoot = some root → t.inOrder.length + 1 < 2 * (n + 1) ^ fuel →
        ∀ (pKey : α) (cur : BTCursor α), (t.findLeaf pKey fuel root).isSome ∧
          (findLower t pKey fuel t.bRoot { cur with cPage := none }).isSome ∧
          (findUpper t pKey fuel t.bRoot { cur with cPage := none }).isSome := by
  obtain ⟨keys, hf⟩ := hr.followed hn hc
  rw [hf.has.inOrder]
  have ho := hf.ordered
  rw [← hf.compare] at hc ho
  rw [← hf.order]
  obtain ⟨-, ⟨hroot, -⟩ | ⟨root, lv, top, hg⟩⟩ := hf.has
  · refine ⟨fun d p hp => absurd hroot hp.root_some, fun root fuel hsome => ?_⟩
    cases hroot.symm.trans hsome
  · have hheight := hg.height
    constructor
    · intro d p hp
      have hpow : (t.bN + 1) ^ d ≤ (t.bN + 1) ^ top :=
        Nat.pow_le_pow_right (Nat.succ_pos _) (hg.hasPage hp).1
      omega
    · intro root' fuel hroot hfuel pKey cur
      obtain rfl : root = root' := Option.some.inj (hg.bRoot.symm.trans hroot)
      have hpow : (t.bN + 1) ^ top < (t.bN + 1) ^ fuel := by omega
      have hlt : top < fuel := (Nat.pow_lt_pow_iff_right (Nat.lt_succ_of_le hg.order)).mp hpow
      rw [hroot]
      exact ⟨hg.findLeaf_some hc ho hlt pKey, hg.findLower_some hc ho hlt pKey cur,
        hg.findUpper_some hc ho hlt pKey cur⟩

/-- Four keys in three pages: two pages are enough for each descent. -/
theorem btRuns_height_two : ∃ t root, BTRuns 1 (fun a b : ℤ => a - b) t (4 ::ₘ 3 ::ₘ 2 ::ₘ 1 ::ₘ 0) 0 ∧
    t.bRoot = some root ∧ t.inOrder.length = 4 ∧
    ∀ (pKey : ℤ) (cur : BTCursor ℤ), (t.findLeaf pKey 2 root).isSome ∧
      (findLower t pKey 2 t.bRoot { cur with cPage := none }).isSome ∧
      (findUpper t pKey 2 t.bRoot { cur with cPage := none }).isSome := by
  have hinsert : ∃ t, BTRuns 1 (fun a b : ℤ => a - b) t (4 ::ₘ 3 ::ₘ 2 ::ₘ 1 ::ₘ 0) 0 ∧
      t.bRoot = some 2 ∧ t.inOrder.length = 4 :=
    ⟨_, (((BTRuns.init.insert rfl).insert rfl).insert rfl).insert rfl, rfl, rfl⟩
  obtain ⟨t, hr, hroot, hlen⟩ := hinsert
  refine ⟨t, 2, hr, hroot, hlen, ?_⟩
  exact (btRuns_height (Nat.le_refl 1) preorders_sub hr).2 2 2 hroot (by rw [hlen]; decide)

end Runs

end PaxosSolutions.NWGadget
