import PaxosSolutions.NWGadget.BTreeDelete
import Mathlib.Data.Multiset.AddSub
import Mathlib.Data.UInt

/-!
# Runs of a B-tree

Keys are inserted, and items are deleted at any place of any page. What every tree
that comes out of this is like, in terms of the pages that hang below its root.
-/
namespace PaxosSolutions.NWGadget
open Lib BTHeap

variable {α : Type}

/-- The pages of a tree, with their distance from the root. -/
inductive BTree.HasPage (t : BTree α) : ℕ → BTAddr → Prop
  | root {r : BTAddr} : t.bRoot = some r → HasPage t 0 r
  | child {d r : ℕ} {p c : BTAddr} : HasPage t d p → r ≤ (t.heap p).pM →
      (t.heap p).pPages r = some c → HasPage t (d + 1) c

variable [Inhabited α]

/-- What a B-tree is to be. -/
structure BTree.Sound (t : BTree α) : Prop where
  ordered : Ordered t.bCompare t.inOrder
  items : ∀ d p, t.HasPage d p → (if d = 0 then 1 else t.bN) ≤ (t.heap p).pM ∧
    (t.heap p).pM ≤ 2 * t.bN
  depth : ∃ depth, ∀ d p, t.HasPage d p →
    (d = depth ∧ ∀ r ≤ (t.heap p).pM, (t.heap p).pPages r = none) ∨
      (d < depth ∧ ∀ r ≤ (t.heap p).pM, (t.heap p).pPages r ≠ none)
  root : ∀ r, t.bRoot = some r → (t.heap r).pParent = none
  parents : ∀ d p r c, t.HasPage d p → r ≤ (t.heap p).pM → (t.heap p).pPages r = some c →
    (t.heap c).pParent = some p ∧ (t.heap c).pParentIndex = r

section Sound
variable {t t' : BTree α} {root p : BTAddr} {lv : BTAddr → Option ℕ} {top d z : ℕ} {keys : List α}

/-- A page at a distance from the root has the level that is left. -/
theorem Grown.hasPage (hg : Grown t root lv top keys) (hp : t.HasPage d p) :
    d ≤ top ∧ lv p = some (top - d) ∧ (d = 0 ↔ p = root) := by
  induction hp with
  | root hr =>
      cases hr.symm.trans hg.bRoot
      exact ⟨Nat.zero_le _, hg.shape.atTop, by simp⟩
  | @child d r p c hp hr hc ih =>
      have hchild : ChildOf t.heap lv p (top - d) r c := ⟨ih.2.1, hr, hc⟩
      obtain ⟨j, hj, hlv⟩ := hchild.levelDown hg.shape
      have hle := ih.1
      refine ⟨by omega, ?_, ?_⟩
      · rw [show top - (d + 1) = j by omega]
        exact hlv
      · constructor
        · intro h
          omega
        · intro h
          exact absurd h (hchild.ne_root hg.shape)

omit [Inhabited α] in
theorem BTree.HasPage.root_some (hp : t.HasPage d p) : t.bRoot ≠ none := by
  induction hp with
  | root hr =>
      rw [hr]
      exact Option.some_ne_none _
  | child _ _ _ ih => exact ih

theorem BTree.Has.inOrder (ht : t.Has keys) : t.inOrder = keys := by
  obtain ⟨-, ⟨hroot, rfl⟩ | ⟨root, lv, top, hg⟩⟩ := ht
  · unfold BTree.inOrder
    rw [hroot, keys_none]
  · unfold BTree.inOrder
    rw [hg.bRoot, hg.shape.keys_fuel hg.shape.atTop (hg.shape.top_lt hg.unused), hg.keys]

/-- A tree that has keys in order is what a B-tree is to be. -/
theorem BTree.Has.sound (ht : t.Has keys) (ho : Ordered t.bCompare keys) : t.Sound := by
  have hin := ht.inOrder
  obtain ⟨-, ⟨hroot, -⟩ | ⟨root, lv, top, hg⟩⟩ := ht
  · have hno : ∀ d p, ¬ t.HasPage d p := fun d p hp => hp.root_some hroot
    refine ⟨by rw [hin]; exact ho, fun d p hp => absurd hp (hno d p),
      ⟨0, fun d p hp => absurd hp (hno d p)⟩, ?_, fun d p _ _ hp => absurd hp (hno d p)⟩
    intro r hr
    exact absurd (hroot.symm.trans hr) (by simp)
  · refine ⟨by rw [hin]; exact ho, ?_, ⟨top, ?_⟩, ?_, ?_⟩
    · intro d p hp
      obtain ⟨-, hlv, hiff⟩ := hg.hasPage hp
      have hfill := hg.filled p _ hlv
      refine ⟨?_, hfill.2⟩
      have hlow := hfill.1
      by_cases hd : d = 0
      · rw [if_pos hd]
        rwa [if_pos (hiff.mp hd)] at hlow
      · rw [if_neg hd]
        rwa [if_neg (mt hiff.mpr hd)] at hlow
    · intro d p hp
      obtain ⟨hle, hlv, -⟩ := hg.hasPage hp
      have hpage := hg.shape.page p _ hlv
      by_cases hd : d = top
      · rw [show top - d = 0 by omega] at hpage
        exact .inl ⟨hd, fun r hr => hpage.below r hr⟩
      · obtain ⟨k, hk⟩ : ∃ k, top - d = k + 1 := ⟨top - d - 1, by omega⟩
        rw [hk] at hpage
        refine .inr ⟨by omega, ?_⟩
        intro r hr hnone
        obtain ⟨c, hc, -⟩ := hpage.below r hr
        rw [← pPages_eq, hnone] at hc
        cases hc
    · intro r hr
      cases hr.symm.trans hg.bRoot
      exact hg.shape.orphan
    · intro d p r c hp hr hc
      obtain ⟨-, hlv, -⟩ := hg.hasPage hp
      have hlink := (hg.shape.page p _ hlv).link r hr c hc
      exact Prod.mk.inj hlink

/-- Every place of a page is one that `BTCDelete` can be asked for. -/
theorem BTree.Has.delete (ht : t.Has keys) (hp : t.HasPage d p) (hz : z < (t.heap p).pM) :
    ∃ t' l l', BTCDelete p z t = some t' ∧ keys = l ++ (t.heap p).pItems z :: l' ∧ t'.Has (l ++ l') ∧
      t'.bN = t.bN ∧ t'.bCompare = t.bCompare ∧ t'.bCnt = t.bCnt - 1 := by
  obtain ⟨-, ⟨hroot, -⟩ | ⟨root, lv, top, hg⟩⟩ := ht
  · exact absurd hroot hp.root_some
  · obtain ⟨-, hlv, -⟩ := hg.hasPage hp
    obtain ⟨X, Y, hx⟩ := hg.shape.context hlv
    obtain ⟨hkeys, t', hrun, hhas, hN, hcmp, hcnt⟩ := btcDelete_has hg hx hz
    exact ⟨t', _, _, hrun, hkeys, hhas, hN, hcmp, hcnt⟩

end Sound

/-- The runs of `BTInsert` and of `BTCDelete` at an item of a page, with the keys
that were inserted and those that were deleted. -/
inductive BTRuns (n : ℕ) (fCompare : α → α → ℤ) : BTree α → Multiset α → Multiset α → Prop
  | init : BTRuns n fCompare (BTreeInit n fCompare) 0 0
  | insert {t t' : BTree α} {I D : Multiset α} {pKey : α} : BTRuns n fCompare t I D →
      BTInsert pKey t = some t' → BTRuns n fCompare t' (pKey ::ₘ I) D
  | delete {t t' : BTree α} {I D : Multiset α} {d z : ℕ} {p : BTAddr} : BTRuns n fCompare t I D →
      t.HasPage d p → z < (t.heap p).pM → BTCDelete p z t = some t' →
      BTRuns n fCompare t' I ((t.heap p).pItems z ::ₘ D)

section Runs
variable {n : ℕ} {fCompare : α → α → ℤ} {t : BTree α} {I D : Multiset α}

/-- What a run keeps. -/
structure Followed (n : ℕ) (fCompare : α → α → ℤ) (t : BTree α) (I D : Multiset α) (keys : List α) :
    Prop where
  order : t.bN = n
  compare : t.bCompare = fCompare
  has : t.Has keys
  ordered : Ordered fCompare keys
  multiset : (keys : Multiset α) + D = I
  count : t.bCnt = UInt64.ofNat keys.length

theorem Followed.insert {keys : List α} (hf : Followed n fCompare t I D keys)
    (hc : Preorders fCompare) (pKey : α) : ∃ t' keys', BTInsert pKey t = some t' ∧
      Followed n fCompare t' (pKey ::ₘ I) D keys' := by
  obtain ⟨hN, hcmp, hhas, ho, hmul, hcnt⟩ := hf
  rw [← hcmp] at hc ho
  obtain ⟨t', l, l', hrun, hkeys, hhas', hbelow, hnot, hN', hcmp', hcnt'⟩ :=
    btInsert_has hc hhas ho pKey
  rw [hkeys] at ho
  refine ⟨t', l ++ pKey :: l', hrun, hN'.trans hN, hcmp'.trans hcmp, hhas', ?_, ?_, ?_⟩
  · rw [← hcmp]
    exact ho.insert hc hbelow hnot
  · rw [← hmul, hkeys, ← Multiset.cons_add, Multiset.cons_coe]
    congr 1
    exact Multiset.coe_eq_coe.mpr List.perm_middle
  · rw [hcnt', hcnt, hkeys]
    simp only [List.length_append, List.length_cons, ← Nat.add_assoc]
    rw [UInt64.ofNat_add (l.length + l'.length) 1]
    rfl

theorem Followed.delete {keys : List α} {d z : ℕ} {p : BTAddr} (hf : Followed n fCompare t I D keys)
    (hp : t.HasPage d p) (hz : z < (t.heap p).pM) : ∃ t' keys', BTCDelete p z t = some t' ∧
      Followed n fCompare t' I ((t.heap p).pItems z ::ₘ D) keys' := by
  obtain ⟨hN, hcmp, hhas, ho, hmul, hcnt⟩ := hf
  obtain ⟨t', l, l', hrun, hkeys, hhas', hN', hcmp', hcnt'⟩ := hhas.delete hp hz
  rw [hkeys] at ho
  refine ⟨t', l ++ l', hrun, hN'.trans hN, hcmp'.trans hcmp, hhas', ?_, ?_, ?_⟩
  · refine ho.sublist ?_
    exact List.Sublist.append_left (List.sublist_cons_self _ _) l
  · rw [← hmul, hkeys, Multiset.add_cons, ← Multiset.cons_add, Multiset.cons_coe]
    congr 1
    exact Multiset.coe_eq_coe.mpr List.perm_middle.symm
  · rw [hcnt', hcnt, hkeys]
    simp only [List.length_append, List.length_cons, ← Nat.add_assoc]
    rw [UInt64.ofNat_add (l.length + l'.length) 1]
    exact UInt64.add_sub_cancel _ _

theorem BTRuns.followed (hr : BTRuns n fCompare t I D) (hn : 1 ≤ n) (hc : Preorders fCompare) :
    ∃ keys, Followed n fCompare t I D keys := by
  induction hr with
  | init => exact ⟨[], rfl, rfl, ⟨hn, .inl ⟨rfl, rfl⟩⟩, List.Pairwise.nil, rfl, rfl⟩
  | @insert _ _ _ _ pKey _ hrun ih =>
      obtain ⟨keys, hf⟩ := ih
      obtain ⟨t', keys', hrun', hf'⟩ := hf.insert hc pKey
      cases hrun.symm.trans hrun'
      exact ⟨keys', hf'⟩
  | delete _ hp hz hrun ih =>
      obtain ⟨keys, hf⟩ := ih
      obtain ⟨t', keys', hrun', hf'⟩ := hf.delete hp hz
      cases hrun.symm.trans hrun'
      exact ⟨keys', hf'⟩

/-- Every tree of a run is a B-tree with the keys that were inserted and not
deleted, and the next insertion or deletion comes to an end. -/
theorem btRuns_sound (hn : 1 ≤ n) (hc : Preorders fCompare) (hr : BTRuns n fCompare t I D) :
    t.bN = n ∧ t.bCompare = fCompare ∧ t.Sound ∧ (t.inOrder : Multiset α) + D = I ∧
      t.bCnt = UInt64.ofNat t.inOrder.length ∧ (∀ pKey, ∃ t', BTInsert pKey t = some t') ∧
      ∀ d p z, t.HasPage d p → z < (t.heap p).pM → ∃ t', BTCDelete p z t = some t' := by
  obtain ⟨keys, hf⟩ := hr.followed hn hc
  have hin := hf.has.inOrder
  refine ⟨hf.order, hf.compare, hf.has.sound (hf.compare ▸ hf.ordered), ?_, ?_, ?_, ?_⟩
  · rw [hin]
    exact hf.multiset
  · rw [hin]
    exact hf.count
  · intro pKey
    obtain ⟨t', -, hrun, -⟩ := hf.insert hc pKey
    exact ⟨t', hrun⟩
  · intro d p z hp hz
    obtain ⟨t', -, hrun, -⟩ := hf.delete hp hz
    exact ⟨t', hrun⟩

/-- Three keys of which the last splits the root, and the one that went up is deleted. -/
theorem btRuns_sound_split : ∃ t, BTRuns 1 (fun a b : ℤ => a - b) t (6 ::ₘ 5 ::ₘ 7 ::ₘ 0) (6 ::ₘ 0) ∧
    t.Sound ∧ (t.inOrder : Multiset ℤ) + (6 ::ₘ 0) = 6 ::ₘ 5 ::ₘ 7 ::ₘ 0 := by
  have hinsert : ∃ t, BTRuns 1 (fun a b : ℤ => a - b) t (6 ::ₘ 5 ::ₘ 7 ::ₘ 0) 0 ∧
      t.HasPage 0 2 ∧ (t.heap 2).pM = 1 ∧ (t.heap 2).pItems 0 = 6 ∧ ∃ t', BTCDelete 2 0 t = some t' :=
    ⟨_, ((BTRuns.init.insert rfl).insert rfl).insert rfl, .root rfl, rfl, rfl, _, rfl⟩
  obtain ⟨t₀, hr₀, hpage, hm, hitem, t, hrun⟩ := hinsert
  have hr := hr₀.delete hpage (by rw [hm]; exact Nat.zero_lt_one) hrun
  rw [hitem] at hr
  obtain ⟨-, -, hsound, hkeys, -⟩ := btRuns_sound (Nat.le_refl 1) preorders_sub hr
  exact ⟨t, hr, hsound, hkeys⟩

end Runs

end PaxosSolutions.NWGadget
