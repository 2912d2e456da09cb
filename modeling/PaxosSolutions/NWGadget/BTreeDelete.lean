import PaxosSolutions.NWGadget.BTreeRepair

/-!
# Deletion from a B-tree

An item of a leaf is taken out of the row. An item above is replaced by the last
item of the leaf before it, and that leaf loses an item instead. The tree is mended
from the leaf on, and a root without items gives way.
-/
namespace PaxosSolutions.NWGadget
open Lib BTHeap

variable {α : Type} [Inhabited α]

section Leaf
variable {h h' : BTHeap α} {t : BTree α} {root a p q c : BTAddr} {lv : BTAddr → Option ℕ}
  {top k j m z n r fuel : ℕ} {e : ℕ → α × Option BTAddr} {keys X Y : List α} {x : α}

/-- An item is taken out of a leaf. -/
theorem removeAt_holds (hh : Holds h a m e) (hz : z < m) (hleaf : ∀ r ≤ m, (e r).2 = none)
    (hrun : h' = (forUp (z + 1) (m - 1) (fun i => btMove a i a (i + 1)) h).setM a (m - 1)) :
    Holds h' a (m - 1) (without e (z + 1)) ∧ (∀ p, p ≠ a → SamePage h h' p) ∧
      ∀ c, h'.link c = h.link c := by
  let F : BTAddr → ℕ → α × Option BTAddr := fun p r =>
    if p = a ∧ r ≤ m - 1 then without e (z + 1) r else (default, none)
  have hnone : ∀ r ≤ m - 1, (without e (z + 1) r).2 = none := by
    intro r hr
    obtain ⟨s, hs, -, heq⟩ := without_eq (e := e) (k := z + 1) hr (by omega)
    rw [heq]
    exact hleaf s hs
  have hFnone : ∀ p r, (F p r).2 = none := by
    intro p r
    simp only [F]
    split_ifs with hpr
    · exact hnone r hpr.2
    · rfl
  have hFa : ∀ r ≤ m - 1, F a r = without e (z + 1) r := fun r hr => if_pos ⟨rfl, hr⟩
  have hF : Once F := by
    intro p r q s c hcr _
    rw [hFnone] at hcr
    cases hcr
  have hw : Wrote F (slots a (z + 1) (z + 1 + (m - 1 + 1 - (z + 1)))) h
      (forUp (z + 1) (m - 1) (fun i => btMove a i a (i + 1)) h) := by
    refine Wrote.up (f := fun i => i) (g := fun i => i + 1) hF (by omega) ?_ (by omega) ?_ ?_ ?_
    · intro i hi _
      omega
    · intro i hi _
      omega
    · intro i hi hle
      rw [hFa i hle, hh.ent _ (by omega)]
      exact if_neg (by omega)
    · intro i j _ _ _ _
      omega
  subst hrun
  refine ⟨⟨?_, ?_, ?_⟩, ?_, ?_⟩
  · rw [m_setM, if_pos rfl]
  · intro r hr
    rw [ent_setM, hw.table, hFa r hr]
    intro hnot
    have hlt : r < z + 1 := by
      by_contra hge
      exact hnot ⟨rfl, by simp only; omega, by simp only; omega⟩
    rw [hFa r hr, hh.ent r (by omega)]
    exact (if_pos hlt).symm
  · intro r hr c hc
    rw [hnone r hr] at hc
    cases hc
  · intro p hp
    refine ⟨?_, ?_⟩
    · intro r
      rw [ent_setM, hw.kept]
      rintro ⟨h, -⟩
      exact hp h
    · rw [m_setM, if_neg hp, hw.count]
  · intro c
    rw [link_setM, hw.free]
    intro p r _ hcr
    rw [hFnone] at hcr
    cases hcr

/-- A leaf of the tree has an item less. -/
structure Lost (h h' : BTHeap α) (p : BTAddr) : Prop where
  same : ∀ q, q ≠ p → SamePage h h' q
  link : ∀ c, h'.link c = h.link c
  count : (h' p).pM = (h p).pM - 1
  leaf : ∀ r ≤ (h' p).pM, (h'.ent p r).2 = none

theorem Lost.shape (hx : Lost h h' p) (hs : Shape h lv root top) (hp : lv p = some 0) :
    Shape h' lv root top := by
  refine hs.change (P := fun q => q = p) hx.same (fun _ _ => rfl) (fun _ _ _ c _ _ =>
    ⟨hx.link c, rfl⟩) ?_ hs.atTop ?_ ?_ hs.bound
  · rintro q k rfl hq
    cases hq.symm.trans hp
    refine ⟨hx.leaf, ?_⟩
    intro r hr c hc
    rw [hx.leaf r hr] at hc
    cases hc
  · exact (Prod.mk.inj (hx.link root)).1.trans hs.orphan
  · intro c k hc hne
    obtain ⟨q, r, hq⟩ := hs.up c k hc hne
    refine .inl ⟨q, r, ?_, hq⟩
    rintro rfl
    have := Option.some.inj (hq.level.symm.trans hp)
    omega

/-- The leaf that lost an item is repaired. -/
theorem Lost.repaired (hx : Lost t.heap h' p) (hg : Grown t root lv top keys) (hp : lv p = some 0) :
    ∃ h'' lv', t.repair p h' = some h'' ∧
      Mended h'' t.bN t.bNext root lv' top (h'.keys (top + 1) (some root)) := by
  have hs := hx.shape hg.shape hp
  have hn := hg.order
  have hfill := (hg.filled p 0 hp).mended
  have hfew := hfill.2
  have hcount := hx.count
  have hothers : ∀ c i, lv c = some i → c ≠ p → Enough t.bN root c (h' c).pM := by
    intro c i hc hcp
    rw [(hx.same c hcp).count]
    exact hg.filled c i hc
  unfold BTree.repair
  by_cases hlt : (h' p).pM < t.bN
  · rw [if_pos hlt]
    refine underflows_mended (k := 0) ⟨hn, hs, hg.unused, hp, hothers, by omega, ?_, rfl⟩ ?_
    · intro hne
      have := hfill.1 hne
      omega
    · have := hg.shape.top_lt hg.unused
      exact Nat.succ_le_succ (Nat.le_of_lt this)
  · rw [if_neg hlt]
    refine ⟨h', lv, rfl, hs, hg.unused, ?_, rfl⟩
    intro c i hc
    by_cases hcp : c = p
    · rw [hcp]
      exact ⟨fun _ => by omega, by omega⟩
    · exact (hothers c i hc hcp).mended

/-- The keys around a leaf that lost an item. -/
theorem Lost.around (hx : Lost h h' p) (hs : Shape h lv root top) (hc : Context h lv root top p 0 X Y) :
    h'.keys (top + 1) (some root) = X ++ (h'.keys 1 (some p) ++ Y) :=
  hc.replaced hs (fun _ _ hq _ => .inl hq) hx.same

/-! ### The last leaf before an item -/

omit [Inhabited α] in
theorem lastLeaf_congr (hm : ∀ p, (h' p).pM = (h p).pM) (hc : ∀ p r, (h' p).pPages r = (h p).pPages r) :
    BTree.lastLeaf h' fuel p = BTree.lastLeaf h fuel p := by
  induction fuel generalizing p with
  | zero => rfl
  | succ fuel ih =>
      rw [BTree.lastLeaf, BTree.lastLeaf, hm, hc]
      cases (h p).pPages (h p).pM with
      | none => rfl
      | some c => exact ih

/-- Behind the last leaf below a page nothing of the page follows. -/
theorem lastLeaf_context (hs : Shape h lv root top) (hx : Context h lv root top p k X Y)
    (hfuel : k < fuel) : ∃ q Z, BTree.lastLeaf h fuel p = some q ∧ Context h lv root top q 0 (X ++ Z) Y := by
  induction k generalizing p X fuel with
  | zero =>
      obtain ⟨fuel, rfl⟩ : ∃ f, fuel = f + 1 := ⟨fuel - 1, by omega⟩
      have hnone : (h p).pPages (h p).pM = none := (hs.page p 0 hx.level).below _ (Nat.le_refl _)
      rw [BTree.lastLeaf]
      simp only [hnone]
      refine ⟨p, [], rfl, ?_⟩
      rw [List.append_nil]
      exact hx
  | succ k ih =>
      obtain ⟨fuel, rfl⟩ : ∃ f, fuel = f + 1 := ⟨fuel - 1, by omega⟩
      obtain ⟨c, hc, -⟩ := (hs.page p (k + 1) hx.level).below _ (Nat.le_refl _)
      have hchild := hx.child hs (r := (h p).pM) ⟨hx.level, Nat.le_refl _, hc⟩
      rw [rowBehind_self, List.nil_append] at hchild
      obtain ⟨q, Z, hq, hqx⟩ := ih hchild (show k < fuel by omega)
      rw [← pPages_eq] at hc
      rw [BTree.lastLeaf]
      simp only [hc]
      rw [List.append_assoc] at hqx
      exact ⟨q, _, hq, hqx⟩

/-- A leaf before the last item of which the rest stands. -/
theorem leaf_last (hs : Shape h lv root top) (hp : lv p = some 0) (hm : 0 < (h p).pM) :
    h.keys 1 (some p) =
      rowKeys (h.keys 0) (h.ent p) ((h p).pM - 1) ++ [(h p).pItems ((h p).pM - 1)] := by
  have hnone : ∀ r ≤ (h p).pM, (h.ent p r).2 = none := fun r hr => (hs.page p 0 hp).below r hr
  rw [keys_some, rowKeys_pair (show (h p).pM - 1 < (h p).pM by omega), hnone _ (by omega),
    hnone _ (by omega), Nat.sub_add_cancel hm, rowBehind_self, keys_none, rowKeys_at (Nat.le_refl _),
    hnone _ (by omega), keys_none, rowBehind_self, pItems_eq, Nat.sub_add_cancel hm]
  simp

theorem lost_last (hs : Shape h lv root top) (hp : lv p = some 0) (hrun : h' = h.setM p ((h p).pM - 1)) :
    Lost h h' p ∧ h'.keys 1 (some p) = rowKeys (h.keys 0) (h.ent p) ((h p).pM - 1) := by
  subst hrun
  have hcount : ((h.setM p ((h p).pM - 1)) p).pM = (h p).pM - 1 := by rw [m_setM, if_pos rfl]
  refine ⟨⟨?_, fun _ => link_setM, hcount, ?_⟩, ?_⟩
  · intro q hq
    refine ⟨fun _ => ent_setM, ?_⟩
    rw [m_setM, if_neg hq]
  · intro r hr
    rw [hcount] at hr
    rw [ent_setM]
    exact (hs.page p 0 hp).below r (by omega)
  · rw [keys_some, hcount]
    refine rowKeys_congr ?_ ?_
    · intro r _
      rw [ent_setM]
      rfl
    · intro r _ _
      rw [ent_setM]

/-! ### An item is replaced -/

theorem ent_setItem_child : ((h.setItem a z x).ent p r).2 = (h.ent p r).2 := by
  by_cases hr : r = z + 1
  · rw [ent_setItem hr]
    by_cases hp : p = a
    · rw [if_pos hp, hp]
    · rw [if_neg hp]
  · rw [ent_setItem_of_ne hr]

theorem setItem_same (hp : p ≠ a) : SamePage h (h.setItem a z x) p := by
  refine ⟨?_, m_setItem⟩
  intro r
  by_cases hr : r = z + 1
  · rw [ent_setItem hr, if_neg hp]
  · rw [ent_setItem_of_ne hr]

theorem setItem_row : (h.setItem a z x).ent a = Function.update (h.ent a) (z + 1) (x, (h.ent a (z + 1)).2) := by
  funext r
  by_cases hr : r = z + 1
  · rw [ent_setItem hr, if_pos rfl, hr, Function.update_self]
  · rw [ent_setItem_of_ne hr, Function.update_of_ne hr]

theorem Grown.setItem (hg : Grown t root lv top keys) :
    Grown { t with heap := t.heap.setItem a z x } root lv top
      ((t.heap.setItem a z x).keys (top + 1) (some root)) := by
  have hs := hg.shape
  refine ⟨hg.order, hg.bRoot, ⟨hs.atTop, ?_, ?_, ?_, hs.bound⟩, hg.unused, ?_, rfl⟩
  · have hlink : (t.heap.setItem a z x).link root = t.heap.link root := link_setItem
    exact (Prod.mk.inj hlink).1.trans hs.orphan
  · intro p k hp
    have hpage := hs.page p k hp
    refine ⟨?_, ?_⟩
    · intro r hr
      rw [ent_setItem_child]
      exact hpage.below r (by rwa [m_setItem] at hr)
    · intro r hr c hc
      rw [ent_setItem_child] at hc
      rw [link_setItem]
      exact hpage.link r (by rwa [m_setItem] at hr) c hc
  · intro p k hp hne
    obtain ⟨q, r, hq⟩ := hs.up p k hp hne
    refine ⟨q, r, hq.level, ?_, ?_⟩
    · rw [m_setItem]
      exact hq.le
    · rw [ent_setItem_child]
      exact hq.child
  · intro p k hp
    rw [m_setItem]
    exact hg.filled p k hp

/-- Where a page is in the tree does not depend on what it holds. -/
theorem Context.self (hx : Context h lv root top p k X Y) (hs : Shape h lv root top)
    (hsame : ∀ q, q ≠ p → SamePage h h' q) : Context h' lv root top p k X Y := by
  refine ⟨hx.level, ?_⟩
  intro h'' hbeside habove
  refine hx.moved h'' ?_ ?_
  · intro q hq hne
    rw [hbeside q hq hne]
    exact hs.keys_untouched (P := fun q => q = p) hx.level (fun _ _ hq _ => .inl hq) hsame hq
      (Nat.le_refl k) hne hne
  · intro q j hq hlt
    have hne : q ≠ p := level_ne hq hx.level (by omega)
    have h₁ := hsame q hne
    have h₂ := habove q j hq hlt
    exact ⟨fun r => (h₂.ent r).trans (h₁.ent r), h₂.count.trans h₁.count⟩

/-! ### The root -/

/-- The child of a root without items is the tree. -/
theorem Mended.child (hx : Mended h n m root lv (k + 1) keys) (hn : 1 ≤ n) (hc : ChildOf h lv root (k + 1) 0 c)
    (hempty : (h root).pM = 0)
    (hrun : h' = (BPageFree root h).set c fun a => { a with pParent := none }) :
    Shape h' (Function.update lv root none) c k ∧ h'.keys (k + 1) (some c) = keys ∧
      (∀ p, m ≤ p → Function.update lv root none p = none) ∧
      ∀ p j, Function.update lv root none p = some j → Enough n c p (h' p).pM := by
  have hs := hx.shape
  have hlc := hc.below hs
  have hcr : c ≠ root := hc.ne_root hs
  have hfreed : ∀ p, p ≠ root → BPageFree root h p = h p := fun p hp => set_of_ne hp _
  have hsame : ∀ p, ¬ p = root → SamePage h h' p := by
    intro p hp
    rw [hrun]
    by_cases hpc : p = c
    · rw [hpc]
      refine ⟨?_, ?_⟩
      · intro r
        unfold ent
        rw [set_self, hfreed c hcr]
      · rw [set_self, hfreed c hcr]
    · refine ⟨?_, ?_⟩
      · intro r
        unfold ent
        rw [set_of_ne hpc, hfreed p hp]
      · rw [set_of_ne hpc, hfreed p hp]
  have hold : ∀ p, p ≠ root → Function.update lv root none p = lv p := fun p hp =>
    Function.update_of_ne hp ..
  have hnew : ∀ p j, Function.update lv root none p = some j → p ≠ root ∧ lv p = some j := by
    intro p j hp
    have hpr : p ≠ root := by
      rintro rfl
      rw [Function.update_self] at hp
      cases hp
    exact ⟨hpr, (hold p hpr).symm.trans hp⟩
  have honly : ∀ {r x}, ChildOf h lv root (k + 1) r x → x = c := by
    intro r x hxc
    have hr := hxc.le
    rw [hempty, Nat.le_zero] at hr
    rw [hr] at hxc
    exact Option.some.inj (hxc.child.symm.trans hc.child)
  refine ⟨?_, ?_, ?_, ?_⟩
  · refine hs.change hsame hold ?_ ?_ ((hold c hcr).trans hlc) ?_ ?_ ?_
    · intro q j r x hq hxc
      have hxr := hxc.ne_root hs
      have hxc' : x ≠ c := by
        rintro rfl
        exact hq (hxc.unique hs hc).1
      refine ⟨?_, hold x hxr⟩
      rw [hrun]
      unfold link
      rw [set_of_ne hxc', hfreed x hxr]
    · rintro p j rfl hp
      exact absurd rfl (hnew p j hp).1
    · rw [hrun, set_self]
    · intro x j hxj hne
      obtain ⟨hxr, hxl⟩ := hnew x j hxj
      obtain ⟨q, r, hq⟩ := hs.up x j hxl hxr
      refine .inl ⟨q, r, ?_, hq⟩
      rintro rfl
      have hj := Option.some.inj (hq.level.symm.trans hs.atTop)
      rw [hj] at hq
      exact hne (honly hq)
    · intro p j hp
      obtain ⟨hpr, hpl⟩ := hnew p j hp
      have := hs.lt_top hpl hpr
      omega
  · have huntouched := hs.keys_untouched (P := fun p => p = root) hs.atTop (fun _ _ hq _ => .inl hq)
      hsame hlc (Nat.le_succ k) hcr hcr
    have htop : h.keys (k + 1 + 1) (some root) = rowKeys (h.keys (k + 1)) (h.ent root) (h root).pM := rfl
    rw [huntouched, ← hx.keys, htop, hempty, rowKeys_at (Nat.le_refl 0), hc.child,
      rowBehind_self, List.append_nil]
    rfl
  · intro p hp
    by_cases hpr : p = root
    · rw [hpr, Function.update_self]
    · rw [hold p hpr]
      exact hx.unused p hp
  · intro p j hp
    obtain ⟨hpr, hpl⟩ := hnew p j hp
    have hfill := hx.filled p j hpl
    have hlow := hfill.1 hpr
    rw [(hsame p hpr).count]
    refine ⟨?_, hfill.2⟩
    by_cases hpc : p = c
    · rw [if_pos hpc]
      omega
    · rw [if_neg hpc]
      exact hlow

/-- A root without items gives way, and the tree has its keys. -/
theorem Mended.shrink (hx : Mended t.heap t.bN t.bNext root lv top keys) (hn : 1 ≤ t.bN)
    (hroot : t.bRoot = some root) : t.shrink.Has keys ∧ t.shrink.bN = t.bN ∧
      t.shrink.bCompare = t.bCompare ∧ t.shrink.bCnt = t.bCnt := by
  have hs := hx.shape
  unfold BTree.shrink
  rw [hroot]
  by_cases hempty : (t.heap root).pM = 0
  · simp only [hempty, if_true]
    cases top with
    | zero =>
        have hnone : (t.heap root).pPages 0 = none := (hs.page root 0 hs.atTop).below 0 (Nat.zero_le _)
        simp only [hnone]
        have hleaf : (t.heap.ent root 0).2 = none := hnone
        have hkeys : keys = [] := by
          rw [← hx.keys, keys_some, hempty, rowKeys_at (Nat.le_refl 0), rowBehind_self, hleaf, keys_none]
          rfl
        exact ⟨⟨hn, .inl ⟨rfl, hkeys⟩⟩, trivial, trivial, trivial⟩
    | succ k =>
        obtain ⟨c, hc, -⟩ := (hs.page root (k + 1) hs.atTop).below 0 (Nat.zero_le _)
        have hchild : ChildOf t.heap lv root (k + 1) 0 c := ⟨hs.atTop, Nat.zero_le _, hc⟩
        rw [← pPages_eq] at hc
        simp only [hc]
        obtain ⟨hshape, hkeys, hunused, hfilled⟩ := hx.child hn hchild hempty rfl
        exact ⟨⟨hn, .inr ⟨c, _, k, ⟨hn, rfl, hshape, hunused, hfilled, hkeys⟩⟩⟩, trivial, trivial, trivial⟩
  · simp only [if_neg hempty]
    refine ⟨⟨hn, .inr ⟨root, lv, top, ⟨hn, hroot, hs, hx.unused, ?_, hx.keys⟩⟩⟩, trivial, trivial, trivial⟩
    intro p j hp
    have hfill := hx.filled p j hp
    refine ⟨?_, hfill.2⟩
    by_cases hpr : p = root
    · rw [if_pos hpr, hpr]
      omega
    · rw [if_neg hpr]
      exact hfill.1 hpr

/-! ### The deletion -/

/-- The keys before item `z` of a page. -/
def keysBefore (h : BTHeap α) (p : BTAddr) (k z : ℕ) (X : List α) : List α :=
  X ++ (rowBefore (h.keys k) (h.ent p) z ++ h.keys k (h.ent p z).2)

/-- The keys behind item `z` of a page. -/
def keysBehind (h : BTHeap α) (p : BTAddr) (k z : ℕ) (Y : List α) : List α :=
  h.keys k (h.ent p (z + 1)).2 ++ (rowBehind (h.keys k) (h.ent p) (z + 1) (h p).pM ++ Y)

theorem Context.item (hx : Context h lv root top p k X Y) (hz : z < (h p).pM) :
    h.keys (top + 1) (some root) =
      keysBefore h p k z X ++ (h p).pItems z :: keysBehind h p k z Y := by
  rw [hx.here, keys_some, rowKeys_pair hz, pItems_eq]
  unfold keysBefore keysBehind
  simp only [List.append_assoc, List.cons_append]

/-- The tree after an item of a leaf was taken out. -/
theorem delete_leaf (hg : Grown t root lv top keys) (hx : Context t.heap lv root top p 0 X Y)
    (hz : z < (t.heap p).pM) (hrun : h' = (forUp (z + 1) ((t.heap p).pM - 1)
      (fun i => btMove p i p (i + 1)) t.heap).setM p ((t.heap p).pM - 1)) :
    Lost t.heap h' p ∧ h'.keys (top + 1) (some root) =
      keysBefore t.heap p 0 z X ++ keysBehind t.heap p 0 z Y := by
  have hleaf : ∀ r ≤ (t.heap p).pM, (t.heap.ent p r).2 = none := fun r hr =>
    (hg.shape.page p 0 hx.level).below r hr
  obtain ⟨hheld, hsame, hlink⟩ := removeAt_holds ((hg.shape.page p 0 hx.level).holds) hz hleaf hrun
  have hlost : Lost t.heap h' p := by
    refine ⟨hsame, hlink, hheld.count, ?_⟩
    intro r hr
    rw [hheld.count] at hr
    rw [hheld.ent r hr]
    obtain ⟨s, hs, -, heq⟩ := without_eq (e := t.heap.ent p) (k := z + 1) hr (by omega)
    rw [heq]
    exact hleaf s hs
  refine ⟨hlost, ?_⟩
  have hzero : h'.keys 0 = t.heap.keys 0 := rfl
  rw [hlost.around hg.shape hx, hheld.keys, rowKeys_without hz, hzero]
  unfold keysBefore keysBehind
  rw [hleaf z (by omega), hleaf (z + 1) (by omega), keys_none]
  simp only [List.append_assoc, List.nil_append]

/-- To replace an item of a page changes nothing before it and behind it. -/
theorem setItem_around (hs : Shape h lv root top) (hp : lv p = some (k + 1)) (hz : z < (h p).pM) :
    keysBefore (h.setItem p z x) p (k + 1) z X = keysBefore h p (k + 1) z X ∧
      keysBehind (h.setItem p z x) p (k + 1) z Y = keysBehind h p (k + 1) z Y := by
  have hkids : ∀ s ≤ (h p).pM, (h.setItem p z x).keys (k + 1) ((h.setItem p z x).ent p s).2 =
      h.keys (k + 1) (h.ent p s).2 := by
    intro s hsle
    obtain ⟨c, hc, hlv⟩ := (hs.page p (k + 1) hp).below s hsle
    have hcp : c ≠ p := level_ne hlv hp (by omega)
    rw [ent_setItem_child, hc]
    exact hs.keys_untouched (P := fun q => q = p) hp (fun _ _ hq _ => .inl hq)
      (fun q hq => setItem_same hq) hlv (Nat.le_succ k) hcp hcp
  have hbefore : rowBefore ((h.setItem p z x).keys (k + 1)) ((h.setItem p z x).ent p) z =
      rowBefore (h.keys (k + 1)) (h.ent p) z := by
    refine rowBefore_congr (fun s hlt => hkids s (by omega)) ?_
    intro s _ hle
    rw [ent_setItem_of_ne (by omega)]
  have hbehind : rowBehind ((h.setItem p z x).keys (k + 1)) ((h.setItem p z x).ent p) (z + 1) (h p).pM =
      rowBehind (h.keys (k + 1)) (h.ent p) (z + 1) (h p).pM := by
    refine rowBehind_congr (fun s _ hle => hkids s hle) ?_
    intro s hlt _
    rw [ent_setItem_of_ne (by omega)]
  unfold keysBefore keysBehind
  rw [hbefore, hkids z (by omega), hkids (z + 1) hz, m_setItem, hbehind]
  exact ⟨rfl, rfl⟩

/-- The tree after an item above was replaced by the last one of the leaf before it. -/
theorem delete_above (hg : Grown t root lv top keys) (hx : Context t.heap lv root top p (k + 1) X Y)
    (hz : z < (t.heap p).pM) (hc : (t.heap.ent p z).2 = some c) :
    ∃ q, BTree.lastLeaf t.heap t.bNext c = some q ∧ lv q = some 0 ∧
      ∀ h₁, h₁ = t.heap.setItem p z ((t.heap q).pItems ((t.heap q).pM - 1)) →
        Grown { t with heap := h₁ } root lv top (h₁.keys (top + 1) (some root)) ∧
        Lost h₁ (h₁.setM q ((h₁ q).pM - 1)) q ∧
        (h₁.setM q ((h₁ q).pM - 1)).keys (top + 1) (some root) =
          keysBefore t.heap p (k + 1) z X ++ keysBehind t.heap p (k + 1) z Y := by
  have hs := hg.shape
  have hchild : ChildOf t.heap lv p (k + 1) z c := ⟨hx.level, Nat.le_of_lt hz, hc⟩
  have hfuel : k < t.bNext := Nat.lt_of_le_of_lt (hs.bound c k (hchild.below hs)) (hs.top_lt hg.unused)
  obtain ⟨q, Z, hlast, hqx⟩ := lastLeaf_context hs (hx.child hs hchild) hfuel
  refine ⟨q, hlast, hqx.level, ?_⟩
  rintro h₁ rfl
  have hqp : q ≠ p := level_ne hqx.level hx.level (by omega)
  obtain ⟨x, hxdef⟩ : ∃ x, x = (t.heap q).pItems ((t.heap q).pM - 1) := ⟨_, rfl⟩
  rw [← hxdef]
  have hg₁ := hg.setItem (a := p) (z := z) (x := x)
  have hs₁ : Shape (t.heap.setItem p z x) lv root top := hg₁.shape
  have hx₁ : Context (t.heap.setItem p z x) lv root top p (k + 1) X Y :=
    hx.self hs fun q hq => setItem_same hq
  have hz₁ : z < ((t.heap.setItem p z x) p).pM := by rwa [m_setItem]
  have hchild₁ : ChildOf (t.heap.setItem p z x) lv p (k + 1) z c := by
    refine ⟨hx.level, Nat.le_of_lt hz₁, ?_⟩
    rw [ent_setItem_child]
    exact hc
  -- the leaf stands right before the item
  obtain ⟨q', Z', hlast', hqx'⟩ := lastLeaf_context hs₁ (hx₁.child hs₁ hchild₁) hfuel
  have hlast₁ : BTree.lastLeaf (t.heap.setItem p z x) t.bNext c = BTree.lastLeaf t.heap t.bNext c :=
    lastLeaf_congr (fun _ => m_setItem) fun a r => ent_setItem_child
  have hqq : q' = q := Option.some.inj (hlast'.symm.trans (hlast₁.trans hlast))
  rw [hqq] at hqx'
  have hitem : ((t.heap.setItem p z x).ent p (z + 1)).1 = x := by
    rw [setItem_row, Function.update_self]
  obtain ⟨hbefore, hbehind⟩ := setItem_around (x := x) (X := X) (Y := Y) hs hx.level hz
  have hright : rowBehind ((t.heap.setItem p z x).keys (k + 1)) ((t.heap.setItem p z x).ent p) z
      ((t.heap.setItem p z x) p).pM ++ Y = x :: keysBehind t.heap p (k + 1) z Y := by
    rw [rowBehind_cons hz₁, hitem, ← hbehind]
    unfold keysBehind
    simp only [List.cons_append, List.append_assoc]
  rw [hright] at hqx'
  have hkeys := hx₁.item hz₁
  rw [pItems_eq, hitem, hbefore, hbehind] at hkeys
  have hsplit := hkeys.symm.trans hqx'.here
  rw [← List.append_assoc] at hsplit
  have hleft := List.append_cancel_right hsplit
  obtain ⟨hlost, hshort⟩ := lost_last hs₁ hqx.level rfl
  refine ⟨hg₁, hlost, ?_⟩
  have hroot : q ≠ root := level_ne hqx.level hs.atTop (by
    have := hs.bound p (k + 1) hx.level
    omega)
  have hpos : 0 < ((t.heap.setItem p z x) q).pM := by
    rw [m_setItem]
    have := (hg.filled q 0 hqx.level).mended.1 hroot
    have := hg.order
    omega
  have hlastItem : ((t.heap.setItem p z x) q).pItems (((t.heap.setItem p z x) q).pM - 1) = x := by
    rw [m_setItem, pItems_eq, (setItem_same hqp).ent, ← pItems_eq, hxdef]
  rw [leaf_last hs₁ hqx.level hpos, hlastItem] at hleft
  rw [hlost.around hs₁ hqx', hshort, hleft]
  simp only [List.append_assoc, List.cons_append, List.nil_append]

theorem BTCDelete_leaf {h'' : BTHeap α} (hnone : (t.heap p).pPages z = none)
    (hrun : t.repair p ((forUp (z + 1) ((t.heap p).pM - 1) (fun i => btMove p i p (i + 1)) t.heap).setM p
      ((forUp (z + 1) ((t.heap p).pM - 1) (fun i => btMove p i p (i + 1)) t.heap p).pM - 1)) =
        some h'') :
    BTCDelete p z t = some (BTree.shrink { t with heap := h'', bCnt := t.bCnt - 1 }) := by
  unfold BTCDelete
  simp only [hnone]
  change (t.repair p _).bind _ = _
  rw [hrun]
  rfl

theorem BTCDelete_above {h'' : BTHeap α} (hc : (t.heap p).pPages z = some c)
    (hlast : BTree.lastLeaf t.heap t.bNext c = some q)
    (hrun : t.repair q ((t.heap.setItem p z ((t.heap q).pItems ((t.heap q).pM - 1))).setM q
      ((t.heap.setItem p z ((t.heap q).pItems ((t.heap q).pM - 1)) q).pM - 1)) = some h'') :
    BTCDelete p z t = some (BTree.shrink { t with heap := h'', bCnt := t.bCnt - 1 }) := by
  unfold BTCDelete
  simp only [hc]
  change (BTree.lastLeaf t.heap t.bNext c).bind _ = _
  rw [hlast]
  change (t.repair q _).bind _ = _
  rw [hrun]
  rfl

omit [Inhabited α] in
theorem loop_count (hz : z < m) : (forUp (z + 1) (m - 1) (fun i => btMove a i a (i + 1)) h p).pM =
    (h p).pM := by
  refine forUp_rule (I := fun _ (t : BTHeap α) => (t p).pM = (h p).pM) (by omega) rfl ?_
  intro i t _ _ ht
  exact m_btSet.trans ht

/-- `BTCDelete` takes out the item at the cursor. -/
theorem btcDelete_has (hg : Grown t root lv top keys) (hx : Context t.heap lv root top p k X Y)
    (hz : z < (t.heap p).pM) :
    keys = keysBefore t.heap p k z X ++ (t.heap p).pItems z :: keysBehind t.heap p k z Y ∧
      ∃ t', BTCDelete p z t = some t' ∧
        t'.Has (keysBefore t.heap p k z X ++ keysBehind t.heap p k z Y) ∧
        t'.bN = t.bN ∧ t'.bCompare = t.bCompare ∧ t'.bCnt = t.bCnt - 1 := by
  refine ⟨hg.keys.symm.trans (hx.item hz), ?_⟩
  -- what is left is to shrink a tree that was mended
  have hend : ∀ {h'' lv' l}, Mended h'' t.bN t.bNext root lv' top l →
      (BTree.shrink { t with heap := h'', bCnt := t.bCnt - 1 }).Has l ∧
        (BTree.shrink { t with heap := h'', bCnt := t.bCnt - 1 }).bN = t.bN ∧
        (BTree.shrink { t with heap := h'', bCnt := t.bCnt - 1 }).bCompare = t.bCompare ∧
        (BTree.shrink { t with heap := h'', bCnt := t.bCnt - 1 }).bCnt = t.bCnt - 1 := by
    intro h'' lv' l hm
    exact Mended.shrink (t := { t with heap := h'', bCnt := t.bCnt - 1 }) hm hg.order hg.bRoot
  have hbelow := (hg.shape.page p k hx.level).below z (Nat.le_of_lt hz)
  cases k with
  | zero =>
      have hnone : (t.heap p).pPages z = none := hbelow
      obtain ⟨hlost, hkeys⟩ := delete_leaf hg hx hz rfl
      obtain ⟨h'', lv', hrun, hm⟩ := hlost.repaired hg hx.level
      rw [hkeys] at hm
      refine ⟨_, BTCDelete_leaf hnone ?_, hend hm⟩
      rw [loop_count hz]
      exact hrun
  | succ k =>
      obtain ⟨c, hc, -⟩ := hbelow
      obtain ⟨q, hlast, hq, hdel⟩ := delete_above hg hx hz hc
      obtain ⟨hg₁, hlost, hkeys⟩ := hdel _ rfl
      obtain ⟨h'', lv', hrun, hm⟩ := hlost.repaired hg₁ hq
      rw [hkeys] at hm
      exact ⟨_, BTCDelete_above hc hlast hrun, hend hm⟩

end Leaf

end PaxosSolutions.NWGadget
