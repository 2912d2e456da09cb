import PaxosSolutions.NWGadget.BTreeSearch

/-!
# The repair of a B-tree

A page that lost an item may have one too few. Its neighbour shares what it has or
comes into the same page, and then the parent may have too few. Either way the
tree has the shape of a tree and the same keys.
-/
namespace PaxosSolutions.NWGadget
open Lib BTHeap

variable {α : Type} [Inhabited α]

section Neighbours
variable {h h' : BTHeap α} {lv : BTAddr → Option ℕ} {root p q c pL pR : BTAddr} {top k j r i total : ℕ}
  {rows : ℕ → α × Option BTAddr}

/-- Two children beside each other. -/
structure Pair (h : BTHeap α) (lv : BTAddr → Option ℕ) (q : BTAddr) (k j : ℕ) (pL pR : BTAddr) :
    Prop where
  left : ChildOf h lv q (k + 1) j pL
  right : ChildOf h lv q (k + 1) (j + 1) pR

/-- The row across the two pages. -/
def pairRow (h : BTHeap α) (q : BTAddr) (j : ℕ) (pL pR : BTAddr) : ℕ → α × Option BTAddr :=
  rowAcross (h.ent pL) (h pL).pM (h.ent q (j + 1)).1 (h.ent pR)

def pairTotal (h : BTHeap α) (pL pR : BTAddr) : ℕ := (h pL).pM + (h pR).pM + 1

theorem pairRow_keys : rowKeys (h.keys k) (pairRow h q j pL pR) (pairTotal h pL pR) =
    h.keys (k + 1) (some pL) ++ (h.ent q (j + 1)).1 :: h.keys (k + 1) (some pR) := by
  unfold pairRow pairTotal
  rw [rowKeys_across]
  rfl

theorem Pair.around (hp : Pair h lv q k j pL pR) : Around h lv q (k + 1) fun p => p = pL ∨ p = pR ∨ p = q := by
  rintro p i (rfl | rfl | rfl) _
  · exact .inr ⟨j, hp.left⟩
  · exact .inr ⟨j + 1, hp.right⟩
  · exact .inl rfl

theorem Shared.same (hx : Shared h h' q (h q).pM (h.ent q) j pL pR total rows i) :
    ∀ p, ¬ (p = pL ∨ p = pR ∨ p = q) → SamePage h h' p := fun p hp =>
  ⟨hx.beside.ent p hp, hx.beside.count p hp⟩

theorem Merged.same (hx : Merged h h' q (h q).pM (h.ent q) j pL pR total rows) :
    ∀ p, ¬ (p = pL ∨ p = pR ∨ p = q) → SamePage h h' p := fun p hp =>
  ⟨hx.beside.ent p hp, hx.beside.count p hp⟩

section Pair
variable (hp : Pair h lv q k j pL pR) (hs : Shape h lv root top)
include hp hs

theorem Pair.ne : pL ≠ pR := by
  rintro rfl
  have := (hp.left.unique hs hp.right).2
  omega

theorem Pair.ne_parent : pL ≠ q ∧ pR ≠ q :=
  ⟨level_ne (hp.left.below hs) hp.left.level (by omega),
    level_ne (hp.right.below hs) hp.left.level (by omega)⟩

theorem Pair.neighbours : Neighbours h q (h q).pM (h.ent q) j pL (h pL).pM (h.ent pL)
    pR (h pR).pM (h.ent pR) :=
  ⟨(hs.page q _ hp.left.level).holds, (hs.page pL k (hp.left.below hs)).holds,
    (hs.page pR k (hp.right.below hs)).holds, hp.right.le, hp.left.child, hp.right.child, hp.ne hs,
    (hp.ne_parent hs).1, (hp.ne_parent hs).2⟩

/-- A child in the row across is a child of one of the two. -/
theorem Pair.child (hr : r ≤ pairTotal h pL pR) (hc : (pairRow h q j pL pR r).2 = some c) :
    (∃ s, ChildOf h lv pL k s c) ∨ ∃ s, ChildOf h lv pR k s c := by
  unfold pairTotal at hr
  unfold pairRow at hc
  by_cases hle : r ≤ (h pL).pM
  · rw [rowAcross_left hle] at hc
    exact .inl ⟨r, hp.left.below hs, hle, hc⟩
  by_cases hmid : r = (h pL).pM + 1
  · rw [hmid, rowAcross_mid] at hc
    exact .inr ⟨0, hp.right.below hs, Nat.zero_le _, hc⟩
  · obtain ⟨s, rfl⟩ : ∃ s, r = (h pL).pM + 1 + s := ⟨r - (h pL).pM - 1, by omega⟩
    rw [rowAcross_right (by omega)] at hc
    exact .inr ⟨s, hp.right.below hs, by omega, hc⟩

omit hp hs in
/-- The children of both are in the row. -/
theorem pairRow_child (hc : ChildOf h lv pL k r c ∨ ChildOf h lv pR k r c) :
    ∃ s ≤ pairTotal h pL pR, (pairRow h q j pL pR s).2 = some c := by
  unfold pairTotal pairRow
  rcases hc with hc | hc
  · have hle := hc.le
    refine ⟨r, by omega, ?_⟩
    rw [rowAcross_left hle]
    exact hc.child
  · have hle := hc.le
    refine ⟨(h pL).pM + 1 + r, by omega, ?_⟩
    by_cases hr : r = 0
    · rw [hr, Nat.add_zero, rowAcross_mid]
      exact hr ▸ hc.child
    · rw [rowAcross_right (by omega)]
      exact hc.child

theorem Pair.below (hr : r ≤ pairTotal h pL pR) : Below lv k (pairRow h q j pL pR r).2 := by
  have hL := hs.page pL k (hp.left.below hs)
  have hR := hs.page pR k (hp.right.below hs)
  unfold pairTotal at hr
  unfold pairRow
  by_cases hle : r ≤ (h pL).pM
  · rw [rowAcross_left hle]
    exact hL.below r hle
  by_cases hmid : r = (h pL).pM + 1
  · rw [hmid, rowAcross_mid]
    exact hR.below 0 (Nat.zero_le _)
  · obtain ⟨s, rfl⟩ : ∃ s, r = (h pL).pM + 1 + s := ⟨r - (h pL).pM - 1, by omega⟩
    rw [rowAcross_right (by omega)]
    exact hR.below s (by omega)

/-- A page below the parent, if it is not one of the two, has the keys that it had. -/
theorem Pair.untouched (hsame : ∀ p, ¬ (p = pL ∨ p = pR ∨ p = q) → SamePage h h' p)
    (hc : lv c = some i) (hi : i ≤ k) (hL : c ≠ pL) (hR : c ≠ pR) :
    h'.keys (i + 1) (some c) = h.keys (i + 1) (some c) := by
  have hcq : c ≠ q := level_ne hc hp.left.level (by omega)
  refine hs.keys_untouched hp.left.level (hp.around) hsame hc (by omega) hcq ?_
  rintro (h | h | h)
  · exact hL h
  · exact hR h
  · exact hcq h

/-- The keys below the children of the row stay. -/
theorem Pair.row_keys (hsame : ∀ p, ¬ (p = pL ∨ p = pR ∨ p = q) → SamePage h h' p)
    (hr : r ≤ pairTotal h pL pR) :
    h'.keys k (pairRow h q j pL pR r).2 = h.keys k (pairRow h q j pL pR r).2 := by
  have hb := hp.below hs hr
  have hL := hp.left.below hs
  have hR := hp.right.below hs
  cases k with
  | zero =>
      rw [Below] at hb
      rw [hb, keys_none, keys_none]
  | succ k =>
      obtain ⟨c, hc, hlv⟩ := hb
      rw [hc]
      exact hp.untouched hs hsame hlv (by omega) (level_ne hlv hL (by omega))
        (level_ne hlv hR (by omega))

/-- The other children of the parent keep their keys. -/
theorem Pair.beside_keys (hsame : ∀ p, ¬ (p = pL ∨ p = pR ∨ p = q) → SamePage h h' p) :
    rowBefore (h'.keys (k + 1)) (h.ent q) j = rowBefore (h.keys (k + 1)) (h.ent q) j ∧
      rowBehind (h'.keys (k + 1)) (h.ent q) (j + 1) (h q).pM =
        rowBehind (h.keys (k + 1)) (h.ent q) (j + 1) (h q).pM := by
  have hjle := hp.right.le
  have hkids : ∀ s ≤ (h q).pM, s ≠ j → s ≠ j + 1 →
      h'.keys (k + 1) (h.ent q s).2 = h.keys (k + 1) (h.ent q s).2 := by
    intro s hsle hj hj1
    obtain ⟨c, hc, hlv⟩ := (hs.page q (k + 1) hp.left.level).below s hsle
    have hchild : ChildOf h lv q (k + 1) s c := ⟨hp.left.level, hsle, hc⟩
    rw [hc]
    refine hp.untouched hs hsame hlv (Nat.le_refl k) ?_ ?_
    · rintro rfl
      exact hj (hchild.unique hs hp.left).2
    · rintro rfl
      exact hj1 (hchild.unique hs hp.right).2
  constructor
  · exact rowBefore_congr (fun s hlt => hkids s (by omega) (by omega) (by omega)) fun _ _ _ => rfl
  · exact rowBehind_congr (fun s hlt hle => hkids s hle (by omega) (by omega)) fun _ _ _ => rfl

/-! ### Sharing -/

theorem Shared.shape (hi : i < pairTotal h pL pR)
    (hx : Shared h h' q (h q).pM (h.ent q) j pL pR (pairTotal h pL pR) (pairRow h q j pL pR) i) :
    Shape h' lv root top := by
  have hlink : ∀ c, (∀ s, ¬ ChildOf h lv pL k s c) → (∀ s, ¬ ChildOf h lv pR k s c) →
      h'.link c = h.link c := by
    intro c hL hR
    refine hx.beside.link c ?_
    rintro ⟨r, hr, hc⟩
    rcases hp.child hs hr hc with ⟨s, hcs⟩ | ⟨s, hcs⟩
    · exact hL s hcs
    · exact hR s hcs
  refine hs.change hx.same (fun _ _ => rfl) ?_ ?_ hs.atTop ?_ ?_ hs.bound
  · intro p n r c hP hc
    refine ⟨hlink c ?_ ?_, rfl⟩
    · intro s hcs
      exact hP (.inl (hc.unique hs hcs).1)
    · intro s hcs
      exact hP (.inr (.inl (hc.unique hs hcs).1))
  · rintro p n (rfl | rfl | rfl) hn
    · cases hn.symm.trans (hp.left.below hs)
      exact hx.left.pageAt fun r hr => hp.below hs (by omega)
    · cases hn.symm.trans (hp.right.below hs)
      refine hx.right.pageAt ?_
      intro r hr
      rw [rowAfter_child]
      exact hp.below hs (by omega)
    · cases hn.symm.trans hp.left.level
      refine hx.parent.pageAt ?_
      intro r hr
      by_cases hrj : r = j + 1
      · rw [hrj, Function.update_self]
        exact ⟨pR, rfl, hp.right.below hs⟩
      · rw [Function.update_of_ne hrj]
        exact (hs.page p (k + 1) hp.left.level).below r hr
  · have hroot := hlink root (fun s hc => hc.ne_root hs rfl) fun s hc => hc.ne_root hs rfl
    exact (Prod.mk.inj hroot).1.trans hs.orphan
  · intro c n hc hne
    obtain ⟨p, r, hcp⟩ := hs.up c n hc hne
    by_cases hpq : p = q
    · subst hpq
      have hr := hcp.le
      refine .inr ⟨p, r, .inr (.inr rfl), hcp.level, ?_, ?_⟩
      · rw [hx.parent.count]
        exact hr
      · rw [hx.parent.ent r hr]
        by_cases hrj : r = j + 1
        · rw [hrj, Function.update_self, ← hp.right.child, ← hrj]
          exact hcp.child
        · rw [Function.update_of_ne hrj]
          exact hcp.child
    by_cases hLR : p = pL ∨ p = pR
    · have hk : n + 1 = k := by
        rcases hLR with rfl | rfl
        · exact Option.some.inj (hcp.level.symm.trans (hp.left.below hs))
        · exact Option.some.inj (hcp.level.symm.trans (hp.right.below hs))
      have hrow : ∃ s ≤ pairTotal h pL pR, (pairRow h q j pL pR s).2 = some c := by
        rw [hk] at hcp
        rcases hLR with rfl | rfl
        · exact pairRow_child (.inl hcp)
        · exact pairRow_child (.inr hcp)
      obtain ⟨s, hst, hcs⟩ := hrow
      by_cases hsi : s ≤ i
      · refine .inr ⟨pL, s, .inl rfl, hk ▸ hp.left.below hs, ?_, ?_⟩
        · rw [hx.left.count]
          exact hsi
        · rw [hx.left.ent s hsi]
          exact hcs
      · refine .inr ⟨pR, s - (i + 1), .inr (.inl rfl), hk ▸ hp.right.below hs, ?_, ?_⟩
        · rw [hx.right.count]
          omega
        · rw [hx.right.ent _ (by omega), rowAfter_child, show i + 1 + (s - (i + 1)) = s by omega]
          exact hcs
    · refine .inl ⟨p, r, ?_, hcp⟩
      rintro (h | h | h)
      · exact hLR (.inl h)
      · exact hLR (.inr h)
      · exact hpq h

theorem Shared.keys (hi : i < pairTotal h pL pR)
    (hx : Shared h h' q (h q).pM (h.ent q) j pL pR (pairTotal h pL pR) (pairRow h q j pL pR) i) :
    h'.keys (top + 1) (some root) = h.keys (top + 1) (some root) := by
  refine hs.keys_kept hp.left.level (hp.around) (hx.same) ?_
  obtain ⟨hbefore, hbehind⟩ := hp.beside_keys hs (hx.same)
  have hrow : rowKeys (h'.keys k) (pairRow h q j pL pR) (pairTotal h pL pR) =
      rowKeys (h.keys k) (pairRow h q j pL pR) (pairTotal h pL pR) :=
    rowKeys_congr (fun r hr => hp.row_keys hs (hx.same) hr) fun _ _ _ => rfl
  rw [hx.parent.keys, rowKeys_update hp.right.le, hbefore, hbehind, hp.left.child, hx.left.keys,
    hx.right.keys, ← rowKeys_split hi, hrow, pairRow_keys, (hs.page q _ hp.left.level).holds.keys,
    rowKeys_pair hp.right.le, hp.left.child, hp.right.child]

/-! ### Merging -/

theorem Merged.shape
    (hx : Merged h h' q (h q).pM (h.ent q) j pL pR (pairTotal h pL pR) (pairRow h q j pL pR)) :
    Shape h' (Function.update lv pR none) root top := by
  have hle := hp.right.le
  have hold : ∀ c, c ≠ pR → Function.update lv pR none c = lv c := fun c hc =>
    Function.update_of_ne hc ..
  have hrow : ∀ {r c}, r ≤ pairTotal h pL pR → (pairRow h q j pL pR r).2 = some c → c ≠ pR := by
    intro r c hr hc
    have hbelow := hp.below hs hr
    obtain ⟨i, hi, hlv⟩ := hbelow.child hc
    exact level_ne hlv (hp.right.below hs) (by omega)
  -- a child that the parent keeps
  have hparent : ∀ r ≤ (h q).pM - 1, ∃ s ≤ (h q).pM, s ≠ j + 1 ∧
      without (h.ent q) (j + 1) r = h.ent q s := fun r hr => without_eq hr (by omega)
  have hlink : ∀ c, c ≠ pR → (∀ s, ¬ ChildOf h lv pL k s c) → (∀ s, ¬ ChildOf h lv pR k s c) →
      (∀ s, ¬ ChildOf h lv q (k + 1) s c) → h'.link c = h.link c := by
    intro c hcR hL hR hq
    refine hx.beside.link c ?_
    rintro (hc | ⟨r, hr, hc⟩ | ⟨r, hr, hc⟩)
    · exact hcR hc
    · rcases hp.child hs hr hc with ⟨s, hcs⟩ | ⟨s, hcs⟩
      · exact hL s hcs
      · exact hR s hcs
    · obtain ⟨s, hsle, -, heq⟩ := hparent r hr
      rw [heq] at hc
      exact hq s ⟨hp.left.level, hsle, hc⟩
  have hroot : root ≠ pR := (hp.right.ne_root hs).symm
  refine hs.change hx.same ?_ ?_ ?_ ((hold root hroot).trans hs.atTop) ?_ ?_ ?_
  · intro p hP
    exact hold p fun h => hP (.inr (.inl h))
  · intro p n r c hP hc
    have hcR : c ≠ pR := by
      rintro rfl
      exact hP (.inr (.inr (hc.unique hs hp.right).1))
    refine ⟨hlink c hcR ?_ ?_ ?_, hold c hcR⟩
    · intro s hcs
      exact hP (.inl (hc.unique hs hcs).1)
    · intro s hcs
      exact hP (.inr (.inl (hc.unique hs hcs).1))
    · intro s hcs
      exact hP (.inr (.inr (hc.unique hs hcs).1))
  · rintro p n (rfl | rfl | rfl) hn
    · rw [hold p (hp.ne hs)] at hn
      cases hn.symm.trans (hp.left.below hs)
      refine hx.left.pageAt ?_
      intro r hr
      exact (hp.below hs hr).congr fun c hc => hold c (hrow hr hc)
    · rw [Function.update_self] at hn
      cases hn
    · rw [hold p (hp.ne_parent hs).2.symm] at hn
      cases hn.symm.trans hp.left.level
      refine hx.parent.pageAt ?_
      intro r hr
      obtain ⟨s, hsle, hsj, heq⟩ := hparent r hr
      rw [heq]
      refine ((hs.page p (k + 1) hp.left.level).below s hsle).congr fun c hc => hold c ?_
      rintro rfl
      exact hsj (ChildOf.unique hs ⟨hp.left.level, hsle, hc⟩ hp.right).2
  · have hroot' := hlink root hroot (fun s hc => hc.ne_root hs rfl) (fun s hc => hc.ne_root hs rfl)
      fun s hc => hc.ne_root hs rfl
    exact (Prod.mk.inj hroot').1.trans hs.orphan
  · intro c n hc hne
    have hcR : c ≠ pR := by
      rintro rfl
      rw [Function.update_self] at hc
      cases hc
    rw [hold c hcR] at hc
    obtain ⟨p, r, hcp⟩ := hs.up c n hc hne
    by_cases hpq : p = q
    · subst hpq
      have hr := hcp.le
      have hrj : r ≠ j + 1 := by
        rintro rfl
        exact hcR (Option.some.inj (hcp.child.symm.trans hp.right.child))
      have hslot : ∃ s ≤ (h p).pM - 1, without (h.ent p) (j + 1) s = h.ent p r := by
        by_cases hlt : r < j + 1
        · exact ⟨r, by omega, if_pos hlt⟩
        · refine ⟨r - 1, by omega, ?_⟩
          unfold without
          rw [if_neg (by omega), show r - 1 + 1 = r by omega]
      obtain ⟨s, hsle, heq⟩ := hslot
      refine .inr ⟨p, s, .inr (.inr rfl), (hold p (hp.ne_parent hs).2.symm).trans hcp.level, ?_, ?_⟩
      · rw [hx.parent.count]
        exact hsle
      · rw [hx.parent.ent s hsle, heq]
        exact hcp.child
    by_cases hLR : p = pL ∨ p = pR
    · have hk : n + 1 = k := by
        rcases hLR with rfl | rfl
        · exact Option.some.inj (hcp.level.symm.trans (hp.left.below hs))
        · exact Option.some.inj (hcp.level.symm.trans (hp.right.below hs))
      have hrow' : ∃ s ≤ pairTotal h pL pR, (pairRow h q j pL pR s).2 = some c := by
        rw [hk] at hcp
        rcases hLR with rfl | rfl
        · exact pairRow_child (.inl hcp)
        · exact pairRow_child (.inr hcp)
      obtain ⟨s, hst, hcs⟩ := hrow'
      refine .inr ⟨pL, s, .inl rfl, ?_, ?_, ?_⟩
      · rw [hold pL (hp.ne hs), hk]
        exact hp.left.below hs
      · rw [hx.left.count]
        exact hst
      · rw [hx.left.ent s hst]
        exact hcs
    · refine .inl ⟨p, r, ?_, hcp⟩
      rintro (h | h | h)
      · exact hLR (.inl h)
      · exact hLR (.inr h)
      · exact hpq h
  · intro p n hn
    by_cases hpR : p = pR
    · rw [hpR, Function.update_self] at hn
      cases hn
    · rw [hold p hpR] at hn
      exact hs.bound p n hn

theorem Merged.keys
    (hx : Merged h h' q (h q).pM (h.ent q) j pL pR (pairTotal h pL pR) (pairRow h q j pL pR)) :
    h'.keys (top + 1) (some root) = h.keys (top + 1) (some root) := by
  refine hs.keys_kept hp.left.level hp.around hx.same ?_
  obtain ⟨hbefore, hbehind⟩ := hp.beside_keys hs hx.same
  have hrow : rowKeys (h'.keys k) (pairRow h q j pL pR) (pairTotal h pL pR) =
      rowKeys (h.keys k) (pairRow h q j pL pR) (pairTotal h pL pR) :=
    rowKeys_congr (fun r hr => hp.row_keys hs hx.same hr) fun _ _ _ => rfl
  rw [hx.parent.keys, rowKeys_without hp.right.le, hbefore, hbehind, hp.left.child, hx.left.keys, hrow,
    pairRow_keys, (hs.page q _ hp.left.level).holds.keys, rowKeys_pair hp.right.le, hp.left.child,
    hp.right.child]

end Pair

end Neighbours

/-! ### The loop -/

/-- Page `p` may have one item too few, and is the only one. -/
structure Lacking (h : BTHeap α) (n : ℕ) (next root : BTAddr) (lv : BTAddr → Option ℕ) (top : ℕ)
    (p : BTAddr) (k : ℕ) (keys : List α) : Prop where
  order : 1 ≤ n
  shape : Shape h lv root top
  unused : ∀ c, next ≤ c → lv c = none
  level : lv p = some k
  others : ∀ c i, lv c = some i → c ≠ p → Enough n root c (h c).pM
  few_items : (h p).pM ≤ 2 * n
  lacks : p ≠ root → (h p).pM + 1 = n
  keys : h.keys (top + 1) (some root) = keys

/-- No page lacks anything, but the root may have no item. -/
structure Mended (h : BTHeap α) (n : ℕ) (next root : BTAddr) (lv : BTAddr → Option ℕ) (top : ℕ)
    (keys : List α) : Prop where
  shape : Shape h lv root top
  unused : ∀ c, next ≤ c → lv c = none
  filled : ∀ c i, lv c = some i → (c ≠ root → n ≤ (h c).pM) ∧ (h c).pM ≤ 2 * n
  keys : h.keys (top + 1) (some root) = keys

section Loop
variable {h h' : BTHeap α} {n : ℕ} {next root p q pL pR : BTAddr} {lv : BTAddr → Option ℕ}
  {top k j i r : ℕ} {keys : List α}

theorem Enough.mended {m : ℕ} (he : Enough n root p m) : (p ≠ root → n ≤ m) ∧ m ≤ 2 * n := by
  refine ⟨?_, he.2⟩
  intro hne
  have := he.1
  rwa [if_neg hne] at this

/-- The two pages share, and nothing is left to be done. -/
theorem Shared.mended (hx : Lacking h n next root lv top p k keys) (hp : Pair h lv q k j pL pR)
    (hown : p = pL ∨ p = pR) (hi : i < pairTotal h pL pR)
    (hsh : Shared h h' q (h q).pM (h.ent q) j pL pR (pairTotal h pL pR) (pairRow h q j pL pR) i)
    (hL : n ≤ i ∧ i ≤ 2 * n) (hR : n ≤ pairTotal h pL pR - i - 1 ∧ pairTotal h pL pR - i - 1 ≤ 2 * n) :
    Mended h' n next root lv top keys := by
  refine ⟨hsh.shape hp hx.shape hi, hx.unused, ?_, (hsh.keys hp hx.shape hi).trans hx.keys⟩
  intro c m hc
  by_cases hcL : c = pL
  · rw [hcL, hsh.left.count]
    exact ⟨fun _ => hL.1, hL.2⟩
  by_cases hcR : c = pR
  · rw [hcR, hsh.right.count]
    exact ⟨fun _ => hR.1, hR.2⟩
  have hcp : c ≠ p := by
    rintro rfl
    exact hown.elim hcL hcR
  have hfill := (hx.others c m hc hcp).mended
  by_cases hcq : c = q
  · rw [hcq, hsh.parent.count, ← hcq]
    exact hfill
  · rw [(hsh.same c fun h => h.elim hcL fun h => h.elim hcR hcq).count]
    exact hfill

/-- The two pages are one, and the parent has an item less. -/
theorem Merged.step (hx : Lacking h n next root lv top p k keys) (hp : Pair h lv q k j pL pR)
    (hown : p = pL ∨ p = pR)
    (hm : Merged h h' q (h q).pM (h.ent q) j pL pR (pairTotal h pL pR) (pairRow h q j pL pR))
    (htotal : pairTotal h pL pR = 2 * n) :
    if (h q).pM ≤ n then Lacking h' n next root (Function.update lv pR none) top q (k + 1) keys
    else Mended h' n next root (Function.update lv pR none) top keys := by
  have hs := hx.shape
  have hn := hx.order
  have hle := hp.right.le
  have hqR := (hp.ne_parent hs).2.symm
  have hqp : q ≠ p := by
    rcases hown with rfl | rfl
    · exact (hp.ne_parent hs).1.symm
    · exact hqR
  have hqfill := hx.others q (k + 1) hp.left.level hqp
  have hshape := hm.shape hp hs
  have hkeys := (hm.keys hp hs).trans hx.keys
  have hLroot := hp.left.ne_root hs
  have hunused : ∀ c, next ≤ c → Function.update lv pR none c = none := by
    intro c hc
    by_cases hcR : c = pR
    · rw [hcR, Function.update_self]
    · rw [Function.update_of_ne hcR]
      exact hx.unused c hc
  have hothers : ∀ c m, Function.update lv pR none c = some m → c ≠ q → Enough n root c (h' c).pM := by
    intro c m hc hcq
    have hcR : c ≠ pR := by
      rintro rfl
      rw [Function.update_self] at hc
      cases hc
    rw [Function.update_of_ne hcR] at hc
    by_cases hcL : c = pL
    · rw [hcL, hm.left.count, htotal]
      exact ⟨by rw [if_neg hLroot]; omega, Nat.le_refl _⟩
    · rw [(hm.same c fun h => h.elim hcL fun h => h.elim hcR hcq).count]
      exact hx.others c m hc fun h => hown.elim (fun h' => hcL (h.trans h')) fun h' => hcR (h.trans h')
  have hcount := hm.parent.count
  have hfew := hqfill.2
  by_cases hmc : (h q).pM ≤ n
  · rw [if_pos hmc]
    refine ⟨hn, hshape, hunused, (Function.update_of_ne hqR ..).trans hp.left.level, hothers, ?_, ?_,
      hkeys⟩
    · omega
    · intro hqroot
      have := (hqfill.mended).1 hqroot
      omega
  · rw [if_neg hmc]
    refine ⟨hshape, hunused, ?_, hkeys⟩
    intro c m hc
    by_cases hcq : c = q
    · rw [hcq]
      exact ⟨fun _ => by omega, by omega⟩
    · exact (hothers c m hc hcq).mended

/-- `underflow` of a page mends the tree or leaves it to the parent. -/
theorem Lacking.step (hx : Lacking h n next root lv top p k keys)
    (hc : ChildOf h lv q (k + 1) r p) :
    ((btUnderflow p q r h).2 = false ∧ ∃ lv', Mended (btUnderflow p q r h).1 n next root lv' top keys) ∨
      ((btUnderflow p q r h).2 = true ∧
        ∃ lv', Lacking (btUnderflow p q r h).1 n next root lv' top q (k + 1) keys) := by
  have hs := hx.shape
  have hle := hc.le
  have hlacks := hx.lacks (hc.ne_root hs)
  have hqp : q ≠ p := level_ne hc.level hx.level (by omega)
  have hchoice : ∀ {u : BTHeap α × Bool} {pR : BTAddr},
      u.2 = decide ((h q).pM ≤ n) →
      (if (h q).pM ≤ n then Lacking u.1 n next root (Function.update lv pR none) top q (k + 1) keys
        else Mended u.1 n next root (Function.update lv pR none) top keys) →
      (u.2 = false ∧ ∃ lv', Mended u.1 n next root lv' top keys) ∨
        (u.2 = true ∧ ∃ lv', Lacking u.1 n next root lv' top q (k + 1) keys) := by
    intro u pR hflag hres
    by_cases hmc : (h q).pM ≤ n
    · rw [if_pos hmc] at hres
      exact .inr ⟨hflag.trans (decide_eq_true hmc), _, hres⟩
    · rw [if_neg hmc] at hres
      exact .inl ⟨hflag.trans (decide_eq_false hmc), _, hres⟩
  by_cases hlt : r < (h q).pM
  · -- there is a right neighbour
    obtain ⟨pR, hcR, -⟩ := (hs.page q (k + 1) hc.level).below (r + 1) hlt
    have hp : Pair h lv q k r p pR := ⟨hc, hc.level, hlt, hcR⟩
    have hfill := hx.others pR k (hp.right.below hs) (hp.ne hs).symm
    have hlow := hfill.mended.1 (hp.right.ne_root hs)
    have hhigh := hfill.2
    have htotal : pairTotal h p pR = (h p).pM + (h pR).pM + 1 := rfl
    by_cases hmore : n < (h pR).pM
    · obtain ⟨hflag, hsh⟩ := btUnderflow_right (hp.neighbours hs) (by omega)
      exact .inl ⟨hflag, lv, Shared.mended hx hp (.inl rfl) (by omega) hsh
        ⟨by omega, by omega⟩ ⟨by omega, by omega⟩⟩
    · obtain ⟨hflag, hm⟩ := btUnderflow_mergeRight (hp.neighbours hs) (by omega)
      rw [hlacks] at hflag
      exact hchoice hflag (Merged.step hx hp (.inl rfl) hm (by omega))
  · -- the page is the last child
    have hqfill := hx.others q (k + 1) hc.level hqp
    have hpos : 0 < (h q).pM := by
      by_cases hqr : q = root
      · have := hqfill.1
        rw [if_pos hqr] at this
        omega
      · have := hqfill.mended.1 hqr
        have := hx.order
        omega
    obtain ⟨j, rfl⟩ : ∃ j, r = j + 1 := ⟨r - 1, by omega⟩
    obtain ⟨pL, hcL, -⟩ := (hs.page q (k + 1) hc.level).below j (by omega)
    have hp : Pair h lv q k j pL p := ⟨⟨hc.level, by omega, hcL⟩, hc⟩
    have hfill := hx.others pL k (hp.left.below hs) (hp.ne hs)
    have hlow := hfill.mended.1 (hp.left.ne_root hs)
    have hhigh := hfill.2
    have htotal : pairTotal h pL p = (h pL).pM + (h p).pM + 1 := rfl
    by_cases hmore : n < (h pL).pM
    · obtain ⟨hflag, hsh⟩ := btUnderflow_left (hp.neighbours hs) (by omega) (by omega)
      exact .inl ⟨hflag, lv, Shared.mended hx hp (.inr rfl) (by omega) hsh
        ⟨by omega, by omega⟩ ⟨by omega, by omega⟩⟩
    · obtain ⟨hflag, hm⟩ := btUnderflow_mergeLeft (hp.neighbours hs) (by omega) (by omega)
      rw [hlacks] at hflag
      exact hchoice hflag (Merged.step hx hp (.inr rfl) hm (by omega))

/-- The loop of `BTCDelete` mends the tree. -/
theorem underflows_mended {fuel : ℕ} (hx : Lacking h n next root lv top p k keys)
    (hfuel : top + 1 ≤ fuel + k) :
    ∃ h' lv', BTree.underflows fuel p h = some h' ∧ Mended h' n next root lv' top keys := by
  induction fuel generalizing h lv p k with
  | zero =>
      have := hx.shape.bound p k hx.level
      omega
  | succ fuel ih =>
      rw [BTree.underflows]
      by_cases hpr : p = root
      · have hnone := (hx.shape.parent_none hx.level).mpr hpr
        simp only [hnone]
        refine ⟨h, lv, rfl, hx.shape, hx.unused, ?_, hx.keys⟩
        intro c i hc
        by_cases hcp : c = p
        · rw [hcp]
          exact ⟨fun hne => absurd hpr hne, hx.few_items⟩
        · exact (hx.others c i hc hcp).mended
      · obtain ⟨q, r, hc⟩ := hx.shape.up p k hx.level hpr
        have hlink := hc.link hx.shape
        have hparent : (h p).pParent = some q := (Prod.mk.inj hlink).1
        have hindex : (h p).pParentIndex = r := (Prod.mk.inj hlink).2
        simp only [hparent, hindex]
        rcases hx.step hc with ⟨hflag, lv', hm⟩ | ⟨hflag, lv', hl⟩
        · simp only [hflag, Bool.false_eq_true, if_false]
          exact ⟨_, lv', rfl, hm⟩
        · simp only [hflag, if_true]
          exact ih hl (by omega)

end Loop

end PaxosSolutions.NWGadget
