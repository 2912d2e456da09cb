import PaxosSolutions.NWGadget.BTreePages

/-!
# Pages that have too few items

`underflow` takes items from a neighbour over the parent or puts the two pages
and the item between them into one page. Seen as one row across the two pages,
the first divides it at another place, and the second takes it as it is.
-/
namespace PaxosSolutions.NWGadget
open Lib BTHeap

variable {α : Type} [Inhabited α]

/-- A row without entry `i`. -/
def without (e : ℕ → α × Option BTAddr) (i r : ℕ) : α × Option BTAddr :=
  if r < i then e r else e (r + 1)

/-- Children `j` and `j + 1` of a page with their rows. -/
structure Neighbours (h : BTHeap α) (pC : BTAddr) (mc : ℕ) (eC : ℕ → α × Option BTAddr) (j : ℕ)
    (pL : BTAddr) (mL : ℕ) (eL : ℕ → α × Option BTAddr)
    (pR : BTAddr) (mR : ℕ) (eR : ℕ → α × Option BTAddr) : Prop where
  parent : Holds h pC mc eC
  left : Holds h pL mL eL
  right : Holds h pR mR eR
  lt : j < mc
  leftChild : (eC j).2 = some pL
  rightChild : (eC (j + 1)).2 = some pR
  neLR : pL ≠ pR
  neLC : pL ≠ pC
  neRC : pR ≠ pC

section Across
variable {h h' : BTHeap α} {pC pL pR : BTAddr} {mc mL mR j i : ℕ} {eC eL eR : ℕ → α × Option BTAddr}
  {row : ℕ → α × Option BTAddr}

/-- The two pages are divided after `i` items. -/
structure Shared (h h' : BTHeap α) (pC : BTAddr) (mc : ℕ) (eC : ℕ → α × Option BTAddr) (j : ℕ)
    (pL pR : BTAddr) (total : ℕ) (row : ℕ → α × Option BTAddr) (i : ℕ) : Prop where
  left : Holds h' pL i row
  right : Holds h' pR (total - i - 1) (rowAfter row (i + 1))
  parent : Holds h' pC mc (Function.update eC (j + 1) ((row (i + 1)).1, some pR))
  beside : Beside h h' (fun p => p = pL ∨ p = pR ∨ p = pC) (fun c => ∃ r ≤ total, (row r).2 = some c)

/-- The left page takes everything. -/
structure Merged (h h' : BTHeap α) (pC : BTAddr) (mc : ℕ) (eC : ℕ → α × Option BTAddr) (j : ℕ)
    (pL pR : BTAddr) (total : ℕ) (row : ℕ → α × Option BTAddr) : Prop where
  left : Holds h' pL total row
  parent : Holds h' pC (mc - 1) (without eC (j + 1))
  beside : Beside h h' (fun p => p = pL ∨ p = pR ∨ p = pC) (fun c => c = pR ∨
    (∃ r ≤ total, (row r).2 = some c) ∨ ∃ r ≤ mc - 1, (without eC (j + 1) r).2 = some c)

omit [Inhabited α] in
theorem rowAcross_left {r : ℕ} {x : α} (hr : r ≤ mL) : rowAcross eL mL x eR r = eL r := if_pos hr

omit [Inhabited α] in
theorem rowAcross_mid {x : α} : rowAcross eL mL x eR (mL + 1) = (x, (eR 0).2) := by
  unfold rowAcross
  rw [if_neg (by omega), if_pos rfl]

omit [Inhabited α] in
theorem rowAcross_right {r : ℕ} {x : α} (hr : 1 ≤ r) : rowAcross eL mL x eR (mL + 1 + r) = eR r := by
  unfold rowAcross
  rw [if_neg (by omega), if_neg (by omega), show mL + 1 + r - mL - 1 = r by omega]

/-- Whose child stands at a place of the row. -/
theorem rowAcross_link (hn : Neighbours h pC mc eC j pL mL eL pR mR eR) {x : α} {r : ℕ}
    (hr : r ≤ mL + mR + 1) {c : BTAddr} (hc : (rowAcross eL mL x eR r).2 = some c) :
    h.link c = if r ≤ mL then (some pL, r) else (some pR, r - mL - 1) := by
  by_cases hle : r ≤ mL
  · rw [rowAcross_left hle] at hc
    rw [if_pos hle]
    exact hn.left.link r hle c hc
  · rw [if_neg hle]
    by_cases hmid : r = mL + 1
    · rw [hmid, rowAcross_mid] at hc
      rw [hmid, show mL + 1 - mL - 1 = 0 by omega]
      exact hn.right.link 0 (Nat.zero_le _) c hc
    · obtain ⟨s, rfl⟩ : ∃ s, r = mL + 1 + s := ⟨r - mL - 1, by omega⟩
      rw [rowAcross_right (by omega)] at hc
      rw [show mL + 1 + s - mL - 1 = s by omega]
      exact hn.right.link s (by omega) c hc

theorem rowAcross_once (hn : Neighbours h pC mc eC j pL mL eL pR mR eR) {x : α} :
    RowOnce (rowAcross eL mL x eR) (mL + mR + 1) := by
  intro r s c hr hs hcr hcs
  have hlink := (rowAcross_link hn hr hcr).symm.trans (rowAcross_link hn hs hcs)
  split_ifs at hlink with h₁ h₂ h₃
  · exact (Prod.mk.inj hlink).2
  · exact absurd (Option.some.inj (Prod.mk.inj hlink).1) hn.neLR
  · exact absurd (Option.some.inj (Prod.mk.inj hlink).1) hn.neLR.symm
  · have := (Prod.mk.inj hlink).2
    omega

/-- The children of the row are not those of the parent. -/
theorem rowAcross_apart (hn : Neighbours h pC mc eC j pL mL eL pR mR eR) {x : α} {r s : ℕ}
    (hr : r ≤ mL + mR + 1) (hs : s ≤ mc) {c : BTAddr} (hc : (rowAcross eL mL x eR r).2 = some c)
    (hc' : (eC s).2 = some c) : False := by
  have hlink := (rowAcross_link hn hr hc).symm.trans (hn.parent.link s hs c hc')
  split_ifs at hlink
  · exact hn.neLC (Option.some.inj (Prod.mk.inj hlink).1)
  · exact hn.neRC (Option.some.inj (Prod.mk.inj hlink).1)

/-! ### Sharing -/

def sharedRows (pC pL pR : BTAddr) (j total : ℕ) (row : ℕ → α × Option BTAddr) (i : ℕ)
    (p : BTAddr) (r : ℕ) : α × Option BTAddr :=
  if p = pL ∧ r ≤ i then row r
  else if p = pR ∧ r ≤ total - i - 1 then rowAfter row (i + 1) r
  else if p = pC ∧ r = j + 1 then ((row (i + 1)).1, some pR)
  else (default, none)

section Shared
variable {x : α} (hn : Neighbours h pC mc eC j pL mL eL pR mR eR)
  (hrow : row = rowAcross eL mL x eR) {total : ℕ} (htotal : total = mL + mR + 1) (hi : i < total)
include hn

omit hn in
theorem sharedRows_left {r : ℕ} (hr : r ≤ i) : sharedRows pC pL pR j total row i pL r = row r :=
  if_pos ⟨rfl, hr⟩

theorem sharedRows_right {r : ℕ} (hr : r ≤ total - i - 1) :
    sharedRows pC pL pR j total row i pR r = rowAfter row (i + 1) r := by
  unfold sharedRows
  rw [if_neg (mt And.left hn.neLR.symm), if_pos ⟨rfl, hr⟩]

theorem sharedRows_parent :
    sharedRows pC pL pR j total row i pC (j + 1) = ((row (i + 1)).1, some pR) := by
  unfold sharedRows
  rw [if_neg (mt And.left hn.neLC.symm), if_neg (mt And.left hn.neRC.symm), if_pos ⟨rfl, rfl⟩]

include hrow htotal hi

theorem sharedRows_once : Once (sharedRows pC pL pR j total row i) := by
  have honce : RowOnce row total := by
    rw [hrow, htotal]
    exact rowAcross_once hn
  have hapart : ∀ r ≤ total, (row r).2 ≠ some pR := by
    intro r hr hc
    rw [hrow] at hc
    exact rowAcross_apart hn (by omega) (by have := hn.lt; omega) hc hn.rightChild
  intro p r q s c hcr hcs
  unfold sharedRows at hcr hcs
  split_ifs at hcr with h₁ h₂ h₃
  · split_ifs at hcs with h₄ h₅ h₆
    · exact ⟨h₁.1.trans h₄.1.symm, honce r s c (by omega) (by omega) hcr hcs⟩
    · rw [rowAfter_child] at hcs
      have := honce r (i + 1 + s) c (by omega) (by omega) hcr hcs
      omega
    · rw [← hcs] at hcr
      exact absurd hcr (hapart r (by omega))
  · rw [rowAfter_child] at hcr
    split_ifs at hcs with h₄ h₅ h₆
    · have := honce (i + 1 + r) s c (by omega) (by omega) hcr hcs
      omega
    · rw [rowAfter_child] at hcs
      have := honce (i + 1 + r) (i + 1 + s) c (by omega) (by omega) hcr hcs
      exact ⟨h₂.1.trans h₅.1.symm, by omega⟩
    · rw [← hcs] at hcr
      exact absurd hcr (hapart (i + 1 + r) (by omega))
  · split_ifs at hcs with h₄ h₅ h₆
    · rw [← hcr] at hcs
      exact absurd hcs (hapart s (by omega))
    · rw [rowAfter_child, ← hcr] at hcs
      exact absurd hcs (hapart (i + 1 + s) (by omega))
    · exact ⟨h₃.1.trans h₆.1.symm, h₃.2.trans h₆.2.symm⟩

/-- Where the shares are written, and what is not written stays in its place. -/
theorem sharedRows_shared {W : Set (BTAddr × ℕ)} {h'' : BTHeap α}
    (hw : Wrote (sharedRows pC pL pR j total row i) W h h')
    (hL : ∀ r ≤ i, (pL, r) ∉ W → r ≤ mL ∧ row r = eL r)
    (hR : ∀ r ≤ total - i - 1, (pR, r) ∈ W) (hC : ∀ r, (pC, r) ∈ W ↔ r = j + 1)
    (hsub : ∀ p r, (p, r) ∈ W → p = pL ∨ p = pR ∨ p = pC)
    (hent : ∀ p r, h''.ent p r = h'.ent p r) (hlink : ∀ c, h''.link c = h'.link c)
    (hcount : ∀ p, (h'' p).pM = if p = pL then i else if p = pR then total - i - 1 else (h' p).pM) :
    Shared h h'' pC mc eC j pL pR total row i := by
  have hF := sharedRows_once hn hrow htotal hi
  refine ⟨⟨?_, ?_, ?_⟩, ⟨?_, ?_, ?_⟩, ⟨?_, ?_, ?_⟩, ⟨?_, ?_, ?_⟩⟩
  · rw [hcount, if_pos rfl]
  · intro r hr
    rw [hent, hw.table, sharedRows_left hr]
    intro hnot
    obtain ⟨hle, heq⟩ := hL r hr hnot
    rw [sharedRows_left hr, heq, hn.left.ent r hle]
  · intro r hr c hc
    rw [hlink]
    refine hw.placed hF (by rw [sharedRows_left hr]; exact hc) ?_
    intro hnot
    obtain ⟨hle, heq⟩ := hL r hr hnot
    rw [heq] at hc
    exact hn.left.link r hle c hc
  · rw [hcount, if_neg hn.neLR.symm, if_pos rfl]
  · intro r hr
    rw [hent, hw.done pR r (hR r hr), sharedRows_right hn hr]
  · intro r hr c hc
    rw [hlink]
    refine hw.link pR r c (hR r hr) ?_
    rw [sharedRows_right hn hr]
    exact hc
  · rw [hcount, if_neg hn.neLC.symm, if_neg hn.neRC.symm, hw.count]
    exact hn.parent.count
  · intro r hr
    rw [hent]
    by_cases hrj : r = j + 1
    · rw [hrj, hw.done pC (j + 1) ((hC _).mpr rfl), sharedRows_parent hn, Function.update_self]
    · rw [hw.kept pC r (mt (hC r).mp hrj), Function.update_of_ne hrj, hn.parent.ent r hr]
  · intro r hr c hc
    rw [hlink]
    by_cases hrj : r = j + 1
    · rw [hrj, Function.update_self] at hc
      rw [hrj]
      refine hw.link pC (j + 1) c ((hC _).mpr rfl) ?_
      rw [sharedRows_parent hn]
      exact hc
    · rw [Function.update_of_ne hrj] at hc
      rw [hw.free]
      · exact hn.parent.link r hr c hc
      · intro p s _ hcs
        unfold sharedRows at hcs
        split_ifs at hcs with h₁ h₂ h₃
        · rw [hrow] at hcs
          exact rowAcross_apart hn (by omega) hr hcs hc
        · rw [rowAfter_child, hrow] at hcs
          exact rowAcross_apart hn (by omega) hr hcs hc
        · rw [← hcs] at hc
          have := hn.parent.once r (j + 1) pR hr (by have := hn.lt; omega) hc hn.rightChild
          exact hrj this
  · intro p hp r
    rw [hent, hw.kept p r (mt (hsub p r) hp)]
  · intro p hp
    rw [hcount, if_neg (mt .inl hp), if_neg fun h => hp (.inr (.inl h)), hw.count]
  · intro c hc
    rw [hlink]
    by_cases hcR : c = pR
    · -- the right page stays where it is
      rw [hcR, hw.link pC (j + 1) pR ((hC _).mpr rfl) (by rw [sharedRows_parent hn])]
      have hlt := hn.lt
      exact (hn.parent.link (j + 1) (by omega) pR hn.rightChild).symm
    · refine hw.free c ?_
      intro p r _ hcr
      unfold sharedRows at hcr
      split_ifs at hcr with h₁ h₂ h₃
      · exact hc ⟨r, by omega, hcr⟩
      · rw [rowAfter_child] at hcr
        exact hc ⟨i + 1 + r, by omega, hcr⟩
      · exact hcR (Option.some.inj hcr).symm

/-- The right page of the neighbours stands where it stood until its slot is written. -/
theorem sharedRows_unmoved {W : Set (BTAddr × ℕ)}
    (hw : Wrote (sharedRows pC pL pR j total row i) W h h') (hW : (pC, j + 1) ∉ W) :
    h'.link pR = (some pC, j + 1) := by
  have hlt := hn.lt
  rw [hw.free pR, hn.parent.link (j + 1) (by omega) pR hn.rightChild]
  intro p r hmem hc
  have hmid : (sharedRows pC pL pR j total row i pC (j + 1)).2 = some pR := by
    rw [sharedRows_parent hn]
  obtain ⟨rfl, rfl⟩ := sharedRows_once hn hrow htotal hi p r pC (j + 1) pR hc hmid
  exact hW hmem

end Shared

/-- Items of the right neighbour go over the parent to the left one. -/
theorem btUnderflow_right (hn : Neighbours h pC mc eC j pL mL eL pR mR eR)
    (hk : 0 < (mR - mL) / 2) :
    (btUnderflow pL pC j h).2 = false ∧
      Shared h (btUnderflow pL pC j h).1 pC mc eC j pL pR (mL + mR + 1)
        (rowAcross eL mL (eC (j + 1)).1 eR) (mL + (mR - mL) / 2) := by
  have hlt := hn.lt
  have hpB : (h pC).pPages (j + 1) = some pR := by
    rw [pPages_eq, hn.parent.ent (j + 1) (by omega), hn.rightChild]
  unfold btUnderflow
  simp only [hn.left.count, hn.parent.count, if_pos hlt, hpB, Option.getD_some, hn.right.count,
    Nat.add_sub_cancel, Nat.add_sub_add_right]
  obtain ⟨k, hkdef⟩ : ∃ k, (mR - mL) / 2 = k := ⟨_, rfl⟩
  rw [hkdef] at hk ⊢
  simp only [if_pos hk]
  refine ⟨trivial, ?_⟩
  obtain ⟨row, hrow⟩ : ∃ row, row = rowAcross eL mL (eC (j + 1)).1 eR := ⟨_, rfl⟩
  obtain ⟨F, hFdef⟩ : ∃ F, F = sharedRows pC pL pR j (mL + mR + 1) row (mL + k) := ⟨_, rfl⟩
  rw [← hrow]
  have hi : mL + k < mL + mR + 1 := by omega
  have hF : Once F := hFdef ▸ sharedRows_once hn hrow rfl hi
  have hFL : ∀ r ≤ mL + k, F pL r = row r := fun r hr => hFdef ▸ sharedRows_left hr
  have hFR : ∀ r ≤ mR - k, F pR r = rowAfter row (mL + k + 1) r := fun r hr =>
    hFdef ▸ sharedRows_right hn (by omega)
  have hFC : F pC (j + 1) = ((row (mL + k + 1)).1, some pR) := hFdef ▸ sharedRows_parent hn
  have hrowL : ∀ r ≤ mL, row r = eL r := fun r hr => hrow ▸ rowAcross_left hr
  have hrowM : row (mL + 1) = ((eC (j + 1)).1, (eR 0).2) := hrow ▸ rowAcross_mid
  have hrowR : ∀ r, 1 ≤ r → row (mL + 1 + r) = eR r := fun r hr => hrow ▸ rowAcross_right hr
  have hset : Wrote F {(pL, mL + 1)} h (h.btSet pL (mL + 1) ((h pC).pItems j) ((h pR).pPages 0)) := by
    refine Wrote.set (by omega) ?_
    rw [hFL _ (by omega), hrowM, pItems_eq, hn.parent.ent _ (by omega), pPages_eq,
      hn.right.ent 0 (by omega)]
  generalize h.btSet pL (mL + 1) ((h pC).pItems j) ((h pR).pPages 0) = h₁ at hset ⊢
  -- the first items of the neighbour
  have hmove : Wrote F (slots pL (mL + 2) (mL + 2 + (k - 1 + 1 - 1))) h₁
      (forUp 1 (k - 1) (fun i => btMove pL (i + (mL + 1)) pR i) h₁) := by
    refine Wrote.up (f := fun i => i + (mL + 1)) (g := fun i => i) hF (by omega) ?_ (by omega) ?_ ?_ ?_
    · intro i hi _
      omega
    · intro i hi _
      exact hi
    · intro i hi hm
      rw [hFL _ (by omega), show i + (mL + 1) = mL + 1 + i by omega, hrowR i hi, hset.kept pR i,
        hn.right.ent i (by omega)]
      simp [hn.neLR.symm]
    · intro i j _ _ _ hq
      exact absurd hq hn.neLR.symm
  have h₀₂ := hset.trans hF hmove
  generalize forUp 1 (k - 1) (fun i => btMove pL (i + (mL + 1)) pR i) h₁ = h₂ at h₀₂ ⊢
  have hR₂ : ∀ r ≤ mR, h₂.ent pR r = eR r := by
    intro r hr
    rw [h₀₂.kept pR r, hn.right.ent r hr]
    simp [mem_slots, hn.neLR.symm]
  have hC₂ : (pC, j + 1) ∉ ({(pL, mL + 1)} : Set (BTAddr × ℕ)) ∪
      slots pL (mL + 2) (mL + 2 + (k - 1 + 1 - 1)) := by
    simp [mem_slots, hn.neLC.symm]
  have hchild : (h₂.ent pC (j + 1)).2 = some pR := by
    rw [h₀₂.kept pC (j + 1) hC₂, hn.parent.ent (j + 1) (by omega), hn.rightChild]
  have hitem : Wrote F {(pC, j + 1)} h₂ (h₂.setItem pC j ((h₂ pR).pItems (k - 1))) := by
    refine Wrote.item (by omega) ?_ ?_
    · rw [hFC, hchild, pItems_eq, Nat.sub_add_cancel hk, hR₂ k (by omega),
        show mL + k + 1 = mL + 1 + k by omega, hrowR k hk]
    · intro c hc
      rw [hchild] at hc
      rw [← Option.some.inj hc]
      exact sharedRows_unmoved hn hrow rfl hi (hFdef ▸ h₀₂) hC₂
  have h₀₃ := h₀₂.trans hF hitem
  generalize h₂.setItem pC j ((h₂ pR).pItems (k - 1)) = h₃ at h₀₃ ⊢
  have hR₃ : ∀ r ≤ mR, h₃.ent pR r = eR r := by
    intro r hr
    rw [h₀₃.kept pR r, hn.right.ent r hr]
    simp [mem_slots, hn.neLR.symm, hn.neRC]
  have hset0 : Wrote F {(pR, 0)} h₃ (h₃.btSetN pR 0 ((h₃ pR).pPages k)) := by
    refine Wrote.setN ?_
    rw [hFR 0 (Nat.zero_le _), pPages_eq, hR₃ k (by omega), ← hrowR k hk,
      show mL + 1 + k = mL + k + 1 by omega]
    rfl
  have h₀₄ := h₀₃.trans hF hset0
  generalize h₃.btSetN pR 0 ((h₃ pR).pPages k) = h₄ at h₀₄ ⊢
  -- the rest of the neighbour moves down
  have hrest : Wrote F (slots pR 1 (1 + (mR - k + 1 - 1))) h₄
      (forUp 1 (mR - k) (fun i => btMove pR i pR (i + k)) h₄) := by
    refine Wrote.up (f := fun i => i) (g := fun i => i + k) hF (by omega) ?_ (by omega) ?_ ?_ ?_
    · intro i hi _
      omega
    · intro i hi _
      omega
    · intro i hi hm
      rw [hFR i (by omega), rowAfter_of_pos hi, show mL + k + 1 + i = mL + 1 + (i + k) by omega,
        hrowR _ (by omega), h₀₄.kept pR (i + k), hn.right.ent _ (by omega)]
      simp only [mem_slots, Set.mem_union, Set.mem_singleton_iff, Prod.mk.injEq, hn.neLR.symm, hn.neRC,
        false_and, or_false, false_or, true_and]
      omega
    · intro i j _ _ _ _
      omega
  have h₀₅ := h₀₄.trans hF hrest
  generalize forUp 1 (mR - k) (fun i => btMove pR i pR (i + k)) h₄ = h₅ at h₀₅ ⊢
  rw [hFdef] at h₀₅
  refine sharedRows_shared hn hrow rfl hi h₀₅ ?_ ?_ ?_ ?_ ?_ ?_ ?_
  · intro r hr hnot
    have hle : r ≤ mL := by
      by_contra hgt
      refine hnot ?_
      by_cases hr1 : r = mL + 1
      · exact .inl (.inl (.inl (.inl (by simp [hr1]))))
      · exact .inl (.inl (.inl (.inr ⟨rfl, by simp only; omega, by simp only; omega⟩)))
    exact ⟨hle, hrowL r hle⟩
  · intro r hr
    by_cases hr0 : r = 0
    · exact .inl (.inr (by simp [hr0]))
    · exact .inr ⟨rfl, by simp only; omega, by simp only; omega⟩
  · intro r
    simp [mem_slots, hn.neLC.symm, hn.neRC.symm]
  · rintro p r ((((hp | ⟨hp, -⟩) | hp) | hp) | ⟨hp, -⟩)
    · exact .inl (Prod.mk.inj hp).1
    · exact .inl hp
    · exact .inr (.inr (Prod.mk.inj hp).1)
    · exact .inr (.inl (Prod.mk.inj hp).1)
    · exact .inr (.inl hp)
  · intro p r
    rw [ent_setM, ent_setM]
  · intro c
    rw [link_setM, link_setM]
  · intro p
    rw [m_setM, m_setM, show mL + mR + 1 - (mL + k) - 1 = mR - k by omega]

/-- A stray child beyond the items of the right page changes nothing. -/
theorem Neighbours.stray (hn : Neighbours h pC mc eC j pL mL eL pR mR eR) {d : Option BTAddr}
    (hi : mR < i) : Neighbours (h.setPage pR i d) pC mc eC j pL mL eL pR mR eR := by
  have hkept : ∀ p r, p = pR ∧ r ≤ mR ∨ p ≠ pR → (h.setPage pR i d).ent p r = h.ent p r := by
    intro p r hpr
    rw [ent_setPage, if_neg]
    rintro ⟨hp, hr⟩
    rcases hpr with hle | hne
    · omega
    · exact hne hp
  refine ⟨⟨?_, ?_, ?_⟩, ⟨?_, ?_, ?_⟩, ⟨?_, ?_, ?_⟩, hn.lt, hn.leftChild, hn.rightChild, hn.neLR,
    hn.neLC, hn.neRC⟩
  · rw [m_setPage, hn.parent.count]
  · intro r hr
    rw [hkept pC r (.inr hn.neRC.symm), hn.parent.ent r hr]
  · intro r hr c hc
    rw [link_setPage, hn.parent.link r hr c hc]
  · rw [m_setPage, hn.left.count]
  · intro r hr
    rw [hkept pL r (.inr hn.neLR), hn.left.ent r hr]
  · intro r hr c hc
    rw [link_setPage, hn.left.link r hr c hc]
  · rw [m_setPage, hn.right.count]
  · intro r hr
    rw [hkept pR r (.inl ⟨rfl, hr⟩), hn.right.ent r hr]
  · intro r hr c hc
    rw [link_setPage, hn.right.link r hr c hc]

theorem Shared.stray {total : ℕ} {d : Option BTAddr} {k : ℕ}
    (hs : Shared (h.setPage pR k d) h' pC mc eC j pL pR total row i) :
    Shared h h' pC mc eC j pL pR total row i := by
  refine ⟨hs.left, hs.right, hs.parent, ⟨?_, ?_, ?_⟩⟩
  · intro p hp r
    rw [hs.beside.ent p hp, ent_setPage, if_neg fun hq => hp (.inr (.inl hq.1))]
  · intro p hp
    rw [hs.beside.count p hp, m_setPage]
  · intro c hc
    rw [hs.beside.link c hc, link_setPage]

/-- Items of the left neighbour go over the parent to the right one. -/
theorem btUnderflow_left (hn : Neighbours h pC mc eC j pL mL eL pR mR eR) (hj : mc = j + 1)
    (hk : 0 < (mL - mR) / 2) :
    (btUnderflow pR pC (j + 1) h).2 = false ∧
      Shared h (btUnderflow pR pC (j + 1) h).1 pC mc eC j pL pR (mL + mR + 1)
        (rowAcross eL mL (eC (j + 1)).1 eR) (mL - (mL - mR) / 2) := by
  have hlt := hn.lt
  have hpB : (h pC).pPages j = some pL := by
    rw [pPages_eq, hn.parent.ent j (by omega), hn.leftChild]
  unfold btUnderflow
  simp only [hn.right.count, hn.parent.count, if_neg (show ¬ j + 1 < mc by omega),
    Nat.add_sub_cancel, hpB, Option.getD_some, hn.left.count, Nat.add_sub_add_right]
  obtain ⟨k, hkdef⟩ : ∃ k, (mL - mR) / 2 = k := ⟨_, rfl⟩
  rw [hkdef] at hk ⊢
  simp only [if_pos hk]
  refine ⟨trivial, ?_⟩
  refine Shared.stray (k := mR + 1 + k) (d := (h pR).pPages (mR + 1)) ?_
  have hn := hn.stray (i := mR + 1 + k) (d := (h pR).pPages (mR + 1)) (by omega)
  generalize h.setPage pR (mR + 1 + k) ((h pR).pPages (mR + 1)) = h at hn ⊢
  obtain ⟨row, hrow⟩ : ∃ row, row = rowAcross eL mL (eC (j + 1)).1 eR := ⟨_, rfl⟩
  obtain ⟨F, hFdef⟩ : ∃ F, F = sharedRows pC pL pR j (mL + mR + 1) row (mL - k) := ⟨_, rfl⟩
  rw [← hrow]
  have hi : mL - k < mL + mR + 1 := by omega
  have hF : Once F := hFdef ▸ sharedRows_once hn hrow rfl hi
  have hFR : ∀ r ≤ mR + k, F pR r = rowAfter row (mL - k + 1) r := fun r hr =>
    hFdef ▸ sharedRows_right hn (by omega)
  have hFC : F pC (j + 1) = ((row (mL - k + 1)).1, some pR) := hFdef ▸ sharedRows_parent hn
  have hrowL : ∀ r ≤ mL, row r = eL r := fun r hr => hrow ▸ rowAcross_left hr
  have hrowM : row (mL + 1) = ((eC (j + 1)).1, (eR 0).2) := hrow ▸ rowAcross_mid
  have hrowR : ∀ r, 1 ≤ r → row (mL + 1 + r) = eR r := fun r hr => hrow ▸ rowAcross_right hr
  -- room for the new items
  have hroom : Wrote F (slots pR (k + 1) (k + 1 + (mR + 1 - 1))) h
      (forDown mR 1 (fun i => btMove pR (i + k) pR i) h) := by
    refine Wrote.down (f := fun i => i + k) (g := fun i => i) hF (by omega) ?_ (by omega) ?_ ?_ ?_
    · intro i hi _
      omega
    · intro i hi _
      exact hi
    · intro i hi hm
      rw [hFR _ (by omega), rowAfter_of_pos (by omega),
        show mL - k + 1 + (i + k) = mL + 1 + i by omega, hrowR i hi, hn.right.ent i hm]
    · intro i j _ _ _ _
      omega
  generalize forDown mR 1 (fun i => btMove pR (i + k) pR i) h = h₁ at hroom ⊢
  have hset : Wrote F {(pR, k)} h₁ (h₁.btSet pR k ((h₁ pC).pItems j) ((h₁ pR).pPages 0)) := by
    refine Wrote.set hk ?_
    rw [hFR k (by omega), rowAfter_of_pos hk, show mL - k + 1 + k = mL + 1 by omega, hrowM, pItems_eq,
      hroom.kept pC, hn.parent.ent _ (by omega), pPages_eq, hroom.kept pR, hn.right.ent 0 (by omega)]
    · simp [mem_slots]
    · simp [mem_slots, hn.neRC.symm]
  have h₀₂ := hroom.trans hF hset
  generalize h₁.btSet pR k ((h₁ pC).pItems j) ((h₁ pR).pPages 0) = h₂ at h₀₂ ⊢
  -- the last items of the neighbour
  have hmove : Wrote F (slots pR 1 (1 + (k - 1 + 1 - 1))) h₂
      (forDown (k - 1) 1 (fun i => btMove pR i pL (i + (mL + 1 - k))) h₂) := by
    refine Wrote.down (f := fun i => i) (g := fun i => i + (mL + 1 - k)) hF (by omega) ?_ (by omega)
      ?_ ?_ ?_
    · intro i hi _
      omega
    · intro i hi _
      omega
    · intro i hi hm
      rw [hFR i (by omega), rowAfter_of_pos hi,
        show mL - k + 1 + i = i + (mL + 1 - k) by omega, hrowL _ (by omega), h₀₂.kept pL,
        hn.left.ent _ (by omega)]
      simp [mem_slots, hn.neLR]
    · intro i j _ _ _ hq
      exact absurd hq hn.neLR
  have h₀₃ := h₀₂.trans hF hmove
  generalize forDown (k - 1) 1 (fun i => btMove pR i pL (i + (mL + 1 - k))) h₂ = h₃ at h₀₃ ⊢
  have hset0 : Wrote F {(pR, 0)} h₃ (h₃.btSetN pR 0 ((h₃ pL).pPages (mL + 1 - k))) := by
    refine Wrote.setN ?_
    rw [hFR 0 (Nat.zero_le _), pPages_eq, h₀₃.kept pL, hn.left.ent _ (by omega),
      ← hrowL _ (by omega), show mL + 1 - k = mL - k + 1 by omega]
    · rfl
    · simp [mem_slots, hn.neLR]
  have h₀₄ := h₀₃.trans hF hset0
  generalize h₃.btSetN pR 0 ((h₃ pL).pPages (mL + 1 - k)) = h₄ at h₀₄ ⊢
  have hparent : Wrote F {(pC, j + 1)} h₄
      (h₄.btSet pC (j + 1) ((h₄ pL).pItems (mL + 1 - k - 1)) (some pR)) := by
    refine Wrote.set (by omega) ?_
    rw [hFC, pItems_eq, h₀₄.kept pL, hn.left.ent _ (by omega), ← hrowL _ (by omega),
      show mL + 1 - k - 1 + 1 = mL - k + 1 by omega]
    simp [mem_slots, hn.neLR]
  have h₀₅ := h₀₄.trans hF hparent
  generalize h₄.btSet pC (j + 1) ((h₄ pL).pItems (mL + 1 - k - 1)) (some pR) = h₅ at h₀₅ ⊢
  rw [hFdef] at h₀₅
  refine sharedRows_shared hn hrow rfl hi h₀₅ ?_ ?_ ?_ ?_ ?_ ?_ ?_
  · intro r hr _
    exact ⟨by omega, hrowL r (by omega)⟩
  · intro r hr
    by_cases hr0 : r = 0
    · exact .inl (.inr (by simp [hr0]))
    by_cases hr1 : r < k
    · exact .inl (.inl (.inr ⟨rfl, by simp only; omega, by simp only; omega⟩))
    by_cases hr2 : r = k
    · exact .inl (.inl (.inl (.inr (by simp [hr2]))))
    · exact .inl (.inl (.inl (.inl ⟨rfl, by simp only; omega, by simp only; omega⟩)))
  · intro r
    simp [mem_slots, hn.neRC.symm]
  · rintro p r ((((⟨hp, -⟩ | hp) | ⟨hp, -⟩) | hp) | hp)
    · exact .inr (.inl hp)
    · exact .inr (.inl (Prod.mk.inj hp).1)
    · exact .inr (.inl hp)
    · exact .inr (.inl (Prod.mk.inj hp).1)
    · exact .inr (.inr (Prod.mk.inj hp).1)
  · intro p r
    rw [ent_setM, ent_setM]
  · intro c
    rw [link_setM, link_setM]
  · intro p
    rw [m_setM, m_setM, show mL + mR + 1 - (mL - k) - 1 = mR + k by omega,
      show mL + 1 - k - 1 = mL - k by omega]
    by_cases hp : p = pL
    · rw [if_neg (hp ▸ hn.neLR), if_pos hp, if_pos hp]
    · rw [if_neg hp, if_neg hp]

/-! ### Merging -/

def mergedRows (pC pL : BTAddr) (mc : ℕ) (eC : ℕ → α × Option BTAddr) (j total : ℕ)
    (row : ℕ → α × Option BTAddr) (p : BTAddr) (r : ℕ) : α × Option BTAddr :=
  if p = pL ∧ r ≤ total then row r
  else if p = pC ∧ r ≤ mc - 1 then without eC (j + 1) r
  else (default, none)

theorem mergedRows_left {total r : ℕ} (hr : r ≤ total) :
    mergedRows pC pL mc eC j total row pL r = row r := if_pos ⟨rfl, hr⟩

theorem mergedRows_parent {total r : ℕ} (hn : Neighbours h pC mc eC j pL mL eL pR mR eR)
    (hr : r ≤ mc - 1) : mergedRows pC pL mc eC j total row pC r = without eC (j + 1) r := by
  unfold mergedRows
  rw [if_neg (mt And.left hn.neLC.symm), if_pos ⟨rfl, hr⟩]

omit [Inhabited α] in
/-- An entry that is left was in the row before. -/
theorem without_eq {e : ℕ → α × Option BTAddr} {k r m : ℕ} (hr : r ≤ m - 1) (hm : 0 < m) :
    ∃ s ≤ m, s ≠ k ∧ without e k r = e s := by
  unfold without
  by_cases hlt : r < k
  · exact ⟨r, by omega, by omega, if_pos hlt⟩
  · exact ⟨r + 1, by omega, by omega, if_neg hlt⟩

omit [Inhabited α] in
theorem without_once {e : ℕ → α × Option BTAddr} {k m : ℕ} (he : RowOnce e m) (hm : 0 < m) :
    RowOnce (without e k) (m - 1) := by
  intro r s c hr hs hcr hcs
  unfold without at hcr hcs
  split_ifs at hcr hcs with h₁ h₂ h₃
  · exact he r s c (by omega) (by omega) hcr hcs
  · have := he r (s + 1) c (by omega) (by omega) hcr hcs
    omega
  · have := he (r + 1) s c (by omega) (by omega) hcr hcs
    omega
  · have := he (r + 1) (s + 1) c (by omega) (by omega) hcr hcs
    omega

section Merged
variable {x : α} (hn : Neighbours h pC mc eC j pL mL eL pR mR eR)
  (hrow : row = rowAcross eL mL x eR) {total : ℕ} (htotal : total = mL + mR + 1)
include hn hrow htotal

theorem mergedRows_once : Once (mergedRows pC pL mc eC j total row) := by
  have hlt := hn.lt
  have honce : RowOnce row total := by
    rw [hrow, htotal]
    exact rowAcross_once hn
  have hapart : ∀ r ≤ total, ∀ s ≤ mc - 1, ∀ c, (row r).2 = some c →
      (without eC (j + 1) s).2 ≠ some c := by
    intro r hr s hs c hc hc'
    obtain ⟨s', hs', -, heq⟩ := without_eq (e := eC) (k := j + 1) hs (by omega)
    rw [hrow] at hc
    rw [heq] at hc'
    exact rowAcross_apart hn (by omega) hs' hc hc'
  intro p r q s c hcr hcs
  unfold mergedRows at hcr hcs
  split_ifs at hcr with h₁ h₂
  · split_ifs at hcs with h₃ h₄
    · exact ⟨h₁.1.trans h₃.1.symm, honce r s c h₁.2 h₃.2 hcr hcs⟩
    · exact absurd hcs (hapart r h₁.2 s h₄.2 c hcr)
  · split_ifs at hcs with h₃ h₄
    · exact absurd hcr (hapart s h₃.2 r h₂.2 c hcs)
    · exact ⟨h₂.1.trans h₄.1.symm, without_once hn.parent.once (by omega) r s c h₂.2 h₄.2 hcr hcs⟩

/-- The page that is given back is a child of neither page. -/
theorem mergedRows_freed {p : BTAddr} {r : ℕ} :
    (mergedRows pC pL mc eC j total row p r).2 ≠ some pR := by
  have hlt := hn.lt
  intro hc
  unfold mergedRows at hc
  split_ifs at hc with h₁ h₂
  · rw [hrow] at hc
    exact rowAcross_apart hn (by omega) (by omega) hc hn.rightChild
  · obtain ⟨s, hs, hne, heq⟩ := without_eq (e := eC) (k := j + 1) h₂.2 (by omega)
    rw [heq] at hc
    exact hne (hn.parent.once s (j + 1) pR hs (by omega) hc hn.rightChild)

/-- Where the page that takes all is written, and the parent closes up. -/
theorem mergedRows_merged {W : Set (BTAddr × ℕ)}
    (hw : Wrote (mergedRows pC pL mc eC j total row) W h h')
    (hL : ∀ r ≤ total, (pL, r) ∉ W → r ≤ mL ∧ row r = eL r)
    (hC : ∀ r ≤ mc - 1, (pC, r) ∉ W → r ≤ j) (hsub : ∀ p r, (p, r) ∈ W → p = pL ∨ p = pC) :
    Merged h (BPageFree pR ((h'.setM pL total).setM pC (mc - 1))) pC mc eC j pL pR total row := by
  have hlt := hn.lt
  have hF := mergedRows_once hn hrow htotal
  have hfreed : ∀ {p r c}, (mergedRows pC pL mc eC j total row p r).2 = some c → c ≠ pR := by
    intro p r c hc hcR
    rw [hcR] at hc
    exact mergedRows_freed hn hrow htotal hc
  have hkept : ∀ r ≤ j, without eC (j + 1) r = eC r := fun r hr => if_pos (by omega)
  have hset : ∀ p, p ≠ pR → BPageFree pR ((h'.setM pL total).setM pC (mc - 1)) p =
      (h'.setM pL total).setM pC (mc - 1) p := fun p hp => set_of_ne hp _
  have hent : ∀ p r, p ≠ pR →
      (BPageFree pR ((h'.setM pL total).setM pC (mc - 1))).ent p r = h'.ent p r := by
    intro p r hp
    have hfree : (BPageFree pR ((h'.setM pL total).setM pC (mc - 1))).ent p r =
        ((h'.setM pL total).setM pC (mc - 1)).ent p r := by
      unfold ent
      rw [hset p hp]
    rw [hfree, ent_setM, ent_setM]
  have hlink : ∀ c, c ≠ pR →
      (BPageFree pR ((h'.setM pL total).setM pC (mc - 1))).link c = h'.link c := by
    intro c hc
    have hfree : (BPageFree pR ((h'.setM pL total).setM pC (mc - 1))).link c =
        ((h'.setM pL total).setM pC (mc - 1)).link c := by
      unfold link
      rw [hset c hc]
    rw [hfree, link_setM, link_setM]
  refine ⟨⟨?_, ?_, ?_⟩, ⟨?_, ?_, ?_⟩, ⟨?_, ?_, ?_⟩⟩
  · rw [hset pL hn.neLR, m_setM, if_neg hn.neLC, m_setM, if_pos rfl]
  · intro r hr
    rw [hent pL r hn.neLR, hw.table, mergedRows_left hr]
    intro hnot
    obtain ⟨hle, heq⟩ := hL r hr hnot
    rw [mergedRows_left hr, heq, hn.left.ent r hle]
  · intro r hr c hc
    have hc' : (mergedRows pC pL mc eC j total row pL r).2 = some c := by
      rw [mergedRows_left hr]
      exact hc
    rw [hlink c (hfreed hc')]
    refine hw.placed hF hc' ?_
    intro hnot
    obtain ⟨hle, heq⟩ := hL r hr hnot
    rw [heq] at hc
    exact hn.left.link r hle c hc
  · rw [hset pC hn.neRC.symm, m_setM, if_pos rfl]
  · intro r hr
    rw [hent pC r hn.neRC.symm, hw.table, mergedRows_parent hn hr]
    intro hnot
    rw [mergedRows_parent hn hr, hkept r (hC r hr hnot), hn.parent.ent r (by omega)]
  · intro r hr c hc
    have hc' : (mergedRows pC pL mc eC j total row pC r).2 = some c := by
      rw [mergedRows_parent hn hr]
      exact hc
    rw [hlink c (hfreed hc')]
    refine hw.placed hF hc' ?_
    intro hnot
    rw [hkept r (hC r hr hnot)] at hc
    exact hn.parent.link r (by omega) c hc
  · intro p hp r
    rw [hent p r fun hq => hp (.inr (.inl hq)), hw.kept]
    intro hmem
    exact hp ((hsub p r hmem).imp id .inr)
  · intro p hp
    rw [hset p fun hq => hp (.inr (.inl hq)), m_setM, if_neg fun hq => hp (.inr (.inr hq)), m_setM,
      if_neg fun hq => hp (.inl hq), hw.count]
  · intro c hc
    rw [hlink c fun hq => hc (.inl hq), hw.free]
    intro p r _ hcr
    unfold mergedRows at hcr
    split_ifs at hcr with h₁ h₂
    · exact hc (.inr (.inl ⟨r, h₁.2, hcr⟩))
    · exact hc (.inr (.inr ⟨r, h₂.2, hcr⟩))

end Merged

/-- The right neighbour comes into the page. -/
theorem btUnderflow_mergeRight (hn : Neighbours h pC mc eC j pL mL eL pR mR eR)
    (hm : mR = mL + 1) :
    (btUnderflow pL pC j h).2 = decide (mc ≤ mL + 1) ∧
      Merged h (btUnderflow pL pC j h).1 pC mc eC j pL pR (mL + mR + 1)
        (rowAcross eL mL (eC (j + 1)).1 eR) := by
  have hlt := hn.lt
  have hpB : (h pC).pPages (j + 1) = some pR := by
    rw [pPages_eq, hn.parent.ent (j + 1) (by omega), hn.rightChild]
  unfold btUnderflow
  simp only [hn.left.count, hn.parent.count, if_pos hlt, hpB, Option.getD_some, hn.right.count,
    Nat.add_sub_cancel, if_neg (show ¬ 0 < (mR + 1 - (mL + 1)) / 2 by omega)]
  refine ⟨trivial, ?_⟩
  obtain ⟨row, hrow⟩ : ∃ row, row = rowAcross eL mL (eC (j + 1)).1 eR := ⟨_, rfl⟩
  obtain ⟨F, hFdef⟩ : ∃ F, F = mergedRows pC pL mc eC j (mL + mR + 1) row := ⟨_, rfl⟩
  rw [← hrow, show 2 * (mL + 1) = mL + mR + 1 by omega]
  have hF : Once F := hFdef ▸ mergedRows_once hn hrow rfl
  have hFL : ∀ r ≤ mL + mR + 1, F pL r = row r := fun r hr => hFdef ▸ mergedRows_left hr
  have hFC : ∀ r ≤ mc - 1, F pC r = without eC (j + 1) r := fun r hr =>
    hFdef ▸ mergedRows_parent hn hr
  have hrowL : ∀ r ≤ mL, row r = eL r := fun r hr => hrow ▸ rowAcross_left hr
  have hrowM : row (mL + 1) = ((eC (j + 1)).1, (eR 0).2) := hrow ▸ rowAcross_mid
  have hrowR : ∀ r, 1 ≤ r → row (mL + 1 + r) = eR r := fun r hr => hrow ▸ rowAcross_right hr
  have hset : Wrote F {(pL, mL + 1)} h (h.btSet pL (mL + 1) ((h pC).pItems j) ((h pR).pPages 0)) := by
    refine Wrote.set (by omega) ?_
    rw [hFL _ (by omega), hrowM, pItems_eq, hn.parent.ent _ (by omega), pPages_eq,
      hn.right.ent 0 (by omega)]
  generalize h.btSet pL (mL + 1) ((h pC).pItems j) ((h pR).pPages 0) = h₁ at hset ⊢
  have hmove : Wrote F (slots pL (mL + 2) (mL + 2 + (mL + 1 + 1 - 1))) h₁
      (forUp 1 (mL + 1) (fun i => btMove pL (i + (mL + 1)) pR i) h₁) := by
    refine Wrote.up (f := fun i => i + (mL + 1)) (g := fun i => i) hF (by omega) ?_ (by omega) ?_ ?_ ?_
    · intro i hi _
      omega
    · intro i hi _
      exact hi
    · intro i hi hle
      rw [hFL _ (by omega), show i + (mL + 1) = mL + 1 + i by omega, hrowR i hi, hset.kept pR i,
        hn.right.ent i (by omega)]
      simp [hn.neLR.symm]
    · intro i j _ _ _ hq
      exact absurd hq hn.neLR.symm
  have h₀₂ := hset.trans hF hmove
  generalize forUp 1 (mL + 1) (fun i => btMove pL (i + (mL + 1)) pR i) h₁ = h₂ at h₀₂ ⊢
  -- the parent closes up
  have hclose : Wrote F (slots pC (j + 1) (j + 1 + (mc - 1 + 1 - (j + 1)))) h₂
      (forUp (j + 1) (mc - 1) (fun i => btMove pC i pC (i + 1)) h₂) := by
    refine Wrote.up (f := fun i => i) (g := fun i => i + 1) hF (by omega) ?_ (by omega) ?_ ?_ ?_
    · intro i hi _
      omega
    · intro i hi _
      omega
    · intro i hi hle
      rw [hFC i hle, h₀₂.kept pC, hn.parent.ent _ (by omega)]
      · exact if_neg (by omega)
      · simp [mem_slots, hn.neLC.symm]
    · intro i j _ _ _ _
      omega
  have h₀₃ := h₀₂.trans hF hclose
  rw [hFdef] at h₀₃
  refine mergedRows_merged hn hrow rfl h₀₃ ?_ ?_ ?_
  · intro r hr hnot
    have hle : r ≤ mL := by
      by_contra hgt
      refine hnot ?_
      by_cases hr1 : r = mL + 1
      · exact .inl (.inl (by simp [hr1]))
      · exact .inl (.inr ⟨rfl, by simp only; omega, by simp only; omega⟩)
    exact ⟨hle, hrowL r hle⟩
  · intro r hr hnot
    by_contra hgt
    exact hnot (.inr ⟨rfl, by simp only; omega, by simp only; omega⟩)
  · rintro p r ((hp | ⟨hp, -⟩) | ⟨hp, -⟩)
    · exact .inl (Prod.mk.inj hp).1
    · exact .inl hp
    · exact .inr hp

/-- The page goes into its left neighbour. -/
theorem btUnderflow_mergeLeft (hn : Neighbours h pC mc eC j pL mL eL pR mR eR) (hj : mc = j + 1)
    (hm : mL = mR + 1) :
    (btUnderflow pR pC (j + 1) h).2 = decide (mc ≤ mR + 1) ∧
      Merged h (btUnderflow pR pC (j + 1) h).1 pC mc eC j pL pR (mL + mR + 1)
        (rowAcross eL mL (eC (j + 1)).1 eR) := by
  have hlt := hn.lt
  have hpB : (h pC).pPages j = some pL := by
    rw [pPages_eq, hn.parent.ent j (by omega), hn.leftChild]
  unfold btUnderflow
  simp only [hn.right.count, hn.parent.count, if_neg (show ¬ j + 1 < mc by omega),
    Nat.add_sub_cancel, hpB, Option.getD_some, hn.left.count,
    if_neg (show ¬ 0 < (mL + 1 - (mR + 1)) / 2 by omega)]
  refine ⟨trivial, ?_⟩
  obtain ⟨row, hrow⟩ : ∃ row, row = rowAcross eL mL (eC (j + 1)).1 eR := ⟨_, rfl⟩
  obtain ⟨F, hFdef⟩ : ∃ F, F = mergedRows pC pL mc eC j (mL + mR + 1) row := ⟨_, rfl⟩
  rw [← hrow, show 2 * (mR + 1) = mL + mR + 1 by omega]
  have hF : Once F := hFdef ▸ mergedRows_once hn hrow rfl
  have hFL : ∀ r ≤ mL + mR + 1, F pL r = row r := fun r hr => hFdef ▸ mergedRows_left hr
  have hrowL : ∀ r ≤ mL, row r = eL r := fun r hr => hrow ▸ rowAcross_left hr
  have hrowM : row (mL + 1) = ((eC (j + 1)).1, (eR 0).2) := hrow ▸ rowAcross_mid
  have hrowR : ∀ r, 1 ≤ r → row (mL + 1 + r) = eR r := fun r hr => hrow ▸ rowAcross_right hr
  have hset : Wrote F {(pL, mL + 1)} h (h.btSet pL (mL + 1) ((h pC).pItems j) ((h pR).pPages 0)) := by
    refine Wrote.set (by omega) ?_
    rw [hFL _ (by omega), hrowM, pItems_eq, hn.parent.ent _ (by omega), pPages_eq,
      hn.right.ent 0 (by omega)]
  generalize h.btSet pL (mL + 1) ((h pC).pItems j) ((h pR).pPages 0) = h₁ at hset ⊢
  have hmove : Wrote F (slots pL (mL + 2) (mL + 2 + (mR + 1 - 1))) h₁
      (forUp 1 mR (fun i => btMove pL (i + (mL + 1)) pR i) h₁) := by
    refine Wrote.up (f := fun i => i + (mL + 1)) (g := fun i => i) hF (by omega) ?_ (by omega) ?_ ?_ ?_
    · intro i hi _
      omega
    · intro i hi _
      exact hi
    · intro i hi hle
      rw [hFL _ (by omega), show i + (mL + 1) = mL + 1 + i by omega, hrowR i hi, hset.kept pR i,
        hn.right.ent i (by omega)]
      simp [hn.neLR.symm]
    · intro i j _ _ _ hq
      exact absurd hq hn.neLR.symm
  have h₀₂ := hset.trans hF hmove
  rw [hFdef] at h₀₂
  refine mergedRows_merged hn hrow rfl h₀₂ ?_ ?_ ?_
  · intro r hr hnot
    have hle : r ≤ mL := by
      by_contra hgt
      refine hnot ?_
      by_cases hr1 : r = mL + 1
      · exact .inl (by simp [hr1])
      · exact .inr ⟨rfl, by simp only; omega, by simp only; omega⟩
    exact ⟨hle, hrowL r hle⟩
  · intro r hr _
    omega
  · rintro p r (hp | ⟨hp, -⟩)
    · exact .inl (Prod.mk.inj hp).1
    · exact .inl hp

end Across

end PaxosSolutions.NWGadget
