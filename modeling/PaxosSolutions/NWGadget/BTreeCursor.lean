import PaxosSolutions.NWGadget.BTreeRun

/-!
# Cursors of a B-tree

A cursor stands at an item of a page and knows the item that comes next. To find
a key it goes down from the root and remembers the last item that is not below the
key; that is the first of the keys in order that are not below it.
-/
namespace PaxosSolutions.NWGadget
open Lib BTHeap

variable {α : Type} [Inhabited α]

/-- `BTCursor_t` -/
structure BTCursor (α : Type) where
  cPage : Option BTAddr := none
  cZIndex : ℕ := 0
  cKey : α
  cNextPage : Option BTAddr := none
  cNextIndex : ℤ := 0
  cNextKey : α

/-- `BTCursorOpen` -/
def BTCursorOpen : BTCursor α := { cKey := default, cNextKey := default }

/-- The leftmost leaf below a page. -/
def leftLeaf (h : BTHeap α) : ℕ → BTAddr → Option BTAddr
  | 0, _ => none
  | fuel + 1, p =>
      match (h p).pPages 0 with
      | none => some p
      | some c => leftLeaf h fuel c

/-- The item behind a page, in a page above. -/
def itemAbove (h : BTHeap α) : ℕ → BTAddr → Option (Option (BTAddr × ℕ))
  | 0, _ => none
  | fuel + 1, p =>
      match (h p).pParent with
      | none => some none
      | some q =>
          if (h q).pM ≤ (h p).pParentIndex then itemAbove h fuel q
          else some (some (q, (h p).pParentIndex))

namespace BTCursor

def next (p : BTAddr) (i : ℕ) (h : BTHeap α) (cur : BTCursor α) : BTCursor α :=
  { cur with cNextPage := some p, cNextIndex := i, cNextKey := (h p).pItems i }

end BTCursor

/-- `_BTCNext`: the cursor, and whether something comes next. -/
def BTCNext' (t : BTree α) (cur : BTCursor α) : Option (BTCursor α × Bool) :=
  match cur.cPage with
  | none => none
  | some p =>
      match (t.heap p).pPages (cur.cZIndex + 1) with
      | some c => do
          let leaf ← leftLeaf t.heap t.bNext c
          some (cur.next leaf 0 t.heap, true)
      | none =>
          if cur.cZIndex + 1 < (t.heap p).pM then some (cur.next p (cur.cZIndex + 1) t.heap, true)
          else do
            let above ← itemAbove t.heap (t.bNext + 1) p
            match above with
            | none => some ({ cur with cNextPage := none, cNextIndex := -1 }, false)
            | some (q, i) => some (cur.next q i t.heap, true)

/-- `BTCNext` -/
def BTCNext (t : BTree α) (cur : BTCursor α) : Option (BTCursor α × Bool) :=
  let cur := { cur with cPage := cur.cNextPage, cZIndex := cur.cNextIndex.toNat, cKey := cur.cNextKey }
  match cur.cPage with
  | none => some (cur, false)
  | some _ => do
      let (cur, _) ← BTCNext' t cur
      some (cur, true)

/-- `BTCHead` -/
def BTCHead (t : BTree α) (cur : BTCursor α) : Option (BTCursor α × Bool) :=
  match t.bRoot with
  | none => some ({ cur with cPage := none, cZIndex := 0 }, false)
  | some r => do
      let leaf ← leftLeaf t.heap t.bNext r
      let (cur, _) ← BTCNext' t { cur with cPage := some leaf, cZIndex := 0, cKey := (t.heap leaf).pItems 0 }
      some (cur, true)

/-- The loop of `BTCFindLower` that looks for an earlier item in the page. -/
def backUp (below : α → Bool) (page : BTPage α) : ℕ → ℕ
  | 0 => 0
  | R + 1 => if below (page.pItems R) then R + 1 else backUp below page R

/-- The loop of `BTCFindLower` from the root to a leaf. -/
def findLower (t : BTree α) (pKey : α) : ℕ → Option BTAddr → BTCursor α → Option (BTCursor α)
  | _, none, cur => some cur
  | 0, some _, _ => none
  | fuel + 1, some p, cur =>
      let page := t.heap p
      let R := btInd (fun x => decide (t.bCompare x pKey ≤ 0)) page
      if R = page.pM ∧ t.bCompare (page.pItems (R - 1)) pKey < 0 then
        findLower t pKey fuel (page.pPages R) cur
      else
        let R := backUp (fun x => decide (t.bCompare x pKey < 0)) page
          (if R = page.pM then R - 1 else R)
        findLower t pKey fuel (page.pPages R) { cur with cPage := some p, cZIndex := R }

/-- `BTCFindLower` -/
def BTCFindLower (t : BTree α) (pKey : α) (cur : BTCursor α) : Option (BTCursor α × Bool) := do
  let cur ← findLower t pKey t.bNext t.bRoot { cur with cPage := none }
  match cur.cPage with
  | none => some (cur, false)
  | some p => do
      let (cur, _) ← BTCNext' t { cur with cKey := (t.heap p).pItems cur.cZIndex }
      some (cur, true)

/-- The loop of `BTCFind`. The comparator gives a `long`, of which an `int` is looked at. -/
def findEqual (t : BTree α) (pKey : α) : ℕ → BTCursor α → Option (BTCursor α × Bool)
  | 0, _ => none
  | fuel + 1, cur =>
      let cmp := (t.bCompare cur.cKey pKey).bmod 0x100000000
      if cmp = 0 then some (cur, true)
      else if cmp < 0 then some (cur, false)
      else do
        let (cur, more) ← BTCNext t cur
        if more then findEqual t pKey fuel cur else some (cur, false)

/-- `BTCFind`. Its loop takes as many turns as there are keys at most. -/
def BTCFind (t : BTree α) (pKey : α) (cur : BTCursor α) : Option (BTCursor α × Bool) := do
  let (cur, found) ← BTCFindLower t pKey cur
  if found then findEqual t pKey (t.inOrder.length + 1) cur else some (cur, false)

/-- The loop of `BTCFindUpper` from the root to a leaf. -/
def findUpper (t : BTree α) (pKey : α) : ℕ → Option BTAddr → BTCursor α → Option (BTCursor α)
  | _, none, cur => some cur
  | 0, some _, _ => none
  | fuel + 1, some p, cur =>
      let page := t.heap p
      let L := btInd (fun x => decide (t.bCompare x pKey ≤ 0)) page
      if L = 0 ∧ t.bCompare (page.pItems 0) pKey > 0 then findUpper t pKey fuel (page.pPages 0) cur
      else findUpper t pKey fuel (page.pPages L) { cur with cPage := some p, cZIndex := L - 1 }

/-- `BTCFindUpper` -/
def BTCFindUpper (t : BTree α) (pKey : α) (cur : BTCursor α) : Option (BTCursor α × Bool) := do
  let cur ← findUpper t pKey t.bNext t.bRoot { cur with cPage := none }
  match cur.cPage with
  | none => some (cur, false)
  | some p => do
      let (cur, _) ← BTCNext' t { cur with cKey := (t.heap p).pItems cur.cZIndex }
      some (cur, true)

/-- The item before a page, in a page above. -/
def prevAbove (h : BTHeap α) : ℕ → BTAddr → Option (Option (BTAddr × ℕ))
  | 0, _ => none
  | fuel + 1, p =>
      match (h p).pParent with
      | none => some none
      | some q =>
          if (h p).pParentIndex = 0 then prevAbove h fuel q
          else some (some (q, (h p).pParentIndex - 1))

/-- The loops of `BTCPrev`, from place `i` of a page on. -/
def prevPlace (h : BTHeap α) (up : ℕ) : ℕ → BTAddr → ℕ → Option (Option (BTAddr × ℕ))
  | 0, _, _ => none
  | fuel + 1, p, i =>
      match (h p).pPages i with
      | some c => prevPlace h up fuel c (h c).pM
      | none => if 0 < i then some (some (p, i - 1)) else prevAbove h up p

/-- `BTCPrev`. The keys of the cursor are left as they are. -/
def BTCPrev (t : BTree α) (cur : BTCursor α) : Option (BTCursor α × Bool) :=
  match cur.cPage with
  | none => some (cur, false)
  | some p => do
      let place ← prevPlace t.heap (t.bNext + 1) (t.bNext + 1) p cur.cZIndex
      match place with
      | none => some (cur, false)
      | some (q, i) => some ({ cur with
          cNextPage := cur.cPage
          cNextIndex := cur.cZIndex
          cPage := some q
          cZIndex := i }, true)

/-- What `BTCDelete` does to the cursor: the key that comes next is looked for again. -/
def BTCDeleteNext (t : BTree α) (cur : BTCursor α) : Option (BTree α × BTCursor α) :=
  match cur.cPage with
  | none => some (t, cur)
  | some p => do
      let t ← BTCDelete p cur.cZIndex t
      match cur.cNextPage with
      | none => some (t, cur)
      | some _ => do
          let (cur, _) ← BTCFind t cur.cNextKey cur
          some (t, { cur with
            cNextPage := cur.cPage
            cNextIndex := cur.cZIndex
            cNextKey := cur.cKey })

/-- `BTDelete`: the tree, and whether there was a key. -/
def BTDelete (t : BTree α) (pKey : α) : Option (BTree α × Bool) := do
  let (cur, found) ← BTCFind t pKey BTCursorOpen
  match cur.cPage with
  | none => some (t, false)
  | some p =>
      if found then do
        let t ← BTCDelete p cur.cZIndex t
        some (t, true)
      else some (t, false)

section Moves
variable {t : BTree α} {h : BTHeap α} {root p q : BTAddr} {lv : BTAddr → Option ℕ} {top k fuel z : ℕ}
  {X Y keys : List α} {cur : BTCursor α}

theorem leftLeaf_context (hs : Shape h lv root top) (hx : Context h lv root top p k X Y)
    (hfuel : k < fuel) : ∃ q Y', leftLeaf h fuel p = some q ∧ Context h lv root top q 0 X Y' := by
  induction k generalizing p Y fuel with
  | zero =>
      obtain ⟨fuel, rfl⟩ : ∃ f, fuel = f + 1 := ⟨fuel - 1, by omega⟩
      have hnone : (h p).pPages 0 = none := (hs.page p 0 hx.level).below 0 (Nat.zero_le _)
      rw [leftLeaf]
      simp only [hnone]
      exact ⟨p, Y, rfl, hx⟩
  | succ k ih =>
      obtain ⟨fuel, rfl⟩ : ∃ f, fuel = f + 1 := ⟨fuel - 1, by omega⟩
      obtain ⟨c, hc, -⟩ := (hs.page p (k + 1) hx.level).below 0 (Nat.zero_le _)
      have hchild := hx.child hs (r := 0) ⟨hx.level, Nat.zero_le _, hc⟩
      have hempty : rowBefore (h.keys (k + 1)) (h.ent p) 0 = [] := rfl
      rw [hempty, List.append_nil] at hchild
      rw [← pPages_eq] at hc
      rw [leftLeaf]
      simp only [hc]
      exact ih hchild (by omega)

theorem itemAbove_some (fuel : ℕ) (hs : Shape h lv root top) (hp : lv p = some k) (hfuel : top < fuel + k) :
    ∃ above, itemAbove h fuel p = some above := by
  induction fuel generalizing p k with
  | zero =>
      have := hs.bound p k hp
      omega
  | succ fuel ih =>
      rw [itemAbove]
      by_cases hpr : p = root
      · have hnone := (hs.parent_none hp).mpr hpr
        simp only [hnone]
        exact ⟨_, rfl⟩
      · obtain ⟨q, r, hc⟩ := hs.up p k hp hpr
        have hparent : (h p).pParent = some q := (Prod.mk.inj (hc.link hs)).1
        simp only [hparent]
        by_cases hle : (h q).pM ≤ (h p).pParentIndex
        · rw [if_pos hle]
          exact ih hc.level (by omega)
        · rw [if_neg hle]
          exact ⟨_, rfl⟩

/-- What comes next does not move the cursor. -/
theorem BTCNext'_kept (cur : BTCursor α) (hg : Grown t root lv top keys) (hp : lv p = some k) (hcur : cur.cPage = some p)
    (hz : cur.cZIndex < (t.heap p).pM) : ∃ cur' more, BTCNext' t cur = some (cur', more) ∧
      cur'.cPage = some p ∧ cur'.cZIndex = cur.cZIndex ∧ cur'.cKey = cur.cKey := by
  have hs := hg.shape
  have htop := hs.top_lt hg.unused
  unfold BTCNext'
  simp only [hcur]
  cases hc : (t.heap p).pPages (cur.cZIndex + 1) with
  | some c =>
      have hchild : ChildOf t.heap lv p k (cur.cZIndex + 1) c := ⟨hp, hz, hc⟩
      obtain ⟨j, -, hlv⟩ := hchild.levelDown hs
      obtain ⟨X, Y, hx⟩ := hs.context hlv
      obtain ⟨leaf, -, hleaf, -⟩ := leftLeaf_context hs hx (Nat.lt_of_le_of_lt (hs.bound c j hlv) htop)
      simp only [hleaf]
      exact ⟨_, _, rfl, hcur, rfl, rfl⟩
  | none =>
      by_cases hlt : cur.cZIndex + 1 < (t.heap p).pM
      · simp only [if_pos hlt]
        exact ⟨_, _, rfl, hcur, rfl, rfl⟩
      · obtain ⟨above, habove⟩ := itemAbove_some (t.bNext + 1) hs hp (by
          have : top < t.bNext := htop
          omega)
        simp only [if_neg hlt, habove]
        cases above with
        | none => exact ⟨_, _, rfl, rfl, rfl, rfl⟩
        | some x => exact ⟨_, _, rfl, hcur, rfl, rfl⟩

/-- The cursor goes to the first key. -/
theorem btcHead_spec (cur : BTCursor α) (ht : t.Has keys) : (keys = [] → ∃ cur', BTCHead t cur = some (cur', false)) ∧
    ∀ x rest, keys = x :: rest → ∃ cur' p, BTCHead t cur = some (cur', true) ∧ cur'.cPage = some p ∧
      cur'.cZIndex = 0 ∧ cur'.cKey = x ∧ ∃ t', BTCDelete p 0 t = some t' ∧ t'.Has rest ∧
        t'.bN = t.bN ∧ t'.bCompare = t.bCompare := by
  obtain ⟨-, ⟨hroot, rfl⟩ | ⟨root, lv, top, hg⟩⟩ := ht
  · refine ⟨?_, fun x rest h => absurd h (by simp)⟩
    intro _
    unfold BTCHead
    simp only [hroot]
    exact ⟨_, rfl⟩
  · have hs := hg.shape
    obtain ⟨leaf, Y, hleaf, hx⟩ := leftLeaf_context hs hs.context_root (hs.top_lt hg.unused)
    have hpos : 0 < (t.heap leaf).pM := by
      have hfill := (hg.filled leaf 0 hx.level).1
      have hn := hg.order
      by_cases hlr : leaf = root
      · rw [if_pos hlr] at hfill
        omega
      · rw [if_neg hlr] at hfill
        omega
    have hnone : (t.heap.ent leaf 0).2 = none := (hs.page leaf 0 hx.level).below 0 (Nat.zero_le _)
    have hfirst : keysBefore t.heap leaf 0 0 [] = [] := by
      unfold keysBefore
      rw [hnone, keys_none]
      rfl
    obtain ⟨hkeys, t', hrun, hhas, hN, hcmp, -⟩ := btcDelete_has hg hx hpos
    rw [hfirst, List.nil_append] at hkeys hhas
    refine ⟨fun h => absurd (h.symm.trans hkeys) (by simp), ?_⟩
    intro x rest hxr
    obtain ⟨hitem, hrest⟩ := List.cons.inj (hkeys.symm.trans hxr)
    obtain ⟨cur', more, hnext, hp, hz, hkey⟩ := BTCNext'_kept { cur with
        cPage := some leaf
        cZIndex := 0
        cKey := (t.heap leaf).pItems 0 } hg hx.level rfl hpos
    refine ⟨cur', leaf, ?_, hp, hz, hkey.trans hitem, t', hrun, hrest ▸ hhas, hN, hcmp⟩
    unfold BTCHead
    simp only [hg.bRoot, hleaf]
    change (BTCNext' t _).bind _ = _
    rw [hnext]
    rfl

end Moves

section Find
variable {t : BTree α} {root p : BTAddr} {lv : BTAddr → Option ℕ} {top k fuel : ℕ} {X Y keys : List α}
  {cur : BTCursor α} {pKey : α}

omit [Inhabited α] in
theorem backUp_spec (below : α → Bool) (page : BTPage α) {R : ℕ} (hR : R ≤ page.pM)
    (hcut : ∀ i j, i < j → j < page.pM → below (page.pItems j) = true → below (page.pItems i) = true) :
    backUp below page R ≤ R ∧ (∀ i < backUp below page R, below (page.pItems i) = true) ∧
      ∀ i, backUp below page R ≤ i → i < R → below (page.pItems i) = false := by
  induction R with
  | zero => exact ⟨Nat.le_refl _, by simp [backUp], by simp⟩
  | succ R ih =>
      rw [backUp]
      by_cases hb : below (page.pItems R) = true
      · rw [if_pos hb]
        refine ⟨Nat.le_refl _, ?_, by omega⟩
        intro i hi
        by_cases hiR : i = R
        · rw [hiR]
          exact hb
        · exact hcut i R (by omega) (by omega) hb
      · obtain ⟨hle, hlow, hhigh⟩ := ih (by omega)
        rw [if_neg hb]
        refine ⟨by omega, hlow, ?_⟩
        intro i hi hlt
        by_cases hiR : i = R
        · rw [hiR]
          simpa using hb
        · exact hhigh i hi (by omega)

omit [Inhabited α] in
theorem Ordered.cutLe {cmp : α → α → ℤ} (hc : Preorders cmp) (ho : Ordered cmp keys) (pKey : α) :
    Cut (fun x => decide (cmp x pKey ≤ 0)) keys := by
  refine ho.imp ?_
  intro a b hab hb
  exact decide_eq_true (hc.trans a b pKey hab (of_decide_eq_true hb))

/-- What a cursor says: the keys before it, and those from it on. -/
def At (t : BTree α) (root : BTAddr) (lv : BTAddr → Option ℕ) (top : ℕ) (below : α → Bool)
    (cur : BTCursor α) (L M : List α) : Prop :=
  (cur.cPage = none ∧ M = []) ∨ ∃ q j X Y, cur.cPage = some q ∧ Context t.heap lv root top q j X Y ∧
    cur.cZIndex < (t.heap q).pM ∧ below ((t.heap q).pItems cur.cZIndex) = false ∧
    L = keysBefore t.heap q j cur.cZIndex X ∧
    M = (t.heap q).pItems cur.cZIndex :: keysBehind t.heap q j cur.cZIndex Y

/-- One page of the search: the child it goes on with, and the cursor. -/
theorem findLower_page (fuel : ℕ) (hc : Preorders t.bCompare)
    (ho : Ordered t.bCompare (t.heap.keys (top + 1) (some root)))
    (hx : Context t.heap lv root top p k X Y) (hpos : 0 < (t.heap p).pM)
    (hcur : At t root lv top (fun x => decide (t.bCompare x pKey < 0)) cur
      (X ++ t.heap.keys (k + 1) (some p)) Y) :
    ∃ R cur', R ≤ (t.heap p).pM ∧
      (∀ i < R, decide (t.bCompare (t.heap.ent p (i + 1)).1 pKey < 0) = true) ∧
      At t root lv top (fun x => decide (t.bCompare x pKey < 0)) cur'
        (X ++ (rowBefore (t.heap.keys k) (t.heap.ent p) R ++ t.heap.keys k (t.heap.ent p R).2))
        (rowBehind (t.heap.keys k) (t.heap.ent p) R (t.heap p).pM ++ Y) ∧
      findLower t pKey (fuel + 1) (some p) cur = findLower t pKey fuel ((t.heap p).pPages R) cur' := by
  have hcut := ho.cut hc pKey
  have hcutLe := ho.cutLe hc pKey
  rw [hx.here] at hcut hcutLe
  have hitems : ∀ i j, i < j → j < (t.heap p).pM →
      decide (t.bCompare ((t.heap p).pItems j) pKey < 0) = true →
      decide (t.bCompare ((t.heap p).pItems i) pKey < 0) = true := by
    intro i j hij hj hb
    rw [pItems_eq] at hb ⊢
    exact Cut.items hcut.right.left hij hj hb
  obtain ⟨hle, -, hhigh⟩ := btInd_spec (fun x => decide (t.bCompare x pKey ≤ 0)) (t.heap p)
    fun i j hij hj hb => by
      rw [pItems_eq] at hb ⊢
      exact Cut.items hcutLe.right.left hij hj hb
  rw [findLower]
  obtain ⟨R₀, hR₀⟩ : ∃ R, R = btInd (fun x => decide (t.bCompare x pKey ≤ 0)) (t.heap p) := ⟨_, rfl⟩
  rw [← hR₀] at hle hhigh
  simp only [← hR₀]
  by_cases hend : R₀ = (t.heap p).pM ∧ t.bCompare ((t.heap p).pItems (R₀ - 1)) pKey < 0
  · -- all items are below the key
    rw [if_pos hend]
    obtain ⟨hM, hlast⟩ := hend
    refine ⟨R₀, cur, hle, ?_, ?_, rfl⟩
    · intro i hi
      rw [← pItems_eq]
      by_cases hi' : i = R₀ - 1
      · rw [hi']
        exact decide_eq_true hlast
      · exact hitems i (R₀ - 1) (by omega) (by omega) (decide_eq_true hlast)
    · rw [keys_some, rowKeys_at (Nat.le_refl _), rowBehind_self, List.append_nil] at hcur
      rw [hM, rowBehind_self, List.nil_append]
      exact hcur
  · rw [if_neg hend]
    obtain ⟨R₁, hR₁⟩ : ∃ R, R = if R₀ = (t.heap p).pM then R₀ - 1 else R₀ := ⟨_, rfl⟩
    rw [← hR₁]
    have hlt : R₁ < (t.heap p).pM := by
      by_cases hM : R₀ = (t.heap p).pM
      · rw [if_pos hM] at hR₁
        omega
      · rw [if_neg hM] at hR₁
        omega
    have hnot : decide (t.bCompare ((t.heap p).pItems R₁) pKey < 0) = false := by
      refine decide_eq_false ?_
      by_cases hM : R₀ = (t.heap p).pM
      · rw [if_pos hM] at hR₁
        rw [hR₁]
        exact fun h => hend ⟨hM, h⟩
      · rw [if_neg hM] at hR₁
        rw [hR₁]
        have := of_decide_eq_false (hhigh R₀ (Nat.le_refl _) (by omega))
        omega
    obtain ⟨hback, hlow, hmid⟩ := backUp_spec (fun x => decide (t.bCompare x pKey < 0)) (t.heap p)
      (Nat.le_of_lt hlt) hitems
    obtain ⟨R, hR⟩ : ∃ R, R = backUp (fun x => decide (t.bCompare x pKey < 0)) (t.heap p) R₁ := ⟨_, rfl⟩
    rw [← hR] at hback hlow hmid
    simp only [← hR]
    have hRlt : R < (t.heap p).pM := by omega
    have hitem : decide (t.bCompare ((t.heap p).pItems R) pKey < 0) = false := by
      by_cases hRR : R = R₁
      · rw [hRR]
        exact hnot
      · exact hmid R (Nat.le_refl _) (by omega)
    refine ⟨R, _, Nat.le_of_lt hRlt, ?_, ?_, rfl⟩
    · intro i hi
      rw [← pItems_eq]
      exact hlow i hi
    · refine .inr ⟨p, k, X, Y, rfl, hx, hRlt, hitem, rfl, ?_⟩
      rw [rowBehind_cons hRlt, pItems_eq]
      unfold keysBehind
      simp only [List.cons_append, List.append_assoc]

/-- The search ends with the keys that are below on the left of the cursor. -/
theorem findLower_at (hs : Shape t.heap lv root top) (hc : Preorders t.bCompare)
    (ho : Ordered t.bCompare (t.heap.keys (top + 1) (some root)))
    (hpos : ∀ q j, lv q = some j → 0 < (t.heap q).pM)
    (hx : Context t.heap lv root top p k X Y)
    (hX : ∀ x ∈ X, decide (t.bCompare x pKey < 0) = true)
    (hcur : At t root lv top (fun x => decide (t.bCompare x pKey < 0)) cur
      (X ++ t.heap.keys (k + 1) (some p)) Y) (hfuel : k < fuel) :
    ∃ cur' L M, findLower t pKey fuel (some p) cur = some cur' ∧
      At t root lv top (fun x => decide (t.bCompare x pKey < 0)) cur' L M ∧
      (∀ x ∈ L, decide (t.bCompare x pKey < 0) = true) ∧
      L ++ M = t.heap.keys (top + 1) (some root) := by
  induction k generalizing p X Y cur fuel with
  | zero =>
      obtain ⟨fuel, rfl⟩ : ∃ f, fuel = f + 1 := ⟨fuel - 1, by omega⟩
      obtain ⟨R, cur', hle, hlow, hat, hrun⟩ := findLower_page fuel hc ho hx
        (hpos p 0 hx.level) hcur
      have hnone : (t.heap.ent p R).2 = none := (hs.page p 0 hx.level).below R hle
      have hkeys := hx.here
      have hpage : t.heap.keys 1 (some p) = rowKeys (t.heap.keys 0) (t.heap.ent p) (t.heap p).pM := rfl
      rw [hpage, rowKeys_at hle, hnone, keys_none, List.nil_append] at hkeys
      rw [hnone, keys_none, List.append_nil] at hat
      have hcut := ho.cut hc pKey
      rw [hx.here] at hcut
      refine ⟨cur', _, _, ?_, hat, ?_, ?_⟩
      · rw [hrun, pPages_eq, hnone]
        cases fuel <;> rfl
      · intro x hmem
        rcases List.mem_append.mp hmem with hmem | hmem
        · exact hX x hmem
        · exact Cut.rowBefore hcut.right.left hle hlow x hmem
      · rw [hkeys]
        simp only [List.append_assoc]
  | succ k ih =>
      obtain ⟨fuel, rfl⟩ : ∃ f, fuel = f + 1 := ⟨fuel - 1, by omega⟩
      obtain ⟨R, cur', hle, hlow, hat, hrun⟩ := findLower_page fuel hc ho hx
        (hpos p (k + 1) hx.level) hcur
      obtain ⟨c, hcR, -⟩ := (hs.page p (k + 1) hx.level).below R hle
      have hchild : ChildOf t.heap lv p (k + 1) R c := ⟨hx.level, hle, hcR⟩
      have hcut := ho.cut hc pKey
      rw [hx.here] at hcut
      rw [hcR, ← List.append_assoc] at hat
      rw [hrun, pPages_eq, hcR]
      refine ih (hx.child hs hchild) ?_ hat (by omega)
      intro x hmem
      rcases List.mem_append.mp hmem with hmem | hmem
      · exact hX x hmem
      · exact Cut.rowBefore hcut.right.left hle hlow x hmem

/-- A key that is in the tree is found at the first key that is equal to it, and
`BTDelete` takes that one out. -/
theorem btDelete_has (hc : Preorders t.bCompare) (ht : t.Has keys) (ho : Ordered t.bCompare keys)
    (hmem : pKey ∈ keys) : ∃ t' L x M, BTDelete t pKey = some (t', true) ∧ keys = L ++ x :: M ∧
      (∀ y ∈ L, t.bCompare y pKey < 0) ∧ t.bCompare x pKey = 0 ∧ t'.Has (L ++ M) ∧
      t'.bN = t.bN ∧ t'.bCompare = t.bCompare := by
  have hself : t.bCompare pKey pKey = 0 := by
    have := hc.swap pKey pKey
    omega
  obtain ⟨-, ⟨-, rfl⟩ | ⟨root, lv, top, hg⟩⟩ := ht
  · exact absurd hmem (by simp)
  have hs := hg.shape
  have hpos : ∀ q j, lv q = some j → 0 < (t.heap q).pM := by
    intro q j hq
    have hfill := (hg.filled q j hq).1
    have hn := hg.order
    by_cases hqr : q = root
    · rw [if_pos hqr] at hfill
      omega
    · rw [if_neg hqr] at hfill
      omega
  rw [← hg.keys] at ho hmem
  have hempty : At t root lv top (fun x => decide (t.bCompare x pKey < 0))
      { (BTCursorOpen : BTCursor α) with cPage := none } ([] ++ t.heap.keys (top + 1) (some root)) [] :=
    .inl ⟨rfl, rfl⟩
  obtain ⟨cur, L, M, hfind, hat, hL, hLM⟩ := findLower_at hs hc ho hpos hs.context_root
    (fun x hx => absurd hx (by simp)) hempty (hs.top_lt hg.unused)
  rcases hat with ⟨-, rfl⟩ | ⟨q, j, X, Y, hq, hx, hz, hitem, rfl, rfl⟩
  · -- the key itself is not below
    rw [List.append_nil] at hLM
    have := of_decide_eq_true (hL pKey (hLM ▸ hmem))
    omega
  -- the cursor is at a key that is not above
  have heq : t.bCompare ((t.heap q).pItems cur.cZIndex) pKey = 0 := by
    rw [← hLM] at hmem ho
    have hnot := of_decide_eq_false hitem
    rcases List.mem_append.mp hmem with hmem | hmem
    · have := of_decide_eq_true (hL pKey hmem)
      omega
    · rcases List.mem_cons.mp hmem with hmem | hmem
      · rw [← hmem]
        exact hself
      · have := (List.pairwise_cons.mp (List.pairwise_append.mp ho).2.1).1 pKey hmem
        omega
  obtain ⟨cur', more, hnext, hpage, hz', hkey⟩ := BTCNext'_kept { cur with
      cKey := (t.heap q).pItems cur.cZIndex } hg hx.level hq hz
  rw [hq] at hnext
  have hfound : BTCFind t pKey BTCursorOpen = some (cur', true) := by
    have hlower : BTCFindLower t pKey BTCursorOpen = some (cur', true) := by
      unfold BTCFindLower
      rw [hg.bRoot, hfind]
      change (match cur.cPage with
        | none => some (cur, false)
        | some p => (BTCNext' t { cur with cKey := (t.heap p).pItems cur.cZIndex }).bind
            fun r => some (r.1, true)) = _
      rw [hq]
      change (BTCNext' t _).bind _ = _
      rw [hnext]
      rfl
    unfold BTCFind
    rw [hlower]
    change findEqual t pKey (t.inOrder.length + 1) cur' = _
    rw [findEqual, hkey, heq]
    rfl
  obtain ⟨-, t', hrun, hhas, hN, hcmp, -⟩ := btcDelete_has hg hx hz
  refine ⟨t', _, _, _, ?_, hg.keys.symm.trans hLM.symm, ?_, heq, hhas, hN, hcmp⟩
  swap
  · intro y hy
    exact of_decide_eq_true (hL y hy)
  unfold BTDelete
  rw [hfound]
  change (match cur'.cPage with
    | none => some (t, false)
    | some p => if true = true then (BTCDelete p cur'.cZIndex t).bind fun t => some (t, true)
        else some (t, false)) = _
  rw [hpage, hz']
  change (BTCDelete q cur.cZIndex t).bind _ = _
  rw [hrun]
  rfl

end Find

end PaxosSolutions.NWGadget
