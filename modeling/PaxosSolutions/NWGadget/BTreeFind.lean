import PaxosSolutions.NWGadget.BTreePlaces
import Mathlib.Data.List.GetD

/-!
# What a search of a B-tree finds

A cursor is at an index of the places in order. It is looked for in the tree whose items
have their places with them, so that what is found there says where it is.
-/
namespace PaxosSolutions.NWGadget
open Lib BTHeap

variable {α : Type}

section Tagged
variable {t : BTree α} {h : BTHeap α} {p : BTAddr} {pKey : α} {d : BTAddr × ℕ}

theorem btInd_tag (below : α → Bool) (h : BTHeap α) (p : BTAddr) :
    btInd (fun x => below x.1) (h.tag p) = btInd below (h p) := by
  have hgo : ∀ fuel L R, btInd.go (fun x => below x.1) (h.tag p) fuel L R = btInd.go below (h p) fuel L R := by
    intro fuel
    induction fuel with
    | zero => exact fun L R => rfl
    | succ fuel ih =>
        intro L R
        rw [btInd.go, btInd.go]
        simp only [ih]
        rfl
  unfold btInd
  rw [hgo]
  rfl

theorem backUp_tag (below : α → Bool) (h : BTHeap α) (p : BTAddr) (R : ℕ) :
    backUp (fun x => below x.1) (h.tag p) R = backUp below (h p) R := by
  induction R with
  | zero => rfl
  | succ R ih =>
      rw [backUp, backUp, ih]
      rfl

/-- Where a cursor is -/
def BTCursor.place (cur : BTCursor α) : Option BTAddr × ℕ := (cur.cPage, cur.cZIndex)

theorem findLower_tag (t : BTree α) (pKey : α) (d : BTAddr × ℕ) (fuel : ℕ) (p : Option BTAddr)
    (cur : BTCursor α) (cur' : BTCursor (α × BTAddr × ℕ)) (hcur : cur'.place = cur.place) :
    (findLower t.tag (pKey, d) fuel p cur').map BTCursor.place =
      (findLower t pKey fuel p cur).map BTCursor.place := by
  induction fuel generalizing p cur cur' with
  | zero =>
      cases p with
      | none => exact congrArg some hcur
      | some p => rfl
  | succ fuel ih =>
      cases p with
      | none => exact congrArg some hcur
      | some p =>
          have hR := btInd_tag (fun x => decide (t.bCompare x pKey ≤ 0)) t.heap p
          have hback := backUp_tag (fun x => decide (t.bCompare x pKey < 0)) t.heap p
          generalize hRt : btInd (fun x => decide (t.bCompare x pKey ≤ 0)) (t.heap p) = R at hR
          have hlower : findLower t pKey (fuel + 1) (some p) cur =
              if R = (t.heap p).pM ∧ t.bCompare ((t.heap p).pItems (R - 1)) pKey < 0 then
                findLower t pKey fuel ((t.heap p).pPages R) cur
              else
                let R := backUp (fun x => decide (t.bCompare x pKey < 0)) (t.heap p)
                  (if R = (t.heap p).pM then R - 1 else R)
                findLower t pKey fuel ((t.heap p).pPages R) { cur with cPage := some p, cZIndex := R } := by
            rw [← hRt]
            rfl
          have htag : findLower t.tag (pKey, d) (fuel + 1) (some p) cur' =
              if R = (t.heap p).pM ∧ t.bCompare ((t.heap p).pItems (R - 1)) pKey < 0 then
                findLower t.tag (pKey, d) fuel ((t.heap p).pPages R) cur'
              else
                let R := backUp (fun x => decide (t.bCompare x pKey < 0)) (t.heap p)
                  (if R = (t.heap p).pM then R - 1 else R)
                findLower t.tag (pKey, d) fuel ((t.heap p).pPages R)
                  { cur' with cPage := some p, cZIndex := R } := by
            rw [← hR]
            simp only [← hback]
            rfl
          rw [hlower, htag]
          split
          · exact ih _ _ _ hcur
          · exact ih _ _ _ rfl

theorem findUpper_tag (t : BTree α) (pKey : α) (d : BTAddr × ℕ) (fuel : ℕ) (p : Option BTAddr)
    (cur : BTCursor α) (cur' : BTCursor (α × BTAddr × ℕ)) (hcur : cur'.place = cur.place) :
    (findUpper t.tag (pKey, d) fuel p cur').map BTCursor.place =
      (findUpper t pKey fuel p cur).map BTCursor.place := by
  induction fuel generalizing p cur cur' with
  | zero =>
      cases p with
      | none => exact congrArg some hcur
      | some p => rfl
  | succ fuel ih =>
      cases p with
      | none => exact congrArg some hcur
      | some p =>
          have hL := btInd_tag (fun x => decide (t.bCompare x pKey ≤ 0)) t.heap p
          generalize hLt : btInd (fun x => decide (t.bCompare x pKey ≤ 0)) (t.heap p) = L at hL
          have hupper : findUpper t pKey (fuel + 1) (some p) cur =
              if L = 0 ∧ t.bCompare ((t.heap p).pItems 0) pKey > 0 then
                findUpper t pKey fuel ((t.heap p).pPages 0) cur
              else findUpper t pKey fuel ((t.heap p).pPages L)
                { cur with cPage := some p, cZIndex := L - 1 } := by
            rw [← hLt]
            rfl
          have htag : findUpper t.tag (pKey, d) (fuel + 1) (some p) cur' =
              if L = 0 ∧ t.bCompare ((t.heap p).pItems 0) pKey > 0 then
                findUpper t.tag (pKey, d) fuel ((t.heap p).pPages 0) cur'
              else findUpper t.tag (pKey, d) fuel ((t.heap p).pPages L)
                { cur' with cPage := some p, cZIndex := L - 1 } := by
            rw [← hL]
            rfl
          rw [hupper, htag]
          split
          · exact ih _ _ _ hcur
          · exact ih _ _ _ rfl

theorem leftLeaf_tag (h : BTHeap α) (fuel : ℕ) (p : BTAddr) : leftLeaf h.tag fuel p = leftLeaf h fuel p := by
  induction fuel generalizing p with
  | zero => rfl
  | succ fuel ih =>
      have htag : (h.tag p).pPages 0 = (h p).pPages 0 := rfl
      rw [leftLeaf, leftLeaf, htag]
      cases (h p).pPages 0 with
      | none => rfl
      | some c => exact ih c

theorem itemAbove_tag (h : BTHeap α) (fuel : ℕ) (p : BTAddr) : itemAbove h.tag fuel p = itemAbove h fuel p := by
  induction fuel generalizing p with
  | zero => rfl
  | succ fuel ih =>
      have htag : (h.tag p).pParent = (h p).pParent := rfl
      rw [itemAbove, itemAbove, htag]
      cases (h p).pParent with
      | none => rfl
      | some q =>
          change (if (h q).pM ≤ (h p).pParentIndex then itemAbove h.tag fuel q
            else some (some (q, (h p).pParentIndex))) = if (h q).pM ≤ (h p).pParentIndex then
              itemAbove h fuel q else some (some (q, (h p).pParentIndex))
          rw [ih q]

theorem nextPlace_tag (t : BTree α) (p : BTAddr) (z : ℕ) : nextPlace t.tag p z = nextPlace t p z := by
  have htag : (t.tag.heap p).pPages (z + 1) = (t.heap p).pPages (z + 1) := rfl
  unfold nextPlace
  rw [htag]
  cases (t.heap p).pPages (z + 1) with
  | some c => exact congrArg (Option.map fun leaf => some (leaf, 0)) (leftLeaf_tag t.heap t.bNext c)
  | none =>
      change (if z + 1 < (t.heap p).pM then some (some (p, z + 1)) else itemAbove t.heap.tag (t.bNext + 1) p) =
        if z + 1 < (t.heap p).pM then some (some (p, z + 1)) else itemAbove t.heap (t.bNext + 1) p
      rw [itemAbove_tag]

theorem prevAbove_tag (h : BTHeap α) (fuel : ℕ) (p : BTAddr) : prevAbove h.tag fuel p = prevAbove h fuel p := by
  induction fuel generalizing p with
  | zero => rfl
  | succ fuel ih =>
      have htag : (h.tag p).pParent = (h p).pParent := rfl
      rw [prevAbove, prevAbove, htag]
      cases (h p).pParent with
      | none => rfl
      | some q =>
          change (if (h p).pParentIndex = 0 then prevAbove h.tag fuel q
            else some (some (q, (h p).pParentIndex - 1))) = if (h p).pParentIndex = 0 then
              prevAbove h fuel q else some (some (q, (h p).pParentIndex - 1))
          rw [ih q]

theorem prevPlace_tag (h : BTHeap α) (up fuel : ℕ) (p : BTAddr) (z : ℕ) :
    prevPlace h.tag up fuel p z = prevPlace h up fuel p z := by
  induction fuel generalizing p z with
  | zero => rfl
  | succ fuel ih =>
      have htag : (h.tag p).pPages z = (h p).pPages z := rfl
      rw [prevPlace, prevPlace, htag]
      cases (h p).pPages z with
      | some c => exact ih c _
      | none =>
          change (if 0 < z then some (some (p, z - 1)) else prevAbove h.tag up p) =
            if 0 < z then some (some (p, z - 1)) else prevAbove h up p
          rw [prevAbove_tag]

end Tagged

/-! ### Indices in order -/

variable [Inhabited α]

/-- The cursor is at index `r` of the items in order. -/
def BTCursor.IsAt (cur : BTCursor α) (t : BTree α) (r : ℕ) (x : α) : Prop :=
  ∃ p, cur.cPage = some p ∧ t.places[r]? = some (x, p, cur.cZIndex)

/-- The cursor has noted the place behind index `r`. -/
structure BTCursor.Knows (cur : BTCursor α) (t : BTree α) (r : ℕ) : Prop where
  last : t.places[r + 1]? = none → cur.cNextPage = none
  next : ∀ y q i, t.places[r + 1]? = some (y, q, i) → cur.cNextPage = some q ∧ cur.cNextIndex = (i : ℤ)

/-- The cursor has noted the item behind index `r`. -/
def BTCursor.KnowsKey (cur : BTCursor α) (t : BTree α) (r : ℕ) : Prop :=
  ∀ y q i, t.places[r + 1]? = some (y, q, i) → cur.cNextKey = y

/-- The cursor is at index `r` with the item there as its key, and has noted what comes
next. -/
structure BTCursor.Stands (cur : BTCursor α) (t : BTree α) (r : ℕ) (x : α) : Prop where
  isAt : cur.IsAt t r x
  key : cur.cKey = x
  knows : cur.Knows t r
  knowsKey : cur.KnowsKey t r

section Ranks
variable {t : BTree α} {root p : BTAddr} {lv : BTAddr → Option ℕ} {top z r : ℕ} {keys : List α}
  {L M : List (α × BTAddr × ℕ)} {x : α} {cur : BTCursor α}

theorem Grown.places (hg : Grown t root lv top keys) :
    t.places = t.heap.tag.keys (top + 1) (some root) :=
  BTree.Has.inOrder ⟨hg.order, .inr ⟨root, lv, top, hg.tag⟩⟩

theorem Placed.rank (hg : Grown t root lv top keys) (hp : Placed t.heap.tag lv root top p z L M) :
    t.places = L ++ ((t.heap p).pItems z, p, z) :: M := by
  rw [hg.places]
  exact hp.keys hg.shape.tag

/-- What is at an index of the places in order -/
theorem Grown.placed (hg : Grown t root lv top keys) (hr : t.places[r]? = some (x, p, z)) :
    ∃ L M, Placed t.heap.tag lv root top p z L M ∧ L.length = r ∧ x = (t.heap p).pItems z := by
  have hlt := (List.getElem?_eq_some_iff.mp hr).1
  obtain ⟨q, i, L, M, hp, hlen⟩ := Path.index hg.shape.tag .root (i := r) (Nat.zero_le r) (by
    rw [List.length_nil, Nat.zero_add, ← hg.places]
    exact hlt)
  have hall := hp.rank hg
  rw [hall, ← hlen, List.getElem?_append_right (Nat.le_refl _), Nat.sub_self] at hr
  obtain ⟨rfl, hqi⟩ := Prod.mk.inj (Option.some.inj hr)
  obtain ⟨rfl, rfl⟩ := Prod.mk.inj hqi
  exact ⟨L, M, hp, hlen, rfl⟩

/-- A place has one index in order. -/
theorem Grown.place_once {r' : ℕ} {y : α} (hg : Grown t root lv top keys)
    (hr : t.places[r]? = some (x, p, z)) (hr' : t.places[r']? = some (y, p, z)) : r = r' := by
  obtain ⟨L, M, hplaced, rfl, -⟩ := hg.placed hr
  obtain ⟨L', M', hplaced', rfl, -⟩ := hg.placed hr'
  rw [(hplaced.unique hg.shape.tag hplaced').1]

/-- `BTCDelete` at an index takes out the item there. -/
theorem Grown.deleteAt (hg : Grown t root lv top keys) (hr : t.places[r]? = some (x, p, z)) :
    ∃ t', BTCDelete p z t = some t' ∧ t'.Has (keys.take r ++ keys.drop (r + 1)) ∧ t'.bN = t.bN ∧
      t'.bCompare = t.bCompare ∧ t'.bCnt = t.bCnt - 1 := by
  obtain ⟨L, M, hp, hlen, -⟩ := hg.placed hr
  obtain ⟨k, X, Y, hx, hL, -⟩ := hp.path
  obtain ⟨hkeys, t', hrun, hhas, hrest⟩ := btcDelete_has hg (hx.untag.context hg.shape) hp.lt
  have hbefore : (keysBefore t.heap p k z (X.map Prod.fst)).length = r := by
    have hmap : L.map Prod.fst = keysBefore t.heap p k z (X.map Prod.fst) := by
      rw [hL]
      unfold keysBefore
      rw [List.map_append, List.map_append, rowBefore_tag, keys_tag]
      rfl
    rw [← hmap, List.length_map, hlen]
  refine ⟨t', hrun, ?_, hrest⟩
  rw [hkeys, ← hbefore, List.take_left, List.drop_append, List.drop_eq_nil_of_le (Nat.le_succ _),
    Nat.add_sub_cancel_left, List.nil_append, List.drop_one, List.tail_cons]
  exact hhas

/-- `_BTCNext` finds the next place. -/
theorem Grown.next (hg : Grown t root lv top keys) (hr : t.places[r]? = some (x, p, z)) :
    nextPlace t p z = some ((t.places[r + 1]?).map Prod.snd) := by
  obtain ⟨L, M, hp, hlen, -⟩ := hg.placed hr
  obtain ⟨place, hplace, hnone, hsome⟩ := nextPlace_spec hg.tag hp
  rw [nextPlace_tag] at hplace
  rw [hplace, hp.rank hg, List.getElem?_append_right (by omega), show r + 1 - L.length = 1 by omega]
  cases place with
  | none =>
      rw [hnone rfl]
      rfl
  | some a =>
      obtain ⟨M', hM, -⟩ := hsome a.1 a.2 rfl
      rw [hM]
      rfl

/-- The walk of `BTCPrev` finds the place before. -/
theorem Grown.prev (hg : Grown t root lv top keys) (hr : t.places[r]? = some (x, p, z)) :
    prevPlace t.heap (t.bNext + 1) (t.bNext + 1) p z =
      some (if r = 0 then none else (t.places[r - 1]?).map Prod.snd) := by
  obtain ⟨L, M, hp, hlen, -⟩ := hg.placed hr
  obtain ⟨place, hplace, hnone, hsome⟩ := prevPlace_spec hg.tag hp
  change prevPlace t.heap.tag _ _ p z = _ at hplace
  rw [prevPlace_tag] at hplace
  change prevPlace t.heap (t.bNext + 1) (t.bNext + 1) p z = _ at hplace
  rw [hplace, hp.rank hg]
  cases place with
  | none =>
      rw [hnone rfl, List.length_nil] at hlen
      rw [if_pos hlen.symm]
  | some a =>
      obtain ⟨L', hL, -⟩ := hsome a.1 a.2 rfl
      rw [hL, List.length_append, List.length_singleton] at hlen
      rw [if_neg (by omega), hL, List.append_assoc, List.getElem?_append_right (by omega),
        show r - 1 - L'.length = 0 by omega]
      rfl

/-- What `_BTCNext` does to a cursor that is at an index -/
theorem Grown.btcNext' (hg : Grown t root lv top keys) (hcur : cur.IsAt t r x) : ∃ cur' more,
    BTCNext' t cur = some (cur', more) ∧ cur'.cPage = cur.cPage ∧ cur'.cZIndex = cur.cZIndex ∧
      cur'.cKey = cur.cKey ∧ cur'.Knows t r ∧ cur'.KnowsKey t r := by
  obtain ⟨p, hp, hr⟩ := hcur
  have hnext := hg.next hr
  rw [BTCNext'_eq t cur hp, hnext]
  cases hbehind : t.places[r + 1]? with
  | none =>
      have hno : ∀ y q i, t.places[r + 1]? ≠ some (y, q, i) := by
        intro y q i hy
        rw [hbehind] at hy
        cases hy
      exact ⟨_, _, rfl, rfl, rfl, rfl, ⟨fun _ => rfl, fun y q i hy => absurd hy (hno y q i)⟩,
        fun y q i hy => absurd hy (hno y q i)⟩
  | some a =>
      obtain ⟨y, q, i⟩ := a
      obtain ⟨-, -, -, -, hy⟩ := hg.placed hbehind
      refine ⟨_, _, rfl, rfl, rfl, rfl, ⟨fun hnone => ?_, fun y' q' i' hy' => ?_⟩, fun y' q' i' hy' => ?_⟩
      · rw [hbehind] at hnone
        cases hnone
      · rw [hbehind] at hy'
        cases hy'
        exact ⟨rfl, rfl⟩
      · rw [hbehind] at hy'
        cases hy'
        exact hy.symm

theorem Grown.stands (hg : Grown t root lv top keys) (hcur : cur.IsAt t r x) (hkey : cur.cKey = x) :
    ∃ cur' more, BTCNext' t cur = some (cur', more) ∧ cur'.Stands t r x := by
  obtain ⟨cur', more, hrun, hpage, hz, hkey', hknows, hknowsKey⟩ := hg.btcNext' hcur
  obtain ⟨p, hp, hr⟩ := hcur
  exact ⟨cur', more, hrun, ⟨p, hpage.trans hp, hz ▸ hr⟩, hkey'.trans hkey, hknows, hknowsKey⟩

/-- At the last item `BTCNext` fails. -/
theorem btcNext_last (hk : cur.Knows t r) (hr : t.places[r + 1]? = none) :
    ∃ cur', BTCNext t cur = some (cur', false) ∧ cur'.cPage = none := by
  have hnone := hk.last hr
  unfold BTCNext
  simp only [hnone]
  exact ⟨_, rfl, rfl⟩

/-- Otherwise it goes to the place that the cursor has noted, with the key that the cursor
has noted. -/
theorem btcNext_noted (hg : Grown t root lv top keys) {y : α} {q : BTAddr} {i : ℕ}
    (hpage : cur.cNextPage = some q) (hindex : cur.cNextIndex = (i : ℤ)) (hr : t.places[r]? = some (y, q, i)) :
    ∃ cur', BTCNext t cur = some (cur', true) ∧ cur'.IsAt t r y ∧ cur'.cKey = cur.cNextKey ∧
      cur'.Knows t r ∧ cur'.KnowsKey t r := by
  have hat : BTCursor.IsAt { cur with
      cPage := cur.cNextPage
      cZIndex := cur.cNextIndex.toNat
      cKey := cur.cNextKey } t r y := by
    refine ⟨q, hpage, ?_⟩
    change t.places[r]? = some (y, q, cur.cNextIndex.toNat)
    rw [hr, hindex, Int.toNat_natCast]
  obtain ⟨cur', more, hrun, hp, hz, hkey, hknows, hknowsKey⟩ := hg.btcNext' hat
  refine ⟨cur', ?_, ?_, hkey, hknows, hknowsKey⟩
  · unfold BTCNext
    simp only [hpage] at hrun ⊢
    rw [hrun]
    rfl
  · obtain ⟨p, hp', hr'⟩ := hat
    exact ⟨p, hp.trans hp', hz ▸ hr'⟩

theorem btcNext_next (hg : Grown t root lv top keys) (hk : cur.Knows t r) {y : α} {q : BTAddr} {i : ℕ}
    (hr : t.places[r + 1]? = some (y, q, i)) : ∃ cur', BTCNext t cur = some (cur', true) ∧
      cur'.IsAt t (r + 1) y ∧ cur'.cKey = cur.cNextKey ∧ cur'.Knows t (r + 1) ∧ cur'.KnowsKey t (r + 1) := by
  obtain ⟨hpage, hindex⟩ := hk.next y q i hr
  exact btcNext_noted hg hpage hindex hr

end Ranks

/-! ### The last item that is not above -/

section Upper
variable {t : BTree α} {root p : BTAddr} {lv : BTAddr → Option ℕ} {top k fuel : ℕ} {X Y keys : List α}
  {cur : BTCursor α} {pKey : α}

/-- What the cursor of `BTCFindUpper` says: the keys up to it, and those behind it. -/
def UpTo (t : BTree α) (root : BTAddr) (lv : BTAddr → Option ℕ) (top : ℕ) (below : α → Bool)
    (cur : BTCursor α) (L M : List α) : Prop :=
  (cur.cPage = none ∧ L = []) ∨ ∃ q j X Y, cur.cPage = some q ∧ Context t.heap lv root top q j X Y ∧
    cur.cZIndex < (t.heap q).pM ∧ below ((t.heap q).pItems cur.cZIndex) = true ∧
    L = keysBefore t.heap q j cur.cZIndex X ++ [(t.heap q).pItems cur.cZIndex] ∧
    M = keysBehind t.heap q j cur.cZIndex Y

/-- One page of the search -/
theorem findUpper_page (fuel : ℕ) (hc : Preorders t.bCompare)
    (ho : Ordered t.bCompare (t.heap.keys (top + 1) (some root)))
    (hx : Context t.heap lv root top p k X Y) (hpos : 0 < (t.heap p).pM)
    (hX : ∀ x ∈ X, decide (t.bCompare x pKey ≤ 0) = true) (hY : ∀ y ∈ Y, decide (t.bCompare y pKey ≤ 0) = false)
    (hcur : UpTo t root lv top (fun x => decide (t.bCompare x pKey ≤ 0)) cur X
      (t.heap.keys (k + 1) (some p) ++ Y)) :
    ∃ R cur', R ≤ (t.heap p).pM ∧
      (∀ x ∈ X ++ rowBefore (t.heap.keys k) (t.heap.ent p) R, decide (t.bCompare x pKey ≤ 0) = true) ∧
      (∀ y ∈ rowBehind (t.heap.keys k) (t.heap.ent p) R (t.heap p).pM ++ Y,
        decide (t.bCompare y pKey ≤ 0) = false) ∧
      UpTo t root lv top (fun x => decide (t.bCompare x pKey ≤ 0)) cur'
        (X ++ rowBefore (t.heap.keys k) (t.heap.ent p) R)
        (t.heap.keys k (t.heap.ent p R).2 ++ (rowBehind (t.heap.keys k) (t.heap.ent p) R (t.heap p).pM ++ Y)) ∧
      findUpper t pKey (fuel + 1) (some p) cur = findUpper t pKey fuel ((t.heap p).pPages R) cur' := by
  obtain ⟨R, hR⟩ : ∃ R, R = btInd (fun x => decide (t.bCompare x pKey ≤ 0)) (t.heap p) := ⟨_, rfl⟩
  obtain ⟨hle, hbefore, hbehind⟩ := hx.cut (ho.cutLe hc pKey) hX hY hR
  have hrun : findUpper t pKey (fuel + 1) (some p) cur =
      if R = 0 ∧ t.bCompare ((t.heap p).pItems 0) pKey > 0 then findUpper t pKey fuel ((t.heap p).pPages 0) cur
      else findUpper t pKey fuel ((t.heap p).pPages R) { cur with cPage := some p, cZIndex := R - 1 } := by
    rw [hR]
    rfl
  by_cases hzero : R = 0
  · -- all items are above the key
    subst hzero
    have hempty : rowBefore (t.heap.keys k) (t.heap.ent p) 0 = [] := rfl
    have hfirst : t.bCompare ((t.heap p).pItems 0) pKey > 0 := by
      have hitem : (t.heap p).pItems 0 ∈ rowBehind (t.heap.keys k) (t.heap.ent p) 0 (t.heap p).pM ++ Y := by
        rw [rowBehind_cons hpos]
        exact List.mem_append_left _ List.mem_cons_self
      have hnot := of_decide_eq_false (hbehind _ hitem)
      omega
    rw [if_pos ⟨rfl, hfirst⟩] at hrun
    refine ⟨0, cur, hle, hbefore, hbehind, ?_, hrun⟩
    rw [hempty, List.append_nil]
    rw [keys_some, rowKeys_at (Nat.zero_le _), hempty, List.nil_append, List.append_assoc] at hcur
    exact hcur
  · obtain ⟨R, rfl⟩ := Nat.exists_eq_succ_of_ne_zero hzero
    rw [if_neg (fun h => hzero h.1)] at hrun
    refine ⟨R + 1, { cur with cPage := some p, cZIndex := R }, hle, hbefore, hbehind,
      .inr ⟨p, k, X, Y, rfl, hx, hle, ?_, ?_, ?_⟩, hrun⟩
    · refine hbefore _ (List.mem_append_right X ?_)
      rw [rowBefore_succ]
      exact List.mem_append_right _ (List.mem_append_right _ (List.mem_singleton_self _))
    · change X ++ rowBefore (t.heap.keys k) (t.heap.ent p) (R + 1) =
        keysBefore t.heap p k R X ++ [(t.heap p).pItems R]
      unfold keysBefore
      rw [rowBefore_succ, pItems_eq]
      simp only [List.append_assoc]
    · rfl

/-- The search ends with the keys that are not above up to the cursor. -/
theorem findUpper_upTo (hs : Shape t.heap lv root top) (hc : Preorders t.bCompare)
    (ho : Ordered t.bCompare (t.heap.keys (top + 1) (some root)))
    (hpos : ∀ q j, lv q = some j → 0 < (t.heap q).pM) (hx : Context t.heap lv root top p k X Y)
    (hX : ∀ x ∈ X, decide (t.bCompare x pKey ≤ 0) = true) (hY : ∀ y ∈ Y, decide (t.bCompare y pKey ≤ 0) = false)
    (hcur : UpTo t root lv top (fun x => decide (t.bCompare x pKey ≤ 0)) cur X
      (t.heap.keys (k + 1) (some p) ++ Y)) (hfuel : k < fuel) :
    ∃ cur' L M, findUpper t pKey fuel (some p) cur = some cur' ∧
      UpTo t root lv top (fun x => decide (t.bCompare x pKey ≤ 0)) cur' L M ∧
      (∀ y ∈ M, decide (t.bCompare y pKey ≤ 0) = false) ∧ L ++ M = t.heap.keys (top + 1) (some root) := by
  induction k generalizing p X Y cur fuel with
  | zero =>
      obtain ⟨fuel, rfl⟩ : ∃ f, fuel = f + 1 := ⟨fuel - 1, by omega⟩
      obtain ⟨R, cur', hle, -, hbehind, hup, hrun⟩ := findUpper_page fuel hc ho hx
        (hpos p 0 hx.level) hX hY hcur
      have hnone : (t.heap.ent p R).2 = none := (hs.page p 0 hx.level).below R hle
      rw [hnone, keys_none, List.nil_append] at hup
      refine ⟨cur', _, _, ?_, hup, hbehind, ?_⟩
      · rw [hrun, pPages_eq, hnone]
        cases fuel <;> rfl
      · rw [hx.here, keys_some, rowKeys_at hle, hnone, keys_none, List.nil_append]
        simp only [List.append_assoc]
  | succ k ih =>
      obtain ⟨fuel, rfl⟩ : ∃ f, fuel = f + 1 := ⟨fuel - 1, by omega⟩
      obtain ⟨R, cur', hle, hbefore, hbehind, hup, hrun⟩ := findUpper_page fuel hc ho hx
        (hpos p (k + 1) hx.level) hX hY hcur
      obtain ⟨c, hcR, -⟩ := (hs.page p (k + 1) hx.level).below R hle
      rw [hcR] at hup
      rw [hrun, pPages_eq, hcR]
      exact ih (hx.child hs ⟨hx.level, hle, hcR⟩) hbefore hbehind hup (by omega)

end Upper

/-! ### Searches of a tree that has keys -/

section Searches
variable {t : BTree α} {root : BTAddr} {lv : BTAddr → Option ℕ} {top r : ℕ} {keys : List α} {x : α}
  {cur : BTCursor α} {pKey : α}

omit [Inhabited α] in
theorem Preorders.tag (hc : Preorders t.bCompare) : Preorders t.tag.bCompare :=
  ⟨fun a b => hc.swap a.1 b.1, fun a b c => hc.trans a.1 b.1 c.1⟩

theorem Grown.map_places (hg : Grown t root lv top keys) : t.places.map Prod.fst = keys := by
  rw [BTree.places_inOrder]
  exact BTree.Has.inOrder ⟨hg.order, .inr ⟨root, lv, top, hg⟩⟩

theorem Grown.tag_ordered (hg : Grown t root lv top keys) (ho : Ordered t.bCompare keys) :
    Ordered t.tag.bCompare (t.tag.heap.keys (top + 1) (some root)) := by
  rw [← hg.map_places, hg.places] at ho
  exact List.pairwise_map.mp ho

theorem map_take {below : α → Prop} (h : ∀ a ∈ t.places.take r, below a.1) :
    ∀ y ∈ (t.places.map Prod.fst).take r, below y := by
  intro y hy
  rw [← List.map_take] at hy
  obtain ⟨a, ha, rfl⟩ := List.mem_map.mp hy
  exact h a ha

theorem map_drop {below : α → Prop} (h : ∀ a ∈ t.places.drop r, below a.1) :
    ∀ y ∈ (t.places.map Prod.fst).drop r, below y := by
  intro y hy
  rw [← List.map_drop] at hy
  obtain ⟨a, ha, rfl⟩ := List.mem_map.mp hy
  exact h a ha

omit [Inhabited α] in
/-- The cursor of a search in the tagged tree is one in the tree. -/
theorem place_some {o : Option (BTCursor α)} {cur' : BTCursor (α × BTAddr × ℕ)}
    (h : some cur'.place = o.map BTCursor.place) :
    ∃ cur, o = some cur ∧ cur.cPage = cur'.cPage ∧ cur.cZIndex = cur'.cZIndex := by
  cases o with
  | none => cases h
  | some cur =>
      obtain ⟨hp, hz⟩ := Prod.mk.inj (Option.some.inj h)
      exact ⟨cur, rfl, hp.symm, hz.symm⟩

/-- `BTCFindLower` ends at the first key that is not below, or all are. -/
theorem Grown.lower (hg : Grown t root lv top keys) (hc : Preorders t.bCompare) (ho : Ordered t.bCompare keys)
    (pKey : α) (cur : BTCursor α) : ∃ cur',
      findLower t pKey t.bNext t.bRoot { cur with cPage := none } = some cur' ∧
        ((cur'.cPage = none ∧ ∀ y ∈ keys, t.bCompare y pKey < 0) ∨ ∃ r x, cur'.IsAt t r x ∧
          (∀ y ∈ keys.take r, t.bCompare y pKey < 0) ∧ ¬ t.bCompare x pKey < 0) := by
  have hs := hg.shape.tag
  have hopen : At t.tag root lv top (fun a => decide (t.tag.bCompare a (pKey, default) < 0))
      { (BTCursorOpen : BTCursor (α × BTAddr × ℕ)) with cPage := none, cZIndex := cur.cZIndex }
      ([] ++ t.tag.heap.keys (top + 1) (some root)) [] := .inl ⟨rfl, rfl⟩
  obtain ⟨cur', L, M, hfind, hat, hL, hLM⟩ := findLower_at hs hc.tag
    (hg.tag_ordered ho) (fun q j hq => hg.pos hq) hs.context_root (fun a ha => absurd ha List.not_mem_nil)
    hopen (hg.shape.top_lt hg.unused)
  have hfind' := findLower_tag t pKey default t.bNext (some root) { cur with cPage := none }
    { (BTCursorOpen : BTCursor (α × BTAddr × ℕ)) with cPage := none, cZIndex := cur.cZIndex } rfl
  change findLower t.tag (pKey, default) t.bNext (some root) _ = _ at hfind
  rw [hfind] at hfind'
  obtain ⟨cur₁, hrun, hpage, hz⟩ := place_some hfind'
  rw [hg.bRoot]
  refine ⟨cur₁, hrun, ?_⟩
  have hplaces : t.places = L ++ M := hg.places.trans hLM.symm
  rw [← hg.map_places]
  rcases hat with ⟨hnone, rfl⟩ | ⟨q, j, X, Y, hq, hx, hlt, hitem, hLeq, rfl⟩
  · refine .inl ⟨hpage.trans hnone, ?_⟩
    intro y hy
    obtain ⟨a, ha, rfl⟩ := List.mem_map.mp hy
    rw [hplaces, List.append_nil] at ha
    exact of_decide_eq_true (hL a ha)
  · refine .inr ⟨L.length, (t.heap q).pItems cur'.cZIndex, ⟨q, hpage.trans hq, ?_⟩, ?_,
      of_decide_eq_false hitem⟩
    · rw [hplaces, List.getElem?_append_right (Nat.le_refl _), Nat.sub_self, hz]
      rfl
    · refine map_take ?_
      intro a ha
      rw [hplaces, List.take_left] at ha
      exact of_decide_eq_true (hL a ha)

/-- `BTCFindUpper` ends at the last key that is not above, or all are. -/
theorem Grown.upper (hg : Grown t root lv top keys) (hc : Preorders t.bCompare) (ho : Ordered t.bCompare keys)
    (pKey : α) (cur : BTCursor α) : ∃ cur',
      findUpper t pKey t.bNext t.bRoot { cur with cPage := none } = some cur' ∧
        ((cur'.cPage = none ∧ ∀ y ∈ keys, ¬ t.bCompare y pKey ≤ 0) ∨ ∃ r x, cur'.IsAt t r x ∧
          t.bCompare x pKey ≤ 0 ∧ ∀ y ∈ keys.drop (r + 1), ¬ t.bCompare y pKey ≤ 0) := by
  have hs := hg.shape.tag
  have hopen : UpTo t.tag root lv top (fun a => decide (t.tag.bCompare a (pKey, default) ≤ 0))
      { (BTCursorOpen : BTCursor (α × BTAddr × ℕ)) with cPage := none, cZIndex := cur.cZIndex } []
      (t.tag.heap.keys (top + 1) (some root) ++ []) := .inl ⟨rfl, rfl⟩
  obtain ⟨cur', L, M, hfind, hat, hM, hLM⟩ := findUpper_upTo hs hc.tag
    (hg.tag_ordered ho) (fun q j hq => hg.pos hq) hs.context_root (fun a ha => absurd ha List.not_mem_nil)
    (fun a ha => absurd ha List.not_mem_nil) hopen (hg.shape.top_lt hg.unused)
  have hfind' := findUpper_tag t pKey default t.bNext (some root) { cur with cPage := none }
    { (BTCursorOpen : BTCursor (α × BTAddr × ℕ)) with cPage := none, cZIndex := cur.cZIndex } rfl
  change findUpper t.tag (pKey, default) t.bNext (some root) _ = _ at hfind
  rw [hfind] at hfind'
  obtain ⟨cur₁, hrun, hpage, hz⟩ := place_some hfind'
  rw [hg.bRoot]
  refine ⟨cur₁, hrun, ?_⟩
  have hplaces : t.places = L ++ M := hg.places.trans hLM.symm
  rw [← hg.map_places]
  rcases hat with ⟨hnone, rfl⟩ | ⟨q, j, X, Y, hq, hx, hlt, hitem, rfl, hMeq⟩
  · refine .inl ⟨hpage.trans hnone, ?_⟩
    intro y hy
    obtain ⟨a, ha, rfl⟩ := List.mem_map.mp hy
    rw [hplaces, List.nil_append] at ha
    exact of_decide_eq_false (hM a ha)
  · refine .inr ⟨(keysBefore t.tag.heap q j cur'.cZIndex X).length, (t.heap q).pItems cur'.cZIndex,
      ⟨q, hpage.trans hq, ?_⟩, of_decide_eq_true hitem, ?_⟩
    · rw [hplaces, List.append_assoc, List.getElem?_append_right (Nat.le_refl _), Nat.sub_self, hz]
      rfl
    · refine map_drop ?_
      intro a ha
      rw [hplaces, List.drop_left' (by rw [List.length_append, List.length_singleton])] at ha
      exact of_decide_eq_false (hM a ha)

/-- `BTCHead` goes to the first item. -/
theorem Grown.head (hg : Grown t root lv top keys) (cur : BTCursor α) :
    ∃ cur' x, BTCHead t cur = some (cur', true) ∧ cur'.Stands t 0 x := by
  have hs := hg.shape.tag
  obtain ⟨leaf, Y, hleaf, hx⟩ := leftLeaf_path hs .root (hg.shape.top_lt hg.unused)
  rw [leftLeaf_tag] at hleaf
  have hrank := Placed.rank hg ⟨hg.pos (hx.level hs), 0, [], Y, hx, rfl, rfl⟩
  rw [hx.first hs] at hrank
  have hat : BTCursor.IsAt { cur with
      cPage := some leaf
      cZIndex := 0
      cKey := (t.heap leaf).pItems 0 } t 0 ((t.heap leaf).pItems 0) := ⟨leaf, rfl, by rw [hrank]; rfl⟩
  obtain ⟨cur', more, hrun, hstands⟩ := hg.stands hat rfl
  refine ⟨cur', _, ?_, hstands⟩
  unfold BTCHead
  simp only [hg.bRoot, hleaf]
  change (BTCNext' t _).bind _ = _
  rw [hrun]
  rfl

end Searches

end PaxosSolutions.NWGadget
