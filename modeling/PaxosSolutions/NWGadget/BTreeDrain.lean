import PaxosSolutions.NWGadget.BTreeExact

/-!
# Items are taken out of a B-tree one after the other

`BTreeDestroy` hands out the item that its cursor is at, deletes it and goes on to the
next one. The deletion may move every other item to another page. The cursor then looks
for the key that came next, and finds it first in order.
-/
namespace PaxosSolutions.NWGadget
open Lib BTHeap

variable {α : Type} [Inhabited α]

/-- The loop of `BTreeDestroy`: the items that were handed out, the tree that is left, and
whether the loop came to its end. A negative result of `fDestroy` stops it. -/
def destroyLoop (fDestroy : α → ℤ) : ℕ → BTree α → BTCursor α → Option (List α × BTree α × Bool)
  | 0, _, _ => none
  | fuel + 1, t, cur =>
      if fDestroy cur.cKey < 0 then some ([cur.cKey], t, false)
      else do
        let (t, next) ← BTCDeleteNext t cur
        let (next, more) ← BTCNext t next
        if more then do
          let (handed, t, ended) ← destroyLoop fDestroy fuel t next
          some (cur.cKey :: handed, t, ended)
        else some ([cur.cKey], t, true)

/-- `BTreeDestroy`, with `b_fDestroy` or without. An empty tree has no first item, and is
taken for an error. -/
def BTreeDestroy (fDestroy : Option (α → ℤ)) (t : BTree α) : Option (List α × BTree α × Bool) := do
  let (cur, found) ← BTCHead t BTCursorOpen
  if found then destroyLoop (fDestroy.getD fun _ => 0) (t.inOrder.length + 1) t cur
  else some ([], t, false)

section Drain
variable {t : BTree α} {root : BTAddr} {lv : BTAddr → Option ℕ} {top r fuel : ℕ} {keys rest : List α} {x y : α}
  {cur : BTCursor α} {fDestroy : α → ℤ}

/-- A tree without items has no root. -/
theorem BTree.Has.empty (ht : t.Has []) : t.bRoot = none := by
  rcases ht.grown with ⟨hroot, -⟩ | ⟨root, lv, top, hg⟩
  · exact hroot
  · obtain ⟨cur, x, -, hstands⟩ := hg.head BTCursorOpen
    have hkey := hstands.isAt.key
    rw [ht.inOrder] at hkey
    cases hkey

/-- The places of a tree are as many as its items. -/
theorem BTree.Has.places_lt (ht : t.Has keys) : t.places[r]? = none ↔ keys.length ≤ r := by
  rw [List.getElem?_eq_none_iff, ← ht.inOrder, ← t.places_inOrder, List.length_map]

omit [Inhabited α] in
theorem count_tail (h : t.bCnt = UInt64.ofNat (x :: rest).length) :
    t.bCnt - 1 = UInt64.ofNat rest.length := by
  rw [h, List.length_cons, UInt64.ofNat_add]
  exact UInt64.add_sub_cancel _ _

/-- The first item is found at index 0. -/
theorem btcFind_first (hc : Preorders t.bCompare) (ht : t.Has (y :: rest)) (ho : Ordered t.bCompare (y :: rest))
    (cur : BTCursor α) : ∃ cur', BTCFind t y cur = some (cur', true) ∧ cur'.Stands t 0 y := by
  have hself : t.bCompare y y = 0 := by
    have := hc.swap y y
    omega
  have hin := ht.inOrder
  obtain ⟨cur', found, hrun, ⟨rfl, -, r, x, hstands, -, hbefore⟩ | ⟨hne, -⟩⟩ := btcFind_cases hc ht ho y cur
  · cases r with
    | zero =>
        have hkey := hstands.isAt.key
        rw [hin] at hkey
        cases hkey
        exact ⟨cur', hrun, hstands⟩
    | succ r =>
        have hneg := hbefore y (by rw [hin, List.take_succ_cons]; exact List.mem_cons_self)
        omega
  · exact absurd hself (hne y (by rw [hin]; exact List.mem_cons_self))

/-- What one turn of the loop does at the first item: the cursor comes to the first of the
others, or there are none. -/
theorem btcDeleteNext_first (hc : Preorders t.bCompare) (ht : t.Has (x :: rest))
    (ho : Ordered t.bCompare (x :: rest)) (hcur : cur.Stands t 0 x) :
    ∃ t' next next' more, BTCDeleteNext t cur = some (t', next) ∧ BTCNext t' next = some (next', more) ∧
      t'.Has rest ∧ t'.bCompare = t.bCompare ∧ t'.bCnt = t.bCnt - 1 ∧
      ((rest = [] ∧ more = false) ∨ ∃ y rest', rest = y :: rest' ∧ more = true ∧ next'.Stands t' 0 y) := by
  obtain ⟨root, lv, top, hg⟩ := hcur.isAt.grown ht
  obtain ⟨p, hp, hr⟩ := hcur.isAt
  obtain ⟨t', hdelete, hhas, -, hcmp, hcnt⟩ := hg.deleteAt hr
  rw [List.take_zero, List.nil_append, Nat.zero_add, List.drop_one, List.tail_cons] at hhas
  have ho' : Ordered t'.bCompare rest := by
    rw [hcmp]
    exact ho.tail
  cases rest with
  | nil =>
      have hnone := hcur.knows.last (ht.places_lt.mpr (Nat.le_refl 1))
      have hrun : BTCDeleteNext t cur = some (t', cur) := by
        unfold BTCDeleteNext
        simp only [hp, hdelete, hnone]
        rfl
      have hnext : ∃ next', BTCNext t' cur = some (next', false) := by
        unfold BTCNext
        simp only [hnone]
        exact ⟨_, rfl⟩
      obtain ⟨next', hnext⟩ := hnext
      exact ⟨t', cur, next', false, hrun, hnext, hhas, hcmp, hcnt, .inl ⟨rfl, rfl⟩⟩
  | cons y rest =>
      -- the place that was noted is of the tree before
      obtain ⟨⟨y', q, i⟩, hbehind⟩ : ∃ a, t.places[0 + 1]? = some a := by
        rw [← Option.ne_none_iff_exists']
        intro hnone
        have hle := ht.places_lt.mp hnone
        rw [List.length_cons, List.length_cons] at hle
        omega
      have hy : y' = y := by
        have hkey := getElem?_inOrder t 1
        rw [ht.inOrder, hbehind] at hkey
        exact (Option.some.inj hkey).symm
      obtain ⟨hpage, -⟩ := hcur.knows.next y' q i hbehind
      have hkey := (hcur.knowsKey y' q i hbehind).trans hy
      obtain ⟨cur', hfind, hstands⟩ := btcFind_first (hcmp ▸ hc) hhas ho' cur
      obtain ⟨next, hn⟩ : ∃ next : BTCursor α, next = { cur' with
          cNextPage := cur'.cPage
          cNextIndex := cur'.cZIndex
          cNextKey := cur'.cKey } := ⟨_, rfl⟩
      have hrun : BTCDeleteNext t cur = some (t', next) := by
        unfold BTCDeleteNext
        simp only [hp, hdelete, hpage, hkey]
        change (BTCFind t' y cur).bind _ = _
        rw [hfind, hn]
        rfl
      obtain ⟨root', lv', top', hg'⟩ := hstands.isAt.grown hhas
      obtain ⟨p', hp', hr'⟩ := hstands.isAt
      have hpage' : next.cNextPage = some p' := by rw [hn]; exact hp'
      have hindex' : next.cNextIndex = (cur'.cZIndex : ℤ) := by rw [hn]
      have hkey' : next.cNextKey = y := by rw [hn]; exact hstands.key
      obtain ⟨next', hnext, hat, htaken, hknows, hknowsKey⟩ := btcNext_noted hg' hpage' hindex' hr'
      exact ⟨t', next, next', true, hrun, hnext, hhas, hcmp, hcnt,
        .inr ⟨y, rest, rfl, rfl, hat, htaken.trans hkey', hknows, hknowsKey⟩⟩

/-- The loop hands out what there is, in order. -/
theorem destroyLoop_all (hc : Preorders t.bCompare) (ht : t.Has (x :: rest))
    (ho : Ordered t.bCompare (x :: rest)) (hcnt : t.bCnt = UInt64.ofNat (x :: rest).length) (hcur : cur.Stands t 0 x)
    (hf : ∀ y ∈ x :: rest, 0 ≤ fDestroy y) (hfuel : rest.length < fuel) :
    ∃ t', destroyLoop fDestroy fuel t cur = some (x :: rest, t', true) ∧ t'.Has [] ∧ t'.bCnt = 0 := by
  induction rest generalizing t cur x fuel with
  | nil =>
      obtain ⟨fuel, rfl⟩ : ∃ f, fuel = f + 1 := ⟨fuel - 1, by omega⟩
      obtain ⟨t', next, next', more, hdelete, hnext, hhas, -, hcnt', ⟨-, rfl⟩ | ⟨y, rest', hrest, -⟩⟩ :=
        btcDeleteNext_first hc ht ho hcur
      · refine ⟨t', ?_, hhas, hcnt'.trans (count_tail hcnt)⟩
        have hok := hf x List.mem_cons_self
        unfold destroyLoop
        rw [hcur.key, if_neg (by omega), hdelete]
        change (BTCNext t' next).bind _ = _
        rw [hnext]
        rfl
      · cases hrest
  | cons y rest ih =>
      obtain ⟨fuel, rfl⟩ : ∃ f, fuel = f + 1 := ⟨fuel - 1, by omega⟩
      obtain ⟨t₁, next, next', more, hdelete, hnext, hhas, hcmp, hcnt₁,
        ⟨hrest, -⟩ | ⟨y', rest', hrest, rfl, hat⟩⟩ := btcDeleteNext_first hc ht ho hcur
      · cases hrest
      cases hrest
      have hcount : t₁.bCnt = UInt64.ofNat (y :: rest).length := hcnt₁.trans (count_tail hcnt)
      have ho' : Ordered t₁.bCompare (y :: rest) := by
        rw [hcmp]
        exact ho.tail
      have hf' : ∀ z ∈ y :: rest, 0 ≤ fDestroy z := fun z hz => hf z (List.mem_cons_of_mem x hz)
      rw [List.length_cons] at hfuel
      obtain ⟨t', hloop, hempty, hzero⟩ := ih (hcmp ▸ hc) hhas ho' hcount hat hf'
        (show rest.length < fuel by omega)
      refine ⟨t', ?_, hempty, hzero⟩
      have hok := hf x List.mem_cons_self
      unfold destroyLoop
      rw [hcur.key, if_neg (by omega), hdelete]
      change (BTCNext t₁ next).bind _ = _
      rw [hnext]
      change (destroyLoop fDestroy fuel t₁ next').bind _ = _
      rw [hloop]
      rfl

/-- `BTreeDestroy` hands out what a tree holds, and leaves nothing. -/
theorem Followed.destroy {n : ℕ} {fCompare : α → α → ℤ} {I D : Multiset α} (hf : Followed n fCompare t I D keys)
    (hc : Preorders fCompare) (fDestroy : Option (α → ℤ)) (hok : ∀ f ∈ fDestroy, ∀ x ∈ keys, 0 ≤ f x) :
    ∃ t' ended, BTreeDestroy fDestroy t = some (keys, t', ended) ∧ (ended = true ↔ keys ≠ []) ∧
      t'.bRoot = none ∧ t'.inOrder = [] ∧ t'.bCnt = 0 := by
  obtain ⟨-, hcmp, hhas, ho, -, hcnt⟩ := hf
  have hin := hhas.inOrder
  have hok' : ∀ x ∈ keys, 0 ≤ fDestroy.getD (fun _ => 0) x := by
    intro x hx
    cases fDestroy with
    | none => exact Int.le_refl 0
    | some f => exact hok f rfl x hx
  cases keys with
  | nil =>
      have hroot := hhas.empty
      refine ⟨t, false, ?_, by simp, hroot, hin, hcnt⟩
      unfold BTreeDestroy BTCHead
      rw [hroot]
      rfl
  | cons x rest =>
      obtain ⟨root, lv, top, hg⟩ : ∃ root lv top, Grown t root lv top (x :: rest) := by
        rcases hhas.grown with ⟨-, hnil⟩ | hg
        · cases hnil
        · exact hg
      obtain ⟨cur, x', hhead, hstands⟩ := hg.head BTCursorOpen
      have hx : x' = x := by
        have hkey := hstands.isAt.key
        rw [hin] at hkey
        exact (Option.some.inj hkey).symm
      subst hx
      obtain ⟨t', hloop, hempty, hzero⟩ := destroyLoop_all (hcmp ▸ hc) hhas (hcmp ▸ ho) hcnt hstands hok'
        (show rest.length < t.inOrder.length + 1 by rw [hin, List.length_cons]; omega)
      refine ⟨t', true, ?_, by simp, hempty.empty, hempty.inOrder, hzero⟩
      unfold BTreeDestroy
      rw [hhead]
      exact hloop

/-- In every tree of a run `BTreeDestroy` hands out every item once and in order, comes to
an end, and leaves nothing. -/
theorem btreeDestroy_all {n : ℕ} {fCompare : α → α → ℤ} {I D : Multiset α} (hn : 1 ≤ n)
    (hc : Preorders fCompare) (hr : BTRuns n fCompare t I D) (fDestroy : Option (α → ℤ))
    (hf : ∀ f ∈ fDestroy, ∀ x ∈ t.inOrder, 0 ≤ f x) :
    ∃ t' ended, BTreeDestroy fDestroy t = some (t.inOrder, t', ended) ∧ Ordered fCompare t.inOrder ∧
      (t.inOrder : Multiset α) + D = I ∧ (ended = true ↔ t.inOrder ≠ []) ∧
      t'.bRoot = none ∧ t'.inOrder = [] ∧ t'.bCnt = 0 := by
  obtain ⟨keys, hfollowed⟩ := hr.followed hn hc
  have hin := hfollowed.has.inOrder
  rw [hin] at hf ⊢
  obtain ⟨t', ended, hdestroy, hended, hrest⟩ := hfollowed.destroy hc fDestroy hf
  exact ⟨t', ended, hdestroy, hfollowed.ordered, hfollowed.multiset, hended, hrest⟩

/-- Three keys of which two are equal, with pages that are split and come together again -/
theorem btreeDestroy_all_split : ∃ t t', BTRuns 1 (fun a b : ℤ => a - b) t (5 ::ₘ 7 ::ₘ 5 ::ₘ 0) 0 ∧
    BTreeDestroy none t = some ([5, 5, 7], t', true) ∧ t'.bCnt = 0 := by
  have hinsert : ∃ t, BTRuns 1 (fun a b : ℤ => a - b) t (5 ::ₘ 7 ::ₘ 5 ::ₘ 0) 0 ∧ t.inOrder = [5, 5, 7] :=
    ⟨_, ((BTRuns.init.insert rfl).insert rfl).insert rfl, rfl⟩
  obtain ⟨t, hr, hkeys⟩ := hinsert
  obtain ⟨t', ended, hrun, -, -, hended, -, -, hzero⟩ := btreeDestroy_all (Nat.le_refl 1) preorders_sub hr none
    (fun f hf => absurd hf (Option.not_mem_none f))
  rw [hkeys] at hrun hended
  rw [hended.mpr (List.cons_ne_nil _ _)] at hrun
  exact ⟨t, t', hr, hrun, hzero⟩

end Drain

end PaxosSolutions.NWGadget
