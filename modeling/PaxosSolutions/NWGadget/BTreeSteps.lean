import PaxosSolutions.NWGadget.BTreeExact
import PaxosSolutions.Lib.Run

/-!
# Steps of a cursor

A cursor is moved by one call after the other. Where it is comes out right after all of
them. Its key does not: `BTCPrev` leaves the keys of the cursor as they are.
-/
namespace PaxosSolutions.NWGadget
open Lib BTHeap

variable {α : Type} [Inhabited α]

/-- The calls that move a cursor -/
inductive BTCCall (α : Type)
  | head
  | next
  | prev
  | find (pKey : α)
  | findLower (pKey : α)
  | findUpper (pKey : α)

def BTCCall.call (t : BTree α) (cur : BTCursor α) : BTCCall α → Option (BTCursor α × Bool)
  | .head => BTCHead t cur
  | .next => BTCNext t cur
  | .prev => BTCPrev t cur
  | .find pKey => BTCFind t pKey cur
  | .findLower pKey => BTCFindLower t pKey cur
  | .findUpper pKey => BTCFindUpper t pKey cur

/-- A call that is successful -/
def btcStep (t : BTree α) (cur : BTCursor α) (c : BTCCall α) : Except Unit (BTCursor α) :=
  match c.call t cur with
  | some (cur', true) => .ok cur'
  | _ => .error ()

/-- The cursors that a row of successful calls ends with -/
def BTCRuns (t : BTree α) (calls : List (BTCCall α)) (cur : BTCursor α) : Prop :=
  run (btcStep t) BTCursorOpen calls = .ok cur

/-- The key of the cursor is the item at its page and index. -/
def BTCursor.Coherent (cur : BTCursor α) (t : BTree α) : Prop :=
  ∃ p, cur.cPage = some p ∧ cur.cKey = (t.heap p).pItems cur.cZIndex

/-- What a row of calls is to do: the cursor is coherent behind every call, `BTCNext` goes
to the next item in order and `BTCPrev` to the one before, and the one takes back the
other. -/
structure StepsRight (t : BTree α) (calls : List (BTCCall α)) : Prop where
  coherent : ∀ is js cur, calls = is ++ js → is ≠ [] → BTCRuns t is cur → cur.Coherent t
  next : ∀ is js cur cur', calls = is ++ .next :: js → BTCRuns t is cur → btcStep t cur .next = .ok cur' →
    ∃ r x y, cur.IsAt t r x ∧ cur'.IsAt t (r + 1) y
  prev : ∀ is js cur cur', calls = is ++ .prev :: js → BTCRuns t is cur → btcStep t cur .prev = .ok cur' →
    ∃ r x y, cur.IsAt t (r + 1) x ∧ cur'.IsAt t r y
  prevNext : ∀ is js cur cur₁ cur₂, calls = is ++ .prev :: .next :: js → BTCRuns t is cur →
    btcStep t cur .prev = .ok cur₁ → btcStep t cur₁ .next = .ok cur₂ →
    cur₂.place = cur.place ∧ cur₂.cKey = cur.cKey
  nextPrev : ∀ is js cur cur₁ cur₂, calls = is ++ .next :: .prev :: js → BTCRuns t is cur →
    btcStep t cur .next = .ok cur₁ → btcStep t cur₁ .prev = .ok cur₂ →
    cur₂.place = cur.place ∧ cur₂.cKey = cur.cKey

/-- `BTCNext` takes the key that the cursor has noted, and `BTCPrev` keeps the key that the
cursor has: they are to be those of the places that the cursor goes to. -/
def KeyReady (t : BTree α) (cur : BTCursor α) : BTCCall α → Prop
  | .next => ∀ q, cur.cNextPage = some q → cur.cNextKey = (t.heap q).pItems cur.cNextIndex.toNat
  | .prev => ∀ r x y, cur.IsAt t (r + 1) x → t.inOrder[r]? = some y → cur.cKey = y
  | _ => True

section Steps
variable {t : BTree α} {root : BTAddr} {lv : BTAddr → Option ℕ} {top r r' : ℕ} {keys : List α} {x y : α}
  {cur cur' : BTCursor α} {c : BTCCall α} {calls : List (BTCCall α)}

/-- The cursor is at index `r`, and has noted the place behind it. -/
structure BTCursor.Goes (cur : BTCursor α) (t : BTree α) (r : ℕ) (x : α) : Prop where
  isAt : cur.IsAt t r x
  knows : cur.Knows t r

theorem BTCursor.Stands.goes (h : cur.Stands t r x) : cur.Goes t r x :=
  ⟨h.isAt, h.knows⟩

theorem btcStep_ok (h : btcStep t cur c = .ok cur') : c.call t cur = some (cur', true) := by
  unfold btcStep at h
  split at h
  · rename_i cur₁ hcall
    cases h
    exact hcall
  · cases h

theorem BTCursor.IsAt.place (h : cur.IsAt t r x) (h' : cur'.IsAt t r y) : cur.place = cur'.place ∧ x = y := by
  obtain ⟨p, hp, hr⟩ := h
  obtain ⟨q, hq, hr'⟩ := h'
  obtain ⟨rfl, hplace⟩ := Prod.mk.inj (Option.some.inj (hr.symm.trans hr'))
  obtain ⟨rfl, hz⟩ := Prod.mk.inj hplace
  unfold BTCursor.place
  exact ⟨by rw [hp, hq, hz], rfl⟩

/-- An item has one index in order. -/
theorem BTCursor.IsAt.rank (hg : Grown t root lv top keys) (h : cur.IsAt t r x) (h' : cur.IsAt t r' y) :
    r = r' := by
  obtain ⟨p, hp, hr⟩ := h
  obtain ⟨q, hq, hr'⟩ := h'
  obtain rfl : p = q := Option.some.inj (hp.symm.trans hq)
  exact hg.place_once hr hr'

/-- The key of a cursor at an index is the item there, or it is not coherent. -/
theorem BTCursor.IsAt.coherent_iff (hg : Grown t root lv top keys) (h : cur.IsAt t r x) :
    cur.Coherent t ↔ cur.cKey = x := by
  obtain ⟨p, hp, hr⟩ := h
  obtain ⟨-, -, -, -, hx⟩ := hg.placed hr
  constructor
  · intro h
    obtain ⟨q, hq, hkey⟩ := h
    obtain rfl : p = q := Option.some.inj (hp.symm.trans hq)
    rw [hkey, hx]
  · intro hkey
    exact ⟨p, hp, hkey.trans hx⟩

/-- Two coherent cursors at an index agree. -/
theorem BTCursor.IsAt.same (hg : Grown t root lv top keys) (h : cur.IsAt t r x) (h' : cur'.IsAt t r y)
    (hk : cur.Coherent t) (hk' : cur'.Coherent t) : cur'.place = cur.place ∧ cur'.cKey = cur.cKey := by
  obtain ⟨hplace, rfl⟩ := h.place h'
  rw [h.coherent_iff hg] at hk
  rw [h'.coherent_iff hg] at hk'
  exact ⟨hplace.symm, hk'.trans hk.symm⟩

/-- `BTCNext` goes to the next index, with the key that was noted. -/
theorem btcStep_next (hg : Grown t root lv top keys) (hcur : cur.Goes t r x)
    (h : btcStep t cur .next = .ok cur') : ∃ y, cur'.Goes t (r + 1) y ∧ cur'.cKey = cur.cNextKey ∧
      (KeyReady t cur .next ↔ cur.cNextKey = y) := by
  have hcall : BTCNext t cur = some (cur', true) := btcStep_ok h
  cases hnext : t.places[r + 1]? with
  | none =>
      obtain ⟨cur₁, hrun, -⟩ := btcNext_last hcur.knows hnext
      cases hrun.symm.trans hcall
  | some a =>
      obtain ⟨y, q, i⟩ := a
      obtain ⟨cur₁, hrun, hat, hkey, hknows, -⟩ := btcNext_next hg hcur.knows hnext
      cases hrun.symm.trans hcall
      obtain ⟨hpage, hindex⟩ := hcur.knows.next y q i hnext
      obtain ⟨-, -, -, -, hy⟩ := hg.placed hnext
      refine ⟨y, ⟨hat, hknows⟩, hkey, ?_⟩
      unfold KeyReady
      rw [hpage, hindex, Int.toNat_natCast, hy]
      constructor
      · intro hready
        exact hready q rfl
      · intro hready q' hq'
        rw [← Option.some.inj hq']
        exact hready

/-- `BTCPrev` goes to the index before, and the key stays. -/
theorem btcStep_prev (hg : Grown t root lv top keys) (hcur : cur.Goes t r x)
    (h : btcStep t cur .prev = .ok cur') : ∃ r' y, r = r' + 1 ∧ cur'.Goes t r' y ∧ cur'.cKey = cur.cKey ∧
      (KeyReady t cur .prev ↔ cur.cKey = y) := by
  have hcall : BTCPrev t cur = some (cur', true) := btcStep_ok h
  obtain ⟨p, hp, hr⟩ := hcur.isAt
  have hprev := hg.prev hr
  unfold BTCPrev at hcall
  simp only [hp] at hcall
  rw [hprev] at hcall
  cases r with
  | zero => cases hcall
  | succ r =>
      have hlt := (List.getElem?_eq_some_iff.mp hr).1
      obtain ⟨⟨y, q, i⟩, hy⟩ : ∃ a, t.places[r]? = some a := ⟨_, List.getElem?_eq_getElem (by omega)⟩
      rw [if_neg (Nat.succ_ne_zero r), Nat.add_sub_cancel, hy] at hcall
      cases hcall
      refine ⟨r, y, rfl, ⟨⟨q, rfl, hy⟩, ⟨fun hnone => ?_, fun y' q' i' hy' => ?_⟩⟩, rfl, ?_⟩
      · rw [hr] at hnone
        cases hnone
      · cases hr.symm.trans hy'
        exact ⟨rfl, rfl⟩
      · have hin : t.inOrder[r]? = some y := by
          rw [getElem?_inOrder, hy]
          rfl
        constructor
        · intro hready
          exact hready r x y hcur.isAt hin
        · intro hready r' x' y' hat' hin'
          obtain rfl : r = r' := Nat.succ.inj (hcur.isAt.rank hg hat')
          rw [hready]
          exact Option.some.inj (hin.symm.trans hin')

/-- The other calls go anywhere, and the key is the item there. -/
theorem btcStep_search (hc : Preorders t.bCompare) (ht : t.Has keys) (ho : Ordered t.bCompare keys)
    (h : btcStep t cur c = .ok cur') (hnext : c ≠ .next) (hprev : c ≠ .prev) : ∃ r x, cur'.Stands t r x := by
  have hcall := btcStep_ok h
  cases c with
  | head =>
      rcases ht.grown with ⟨hroot, -⟩ | ⟨root, lv, top, hg⟩
      · change BTCHead t cur = _ at hcall
        unfold BTCHead at hcall
        rw [hroot] at hcall
        cases hcall
      · obtain ⟨cur₁, x, hrun, hstands⟩ := hg.head cur
        cases hrun.symm.trans hcall
        exact ⟨0, x, hstands⟩
  | next => exact absurd rfl hnext
  | prev => exact absurd rfl hprev
  | find pKey =>
      obtain ⟨cur₁, found, hrun, hcases⟩ := btcFind_cases hc ht ho pKey cur
      cases hrun.symm.trans hcall
      rcases hcases with ⟨-, -, r, x, hstands, -⟩ | ⟨-, ⟨-, -, hstands⟩ | ⟨hfalse, -⟩⟩
      · exact ⟨r, x, hstands⟩
      · exact hstands
      · exact absurd hfalse.symm Bool.false_ne_true
  | findLower pKey =>
      obtain ⟨cur₁, found, hrun, -, hat⟩ := btcFindLower_right hc ht ho pKey cur
      cases hrun.symm.trans hcall
      obtain ⟨r, x, hstands, -⟩ := hat rfl
      exact ⟨r, x, hstands⟩
  | findUpper pKey =>
      obtain ⟨cur₁, found, hrun, -, hat⟩ := btcFindUpper_right hc ht ho pKey cur
      cases hrun.symm.trans hcall
      obtain ⟨r, x, hstands, -⟩ := hat rfl
      exact ⟨r, x, hstands⟩

/-! ### Rows of calls -/

/-- The first of a row of calls cannot be one that goes on from where the cursor is. -/
theorem btcStep_open (h : btcStep t BTCursorOpen c = .ok cur') : c ≠ .next ∧ c ≠ .prev := by
  have hcall := btcStep_ok h
  constructor
  · rintro rfl
    cases hcall
  · rintro rfl
    cases hcall

/-- After a call the cursor is at an item, and it is coherent if the key was ready. -/
theorem btcStep_coherent_iff (hc : Preorders t.bCompare) (ht : t.Has keys) (ho : Ordered t.bCompare keys)
    (hcur : cur = BTCursorOpen ∨ ∃ r x, cur.Goes t r x) (h : btcStep t cur c = .ok cur') :
    (∃ r x, cur'.Goes t r x) ∧ (cur'.Coherent t ↔ KeyReady t cur c) := by
  by_cases hsearch : c ≠ .next ∧ c ≠ .prev
  · obtain ⟨r, x, hstands⟩ := btcStep_search hc ht ho h hsearch.1 hsearch.2
    obtain ⟨root, lv, top, hg⟩ := hstands.isAt.grown ht
    refine ⟨⟨r, x, hstands.goes⟩, ?_⟩
    have hready : KeyReady t cur c := by
      cases c with
      | next => exact absurd rfl hsearch.1
      | prev => exact absurd rfl hsearch.2
      | _ => exact True.intro
    exact iff_of_true ((hstands.isAt.coherent_iff hg).mpr hstands.key) hready
  · rcases hcur with rfl | ⟨r, x, hgoes⟩
    · exact absurd (btcStep_open h) hsearch
    obtain ⟨root, lv, top, hg⟩ := hgoes.isAt.grown ht
    have hmove : c = .next ∨ c = .prev := by
      by_contra hnot
      exact hsearch (not_or.mp hnot)
    rcases hmove with rfl | rfl
    · obtain ⟨y, hgoes', hkey, hready⟩ := btcStep_next hg hgoes h
      exact ⟨⟨r + 1, y, hgoes'⟩, by rw [hgoes'.isAt.coherent_iff hg, hkey, hready]⟩
    · obtain ⟨r', y, -, hgoes', hkey, hready⟩ := btcStep_prev hg hgoes h
      exact ⟨⟨r', y, hgoes'⟩, by rw [hgoes'.isAt.coherent_iff hg, hkey, hready]⟩

theorem BTCRuns.goes (hc : Preorders t.bCompare) (ht : t.Has keys) (ho : Ordered t.bCompare keys)
    (h : BTCRuns t calls cur) : calls = [] ∧ cur = BTCursorOpen ∨ ∃ r x, cur.Goes t r x := by
  cases calls with
  | nil =>
      cases h
      exact .inl ⟨rfl, rfl⟩
  | cons c calls =>
      obtain ⟨u, hu, h⟩ := run_cons_ok h
      have hfirst := (btcStep_coherent_iff hc ht ho (.inl rfl) hu).1
      refine .inr (run_invariant (I := fun u => ∃ r x, u.Goes t r x) ?_ hfirst Along.trivial h)
      intro s i u' hs _ hstep
      exact (btcStep_coherent_iff hc ht ho (.inr hs) hstep).1

/-- Where a call is in a row that runs through -/
theorem BTCRuns.split {is js : List (BTCCall α)} (h : BTCRuns t (is ++ c :: js) cur) :
    ∃ u u', BTCRuns t is u ∧ btcStep t u c = .ok u' ∧ BTCRuns t (is ++ [c]) u' := by
  obtain ⟨u, hu, h⟩ := run_take h
  obtain ⟨u', hu', -⟩ := run_cons_ok h
  refine ⟨u, u', hu, hu', run_append hu ?_⟩
  unfold run
  rw [hu']
  rfl

theorem BTCRuns.snoc {is : List (BTCCall α)} (h : BTCRuns t is cur) (hc : btcStep t cur c = .ok cur') :
    BTCRuns t (is ++ [c]) cur' := by
  refine run_append h ?_
  unfold run
  rw [hc]
  rfl

/-- A cursor from which a call went on is at an item. -/
theorem BTCRuns.from (hc : Preorders t.bCompare) (ht : t.Has keys) (ho : Ordered t.bCompare keys)
    (h : BTCRuns t calls cur) (hstep : btcStep t cur c = .ok cur') (hmove : c = .next ∨ c = .prev) :
    calls ≠ [] ∧ ∃ r x, cur.Goes t r x := by
  have hnot : cur ≠ BTCursorOpen := by
    rintro rfl
    obtain ⟨hnext, hprev⟩ := btcStep_open hstep
    rcases hmove with rfl | rfl
    · exact hnext rfl
    · exact hprev rfl
  rcases h.goes hc ht ho with ⟨-, hopen⟩ | hgoes
  · exact absurd hopen hnot
  · refine ⟨?_, hgoes⟩
    rintro rfl
    cases h
    exact hnot rfl

theorem stepsRight_of_ready (hc : Preorders t.bCompare) (ht : t.Has keys) (ho : Ordered t.bCompare keys)
    (hready : Along (btcStep t) (KeyReady t) BTCursorOpen calls) : StepsRight t calls := by
  rw [along_iff] at hready
  have hcoherent : ∀ is js cur, calls = is ++ js → is ≠ [] → BTCRuns t is cur → cur.Coherent t := by
    intro is js cur hsplit hne hruns
    rcases List.eq_nil_or_concat is with rfl | ⟨is, c, rfl⟩
    · exact absurd rfl hne
    rw [List.concat_eq_append] at hsplit hruns
    obtain ⟨u, u', hu, hstep, hu'⟩ := hruns.split
    cases hruns.symm.trans hu'
    have hcur : u = BTCursorOpen ∨ ∃ r x, u.Goes t r x := (hu.goes hc ht ho).imp_left And.right
    refine (btcStep_coherent_iff hc ht ho hcur hstep).2.mpr (hready is c js u ?_ hu)
    rw [hsplit, List.append_assoc]
    rfl
  refine ⟨hcoherent, ?_, ?_, ?_, ?_⟩
  · intro is js cur cur' hsplit hruns hstep
    obtain ⟨-, r, x, hgoes⟩ := hruns.from hc ht ho hstep (.inl rfl)
    obtain ⟨root, lv, top, hg⟩ := hgoes.isAt.grown ht
    obtain ⟨y, hgoes', -⟩ := btcStep_next hg hgoes hstep
    exact ⟨r, x, y, hgoes.isAt, hgoes'.isAt⟩
  · intro is js cur cur' hsplit hruns hstep
    obtain ⟨-, r, x, hgoes⟩ := hruns.from hc ht ho hstep (.inr rfl)
    obtain ⟨root, lv, top, hg⟩ := hgoes.isAt.grown ht
    obtain ⟨r', y, rfl, hgoes', -⟩ := btcStep_prev hg hgoes hstep
    exact ⟨r', x, y, hgoes.isAt, hgoes'.isAt⟩
  · intro is js cur cur₁ cur₂ hsplit hruns hstep₁ hstep₂
    obtain ⟨hne, r, x, hgoes⟩ := hruns.from hc ht ho hstep₁ (.inr rfl)
    obtain ⟨root, lv, top, hg⟩ := hgoes.isAt.grown ht
    obtain ⟨r', y, rfl, hgoes₁, -⟩ := btcStep_prev hg hgoes hstep₁
    obtain ⟨z, hgoes₂, -⟩ := btcStep_next hg hgoes₁ hstep₂
    have hkey := hcoherent is _ cur hsplit hne hruns
    have hkey₂ := hcoherent _ js cur₂ (by rw [hsplit]; simp) (by simp) ((hruns.snoc hstep₁).snoc hstep₂)
    exact hgoes.isAt.same hg hgoes₂.isAt hkey hkey₂
  · intro is js cur cur₁ cur₂ hsplit hruns hstep₁ hstep₂
    obtain ⟨hne, r, x, hgoes⟩ := hruns.from hc ht ho hstep₁ (.inl rfl)
    obtain ⟨root, lv, top, hg⟩ := hgoes.isAt.grown ht
    obtain ⟨y, hgoes₁, -⟩ := btcStep_next hg hgoes hstep₁
    obtain ⟨r', z, hrr, hgoes₂, -⟩ := btcStep_prev hg hgoes₁ hstep₂
    obtain rfl : r = r' := Nat.succ.inj hrr
    have hkey := hcoherent is _ cur hsplit hne hruns
    have hkey₂ := hcoherent _ js cur₂ (by rw [hsplit]; simp) (by simp) ((hruns.snoc hstep₁).snoc hstep₂)
    exact hgoes.isAt.same hg hgoes₂.isAt hkey hkey₂

/-- In every tree of a run a row of successful calls does what it is to do if and only if
the key is ready at every `BTCNext` and `BTCPrev`. -/
theorem btcSteps_right_iff {n : ℕ} {fCompare : α → α → ℤ} {I D : Multiset α} (hn : 1 ≤ n)
    (hc : Preorders fCompare) (hr : BTRuns n fCompare t I D) (hcalls : BTCRuns t calls cur) :
    StepsRight t calls ↔ Along (btcStep t) (KeyReady t) BTCursorOpen calls := by
  obtain ⟨keys, -, hcmp, hhas, ho, -, -⟩ := hr.followed hn hc
  rw [← hcmp] at hc ho
  constructor
  · intro h
    rw [along_iff]
    intro is c js u hsplit hu
    rw [hsplit] at hcalls
    obtain ⟨u₁, u', hu₁, hstep, hu'⟩ := hcalls.split
    cases hu.symm.trans hu₁
    have hcur : u = BTCursorOpen ∨ ∃ r x, u.Goes t r x := (hu₁.goes hc hhas ho).imp_left And.right
    refine (btcStep_coherent_iff hc hhas ho hcur hstep).2.mp (h.coherent (is ++ [c]) js u' ?_ ?_ hu')
    · rw [hsplit, List.append_assoc]
      rfl
    · exact List.append_ne_nil_of_right_ne_nil is (List.cons_ne_nil c [])
  · exact stepsRight_of_ready hc hhas ho

/-- Without `BTCPrev` the key is ready at every call. -/
theorem ready_without_prev (hc : Preorders t.bCompare) (ht : t.Has keys) (ho : Ordered t.bCompare keys)
    (hprev : ∀ c ∈ calls, c ≠ .prev) (hcur : cur = BTCursorOpen ∨ ∃ r x, cur.Stands t r x) :
    Along (btcStep t) (KeyReady t) cur calls := by
  induction calls generalizing cur with
  | nil => trivial
  | cons c calls ih =>
      have hnot := hprev c List.mem_cons_self
      have hrest := fun c hc => hprev c (List.mem_cons_of_mem _ hc)
      by_cases hnext : c = .next
      · subst hnext
        rcases hcur with rfl | ⟨r, x, hstands⟩
        · exact ⟨fun q hq => absurd hq (Option.some_ne_none q).symm, fun u hu =>
            absurd rfl (btcStep_open hu).1⟩
        obtain ⟨root, lv, top, hg⟩ := hstands.isAt.grown ht
        cases hbehind : t.places[r + 1]? with
        | none =>
            refine ⟨?_, fun u hu => ?_⟩
            · intro q hq
              rw [hstands.knows.last hbehind] at hq
              cases hq
            · obtain ⟨cur₁, hrun, -⟩ := btcNext_last hstands.knows hbehind
              cases hrun.symm.trans (btcStep_ok hu)
        | some a =>
            obtain ⟨y, q, i⟩ := a
            obtain ⟨cur₁, hrun, hat, hkey, hknows, hknowsKey⟩ := btcNext_next hg hstands.knows hbehind
            have hy := hstands.knowsKey y q i hbehind
            obtain ⟨hpage, hindex⟩ := hstands.knows.next y q i hbehind
            obtain ⟨-, -, -, -, hitem⟩ := hg.placed hbehind
            refine ⟨?_, fun u hu => ?_⟩
            · intro q' hq'
              obtain rfl : q = q' := Option.some.inj (hpage.symm.trans hq')
              rw [hindex, Int.toNat_natCast, hy, hitem]
            · cases hrun.symm.trans (btcStep_ok hu)
              exact ih hrest (.inr ⟨r + 1, y, hat, hkey.trans hy, hknows, hknowsKey⟩)
      · refine ⟨?_, fun u hu => ih hrest (.inr (btcStep_search hc ht ho hu hnext hnot))⟩
        cases c with
        | next => exact absurd rfl hnext
        | prev => exact absurd rfl hnot
        | _ => exact True.intro

/-- Two keys, and back from the second one by a search -/
theorem btcSteps_right_two : ∃ t cur, BTRuns 1 (fun a b : ℤ => a - b) t (2 ::ₘ 1 ::ₘ 0) 0 ∧
    BTCRuns t [.head, .next, .find 1] cur ∧ StepsRight t [.head, .next, .find 1] := by
  have hinsert : ∃ t cur, BTRuns 1 (fun a b : ℤ => a - b) t (2 ::ₘ 1 ::ₘ 0) 0 ∧
      BTCRuns t [.head, .next, .find 1] cur ∧ ∃ u, btcStep t BTCursorOpen .head = .ok u ∧
        u.cNextPage = some 0 ∧ u.cNextKey = (t.heap 0).pItems u.cNextIndex.toNat :=
    ⟨_, _, (BTRuns.init.insert rfl).insert rfl, rfl, _, rfl, rfl, rfl⟩
  obtain ⟨t, cur, hr, hcalls, u, hu, hpage, hkey⟩ := hinsert
  refine ⟨t, cur, hr, hcalls, (btcSteps_right_iff (Nat.le_refl 1) preorders_sub hr hcalls).mpr ?_⟩
  refine ⟨True.intro, fun v hv => ⟨?_, fun w hw => ⟨True.intro, fun _ _ => True.intro⟩⟩⟩
  cases hu.symm.trans hv
  intro q hq
  cases hpage.symm.trans hq
  exact hkey

/-- Two keys: `BTCPrev` goes back to the first one, and the key is still the second. -/
theorem btcSteps_wrong : ∃ t cur, BTRuns 1 (fun a b : ℤ => a - b) t (2 ::ₘ 1 ::ₘ 0) 0 ∧
    BTCRuns t [.head, .next, .prev] cur ∧ cur.cPage = some 0 ∧ cur.cZIndex = 0 ∧
    (t.heap 0).pItems 0 = 1 ∧ cur.cKey = 2 ∧ ¬StepsRight t [.head, .next, .prev] := by
  have hinsert : ∃ t cur, BTRuns 1 (fun a b : ℤ => a - b) t (2 ::ₘ 1 ::ₘ 0) 0 ∧
      BTCRuns t [.head, .next, .prev] cur ∧ cur.cPage = some 0 ∧ cur.cZIndex = 0 ∧
      (t.heap 0).pItems 0 = 1 ∧ cur.cKey = 2 :=
    ⟨_, _, (BTRuns.init.insert rfl).insert rfl, rfl, rfl, rfl, rfl, rfl⟩
  obtain ⟨t, cur, hr, hcalls, hpage, hz, hitem, hkey⟩ := hinsert
  refine ⟨t, cur, hr, hcalls, hpage, hz, hitem, hkey, ?_⟩
  intro h
  obtain ⟨p, hp, hcoherent⟩ := h.coherent [.head, .next, .prev] [] cur rfl (List.cons_ne_nil _ _) hcalls
  cases hpage.symm.trans hp
  rw [hkey, hz, hitem] at hcoherent
  exact absurd hcoherent (by decide)

end Steps

end PaxosSolutions.NWGadget
