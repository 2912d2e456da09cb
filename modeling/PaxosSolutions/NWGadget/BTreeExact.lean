import PaxosSolutions.NWGadget.BTreeFind

/-!
# Searches of a B-tree are exact

`BTCFindLower` and `BTCFindUpper` find what they are asked for in every tree that comes
out of a run. `BTCFind` looks at an `int` of what the comparator gives, and goes wrong
where this is 0 for a key that is above. It does so for nothing else.
-/
namespace PaxosSolutions.NWGadget
open Lib BTHeap

variable {α : Type} [Inhabited α]

/-- The `int` that `BTCFind` keeps of a comparison -/
def intOf (n : ℤ) : ℤ := n.bmod 0x100000000

/-- `BTCFindLower` goes to the first item that is not below the key, and fails if there is
none. -/
def LowerRight (t : BTree α) (pKey : α) (cur : BTCursor α) : Prop :=
  ∃ cur' found, BTCFindLower t pKey cur = some (cur', found) ∧
    (found = true ↔ ∃ x ∈ t.inOrder, ¬ t.bCompare x pKey < 0) ∧
    (found = true → ∃ r x, cur'.Stands t r x ∧ ¬ t.bCompare x pKey < 0 ∧
      ∀ y ∈ t.inOrder.take r, t.bCompare y pKey < 0)

/-- `BTCFindUpper` goes to the last item that is not above the key, and fails if there is
none. -/
def UpperRight (t : BTree α) (pKey : α) (cur : BTCursor α) : Prop :=
  ∃ cur' found, BTCFindUpper t pKey cur = some (cur', found) ∧
    (found = true ↔ ∃ x ∈ t.inOrder, t.bCompare x pKey ≤ 0) ∧
    (found = true → ∃ r x, cur'.Stands t r x ∧ t.bCompare x pKey ≤ 0 ∧
      ∀ y ∈ t.inOrder.drop (r + 1), ¬ t.bCompare y pKey ≤ 0)

/-- `BTCFind` goes to the first item that is equal to the key, and fails if there is
none. -/
def FindRight (t : BTree α) (pKey : α) (cur : BTCursor α) : Prop :=
  ∃ cur' found, BTCFind t pKey cur = some (cur', found) ∧
    (found = true ↔ ∃ x ∈ t.inOrder, t.bCompare x pKey = 0) ∧
    (found = true → ∃ r x, cur'.Stands t r x ∧ t.bCompare x pKey = 0 ∧
      ∀ y ∈ t.inOrder.take r, t.bCompare y pKey ≠ 0)

/-- `BTDelete` takes out an item that is equal to the key, or fails and does nothing. -/
def DeleteRight (t : BTree α) (pKey : α) : Prop :=
  ∃ t' deleted, BTDelete t pKey = some (t', deleted) ∧
    (deleted = true ↔ ∃ x ∈ t.inOrder, t.bCompare x pKey = 0) ∧
    (deleted = true → ∃ L x M, t.inOrder = L ++ x :: M ∧ t.bCompare x pKey = 0 ∧ t'.inOrder = L ++ M) ∧
    (deleted = false → t' = t)

/-- A key that is above has a comparison of which the `int` is 0, and no key before it has
one of which the `int` is not positive. -/
def Wraps (cmp : α → α → ℤ) (pKey : α) (keys : List α) : Prop :=
  ∃ L x M, keys = L ++ x :: M ∧ (∀ y ∈ L, cmp y pKey < 0 ∨ 0 < intOf (cmp y pKey)) ∧
    0 < cmp x pKey ∧ intOf (cmp x pKey) = 0

section Exact
variable {t : BTree α} {root : BTAddr} {lv : BTAddr → Option ℕ} {top r : ℕ} {keys : List α} {x pKey : α}
  {cur : BTCursor α}

theorem BTree.Has.grown (ht : t.Has keys) :
    (t.bRoot = none ∧ keys = []) ∨ ∃ root lv top, Grown t root lv top keys := ht.2

/-- The key of a place in order -/
theorem getElem?_inOrder (t : BTree α) (r : ℕ) : t.inOrder[r]? = (t.places[r]?).map Prod.fst := by
  rw [← t.places_inOrder, List.getElem?_map]

theorem BTCursor.IsAt.key (h : cur.IsAt t r x) : t.inOrder[r]? = some x := by
  obtain ⟨p, -, hr⟩ := h
  rw [getElem?_inOrder, hr]
  rfl

/-- The keys in order around an index -/
theorem BTCursor.IsAt.around (h : cur.IsAt t r x) :
    t.inOrder = t.inOrder.take r ++ x :: t.inOrder.drop (r + 1) := by
  obtain ⟨hr, hx⟩ := List.getElem?_eq_some_iff.mp h.key
  rw [← hx, ← List.drop_eq_getElem_cons hr, List.take_append_drop]

/-- A tree with an item has pages. -/
theorem BTCursor.IsAt.grown (h : cur.IsAt t r x) (ht : t.Has keys) :
    ∃ root lv top, Grown t root lv top keys := by
  rcases ht.grown with ⟨-, rfl⟩ | hg
  · have hkey := h.key
    rw [ht.inOrder] at hkey
    cases hkey
  · exact hg

/-- What the searches do when they have come to a leaf -/
def arrive (t : BTree α) (cur : BTCursor α) : Option (BTCursor α × Bool) :=
  match cur.cPage with
  | none => some (cur, false)
  | some p => (BTCNext' t { cur with cKey := (t.heap p).pItems cur.cZIndex }).bind fun r => some (r.1, true)

omit [Inhabited α] in
theorem BTCFindLower_eq (t : BTree α) (pKey : α) (cur : BTCursor α) : BTCFindLower t pKey cur =
    (findLower t pKey t.bNext t.bRoot { cur with cPage := none }).bind (arrive t) := rfl

omit [Inhabited α] in
theorem BTCFindUpper_eq (t : BTree α) (pKey : α) (cur : BTCursor α) : BTCFindUpper t pKey cur =
    (findUpper t pKey t.bNext t.bRoot { cur with cPage := none }).bind (arrive t) := rfl

omit [Inhabited α] in
theorem arrive_none (h : cur.cPage = none) : arrive t cur = some (cur, false) := by
  unfold arrive
  rw [h]

theorem Grown.arrive (hg : Grown t root lv top keys) (hcur : cur.IsAt t r x) :
    ∃ cur', arrive t cur = some (cur', true) ∧ cur'.Stands t r x := by
  obtain ⟨p, hp, hr⟩ := hcur
  obtain ⟨-, -, -, -, hx⟩ := hg.placed hr
  have hat : BTCursor.IsAt { cur with cKey := (t.heap p).pItems cur.cZIndex } t r x := ⟨p, hp, hr⟩
  obtain ⟨cur', more, hrun, hstands⟩ := hg.stands hat hx.symm
  refine ⟨cur', ?_, hstands⟩
  unfold NWGadget.arrive
  simp only [hp] at hrun ⊢
  rw [hrun]
  rfl

theorem btcFindLower_right (hc : Preorders t.bCompare) (ht : t.Has keys) (ho : Ordered t.bCompare keys)
    (pKey : α) (cur : BTCursor α) : LowerRight t pKey cur := by
  have hin := ht.inOrder
  unfold LowerRight
  rw [BTCFindLower_eq, hin]
  obtain ⟨hroot, rfl⟩ | ⟨root, lv, top, hg⟩ := ht.grown
  · have hfind : findLower t pKey t.bNext none { cur with cPage := none } =
        some { cur with cPage := none } := by
      cases t.bNext <;> rfl
    rw [hroot, hfind, Option.bind_some]
    refine ⟨_, false, arrive_none rfl, ⟨fun h => absurd h Bool.false_ne_true, ?_⟩,
      fun h => absurd h Bool.false_ne_true⟩
    intro h
    obtain ⟨y, hy, -⟩ := h
    cases hy
  · obtain ⟨cur₁, hfind, ⟨hnone, hall⟩ | ⟨r, x, hat, hbefore, hx⟩⟩ := hg.lower hc ho pKey cur
    · rw [hfind, Option.bind_some]
      refine ⟨_, false, arrive_none hnone, ⟨fun h => absurd h Bool.false_ne_true, ?_⟩,
      fun h => absurd h Bool.false_ne_true⟩
      intro h
      obtain ⟨y, hy, hnot⟩ := h
      exact absurd (hall y hy) hnot
    · obtain ⟨cur', hrun, hstands⟩ := hg.arrive hat
      have hmem : x ∈ keys := hin ▸ List.mem_of_getElem? hat.key
      rw [hfind]
      exact ⟨cur', true, hrun, ⟨fun _ => ⟨x, hmem, hx⟩, fun _ => rfl⟩, fun _ => ⟨r, x, hstands, hx, hbefore⟩⟩

theorem btcFindUpper_right (hc : Preorders t.bCompare) (ht : t.Has keys) (ho : Ordered t.bCompare keys)
    (pKey : α) (cur : BTCursor α) : UpperRight t pKey cur := by
  have hin := ht.inOrder
  unfold UpperRight
  rw [BTCFindUpper_eq, hin]
  obtain ⟨hroot, rfl⟩ | ⟨root, lv, top, hg⟩ := ht.grown
  · have hfind : findUpper t pKey t.bNext none { cur with cPage := none } =
        some { cur with cPage := none } := by
      cases t.bNext <;> rfl
    rw [hroot, hfind, Option.bind_some]
    refine ⟨_, false, arrive_none rfl, ⟨fun h => absurd h Bool.false_ne_true, ?_⟩,
      fun h => absurd h Bool.false_ne_true⟩
    intro h
    obtain ⟨y, hy, -⟩ := h
    cases hy
  · obtain ⟨cur₁, hfind, ⟨hnone, hall⟩ | ⟨r, x, hat, hx, hbehind⟩⟩ := hg.upper hc ho pKey cur
    · rw [hfind, Option.bind_some]
      refine ⟨_, false, arrive_none hnone, ⟨fun h => absurd h Bool.false_ne_true, ?_⟩,
      fun h => absurd h Bool.false_ne_true⟩
      intro h
      obtain ⟨y, hy, hle⟩ := h
      exact absurd hle (hall y hy)
    · obtain ⟨cur', hrun, hstands⟩ := hg.arrive hat
      have hmem : x ∈ keys := hin ▸ List.mem_of_getElem? hat.key
      rw [hfind]
      exact ⟨cur', true, hrun, ⟨fun _ => ⟨x, hmem, hx⟩, fun _ => rfl⟩, fun _ => ⟨r, x, hstands, hx, hbehind⟩⟩

/-! ### The loop of `BTCFind` -/

/-- What the loop of `BTCFind` ends at, from index `r` on -/
structure Scanned (t : BTree α) (pKey : α) (r : ℕ) (cur : BTCursor α) (found : Bool) : Prop where
  hit : found = true → ∃ A y B, t.inOrder.drop r = A ++ y :: B ∧ cur.Stands t (r + A.length) y ∧
    intOf (t.bCompare y pKey) = 0 ∧ ∀ z ∈ A, 0 < intOf (t.bCompare z pKey)
  missed : found = false → ∃ A B, t.inOrder.drop r = A ++ B ∧ (∀ z ∈ A, 0 < intOf (t.bCompare z pKey)) ∧
    ∀ y ∈ B.head?, intOf (t.bCompare y pKey) < 0

theorem findEqual_scanned {fuel : ℕ} (hg : Grown t root lv top keys) (hcur : cur.Stands t r x) (pKey : α)
    (hfuel : t.inOrder.length < r + fuel) :
    ∃ cur' found, findEqual t pKey fuel cur = some (cur', found) ∧ Scanned t pKey r cur' found := by
  induction fuel generalizing r x cur with
  | zero =>
      have hlt := (List.getElem?_eq_some_iff.mp hcur.isAt.key).1
      omega
  | succ fuel ih =>
      have hx : t.inOrder.drop r = x :: t.inOrder.drop (r + 1) := by
        obtain ⟨hlt, hitem⟩ := List.getElem?_eq_some_iff.mp hcur.isAt.key
        rw [← hitem]
        exact List.drop_eq_getElem_cons hlt
      rw [findEqual, hcur.key]
      dsimp only
      change ∃ cur' found, (if intOf (t.bCompare x pKey) = 0 then some (cur, true)
        else if intOf (t.bCompare x pKey) < 0 then some (cur, false)
        else (BTCNext t cur).bind fun r => if r.2 then findEqual t pKey fuel r.1 else some (r.1, false)) = _ ∧ _
      by_cases hzero : intOf (t.bCompare x pKey) = 0
      · rw [if_pos hzero]
        refine ⟨cur, true, rfl, ?_, fun h => absurd h.symm Bool.false_ne_true⟩
        exact fun _ => ⟨[], x, _, hx, hcur, hzero, fun z hz => absurd hz List.not_mem_nil⟩
      rw [if_neg hzero]
      by_cases hneg : intOf (t.bCompare x pKey) < 0
      · rw [if_pos hneg]
        refine ⟨cur, false, rfl, fun h => absurd h Bool.false_ne_true, fun _ => ⟨[], _, rfl, ?_, ?_⟩⟩
        · exact fun z hz => absurd hz List.not_mem_nil
        · intro y hy
          rw [hx] at hy
          obtain rfl : x = y := Option.some.inj hy
          exact hneg
      rw [if_neg hneg]
      have hpos : 0 < intOf (t.bCompare x pKey) := by omega
      cases hnext : t.places[r + 1]? with
      | none =>
          obtain ⟨cur', hrun, -⟩ := btcNext_last hcur.knows hnext
          have hend : t.inOrder.drop (r + 1) = [] := by
            have hout := List.getElem?_eq_none_iff.mp hnext
            rw [← t.places_inOrder, List.drop_eq_nil_iff, List.length_map]
            exact hout
          rw [hrun]
          refine ⟨cur', false, rfl, fun h => absurd h Bool.false_ne_true, fun _ => ⟨[x], [], ?_, ?_, ?_⟩⟩
          · rw [hx, hend]
            rfl
          · intro z hz
            rwa [List.mem_singleton.mp hz]
          · intro y hy
            cases hy
      | some a =>
          obtain ⟨y, q, i⟩ := a
          obtain ⟨cur₁, hrun, hat, hkey, hknows, hknowsKey⟩ := btcNext_next hg hcur.knows hnext
          rw [hcur.knowsKey y q i hnext] at hkey
          obtain ⟨cur', found, hloop, hfound, hmissed⟩ := ih ⟨hat, hkey, hknows, hknowsKey⟩ (by omega)
          rw [hrun]
          refine ⟨cur', found, hloop, ?_, ?_⟩
          · intro h
            obtain ⟨A, z, B, hsplit, hstands, hz, hA⟩ := hfound h
            refine ⟨x :: A, z, B, by rw [hx, hsplit]; rfl, ?_, hz, ?_⟩
            · rwa [List.length_cons, Nat.add_comm A.length 1, ← Nat.add_assoc]
            · exact List.forall_mem_cons.mpr ⟨hpos, hA⟩
          · intro h
            obtain ⟨A, B, hsplit, hA, hB⟩ := hmissed h
            exact ⟨x :: A, B, by rw [hx, hsplit]; rfl, List.forall_mem_cons.mpr ⟨hpos, hA⟩, hB⟩

omit [Inhabited α] in
/-- Of what is above the key no comparison has 0 for its `int` before one that is negative. -/
theorem not_hit {f : α → ℤ} {S A B : List α} (hS : S = A ++ B) (hA : ∀ z ∈ A, 0 < f z)
    (hB : ∀ y ∈ B.head?, f y < 0) :
    ¬∃ A' x B', S = A' ++ x :: B' ∧ (∀ z ∈ A', 0 < f z) ∧ f x = 0 := by
  intro h
  obtain ⟨A', x, B', hS', hA', hx⟩ := h
  subst hS
  induction A generalizing A' with
  | nil =>
      cases A' with
      | nil =>
          have hneg := hB x (by rw [← List.nil_append B, hS']; rfl)
          omega
      | cons a A' =>
          have hneg := hB a (by rw [← List.nil_append B, hS']; rfl)
          have hpos := hA' a List.mem_cons_self
          omega
  | cons a A ih =>
      have hpos := hA a List.mem_cons_self
      cases A' with
      | nil =>
          obtain ⟨rfl, -⟩ := List.cons.inj hS'
          omega
      | cons a' A' =>
          exact ih (fun z hz => hA z (List.mem_cons_of_mem a hz)) A'
            (fun z hz => hA' z (List.mem_cons_of_mem a' hz)) (List.cons.inj hS').2

omit [Inhabited α] in
/-- Where the keys that are below end, and the others are above -/
theorem wraps_iff {cmp : α → α → ℤ} {P S : List α} (hP : ∀ y ∈ P, cmp y pKey < 0)
    (hS : ∀ y ∈ S, 0 < cmp y pKey) :
    Wraps cmp pKey (P ++ S) ↔
      ∃ A x B, S = A ++ x :: B ∧ (∀ z ∈ A, 0 < intOf (cmp z pKey)) ∧ intOf (cmp x pKey) = 0 := by
  constructor
  · intro h
    obtain ⟨L, x, M, hsplit, hL, hx, hint⟩ := h
    rcases List.append_eq_append_iff.mp hsplit with ⟨A, rfl, hSA⟩ | ⟨C, rfl, hC⟩
    · refine ⟨A, x, M, hSA, ?_, hint⟩
      intro z hz
      have hpos := hS z (by rw [hSA]; exact List.mem_append_left _ hz)
      rcases hL z (List.mem_append_right P hz) with hneg | hint
      · omega
      · exact hint
    · cases C with
      | nil => exact ⟨[], x, M, hC.symm, fun z hz => absurd hz List.not_mem_nil, hint⟩
      | cons c C =>
          obtain ⟨rfl, -⟩ := List.cons.inj hC
          have hneg := hP x (List.mem_append_right L List.mem_cons_self)
          omega
  · intro h
    obtain ⟨A, x, B, rfl, hA, hint⟩ := h
    refine ⟨P ++ A, x, B, (List.append_assoc P A _).symm, ?_, ?_, hint⟩
    · intro y hy
      rcases List.mem_append.mp hy with hy | hy
      · exact .inl (hP y hy)
      · exact .inr (hA y hy)
    · exact hS x (List.mem_append_right A List.mem_cons_self)

omit [Inhabited α] in
/-- An item that is equal to the key ends what is below it, and then nothing wraps. -/
theorem not_wraps {cmp : α → α → ℤ} {P S : List α} (hP : ∀ y ∈ P, cmp y pKey < 0) (hx : cmp x pKey = 0) :
    ¬Wraps cmp pKey (P ++ x :: S) := by
  intro h
  obtain ⟨L, x', M, hsplit, hL, hpos, hint⟩ := h
  have hzero : intOf (cmp x pKey) = 0 := by rw [hx]; rfl
  rcases List.append_eq_append_iff.mp hsplit with ⟨A, rfl, hA⟩ | ⟨C, rfl, hC⟩
  · cases A with
    | nil =>
        obtain ⟨rfl, -⟩ := List.cons.inj hA
        omega
    | cons a A =>
        obtain ⟨rfl, -⟩ := List.cons.inj hA
        rcases hL x (List.mem_append_right P List.mem_cons_self) with hneg | hint'
        · omega
        · omega
  · cases C with
    | nil =>
        obtain ⟨rfl, -⟩ := List.cons.inj hC
        omega
    | cons c C =>
        obtain ⟨rfl, -⟩ := List.cons.inj hC
        have hneg := hP x' (List.mem_append_right L List.mem_cons_self)
        omega

/-- What `BTCFind` does: the item is equal, or none is and what it ends at is above. -/
theorem btcFind_cases (hc : Preorders t.bCompare) (ht : t.Has keys) (ho : Ordered t.bCompare keys) (pKey : α)
    (cur : BTCursor α) : ∃ cur' found, BTCFind t pKey cur = some (cur', found) ∧
      ((found = true ∧ ¬Wraps t.bCompare pKey t.inOrder ∧ ∃ r x, cur'.Stands t r x ∧ t.bCompare x pKey = 0 ∧
          ∀ y ∈ t.inOrder.take r, t.bCompare y pKey < 0) ∨
        (∀ y ∈ t.inOrder, t.bCompare y pKey ≠ 0) ∧
          ((found = true ∧ Wraps t.bCompare pKey t.inOrder ∧ ∃ r x, cur'.Stands t r x) ∨
            (found = false ∧ ¬Wraps t.bCompare pKey t.inOrder))) := by
  have hin := ht.inOrder
  obtain ⟨cur₁, lower, hlower, hiff, hat⟩ := btcFindLower_right hc ht ho pKey cur
  unfold BTCFind
  rw [hlower]
  cases lower with
  | false =>
      have hall : ∀ y ∈ t.inOrder, t.bCompare y pKey < 0 := by
        intro y hy
        by_contra hnot
        exact absurd (hiff.mpr ⟨y, hy, hnot⟩) Bool.false_ne_true
      refine ⟨cur₁, false, rfl, .inr ⟨fun y hy => Int.ne_of_lt (hall y hy), .inr ⟨rfl, ?_⟩⟩⟩
      intro h
      obtain ⟨L, x, M, hsplit, -, hx, -⟩ := h
      have hneg := hall x (by rw [hsplit]; exact List.mem_append_right L List.mem_cons_self)
      omega
  | true =>
      obtain ⟨r, x, hstands, hx, hbefore⟩ := hat rfl
      obtain ⟨root, lv, top, hg⟩ := hstands.isAt.grown ht
      obtain ⟨cur', found, hloop, hscan⟩ := findEqual_scanned hg hstands pKey
        (show t.inOrder.length < r + (t.inOrder.length + 1) by omega)
      have haround := hstands.isAt.around
      have hdrop : t.inOrder.drop r = x :: t.inOrder.drop (r + 1) := by
        obtain ⟨hlt, hitem⟩ := List.getElem?_eq_some_iff.mp hstands.isAt.key
        rw [← hitem]
        exact List.drop_eq_getElem_cons hlt
      refine ⟨cur', found, hloop, ?_⟩
      by_cases hzero : t.bCompare x pKey = 0
      · -- the loop ends where it begins
        have hint : intOf (t.bCompare x pKey) = 0 := by rw [hzero]; rfl
        have hnot : ¬Wraps t.bCompare pKey t.inOrder := by
          rw [haround]
          exact not_wraps hbefore hzero
        cases found with
        | false =>
            obtain ⟨A, B, hsplit, hA, hB⟩ := hscan.missed rfl
            rw [hdrop] at hsplit
            exact absurd ⟨[], x, _, rfl, fun z hz => absurd hz List.not_mem_nil, hint⟩ (not_hit hsplit hA hB)
        | true =>
            obtain ⟨A, y, B, hsplit, hat', -, hA⟩ := hscan.hit rfl
            rw [hdrop] at hsplit
            cases A with
            | nil =>
                obtain ⟨rfl, -⟩ := List.cons.inj hsplit
                exact .inl ⟨rfl, hnot, r, x, hat', hzero, hbefore⟩
            | cons a A =>
                obtain ⟨rfl, -⟩ := List.cons.inj hsplit
                have hpos := hA x List.mem_cons_self
                omega
      · have hpos : 0 < t.bCompare x pKey := by omega
        have habove : ∀ y ∈ x :: t.inOrder.drop (r + 1), 0 < t.bCompare y pKey := by
          intro y hy
          rcases List.mem_cons.mp hy with rfl | hy
          · exact hpos
          · rw [← hin, haround] at ho
            have hle := (List.pairwise_cons.mp (List.pairwise_append.mp ho).2.1).1 y hy
            by_contra hnot
            have hx' := hc.trans x y pKey hle (by omega)
            omega
        have hwraps := wraps_iff hbefore habove
        rw [← haround] at hwraps
        refine .inr ⟨?_, ?_⟩
        · intro y hy
          rw [haround] at hy
          rcases List.mem_append.mp hy with hy | hy
          · have hneg := hbefore y hy
            omega
          · have hpos' := habove y hy
            omega
        cases found with
        | false =>
            obtain ⟨A, B, hsplit, hA, hB⟩ := hscan.missed rfl
            rw [hdrop] at hsplit
            exact .inr ⟨rfl, fun h => not_hit hsplit hA hB (hwraps.mp h)⟩
        | true =>
            obtain ⟨A, y, B, hsplit, hat', hint, hA⟩ := hscan.hit rfl
            rw [hdrop] at hsplit
            exact .inl ⟨rfl, hwraps.mpr ⟨A, y, B, hsplit, hA, hint⟩, _, y, hat'⟩

theorem btcFind_right_iff (hc : Preorders t.bCompare) (ht : t.Has keys) (ho : Ordered t.bCompare keys)
    (pKey : α) (cur : BTCursor α) : FindRight t pKey cur ↔ ¬Wraps t.bCompare pKey t.inOrder := by
  obtain ⟨cur', found, hrun, hcases⟩ := btcFind_cases hc ht ho pKey cur
  constructor
  · intro h hwraps
    obtain ⟨cur₁, found₁, hrun₁, hiff, -⟩ := h
    rw [hrun] at hrun₁
    cases hrun₁
    rcases hcases with ⟨-, hnot, -⟩ | ⟨hne, ⟨htrue, -⟩ | ⟨-, hnot⟩⟩
    · exact hnot hwraps
    · obtain ⟨y, hy, hzero⟩ := hiff.mp htrue
      exact hne y hy hzero
    · exact hnot hwraps
  · intro hnot
    rcases hcases with ⟨rfl, -, r, x, hstands, hzero, hbefore⟩ | ⟨hne, ⟨-, hwraps, -⟩ | ⟨rfl, -⟩⟩
    · have hmem := List.mem_of_getElem? hstands.isAt.key
      exact ⟨cur', true, hrun, ⟨fun _ => ⟨x, hmem, hzero⟩, fun _ => rfl⟩,
        fun _ => ⟨r, x, hstands, hzero, fun y hy => Int.ne_of_lt (hbefore y hy)⟩⟩
    · exact absurd hwraps hnot
    · refine ⟨cur', false, hrun, ⟨fun h => absurd h Bool.false_ne_true, ?_⟩,
        fun h => absurd h Bool.false_ne_true⟩
      intro h
      obtain ⟨y, hy, hzero⟩ := h
      exact absurd hzero (hne y hy)

/-- `BTDelete` takes out what `BTCFind` ends at. -/
theorem BTDelete_found {cur' : BTCursor α} (ht : t.Has keys)
    (hfind : BTCFind t pKey BTCursorOpen = some (cur', true))
    (hcur : cur'.Stands t r x) : ∃ t', BTDelete t pKey = some (t', true) ∧
      t'.Has (keys.take r ++ keys.drop (r + 1)) ∧ t'.bN = t.bN ∧ t'.bCompare = t.bCompare ∧
      t'.bCnt = t.bCnt - 1 := by
  obtain ⟨root, lv, top, hg⟩ := hcur.isAt.grown ht
  obtain ⟨p, hp, hr⟩ := hcur.isAt
  obtain ⟨t', hdelete, hrest⟩ := hg.deleteAt hr
  refine ⟨t', ?_, hrest⟩
  unfold BTDelete
  rw [hfind]
  change (match cur'.cPage with
    | none => some (t, false)
    | some p => if true = true then (BTCDelete p cur'.cZIndex t).bind fun t => some (t, true)
        else some (t, false)) = _
  rw [hp]
  change (BTCDelete p cur'.cZIndex t).bind _ = _
  rw [hdelete]
  rfl

omit [Inhabited α] in
theorem BTDelete_missed [Inhabited α] {cur' : BTCursor α}
    (hfind : BTCFind t pKey BTCursorOpen = some (cur', false)) :
    BTDelete t pKey = some (t, false) := by
  unfold BTDelete
  rw [hfind]
  change (match cur'.cPage with
    | none => some (t, false)
    | some p => if false = true then (BTCDelete p cur'.cZIndex t).bind fun t => some (t, true)
        else some (t, false)) = _
  cases cur'.cPage <;> rfl

theorem btDelete_right_iff (hc : Preorders t.bCompare) (ht : t.Has keys) (ho : Ordered t.bCompare keys)
    (pKey : α) : DeleteRight t pKey ↔ ¬Wraps t.bCompare pKey t.inOrder := by
  obtain ⟨cur', found, hrun, hcases⟩ := btcFind_cases hc ht ho pKey BTCursorOpen
  constructor
  · intro h hwraps
    obtain ⟨t₁, deleted, hdelete, hiff, -⟩ := h
    rcases hcases with ⟨-, hnot, -⟩ | ⟨hne, ⟨rfl, -, r, x, hstands⟩ | ⟨-, hnot⟩⟩
    · exact hnot hwraps
    · obtain ⟨t', hdelete', -⟩ := BTDelete_found ht hrun hstands
      rw [hdelete'] at hdelete
      cases hdelete
      obtain ⟨y, hy, hzero⟩ := hiff.mp rfl
      exact hne y hy hzero
    · exact hnot hwraps
  · intro hnot
    rcases hcases with ⟨rfl, -, r, x, hstands, hzero, -⟩ | ⟨hne, ⟨-, hwraps, -⟩ | ⟨rfl, -⟩⟩
    · obtain ⟨t', hdelete, hhas, -⟩ := BTDelete_found ht hrun hstands
      have hmem : x ∈ t.inOrder := List.mem_of_getElem? hstands.isAt.key
      have hleft : t'.inOrder = t.inOrder.take r ++ t.inOrder.drop (r + 1) := by
        rw [hhas.inOrder, ht.inOrder]
      exact ⟨t', true, hdelete, ⟨fun _ => ⟨x, hmem, hzero⟩, fun _ => rfl⟩,
        fun _ => ⟨_, x, _, hstands.isAt.around, hzero, hleft⟩, fun h => absurd h.symm Bool.false_ne_true⟩
    · exact absurd hwraps hnot
    · refine ⟨t, false, BTDelete_missed hrun, ⟨fun h => absurd h Bool.false_ne_true, ?_⟩,
        fun h => absurd h Bool.false_ne_true, fun _ => rfl⟩
      intro h
      obtain ⟨y, hy, hzero⟩ := h
      exact absurd hzero (hne y hy)

/-- In every tree of a run `BTCFindLower` and `BTCFindUpper` find what they are to find,
and `BTCFind` and `BTDelete` do if and only if nothing wraps. -/
theorem btcFind_exact_iff {n : ℕ} {fCompare : α → α → ℤ} {I D : Multiset α} (hn : 1 ≤ n)
    (hc : Preorders fCompare) (hr : BTRuns n fCompare t I D) (pKey : α) (cur : BTCursor α) :
    LowerRight t pKey cur ∧ UpperRight t pKey cur ∧
      (FindRight t pKey cur ∧ DeleteRight t pKey ↔ ¬Wraps fCompare pKey t.inOrder) := by
  obtain ⟨keys, -, hcmp, hhas, ho, -, -⟩ := hr.followed hn hc
  rw [← hcmp] at hc ho ⊢
  refine ⟨btcFindLower_right hc hhas ho pKey cur, btcFindUpper_right hc hhas ho pKey cur, ?_⟩
  rw [btcFind_right_iff hc hhas ho, btDelete_right_iff hc hhas ho, and_self]

/-- One key, and a key that is not there -/
theorem btcFind_exact_one : ∃ t, BTRuns 1 (fun a b : ℤ => a - b) t (6 ::ₘ 0) 0 ∧
    FindRight t 5 BTCursorOpen ∧ DeleteRight t 5 := by
  have hinsert : ∃ t, BTRuns 1 (fun a b : ℤ => a - b) t (6 ::ₘ 0) 0 ∧ t.inOrder = [6] :=
    ⟨_, BTRuns.init.insert rfl, rfl⟩
  obtain ⟨t, hr, hkeys⟩ := hinsert
  obtain ⟨-, -, hiff⟩ := btcFind_exact_iff (Nat.le_refl 1) preorders_sub hr 5 BTCursorOpen
  refine ⟨t, hr, hiff.mpr ?_⟩
  rw [hkeys]
  intro h
  obtain ⟨L, x, M, hsplit, -, -, hint⟩ := h
  cases L with
  | nil =>
      obtain ⟨rfl, -⟩ := List.cons.inj hsplit
      exact absurd hint (by decide)
  | cons y L =>
      have hend := (List.cons.inj hsplit).2
      cases L <;> cases hend

/-- A comparison of which the `int` is 0: the key 0 is found at the key 1, and deleted. -/
theorem btcFind_wrong : ∃ t, BTRuns 1 (fun a b : ℤ => (a - b) * 0x100000000) t (1 ::ₘ 0) 0 ∧
    (Preorders fun a b : ℤ => (a - b) * 0x100000000) ∧ t.inOrder = [1] ∧
    ¬FindRight t 0 BTCursorOpen ∧ ¬DeleteRight t 0 := by
  have hinsert : ∃ t, BTRuns 1 (fun a b : ℤ => (a - b) * 0x100000000) t (1 ::ₘ 0) 0 ∧ t.inOrder = [1] ∧
      t.bCompare 1 0 = 0x100000000 ∧ (∃ cur, BTCFind t 0 BTCursorOpen = some (cur, true)) ∧
      ∃ t', BTDelete t 0 = some (t', true) :=
    ⟨_, BTRuns.init.insert rfl, rfl, rfl, ⟨_, rfl⟩, _, rfl⟩
  obtain ⟨t, hr, hkeys, hcmp, ⟨cur, hfind⟩, t', hdelete⟩ := hinsert
  have hno : ¬∃ x ∈ t.inOrder, t.bCompare x 0 = 0 := by
    intro h
    obtain ⟨x, hx, hzero⟩ := h
    rw [hkeys] at hx
    rw [List.mem_singleton.mp hx, hcmp] at hzero
    exact absurd hzero (by decide)
  refine ⟨t, hr, ⟨?_, ?_⟩, hkeys, ?_, ?_⟩
  · intro a b
    omega
  · intro a b c hab hbc
    omega
  · intro h
    obtain ⟨cur', found, hrun, hiff, -⟩ := h
    cases hfind.symm.trans hrun
    exact hno (hiff.mp rfl)
  · intro h
    obtain ⟨t₁, deleted, hrun, hiff, -⟩ := h
    cases hdelete.symm.trans hrun
    exact hno (hiff.mp rfl)

end Exact

end PaxosSolutions.NWGadget
