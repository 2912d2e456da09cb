import PaxosSolutions.NWGadget.BTreeCursor

/-!
# The places of a B-tree in order

Every item is given together with its page and its index there, and then the items in
order are the places in order. What comes before a page and what comes behind it follows
from the way down to it, and there is one way to a page. So a place comes once, and
the walks up and down the tree end at the place behind another one, or before it.
-/
namespace PaxosSolutions.NWGadget
open Lib BTHeap

variable {α : Type} [Inhabited α]

/-- Every item with its page and its index. -/
def BTHeap.tag (h : BTHeap α) : BTHeap (α × BTAddr × ℕ) := fun p =>
  { pParent := (h p).pParent
    pParentIndex := (h p).pParentIndex
    pM := (h p).pM
    pItems := fun i => ((h p).pItems i, p, i)
    pPages := (h p).pPages }

/-- The tree with its items tagged, which are compared as they were. -/
def BTree.tag (t : BTree α) : BTree (α × BTAddr × ℕ) :=
  { bN := t.bN
    bCompare := fun a b => t.bCompare a.1 b.1
    bRoot := t.bRoot
    bCnt := t.bCnt
    heap := t.heap.tag
    bNext := t.bNext }

/-- The items of a tree in order, with their places. -/
def BTree.places (t : BTree α) : List (α × BTAddr × ℕ) := t.tag.inOrder

section Tags
variable {t : BTree α} {h : BTHeap α} {root p q c : BTAddr} {lv : BTAddr → Option ℕ} {top k j r z fuel : ℕ}
  {keys : List α}

theorem keys_tag (h : BTHeap α) (fuel : ℕ) (d : Option BTAddr) :
    (h.tag.keys fuel d).map Prod.fst = h.keys fuel d := by
  induction fuel generalizing d with
  | zero => rfl
  | succ fuel ih =>
      cases d with
      | none => rfl
      | some p =>
          rw [keys_some, keys_some]
          change (rowKeys (h.tag.keys fuel) (h.tag.ent p) (h p).pM).map Prod.fst = _
          unfold rowKeys
          rw [List.map_append, ih, List.map_flatMap]
          refine congrArg₂ _ rfl (List.flatMap_congr ?_)
          intro i _
          rw [List.map_cons, ih]
          rfl

theorem BTree.places_inOrder (t : BTree α) : t.places.map Prod.fst = t.inOrder :=
  keys_tag t.heap t.bNext t.bRoot

theorem Shape.tag (hs : Shape h lv root top) : Shape h.tag lv root top where
  atTop := hs.atTop
  orphan := hs.orphan
  page p k hp := ⟨(hs.page p k hp).below, (hs.page p k hp).link⟩
  up p k hp hne := by
    obtain ⟨q, r, hc⟩ := hs.up p k hp hne
    exact ⟨q, r, hc.level, hc.le, hc.child⟩
  bound := hs.bound

theorem Grown.tag (hg : Grown t root lv top keys) :
    Grown t.tag root lv top (t.heap.tag.keys (top + 1) (some root)) :=
  ⟨hg.order, hg.bRoot, hg.shape.tag, hg.unused, hg.filled, rfl⟩

end Tags

/-- The way down from the root to a page, with the keys before it and those behind it -/
inductive Path (h : BTHeap α) (lv : BTAddr → Option ℕ) (root : BTAddr) (top : ℕ) :
    BTAddr → ℕ → List α → List α → Prop
  | root : Path h lv root top root top [] []
  | child {q c : BTAddr} {k r : ℕ} {X Y : List α} : Path h lv root top q (k + 1) X Y →
      ChildOf h lv q (k + 1) r c →
      Path h lv root top c k (X ++ rowBefore (h.keys (k + 1)) (h.ent q) r)
        (rowBehind (h.keys (k + 1)) (h.ent q) r (h q).pM ++ Y)

section Paths
variable {h : BTHeap α} {root p q c : BTAddr} {lv : BTAddr → Option ℕ} {top k j r z fuel : ℕ}
  {X Y X' Y' : List α}

theorem Path.context (hs : Shape h lv root top) (hx : Path h lv root top p k X Y) :
    Context h lv root top p k X Y := by
  induction hx with
  | root => exact hs.context_root
  | child _ hc ih => exact ih.child hs hc

theorem Path.level (hs : Shape h lv root top) (hx : Path h lv root top p k X Y) : lv p = some k :=
  (hx.context hs).level

/-- There is one way to a page. -/
theorem Path.unique (hs : Shape h lv root top) (hx : Path h lv root top p k X Y)
    (hy : Path h lv root top p j X' Y') : k = j ∧ X = X' ∧ Y = Y' := by
  induction hx generalizing j X' Y' with
  | root =>
      cases hy with
      | root => exact ⟨rfl, rfl, rfl⟩
      | child _ hc => exact absurd rfl (hc.ne_root hs)
  | @child q c k r X Y _ hc ih =>
      cases hy with
      | root => exact absurd rfl (hc.ne_root hs)
      | @child q' _ j r' X' Y' hy hc' =>
          obtain ⟨rfl, rfl⟩ := hc.unique hs hc'
          obtain ⟨hkj, rfl, rfl⟩ := ih hy
          obtain rfl : k = j := by omega
          exact ⟨rfl, rfl, rfl⟩

theorem rowBefore_tag (h : BTHeap α) (k : ℕ) (p : BTAddr) (j : ℕ) :
    (rowBefore (h.tag.keys k) (h.tag.ent p) j).map Prod.fst = rowBefore (h.keys k) (h.ent p) j := by
  unfold rowBefore
  rw [List.map_flatMap]
  refine List.flatMap_congr ?_
  intro i _
  rw [List.map_append, keys_tag]
  rfl

theorem rowBehind_tag (h : BTHeap α) (k : ℕ) (p : BTAddr) (j m : ℕ) :
    (rowBehind (h.tag.keys k) (h.tag.ent p) j m).map Prod.fst = rowBehind (h.keys k) (h.ent p) j m := by
  unfold rowBehind
  rw [List.map_flatMap]
  refine List.flatMap_congr ?_
  intro i _
  rw [List.map_cons, keys_tag]
  rfl

/-- The way without the tags -/
theorem Path.untag {X Y : List (α × BTAddr × ℕ)} (hx : Path h.tag lv root top p k X Y) :
    Path h lv root top p k (X.map Prod.fst) (Y.map Prod.fst) := by
  induction hx with
  | root => exact .root
  | child _ hc ih =>
      rw [List.map_append, List.map_append, rowBefore_tag, rowBehind_tag]
      exact ih.child ⟨hc.level, hc.le, hc.child⟩

/-- An item of a page, with the keys before it and those behind it -/
structure Placed (h : BTHeap α) (lv : BTAddr → Option ℕ) (root : BTAddr) (top : ℕ) (p : BTAddr) (z : ℕ)
    (L M : List α) : Prop where
  lt : z < (h p).pM
  path : ∃ k X Y, Path h lv root top p k X Y ∧ L = keysBefore h p k z X ∧ M = keysBehind h p k z Y

variable {L M L' M' : List α}

theorem Placed.keys (hs : Shape h lv root top) (hp : Placed h lv root top p z L M) :
    h.keys (top + 1) (some root) = L ++ (h p).pItems z :: M := by
  obtain ⟨k, X, Y, hx, rfl, rfl⟩ := hp.path
  exact (hx.context hs).item hp.lt

theorem Placed.unique (hs : Shape h lv root top) (hp : Placed h lv root top p z L M)
    (hp' : Placed h lv root top p z L' M') : L = L' ∧ M = M' := by
  obtain ⟨k, X, Y, hx, rfl, rfl⟩ := hp.path
  obtain ⟨k', X', Y', hx', rfl, rfl⟩ := hp'.path
  obtain ⟨rfl, rfl, rfl⟩ := hx.unique hs hx'
  exact ⟨rfl, rfl⟩

/-- With what is before it a place is known: what is behind it is the rest. -/
theorem Placed.of_before (hs : Shape h lv root top) {k : ℕ} (hx : Path h lv root top p k X Y)
    (hz : z < (h p).pM) (hL : L = keysBefore h p k z X)
    (hkeys : h.keys (top + 1) (some root) = L ++ (h p).pItems z :: M) :
    Placed h lv root top p z L M := by
  refine ⟨hz, k, X, Y, hx, hL, ?_⟩
  have hitem := (hx.context hs).item hz
  rw [hkeys, ← hL] at hitem
  exact (List.cons.inj (List.append_cancel_left hitem)).2

omit [Inhabited α] in
/-- A place within a row is in one of its children or at one of its items. -/
theorem rowKeys_index {K : Option BTAddr → List α} {e : ℕ → α × Option BTAddr} {m i : ℕ}
    (hi : i < (rowBefore K e m).length + (K (e m).2).length) : ∃ j ≤ m,
      (rowBefore K e j).length ≤ i ∧ (i < (rowBefore K e j).length + (K (e j).2).length ∨
        j < m ∧ i = (rowBefore K e j).length + (K (e j).2).length) := by
  induction m with
  | zero => exact ⟨0, Nat.le_refl 0, Nat.zero_le i, .inl hi⟩
  | succ m ih =>
      have hlen : (rowBefore K e (m + 1)).length = (rowBefore K e m).length + ((K (e m).2).length + 1) := by
        rw [rowBefore_succ, List.length_append, List.length_append, List.length_singleton]
      by_cases hlast : (rowBefore K e (m + 1)).length ≤ i
      · exact ⟨m + 1, Nat.le_refl _, hlast, .inl hi⟩
      by_cases hitem : i = (rowBefore K e m).length + (K (e m).2).length
      · exact ⟨m, Nat.le_succ m, by omega, .inr ⟨Nat.lt_succ_self m, hitem⟩⟩
      · obtain ⟨j, hj, hle, hin⟩ := ih (by omega)
        refine ⟨j, Nat.le_succ_of_le hj, hle, ?_⟩
        rcases hin with hin | ⟨hjm, hin⟩
        · exact .inl hin
        · exact .inr ⟨Nat.lt_succ_of_lt hjm, hin⟩

/-- Every index in the keys below a page is that of a place. -/
theorem Path.index (hs : Shape h lv root top) (hx : Path h lv root top p k X Y) {i : ℕ} (hle : X.length ≤ i)
    (hlt : i < X.length + (h.keys (k + 1) (some p)).length) :
    ∃ q z L M, Placed h lv root top q z L M ∧ L.length = i := by
  induction k generalizing p X Y i with
  | zero =>
      have hrow : h.keys 1 (some p) =
          rowBefore (h.keys 0) (h.ent p) (h p).pM ++ h.keys 0 (h.ent p (h p).pM).2 := by
        rw [keys_some, rowKeys_at (Nat.le_refl _), rowBehind_self, List.append_nil]
      rw [hrow, List.length_append] at hlt
      obtain ⟨j, hj, hbefore, hin⟩ := rowKeys_index (show i - X.length <
        (rowBefore (h.keys 0) (h.ent p) (h p).pM).length + (h.keys 0 (h.ent p (h p).pM).2).length by omega)
      have hnone : (h.ent p j).2 = none := (hs.page p 0 (hx.level hs)).below j hj
      rw [hnone, keys_none, List.length_nil] at hin
      rcases hin with hin | ⟨hjm, hin⟩
      · omega
      · refine ⟨p, j, _, _, ⟨hjm, 0, X, Y, hx, rfl, rfl⟩, ?_⟩
        unfold keysBefore
        rw [hnone, keys_none, List.append_nil, List.length_append]
        omega
  | succ k ih =>
      have hrow : h.keys (k + 1 + 1) (some p) =
          rowBefore (h.keys (k + 1)) (h.ent p) (h p).pM ++ h.keys (k + 1) (h.ent p (h p).pM).2 := by
        rw [keys_some, rowKeys_at (Nat.le_refl _), rowBehind_self, List.append_nil]
      rw [hrow, List.length_append] at hlt
      obtain ⟨j, hj, hbefore, hin⟩ := rowKeys_index (show i - X.length <
        (rowBefore (h.keys (k + 1)) (h.ent p) (h p).pM).length +
          (h.keys (k + 1) (h.ent p (h p).pM).2).length by omega)
      rcases hin with hin | ⟨hjm, hin⟩
      · obtain ⟨c, hc, -⟩ := (hs.page p (k + 1) (hx.level hs)).below j hj
        have hchild := hx.child (c := c) ⟨hx.level hs, hj, hc⟩
        rw [hc] at hin
        refine ih hchild ?_ ?_
        · rw [List.length_append]
          omega
        · rw [List.length_append]
          omega
      · refine ⟨p, j, _, _, ⟨hjm, k + 1, X, Y, hx, rfl, rfl⟩, ?_⟩
        unfold keysBefore
        rw [List.length_append, List.length_append]
        omega

/-! ### The place behind another -/

theorem leftLeaf_path (hs : Shape h lv root top) (hx : Path h lv root top p k X Y) (hfuel : k < fuel) :
    ∃ q Y', leftLeaf h fuel p = some q ∧ Path h lv root top q 0 X Y' := by
  induction k generalizing p Y fuel with
  | zero =>
      obtain ⟨fuel, rfl⟩ : ∃ f, fuel = f + 1 := ⟨fuel - 1, by omega⟩
      have hnone : (h p).pPages 0 = none := (hs.page p 0 (hx.level hs)).below 0 (Nat.zero_le _)
      rw [leftLeaf]
      simp only [hnone]
      exact ⟨p, Y, rfl, hx⟩
  | succ k ih =>
      obtain ⟨fuel, rfl⟩ : ∃ f, fuel = f + 1 := ⟨fuel - 1, by omega⟩
      obtain ⟨c, hc, -⟩ := (hs.page p (k + 1) (hx.level hs)).below 0 (Nat.zero_le _)
      have hchild := hx.child (c := c) (r := 0) ⟨hx.level hs, Nat.zero_le _, hc⟩
      have hempty : rowBefore (h.keys (k + 1)) (h.ent p) 0 = [] := rfl
      rw [hempty, List.append_nil] at hchild
      rw [← pPages_eq] at hc
      rw [leftLeaf]
      simp only [hc]
      exact ih hchild (by omega)

/-- The first item of a leaf comes right behind what is before the leaf. -/
theorem Path.first (hs : Shape h lv root top) (hx : Path h lv root top p 0 X Y) :
    keysBefore h p 0 0 X = X := by
  have hnone : (h.ent p 0).2 = none := (hs.page p 0 (hx.level hs)).below 0 (Nat.zero_le _)
  unfold keysBefore
  rw [hnone, keys_none]
  exact List.append_nil X

theorem itemAbove_path (hs : Shape h lv root top) (hx : Path h lv root top p k X Y) (hfuel : top < fuel + k) :
    ∃ above, itemAbove h fuel p = some above ∧ (above = none → Y = []) ∧
      ∀ q i, above = some (q, i) → i < (h q).pM ∧ ∃ j X' Y', Path h lv root top q j X' Y' ∧
        keysBefore h q j i X' = X ++ h.keys (k + 1) (some p) := by
  induction fuel generalizing p k X Y with
  | zero =>
      have hle := hs.bound p k (hx.level hs)
      omega
  | succ fuel ih =>
      cases hx with
      | root =>
          have hrun : itemAbove h (fuel + 1) root = some none := by
            rw [itemAbove]
            simp only [hs.orphan]
          exact ⟨none, hrun, fun _ => rfl, fun q i h => absurd h.symm (Option.some_ne_none _)⟩
      | @child q c k r X Y hx hc =>
          obtain ⟨hparent, hindex⟩ := Prod.mk.inj (hc.link hs)
          rw [itemAbove]
          simp only [hparent]
          have hchild : h.keys (k + 1) (h.ent q r).2 = h.keys (k + 1) (some p) := by rw [hc.child]
          by_cases hlast : (h q).pM ≤ (h p).pParentIndex
          · have hr : r = (h q).pM := by
              have hle := hc.le
              omega
            obtain ⟨above, habove, hnone, hsome⟩ := ih hx (by omega)
            rw [if_pos hlast]
            refine ⟨above, habove, ?_, ?_⟩
            · intro hn
              rw [hr, rowBehind_self, hnone hn]
              rfl
            · intro q' i hq
              obtain ⟨hi, j, X', Y', hx', hbefore⟩ := hsome q' i hq
              refine ⟨hi, j, X', Y', hx', ?_⟩
              rw [hbefore, keys_some, rowKeys_at (Nat.le_refl _), rowBehind_self, List.append_nil, ← hr,
                hchild, List.append_assoc]
          · rw [if_neg hlast, hindex]
            refine ⟨_, rfl, fun h => absurd h (Option.some_ne_none _), ?_⟩
            intro q' i hq
            obtain ⟨rfl, rfl⟩ := Prod.mk.inj (Option.some.inj hq)
            refine ⟨by omega, k + 1, X, Y, hx, ?_⟩
            unfold keysBefore
            rw [hchild, List.append_assoc]

/-- The place that `_BTCNext` finds. -/
def nextPlace (t : BTree α) (p : BTAddr) (z : ℕ) : Option (Option (BTAddr × ℕ)) :=
  match (t.heap p).pPages (z + 1) with
  | some c => (leftLeaf t.heap t.bNext c).map fun leaf => some (leaf, 0)
  | none => if z + 1 < (t.heap p).pM then some (some (p, z + 1)) else itemAbove t.heap (t.bNext + 1) p

/-- What `_BTCNext` notes of it. -/
def BTCursor.toNext (t : BTree α) (cur : BTCursor α) : Option (BTAddr × ℕ) → BTCursor α × Bool
  | some (q, i) => (cur.next q i t.heap, true)
  | none => ({ cur with cNextPage := none, cNextIndex := -1 }, false)

omit [Inhabited α] in
theorem BTCNext'_eq (t : BTree α) (cur : BTCursor α) {p : BTAddr} (hp : cur.cPage = some p) :
    BTCNext' t cur = (nextPlace t p cur.cZIndex).map (cur.toNext t) := by
  obtain ⟨page, z, key, nextPage, nextIndex, nextKey⟩ := cur
  obtain rfl : page = some p := hp
  unfold BTCNext' nextPlace
  dsimp only
  cases (t.heap p).pPages (z + 1) with
  | some c =>
      dsimp only
      cases leftLeaf t.heap t.bNext c with
      | none => rfl
      | some leaf => rfl
  | none =>
      dsimp only
      split
      · rfl
      · cases itemAbove t.heap (t.bNext + 1) p with
        | none => rfl
        | some above =>
            cases above with
            | none => rfl
            | some x => rfl

theorem Grown.pos {t : BTree α} {keys : List α} (hg : Grown t root lv top keys) (hp : lv p = some k) :
    0 < (t.heap p).pM := by
  have hfill := (hg.filled p k hp).1
  have hn := hg.order
  by_cases hroot : p = root
  · rw [if_pos hroot] at hfill
    exact hfill
  · rw [if_neg hroot] at hfill
    omega

/-- What is behind a place is nothing, or begins with the item of the next place. -/
structure NextOf (h : BTHeap α) (lv : BTAddr → Option ℕ) (root : BTAddr) (top : ℕ) (p : BTAddr) (z : ℕ)
    (L M : List α) (place : Option (BTAddr × ℕ)) : Prop where
  none : place = none → M = []
  some : ∀ q i, place = some (q, i) → ∃ M', M = (h q).pItems i :: M' ∧
    Placed h lv root top q i (L ++ [(h p).pItems z]) M'

theorem nextPlace_spec {t : BTree α} {keys : List α} (hg : Grown t root lv top keys)
    (hp : Placed t.heap lv root top p z L M) : ∃ place, nextPlace t p z = some place ∧
      NextOf t.heap lv root top p z L M place := by
  have hs := hg.shape
  have htop := hs.top_lt hg.unused
  have hall := hp.keys hs
  obtain ⟨k, X, Y, hx, hL, hM⟩ := hp.path
  have hlevel := hx.level hs
  have hitem : rowBefore (t.heap.keys k) (t.heap.ent p) (z + 1) =
      rowBefore (t.heap.keys k) (t.heap.ent p) z ++ t.heap.keys k (t.heap.ent p z).2 ++
        [(t.heap p).pItems z] := by
    rw [rowBefore_succ, pItems_eq, List.append_assoc]
  have hbefore : L ++ [(t.heap p).pItems z] = X ++ rowBefore (t.heap.keys k) (t.heap.ent p) (z + 1) := by
    rw [hL, hitem]
    unfold keysBefore
    simp only [List.append_assoc]
  -- a place before which there are the keys up to this one is the next
  have hnext : ∀ q i j X' Y', Path t.heap lv root top q j X' Y' → i < (t.heap q).pM →
      keysBefore t.heap q j i X' = L ++ [(t.heap p).pItems z] →
      ∃ M', M = (t.heap q).pItems i :: M' ∧ Placed t.heap lv root top q i (L ++ [(t.heap p).pItems z]) M' := by
    intro q i j X' Y' hq hi hkeys
    have hmid := (hq.context hs).item hi
    rw [hall, hkeys, List.append_assoc, List.singleton_append] at hmid
    have hbehind := (List.cons.inj (List.append_cancel_left hmid)).2
    refine ⟨_, hbehind, ?_⟩
    exact ⟨hi, j, X', Y', hq, hkeys.symm, rfl⟩
  unfold nextPlace
  cases hc : (t.heap p).pPages (z + 1) with
  | some c =>
      have hcp : (t.heap.ent p (z + 1)).2 = some c := hc
      have hchild : ChildOf t.heap lv p k (z + 1) c := ⟨hlevel, hp.lt, hcp⟩
      obtain ⟨j, rfl, -⟩ := hchild.levelDown hs
      have hle := hs.bound p (j + 1) hlevel
      obtain ⟨leaf, Y', hleaf, hq⟩ := leftLeaf_path hs (hx.child hchild) (show j < t.bNext by omega)
      obtain ⟨M', hM', hplaced⟩ := hnext leaf 0 0 _ Y' hq
        (hg.pos (hq.level hs)) ((hq.first hs).trans hbefore.symm)
      refine ⟨some (leaf, 0), by dsimp only; rw [hleaf]; rfl,
        fun h => absurd h (Option.some_ne_none _), ?_⟩
      intro q i hqi
      obtain ⟨rfl, rfl⟩ := Prod.mk.inj (Option.some.inj hqi)
      exact ⟨M', hM', hplaced⟩
  | none =>
      have hleaf : (t.heap.ent p (z + 1)).2 = none := hc
      dsimp only
      by_cases hlt : z + 1 < (t.heap p).pM
      · obtain ⟨M', hM', hplaced⟩ := hnext p (z + 1) k X Y hx hlt (by
          unfold keysBefore
          rw [hbefore, hleaf, keys_none, List.append_nil])
        rw [if_pos hlt]
        refine ⟨some (p, z + 1), rfl, fun h => absurd h (Option.some_ne_none _), ?_⟩
        intro q i hqi
        obtain ⟨rfl, rfl⟩ := Prod.mk.inj (Option.some.inj hqi)
        exact ⟨M', hM', hplaced⟩
      · have hend : z + 1 = (t.heap p).pM := by
          have hlt := hp.lt
          omega
        have hbelow : t.heap.keys (k + 1) (some p) = rowBefore (t.heap.keys k) (t.heap.ent p) (z + 1) := by
          rw [keys_some, ← hend, rowKeys_at (Nat.le_refl _), rowBehind_self, hleaf, keys_none]
          simp only [List.append_nil]
        obtain ⟨place, hplace, hnone, hsome⟩ := itemAbove_path hs hx (show top < t.bNext + 1 + k by omega)
        rw [if_neg hlt]
        refine ⟨place, hplace, ?_, ?_⟩
        · intro hn
          rw [hM, hnone hn]
          unfold keysBehind
          rw [hleaf, keys_none, ← hend, rowBehind_self]
          rfl
        · intro q i hqi
          obtain ⟨hi, j, X', Y', hq, hkeys⟩ := hsome q i hqi
          exact hnext q i j X' Y' hq hi (by rw [hkeys, hbelow, hbefore])

/-! ### The place before another -/

theorem prevAbove_path (hs : Shape h lv root top) (hx : Path h lv root top p k X Y) (hfuel : top < fuel + k) :
    ∃ above, prevAbove h fuel p = some above ∧ (above = none → X = []) ∧
      ∀ q i, above = some (q, i) → i < (h q).pM ∧ ∃ j X' Y', Path h lv root top q j X' Y' ∧
        X = keysBefore h q j i X' ++ [(h q).pItems i] := by
  induction fuel generalizing p k X Y with
  | zero =>
      have hle := hs.bound p k (hx.level hs)
      omega
  | succ fuel ih =>
      cases hx with
      | root =>
          have hrun : prevAbove h (fuel + 1) root = some none := by
            rw [prevAbove]
            simp only [hs.orphan]
          exact ⟨none, hrun, fun _ => rfl, fun q i h => absurd h.symm (Option.some_ne_none _)⟩
      | @child q c k r X Y hx hc =>
          obtain ⟨hparent, hindex⟩ := Prod.mk.inj (hc.link hs)
          rw [prevAbove]
          simp only [hparent, hindex]
          by_cases hfirst : r = 0
          · obtain ⟨above, habove, hnone, hsome⟩ := ih hx (by omega)
            have hempty : rowBefore (h.keys (k + 1)) (h.ent q) 0 = [] := rfl
            rw [if_pos hfirst, hfirst, hempty, List.append_nil]
            exact ⟨above, habove, hnone, hsome⟩
          · rw [if_neg hfirst]
            refine ⟨_, rfl, fun h => absurd h (Option.some_ne_none _), ?_⟩
            intro q' i hq
            obtain ⟨rfl, rfl⟩ := Prod.mk.inj (Option.some.inj hq)
            have hle := hc.le
            refine ⟨by omega, k + 1, X, Y, hx, ?_⟩
            obtain ⟨r, rfl⟩ := Nat.exists_eq_succ_of_ne_zero hfirst
            unfold keysBefore
            rw [Nat.succ_eq_add_one, rowBefore_succ, Nat.add_sub_cancel, pItems_eq]
            simp only [List.append_assoc]

/-- From a place on, the walk of `BTCPrev` ends at the last item before it. -/
theorem prevPlace_path {up : ℕ} {keys : List α} {t : BTree α} (hg : Grown t root lv top keys)
    (hx : Path t.heap lv root top p k X Y) (hz : z ≤ (t.heap p).pM) (hfuel : k < fuel) (hup : top < up) :
    ∃ place, prevPlace t.heap up fuel p z = some place ∧ (place = none → keysBefore t.heap p k z X = []) ∧
      ∀ q i, place = some (q, i) → i < (t.heap q).pM ∧ ∃ j X' Y', Path t.heap lv root top q j X' Y' ∧
        keysBefore t.heap p k z X = keysBefore t.heap q j i X' ++ [(t.heap q).pItems i] := by
  have hs := hg.shape
  induction k generalizing p X Y z fuel with
  | zero =>
      obtain ⟨fuel, rfl⟩ : ∃ f, fuel = f + 1 := ⟨fuel - 1, by omega⟩
      have hnone : (t.heap.ent p z).2 = none := (hs.page p 0 (hx.level hs)).below z hz
      have hpage : (t.heap p).pPages z = none := hnone
      have hkeys : keysBefore t.heap p 0 z X = X ++ rowBefore (t.heap.keys 0) (t.heap.ent p) z := by
        unfold keysBefore
        rw [hnone, keys_none, List.append_nil]
      rw [prevPlace]
      simp only [hpage]
      by_cases hpos : 0 < z
      · obtain ⟨z, rfl⟩ := Nat.exists_eq_succ_of_ne_zero (Nat.ne_of_gt hpos)
        rw [if_pos hpos]
        refine ⟨_, rfl, fun h => absurd h (Option.some_ne_none _), ?_⟩
        intro q i hqi
        obtain ⟨rfl, rfl⟩ := Prod.mk.inj (Option.some.inj hqi)
        refine ⟨hz, 0, X, Y, hx, ?_⟩
        rw [hkeys, Nat.succ_eq_add_one, Nat.add_sub_cancel, rowBefore_succ, pItems_eq]
        unfold keysBefore
        simp only [List.append_assoc]
      · obtain rfl : z = 0 := by omega
        have hempty : rowBefore (t.heap.keys 0) (t.heap.ent p) 0 = [] := rfl
        rw [if_neg hpos, hkeys, hempty, List.append_nil]
        exact prevAbove_path hs hx (by omega)
  | succ k ih =>
      obtain ⟨fuel, rfl⟩ : ∃ f, fuel = f + 1 := ⟨fuel - 1, by omega⟩
      obtain ⟨c, hc, hlevel⟩ := (hs.page p (k + 1) (hx.level hs)).below z hz
      have hchild := hx.child (c := c) ⟨hx.level hs, hz, hc⟩
      have hpage : (t.heap p).pPages z = some c := hc
      have hkeys : keysBefore t.heap p (k + 1) z X =
          keysBefore t.heap c k (t.heap c).pM (X ++ rowBefore (t.heap.keys (k + 1)) (t.heap.ent p) z) := by
        unfold keysBefore
        rw [hc, keys_some, rowKeys_at (Nat.le_refl _), rowBehind_self, List.append_nil, List.append_assoc]
      rw [prevPlace, hkeys]
      simp only [hpage]
      exact ih hchild (Nat.le_refl _) (by omega)

/-- What is before a place is nothing, or ends with the item of the previous place. -/
structure PrevOf (h : BTHeap α) (lv : BTAddr → Option ℕ) (root : BTAddr) (top : ℕ) (p : BTAddr) (z : ℕ)
    (L M : List α) (place : Option (BTAddr × ℕ)) : Prop where
  none : place = none → L = []
  some : ∀ q i, place = some (q, i) → ∃ L', L = L' ++ [(h q).pItems i] ∧
    Placed h lv root top q i L' ((h p).pItems z :: M)

theorem prevPlace_spec {t : BTree α} {keys : List α} (hg : Grown t root lv top keys)
    (hp : Placed t.heap lv root top p z L M) :
    ∃ place, prevPlace t.heap (t.bNext + 1) (t.bNext + 1) p z = some place ∧
      PrevOf t.heap lv root top p z L M place := by
  have hs := hg.shape
  have htop := hs.top_lt hg.unused
  have hall := hp.keys hs
  obtain ⟨k, X, Y, hx, rfl, -⟩ := hp.path
  have hle := hs.bound p k (hx.level hs)
  obtain ⟨place, hplace, hnone, hsome⟩ := prevPlace_path (z := z) hg hx (Nat.le_of_lt hp.lt)
    (show k < t.bNext + 1 by omega) (show top < t.bNext + 1 by omega)
  refine ⟨place, hplace, hnone, ?_⟩
  intro q i hqi
  obtain ⟨hi, j, X', Y', hq, hkeys⟩ := hsome q i hqi
  refine ⟨_, hkeys, Placed.of_before hs hq hi rfl ?_⟩
  rw [hall, hkeys, List.append_assoc, List.singleton_append]

end Paths

end PaxosSolutions.NWGadget
