import PaxosSolutions.Lib.For
import Mathlib.Data.Int.Order.Basic
import Mathlib.Logic.Function.Basic

/-!
# B-trees

The balanced tree of `NWGadget`. Pages lie at addresses and know their parent and
their place in it; an item is the key itself, and equal keys are allowed. The two
arrays of a page are functions of the index, a page that is given back is cleared,
and an address is not used twice. Loops over the levels of the tree take as much
fuel as there are pages.
-/
namespace PaxosSolutions.NWGadget
open Lib

abbrev BTAddr := ℕ

/-- `BTPage_t`. `pItems` counts from 0 and `pPages` from 0, one more. -/
structure BTPage (α : Type) where
  pParent : Option BTAddr := none
  pParentIndex : ℕ := 0
  pM : ℕ := 0
  pItems : ℕ → α
  pPages : ℕ → Option BTAddr := fun _ => none

/-- The memory of the pages. -/
abbrev BTHeap (α : Type) := BTAddr → BTPage α

/-- `BTree_t`; `bNext` is the next page that `BPageAlloc` gives. -/
structure BTree (α : Type) where
  bN : ℕ
  bCompare : α → α → ℤ
  bRoot : Option BTAddr := none
  bCnt : UInt64 := 0
  heap : BTHeap α
  bNext : BTAddr := 0

section Code
variable {α : Type} [Inhabited α]

/-- A page that `memset` cleared. -/
def clearedPage : BTPage α := { pItems := fun _ => default }

/-- `BTreeInit` -/
def BTreeInit (n : ℕ) (fCompare : α → α → ℤ) : BTree α :=
  { bN := n, bCompare := fCompare, heap := fun _ => clearedPage }

namespace BTHeap

def set (h : BTHeap α) (p : BTAddr) (f : BTPage α → BTPage α) : BTHeap α :=
  Function.update h p (f (h p))

/-- `p_aItems[i] = Item` -/
def setItem (p : BTAddr) (i : ℕ) (item : α) (h : BTHeap α) : BTHeap α :=
  h.set p fun a => { a with pItems := Function.update a.pItems i item }

/-- `p_apPages[i] = pChild` alone -/
def setPage (p : BTAddr) (i : ℕ) (pChild : Option BTAddr) (h : BTHeap α) : BTHeap α :=
  h.set p fun a => { a with pPages := Function.update a.pPages i pChild }

def setM (p : BTAddr) (m : ℕ) (h : BTHeap α) : BTHeap α := h.set p fun a => { a with pM := m }

/-- `BTSETN( pPage, N, pChild )`, and `BTSET0` for `N = 0`. -/
def btSetN (p : BTAddr) (n : ℕ) (pChild : Option BTAddr) (h : BTHeap α) : BTHeap α :=
  let h := h.setPage p n pChild
  match pChild with
  | none => h
  | some c => h.set c fun a => { a with pParent := some p, pParentIndex := n }

/-- `BTSET( pPage, R, Item, pChild )` -/
def btSet (p : BTAddr) (r : ℕ) (item : α) (pChild : Option BTAddr) (h : BTHeap α) : BTHeap α :=
  (h.setItem p (r - 1) item).btSetN p r pChild

/-- `BTMOVE( pTo, toR, pFr, frR )` -/
def btMove (pTo : BTAddr) (toR : ℕ) (pFr : BTAddr) (frR : ℕ) (h : BTHeap α) : BTHeap α :=
  h.btSet pTo toR ((h pFr).pItems (frR - 1)) ((h pFr).pPages frR)

end BTHeap

/-- `BTIND( pBTree, pPage, pKey, cmp )`: the loop halves `[L, R)`, and there are
`p_M` turns at most. -/
def btInd (below : α → Bool) (page : BTPage α) : ℕ :=
  go page.pM 1 (page.pM + 1) - 1
where
  go : ℕ → ℕ → ℕ → ℕ
    | 0, _, R => R
    | fuel + 1, L, R =>
        if L < R then
          let i := (L + R) / 2
          if below (page.pItems (i - 1)) then go fuel (i + 1) R else go fuel L i
        else R

open BTHeap

/-- What `split` leaves: the pages, the item that goes up in place of `*pV`. -/
structure BTSplit (α : Type) where
  heap : BTHeap α
  up : α

/-- `split`. `pNew` is the page that was allocated. -/
def btSplit (n : ℕ) (pPage pNew : BTAddr) (R : ℕ) (V : α) (pR pL : Option BTAddr)
    (h : BTHeap α) : BTSplit α :=
  let done := fun (h : BTHeap α) (up : α) => (⟨(h.setM pNew n).setM pPage n, up⟩ : BTSplit α)
  if R ≤ n then
    let h := forUp (n + 1) (2 * n) (fun i => btMove pNew (i - n) pPage i) h
    if R ≠ n then
      let up := (h pPage).pItems (n - 1)
      let h := h.btSetN pNew 0 ((h pPage).pPages n)
      let h := forDown (n - 1) (R + 1) (fun i => btMove pPage (i + 1) pPage i) h
      let h := h.btSet pPage (R + 1) V pR
      done (h.btSetN pPage R pL) up
    else
      let h := h.btSetN pNew 0 pR
      done (h.btSetN pPage n pL) V
  else
    let up := (h pPage).pItems n
    let h := h.btSetN pNew 0 ((h pPage).pPages (n + 1))
    let h := forDown (2 * n) (R + 1) (fun i => btMove pNew (i - n) pPage i) h
    let h := h.btSet pNew (R - n) V pR
    let h := h.btSetN pNew (R - n - 1) pL
    done (forDown R (n + 2) (fun i => btMove pNew (i - n - 1) pPage i) h) up

namespace BTree

/-- The insertion into a page that has room. -/
def insertAt (pPage : BTAddr) (R : ℕ) (V : α) (pNewPage : Option BTAddr) (h : BTHeap α) :
    BTHeap α :=
  let h := forDown (h pPage).pM (R + 1) (fun i => btMove pPage (i + 1) pPage i) h
  let h := h.btSet pPage (R + 1) V pNewPage
  h.setM pPage ((h pPage).pM + 1)

/-- The leaf and the place in it where `BTInsert` begins. -/
def findLeaf (t : BTree α) (pKey : α) : ℕ → BTAddr → Option (BTAddr × ℕ)
  | 0, _ => none
  | fuel + 1, pPage =>
      let R := btInd (fun x => decide (t.bCompare x pKey < 0)) (t.heap pPage)
      match (t.heap pPage).pPages R with
      | none => some (pPage, R)
      | some pP => t.findLeaf pKey fuel pP

/-- The loop of `BTInsert` from the leaf to the root. -/
def insertUp : ℕ → BTree α → Option BTAddr → ℕ → α → Option BTAddr → Option BTAddr →
    Option (BTree α)
  | 0, _, _, _, _, _, _ => none
  | fuel + 1, t, pPage, R, V, pNewPage, pP =>
      match pPage with
      | none =>
          let h := t.heap.set t.bNext fun _ => clearedPage
          let h := h.btSetN t.bNext 0 pP
          let h := h.btSet t.bNext 1 V pNewPage
          some { t with heap := h.setM t.bNext 1, bRoot := some t.bNext, bNext := t.bNext + 1 }
      | some a =>
          if (t.heap a).pM = 2 * t.bN then
            let s := btSplit t.bN a t.bNext R V pNewPage pP
              (t.heap.set t.bNext fun _ => clearedPage)
            insertUp fuel { t with heap := s.heap, bNext := t.bNext + 1 } (s.heap a).pParent
              (s.heap a).pParentIndex s.up (some t.bNext) (some a)
          else some { t with heap := insertAt a R V pNewPage t.heap }

end BTree

/-- `BTInsert` -/
def BTInsert (pKey : α) (t : BTree α) : Option (BTree α) := do
  let t := { t with bCnt := t.bCnt + 1 }
  match t.bRoot with
  | none => t.insertUp 1 none 0 pKey none none
  | some r => do
      let (pPage, R) ← t.findLeaf pKey t.bNext r
      t.insertUp (t.bNext + 1) (some pPage) R pKey none none

/-- `BPageFree` -/
def BPageFree (p : BTAddr) (h : BTHeap α) : BTHeap α := h.set p fun _ => clearedPage

/-- `underflow`: the pages after it, and whether the parent is to be looked at. -/
def btUnderflow (pA pC : BTAddr) (s : ℕ) (h : BTHeap α) : BTHeap α × Bool :=
  let n := (h pA).pM + 1
  let mc := (h pC).pM
  if s < mc then
    let s := s + 1
    let pB := ((h pC).pPages s).getD 0
    let mb := (h pB).pM
    let k := (mb + 1 - n) / 2
    let h := h.btSet pA n ((h pC).pItems (s - 1)) ((h pB).pPages 0)
    if 0 < k then
      let h := forUp 1 (k - 1) (fun i => btMove pA (i + n) pB i) h
      let h := h.setItem pC (s - 1) ((h pB).pItems (k - 1))
      let h := h.btSetN pB 0 ((h pB).pPages k)
      let mb := mb - k
      let h := forUp 1 mb (fun i => btMove pB i pB (i + k)) h
      ((h.setM pB mb).setM pA (n - 1 + k), false)
    else
      let h := forUp 1 n (fun i => btMove pA (i + n) pB i) h
      let h := forUp s (mc - 1) (fun i => btMove pC i pC (i + 1)) h
      (BPageFree pB ((h.setM pA (2 * n)).setM pC (mc - 1)), decide (mc ≤ n))
  else
    let pB := ((h pC).pPages (s - 1)).getD 0
    let mb := (h pB).pM + 1
    let k := (mb - n) / 2
    if 0 < k then
      let h := h.setPage pA (n + k) ((h pA).pPages n)
      let h := forDown (n - 1) 1 (fun i => btMove pA (i + k) pA i) h
      let h := h.btSet pA k ((h pC).pItems (s - 1)) ((h pA).pPages 0)
      let mb := mb - k
      let h := forDown (k - 1) 1 (fun i => btMove pA i pB (i + mb)) h
      let h := h.btSetN pA 0 ((h pB).pPages mb)
      let h := h.btSet pC s ((h pB).pItems (mb - 1)) (some pA)
      ((h.setM pB (mb - 1)).setM pA (n - 1 + k), false)
    else
      let h := h.btSet pB mb ((h pC).pItems (s - 1)) ((h pA).pPages 0)
      let h := forUp 1 (n - 1) (fun i => btMove pB (i + mb) pA i) h
      (BPageFree pA ((h.setM pB (2 * n)).setM pC (mc - 1)), decide (mc ≤ n))

namespace BTree

/-- The rightmost leaf below a page. -/
def lastLeaf (h : BTHeap α) : ℕ → BTAddr → Option BTAddr
  | 0, _ => none
  | fuel + 1, pP =>
      match (h pP).pPages (h pP).pM with
      | none => some pP
      | some c => lastLeaf h fuel c

/-- The loop of `BTCDelete` that repairs the pages from `pP` to the root. -/
def underflows : ℕ → BTAddr → BTHeap α → Option (BTHeap α)
  | 0, _, _ => none
  | fuel + 1, pP, h =>
      match (h pP).pParent with
      | none => some h
      | some pParent =>
          let u := btUnderflow pP pParent (h pP).pParentIndex h
          if u.2 then underflows fuel pParent u.1 else some u.1

/-- One item of a leaf is gone, and the leaf may have too few. -/
def repair (t : BTree α) (pP : BTAddr) (h : BTHeap α) : Option (BTHeap α) :=
  if (h pP).pM < t.bN then underflows (t.bNext + 1) pP h else some h

/-- A root without items gives way to its child. -/
def shrink (t : BTree α) : BTree α :=
  match t.bRoot with
  | none => t
  | some r =>
      if (t.heap r).pM = 0 then
        let pP := (t.heap r).pPages 0
        let h := BPageFree r t.heap
        { t with
          bRoot := pP
          heap := match pP with
            | none => h
            | some c => h.set c fun a => { a with pParent := none } }
      else t

end BTree

/-- `BTCDelete` at item `zIndex` of a page. -/
def BTCDelete (pA : BTAddr) (zIndex : ℕ) (t : BTree α) : Option (BTree α) := do
  let t := { t with bCnt := t.bCnt - 1 }
  let h ← match (t.heap pA).pPages zIndex with
    | some pP => do
        let pP ← BTree.lastLeaf t.heap t.bNext pP
        let h := t.heap.setItem pA zIndex ((t.heap pP).pItems ((t.heap pP).pM - 1))
        let h := h.setM pP ((h pP).pM - 1)
        t.repair pP h
    | none =>
        let h := forUp (zIndex + 1) ((t.heap pA).pM - 1) (fun i => btMove pA i pA (i + 1)) t.heap
        let h := h.setM pA ((h pA).pM - 1)
        t.repair pA h
  some { t with heap := h }.shrink

end Code

end PaxosSolutions.NWGadget
