import Mathlib.Data.List.Sort
import Mathlib.Logic.Function.Basic
import PaxosSolutions.Lib.File
import PaxosSolutions.Lib.Run

/-!
# The heap pool

A heap is a row of segments in units of a header. A header has its size in
units, negative while the segment is allocated, and the header before it. An
allocation splits a free segment in two, a release joins it with its free
neighbours. A pool has several heaps and takes the first with a segment that
is large enough.
-/
namespace PaxosSolutions.NWGadget
open Lib

/-- `sizeof(ZSEG)` -/
abbrev sizeofSeg : ℕ := 40

/-- `sizeof(ZHEAP)` -/
abbrev sizeofZHeap : ℕ := 376

/-- `ZSEG`, with the index of a header for `s_frwd`. -/
structure ZSeg where
  sFrwd : Option ℕ
  sSize : ℤ
  dLink : ℤ

/-- The memory behind a `ZHEAP`, as headers by their index and as bytes, and the bytes that
a header has. -/
structure HeapMem where
  seg : ℕ → ZSeg
  byte : ℕ → UInt8
  image : ZSeg → ℕ → UInt8

/-- `ZHEAP`. `best` is `HEAP_BEST_FIT`, `hPool` that `h_pHeapPool` is set. -/
structure ZHeap extends HeapMem where
  hLast : ℕ
  hFree : ℤ
  hLowHigh : ℤ
  best : Bool
  hPool : Bool := false
  freeLow : List ℕ := []
  freeHigh : List ℕ := []
  pFree : List ℕ := []

/-- The units of `_halloc` for a size in bytes -/
def unitsOf (size : ℕ) : ℕ := (size + (sizeofSeg - 1)) % 2 ^ 64 / sizeofSeg

namespace ZHeap

/-- A header is written. -/
def put (z : ZHeap) (i : ℕ) (s : ZSeg) : ZHeap :=
  { z with
    seg := Function.update z.seg i s
    byte := fun b => if b / sizeofSeg = i then z.image s (b % sizeofSeg) else z.byte b }

def setFrwd (z : ZHeap) (i : ℕ) (p : ℕ) : ZHeap := z.put i { z.seg i with sFrwd := some p }

def setSize (z : ZHeap) (i : ℕ) (n : ℤ) : ZHeap := z.put i { z.seg i with sSize := n }

/-- The header behind a segment -/
def behind (z : ZHeap) (i : ℕ) : ℕ := i + 1 + (z.seg i).sSize.toNat

/-- `NHeapBTCompare` -/
def Before (z : ZHeap) (i j : ℕ) : Prop :=
  (z.seg i).sSize < (z.seg j).sSize ∨ ((z.seg i).sSize = (z.seg j).sSize ∧ i < j)

instance (z : ZHeap) : DecidableRel z.Before := fun _ _ => inferInstanceAs (Decidable (_ ∨ _))

/-- `NDELETE` and `NHeapBTDelete` -/
def unlink (z : ZHeap) (i : ℕ) : ZHeap :=
  { z with
    freeLow := z.freeLow.erase i
    freeHigh := z.freeHigh.erase i
    pFree := z.pFree.erase i }

/-- `INSERT` and `NHeapBTInsert` -/
def link (z : ZHeap) (i : ℕ) : ZHeap :=
  if z.best then { z with pFree := z.pFree.orderedInsert z.Before i }
  else if (z.seg i).sSize ≤ z.hLowHigh then { z with freeLow := z.freeLow ++ [i] }
  else { z with freeHigh := z.freeHigh ++ [i] }

/-- `_hinit` in memory from `fMalloc`, and what it returns. -/
def hinit (mem : HeapMem) (bytes lowHigh : ℕ) (best : Bool) : Option (ZHeap × ℤ) :=
  if bytes ≤ sizeofZHeap + 2 * sizeofSeg then none
  else
    let n := (bytes - (sizeofZHeap + 2 * sizeofSeg)) / sizeofSeg
    let z : ZHeap := { mem with
      hLast := n + 1
      hFree := n
      hLowHigh := (lowHigh / sizeofSeg : ℕ)
      best := best }
    let z := z.put 0 ⟨none, n, (z.seg 0).dLink⟩
    let z := z.put (n + 1) ⟨some 0, -1, 0⟩
    let z :=
      if best then { z with pFree := [0] }
      else if (n : ℤ) < z.hLowHigh then { z with freeLow := [0] }
      else { z with freeHigh := [0] }
    some (z, int32 n)

/-- The search of `_halloc`: first fit in the lists, or the least segment of the tree. -/
def find (z : ZHeap) (bsize : ℕ) : Option ℕ :=
  if z.best then z.pFree.find? fun i => bsize ≤ (z.seg i).sSize
  else
    (if bsize ≤ z.hLowHigh then z.freeLow.find? fun i => bsize ≤ (z.seg i).sSize else none).or
      (z.freeHigh.find? fun i => bsize ≤ (z.seg i).sSize)

/-- `_halloc` with the segment that it has found -/
def take (z : ZHeap) (i bsize : ℕ) : ZHeap :=
  let n := (z.seg i).sSize
  let z :=
    if (bsize + 1 : ℕ) ≤ n then
      (z.setFrwd (z.behind i) (i + bsize + 1)).put (i + bsize + 1)
        ⟨some i, n - (bsize + 1 : ℕ), (z.seg (i + bsize + 1)).dLink⟩
    else z
  let z := (z.unlink i).put i { z.seg i with
    sSize := -bsize
    dLink := 1 }
  let z := if 0 < n - (bsize + 1 : ℕ) then z.link (i + bsize + 1) else z
  { z with hFree := z.hFree - (bsize + 1 : ℕ) }

/-- The segment becomes a free one. -/
def release (z : ZHeap) (p : ℕ) : ZHeap :=
  let z := z.setSize p (-(z.seg p).sSize)
  { z with hFree := z.hFree + (z.seg p).sSize }

/-- A free neighbour is taken from its list, and its header is one unit more. -/
def absorb (z : ZHeap) (i : ℕ) : ZHeap :=
  let z := if (z.seg i).sSize ≠ 0 then z.unlink i else z
  { z with hFree := z.hFree + 1 }

/-- `_hfree`, forward: what the segment is a part of now, and the units for `POOL_FREE`. -/
def joinFront (z : ZHeap) (p : ℕ) : ZHeap × ℕ × ℤ :=
  (z.seg p).sFrwd.elim (z, p, 0) fun f =>
    if 0 ≤ (z.seg f).sSize then
      (((z.absorb f).setFrwd (z.behind p) f).setSize f
        ((z.seg f).sSize + (1 + (z.seg p).sSize)), f, 1)
    else (z, p, 0)

/-- `_hfree`, backward -/
def joinBack (z : ZHeap) (p : ℕ) : ZHeap × ℤ :=
  if 0 ≤ (z.seg (z.behind p)).sSize then
    let n := (z.seg p).sSize + (1 + (z.seg (z.behind p)).sSize)
    (((z.absorb (z.behind p)).setSize p n).setFrwd (p + 1 + n.toNat) p, 1)
  else (z, 0)

/-- Bytes are written from a place on. -/
def fill (z : ZHeap) (p n : ℕ) (f : ℕ → UInt8) : ZHeap :=
  { z with byte := fun b => if p ≤ b ∧ b < p + n then f (b - p) else z.byte b }

/-- `_hfree`, and the units for `POOL_FREE` -/
def hfree (z : ZHeap) (p : ℕ) : ZHeap × ℤ :=
  let z := z.put p { z.seg p with dLink := (z.seg p).dLink - 1 }
  if (z.seg p).dLink ≠ 0 then (z, 0)
  else
    let z := z.release p
    let r := z.joinFront p
    let r' := r.1.joinBack r.2.1
    (r'.1.link r.2.1, (z.seg p).sSize + r.2.2 + r'.2)

/-- The walk of `NHeapStatistics` over the headers up to `h_last` -/
def walk (z : ZHeap) : ℕ → ℕ → List ℤ
  | 0, _ => []
  | n + 1, i =>
      if i < z.hLast then (z.seg i).sSize :: walk z n (i + 1 + (z.seg i).sSize.natAbs) else []

def sizes (z : ZHeap) : List ℤ := z.walk z.hLast 0

end ZHeap

/-- A heap of a pool: not there yet, in memory that `_hinit` has refused, or ready. -/
inductive HeapSlot
  | absent
  | refused
  | ready (z : ZHeap)

/-- `pool_t` -/
structure PoolHeap where
  hSize : ℕ
  hLowHigh : ℕ
  hHeap : HeapSlot := .absent

/-- A block that a caller has: its heap, its header, and the size that was asked for. -/
structure HeapBlock where
  heap : ℕ
  seg : ℕ
  size : ℕ
deriving DecidableEq, Repr

namespace HeapBlock

/-- Where the bytes of a block begin -/
def body (b : HeapBlock) : ℕ := sizeofSeg * (b.seg + 1)

end HeapBlock

/-- `NHeapPool_t`, with the blocks that callers have. -/
structure NHeapPool where
  best : Bool
  aHeaps : List PoolHeap
  pUse : ℤ := 0
  live : List HeapBlock := []

/-- What stops a call: a block that the caller does not have, a heap that `_hinit` has
refused, or one without its pool. -/
inductive HeapTrap
  | caller
  | refused
  | null
deriving DecidableEq, Repr

namespace PoolHeap

def heap? (hp : PoolHeap) : Option ZHeap :=
  match hp.hHeap with
  | .ready z => some z
  | _ => none

/-- The heap is made if it is not there: the heap, the units of its headers, and whether it
can be used. -/
def openHeap (hp : PoolHeap) (best : Bool) (mem : Option HeapMem) : PoolHeap × ℤ × Bool :=
  match hp.hHeap with
  | .ready _ => (hp, 0, true)
  | .refused => (hp, 0, true)
  | .absent =>
      mem.elim (hp, 0, false) fun m =>
        (ZHeap.hinit m hp.hSize hp.hLowHigh best).elim ({ hp with hHeap := .refused }, 0, false)
          fun r =>
            if r.2 = 0 then ({ hp with hHeap := .ready r.1 }, 0, false)
            else ({ hp with hHeap := .ready { r.1 with hPool := true } }, 2, true)

end PoolHeap

namespace NHeapPool

def heapAt (hps : List PoolHeap) (k : ℕ) : Option ZHeap := hps[k]?.bind PoolHeap.heap?

def heapOf (P : NHeapPool) (k : ℕ) : Option ZHeap := heapAt P.aHeaps k

def setHeap (hps : List PoolHeap) (k : ℕ) (z : ZHeap) : List PoolHeap :=
  hps.modify k fun hp => { hp with hHeap := .ready z }

/-- A byte of a block -/
def byteOf (P : NHeapPool) (b : HeapBlock) (i : ℕ) : Option UInt8 :=
  (P.heapOf b.heap).map fun z => z.byte (b.body + i)

/-- The loop of `NHeapMalloc`: the heaps with those that are made on the way, the units of
their headers, and the heap that has a segment, with that segment. -/
def search (best : Bool) (bsize : ℕ) (mem : ℕ → Option HeapMem) :
    ℕ → List PoolHeap → Except HeapTrap (List PoolHeap × ℤ × Option (ℕ × ZHeap × ℕ))
  | _, [] => .ok ([], 0, none)
  | k, hp :: hps =>
      let r := hp.openHeap best (mem k)
      if r.2.2 = false then .ok (r.1 :: hps, r.2.1, none)
      else r.1.heap?.elim (.error .refused) fun z =>
        (z.find bsize).elim ((search best bsize mem (k + 1) hps).map fun s =>
          (r.1 :: s.1, r.2.1 + s.2.1, s.2.2)) fun i =>
          if z.hPool then .ok (r.1 :: hps, r.2.1, some (k, z, i)) else .error .null

/-- The block is taken from the heap that `search` has found. -/
def alloc (P : NHeapPool) (size : ℕ) (c : ℕ × ZHeap × ℕ) : NHeapPool × Option HeapBlock :=
  ({ P with
    aHeaps := setHeap P.aHeaps c.1 (c.2.1.take c.2.2 (unitsOf size))
    pUse := P.pUse + (unitsOf size + 1 : ℕ)
    live := ⟨c.1, c.2.2, size⟩ :: P.live }, some ⟨c.1, c.2.2, size⟩)

/-- `NHeapMalloc`, with the block or NULL. -/
def malloc (P : NHeapPool) (size : ℕ) (mem : ℕ → Option HeapMem) :
    Except HeapTrap (NHeapPool × Option HeapBlock) :=
  (search P.best (unitsOf size) mem 0 P.aHeaps).map fun r =>
    let Q := { P with
      aHeaps := r.1
      pUse := P.pUse + r.2.1 }
    r.2.2.elim (Q, none) (Q.alloc size)

/-- `NHeapFree` -/
def free (P : NHeapPool) (b : HeapBlock) : Except HeapTrap NHeapPool :=
  if b ∈ P.live then
    (P.heapOf b.heap).elim (.error .refused) fun z =>
      .ok { P with
        aHeaps := setHeap P.aHeaps b.heap (z.hfree b.seg).1
        pUse := P.pUse - (z.hfree b.seg).2
        live := P.live.erase b }
  else .error .caller

/-- A caller has written its block. -/
def write (P : NHeapPool) (b : HeapBlock) (f : ℕ → UInt8) : Except HeapTrap NHeapPool :=
  if b ∈ P.live then
    (P.heapOf b.heap).elim (.error .refused) fun z =>
      .ok { P with aHeaps := setHeap P.aHeaps b.heap (z.fill b.body b.size f) }
  else .error .caller

/-- The `memcpy` of `NHeapRealloc`, with the length from the header of the old block. -/
def copy (P : NHeapPool) (old new : HeapBlock) (size : ℕ) (zo zn : ZHeap) : NHeapPool :=
  let cpsize := ((-(zo.seg old.seg).sSize) % 2 ^ 64).toNat
  let n := if cpsize < size then cpsize else size
  let zn := zn.fill new.body n fun i => zo.byte (old.body + i)
  { P with aHeaps := setHeap P.aHeaps new.heap zn }

/-- `NHeapRealloc`, with the new block or NULL. -/
def realloc (P : NHeapPool) (b : HeapBlock) (size : ℕ) (mem : ℕ → Option HeapMem) :
    Except HeapTrap (NHeapPool × Option HeapBlock) :=
  if b ∈ P.live then
    (P.malloc size mem).bind fun r =>
      r.2.elim (.ok (r.1, none)) fun new =>
        (r.1.heapOf b.heap).elim (.error .refused) fun zo =>
          (r.1.heapOf new.heap).elim (.error .refused) fun zn =>
            ((r.1.copy b new size zo zn).free b).map fun Q => (Q, some new)
  else .error .caller

/-- The heaps of `NHeapPoolInit`: their sizes double. -/
def poolHeaps (unit max : ℕ) : List PoolHeap :=
  (List.range max).map fun i =>
    { hSize := unit / 8 * 8 * 2 ^ i % 2 ^ 64
      hLowHigh := 512 * (i + 1) }

/-- The heaps that are made at once, without `HEAP_DYNAMIC` -/
def openAll (best : Bool) (mem : ℕ → Option HeapMem) : ℕ → List PoolHeap → Option (List PoolHeap × ℤ)
  | _, [] => some ([], 0)
  | k, hp :: hps =>
      let r := hp.openHeap best (mem k)
      if r.2.2 then (openAll best mem (k + 1) hps).map fun s => (r.1 :: s.1, r.2.1 + s.2) else none

/-- `NHeapPoolInit` -/
def init (unit max : ℕ) (dynamic best : Bool) (mem : ℕ → Option HeapMem) : Option NHeapPool :=
  if dynamic then some { best := best, aHeaps := poolHeaps unit max }
  else (openAll best mem 0 (poolHeaps unit max)).map fun r =>
    { best := best, aHeaps := r.1, pUse := r.2 }

end NHeapPool

/-- What a caller of a pool does. `mem` is what `fMalloc` gives. -/
inductive HeapCall
  | malloc (size : ℕ) (mem : ℕ → Option HeapMem)
  | free (b : HeapBlock)
  | write (b : HeapBlock) (f : ℕ → UInt8)
  | realloc (b : HeapBlock) (size : ℕ) (mem : ℕ → Option HeapMem)

namespace NHeapPool

def step (P : NHeapPool) : HeapCall → Except HeapTrap NHeapPool
  | .malloc size mem => (P.malloc size mem).map Prod.fst
  | .free b => P.free b
  | .write b f => P.write b f
  | .realloc b size mem => (P.realloc b size mem).map Prod.fst

end NHeapPool

end PaxosSolutions.NWGadget
