import PaxosSolutions.NWGadget.HeapRuns

/-!
# The counters of a pool

`h_free` of a heap are the free units of its row, and `p_Use` are the units of
the blocks and of every header, those of free segments and the end marks among
them. An allocation takes a unit for a header that it makes. One that takes the
whole of a segment makes none and takes the unit all the same.
-/
namespace PaxosSolutions.NWGadget
open Lib Lib.Tiles

/-- The units of blocks -/
def blockUnits (live : List HeapBlock) : ℤ := (live.map fun b => (unitsOf b.size : ℤ)).sum

/-- The counters of a pool are those of its blocks and headers. -/
structure Balanced (P : NHeapPool) : Prop where
  free : ∀ k z, P.heapOf k = some z → z.hFree = z.freeSize
  use : P.pUse = blockUnits P.live + (P.aHeaps.map PoolHeap.heads).sum

namespace HeapHolds
variable {live : List HeapBlock} {k : ℕ} {z : ZHeap} {L : List Cell}

theorem sizes (h : HeapHolds live k z L) : z.sizes = L.map Cell.signed := ZHeap.sizes_row h.row h.last

theorem freeSize (h : HeapHolds live k z L) : z.freeSize = span Cell.freeUnits L :=
  ZHeap.freeSize_row h.row h.last

theorem length (h : HeapHolds live k z L) : z.sizes.length = L.length := by
  rw [h.sizes, List.length_map]

end HeapHolds

theorem heads_setHeap {hps : List PoolHeap} {k : ℕ} {z z' : ZHeap}
    (h : NHeapPool.heapAt hps k = some z) (hp : z'.hPool = z.hPool) (hz : z.hPool = true) :
    ((NHeapPool.setHeap hps k z').map PoolHeap.heads).sum =
      (hps.map PoolHeap.heads).sum + (z'.sizes.length - z.sizes.length) := by
  induction hps generalizing k with
  | nil => cases h
  | cons hp' hps ih =>
      cases k with
      | zero =>
          have hold : hp'.heads = z.sizes.length + 1 := by
            rw [PoolHeap.heads, show hp'.heap? = some z from h, Option.elim_some, if_pos hz]
          have hnew : PoolHeap.heads { hp' with hHeap := .ready z' } = z'.sizes.length + 1 := by
            rw [PoolHeap.heads, PoolHeap.heap?, Option.elim_some, if_pos (hp.trans hz)]
          rw [NHeapPool.setHeap, List.modify_zero_cons, List.map_cons, List.map_cons, List.sum_cons,
            List.sum_cons, hold, hnew]
          omega
      | succ k =>
          have hs := ih (k := k) h
          rw [NHeapPool.setHeap, List.modify_succ_cons, List.map_cons, List.map_cons, List.sum_cons,
            List.sum_cons]
          rw [NHeapPool.setHeap] at hs
          omega

/-- The allocation has a unit at least and finds a larger segment. -/
def Roomy (P : NHeapPool) (size : ℕ) (mem : ℕ → Option HeapMem) : Prop :=
  0 < unitsOf size ∧ ∀ hps use k z i,
    NHeapPool.search P.best (unitsOf size) mem 0 P.aHeaps = .ok (hps, use, some (k, z, i)) →
      unitsOf size < (z.seg i).sSize

def RoomyCall (P : NHeapPool) : HeapCall → Prop
  | .malloc size mem => Roomy P size mem
  | .realloc _ size mem => Roomy P size mem
  | _ => True

namespace Balanced
variable {P Q : NHeapPool} {b : HeapBlock} {size : ℕ} {mem : ℕ → Option HeapMem}

theorem grow (h : Balanced P) {hps : List PoolHeap} {use : ℤ} (hg : HeapsGrown P.aHeaps hps use) :
    Balanced { P with
      aHeaps := hps
      pUse := P.pUse + use } where
  free k z hz := by
    rcases hg.new k z hz with hold | ⟨-, hmade⟩
    · exact h.free k z hold
    · have hL : HeapHolds [] k z _ := HeapHolds.made hmade rfl
      rw [hmade.free, hL.freeSize]
      rfl
  use := by
    change P.pUse + use = blockUnits P.live + (hps.map PoolHeap.heads).sum
    rw [h.use, hg.use, Int.add_assoc]

/-- One heap changes, and its counters are right. -/
theorem update (h : Balanced P) {k : ℕ} {z z' : ZHeap} (hz : P.heapOf k = some z)
    {live : List HeapBlock} {use : ℤ} (hp : z.hPool = true) (hp' : z'.hPool = z.hPool)
    (hfree : z'.hFree = z'.freeSize)
    (huse : use + blockUnits P.live + z.sizes.length =
      P.pUse + blockUnits live + z'.sizes.length) :
    Balanced { P with
      aHeaps := NHeapPool.setHeap P.aHeaps k z'
      pUse := use
      live := live } where
  free j y hy := by
    have hat := NHeapPool.heapAt_setHeap (z := z') hz j
    rw [show NHeapPool.heapAt _ j = some y from hy] at hat
    split_ifs at hat
    · cases hat
      exact hfree
    · exact h.free j y hat.symm
  use := by
    have hsum := heads_setHeap hz hp' hp
    have hold := h.use
    change use = blockUnits live + (List.map PoolHeap.heads _).sum
    rw [hsum]
    omega

/-- A segment that is larger keeps a unit for the header of the rest. -/
theorem alloc (h : Balanced P) (hs : Sound P) {c : ℕ × ZHeap × ℕ} (hz : P.heapOf c.1 = some c.2.1)
    (hp : c.2.1.hPool = true) (hf : c.2.1.find (unitsOf size) = some c.2.2)
    (hu : 0 < unitsOf size) (hroom : unitsOf size < (c.2.1.seg c.2.2).sSize) :
    Balanced (P.alloc size c).1 := by
  obtain ⟨A, B, n, hL, hi, hn, hle⟩ := hs.found hz hp hf
  have hL' := hL.alloc hp hu hle
  have hlt : unitsOf size + 1 ≤ n := by omega
  rw [← hi, rest, if_pos hlt] at hL'
  have hold := h.free _ _ hz
  rw [hL.freeSize] at hold
  refine h.update hz hp (ZHeap.take_hPool _) ?_ ?_
  · rw [ZHeap.take_hFree, hL'.freeSize, hold]
    simp only [span_append, span_cons, span_nil, Cell.freeUnits]
    omega
  · rw [hL.length, hL'.length]
    simp only [blockUnits, List.map_cons, List.sum_cons, List.length_append, List.length_cons,
      List.length_nil]
    omega

theorem free_step (h : Balanced P) (hs : Sound P) (hr : P.free b = .ok Q) : Balanced Q := by
  obtain ⟨hb, z, hz, rfl⟩ := NHeapPool.free_ok hr
  obtain ⟨hp, A, B, hL, hseg⟩ := hs.block hz hb
  obtain ⟨L', d, hL', huse, hjoins, hfree, hpool, -⟩ := hL.free hp hb rfl hseg
  have hold := h.free _ _ hz
  have hunits := hjoins.freeUnits
  have hlen := hjoins.length
  rw [hL.freeSize] at hold
  refine h.update hz hp hpool ?_ ?_
  · rw [hfree, hL'.freeSize, hold]
    simp only [span_append, span_cons, Cell.freeUnits] at hunits ⊢
    omega
  · have hsum : blockUnits P.live = unitsOf b.size + blockUnits (P.live.erase b) :=
      ((List.perm_cons_erase hb).map _).sum_eq.trans List.sum_cons
    rw [hL.length, hL'.length, huse, hsum]
    simp only [List.length_append, List.length_cons] at hlen ⊢
    omega

theorem fill (h : Balanced P) (hs : Sound P) {k : ℕ} {z : ZHeap} (hz : P.heapOf k = some z)
    (hp : z.hPool = true) (p m : ℕ) (f : ℕ → UInt8) :
    Balanced { P with aHeaps := NHeapPool.setHeap P.aHeaps k (z.fill p m f) } := by
  obtain ⟨L, hL⟩ := hs.heaps _ z hz
  have hL' := hL.fill p m f
  refine h.update hz hp rfl ?_ ?_
  · rw [hL'.freeSize, ← hL.freeSize]
    exact h.free _ _ hz
  · rw [hL.length, hL'.length]

theorem malloc (h : Balanced P) (hs : Sound P) {r : NHeapPool × Option HeapBlock}
    (hr : P.malloc size mem = .ok r) (hroom : Roomy P size mem) : Balanced r.1 := by
  obtain ⟨hps, use, c, hsearch, hg, hc, rfl⟩ := NHeapPool.malloc_ok hr
  cases c with
  | none => exact h.grow hg
  | some d =>
      obtain ⟨hz, hp, hf⟩ := hc d rfl
      exact (h.grow hg).alloc (hs.grow hg) hz hp hf hroom.1 (hroom.2 hps use d.1 d.2.1 d.2.2 hsearch)

theorem realloc (h : Balanced P) (hs : Sound P) {r : NHeapPool × Option HeapBlock}
    (hr : P.realloc b size mem = .ok r) (hroom : Roomy P size mem) : Balanced r.1 := by
  obtain ⟨-, s, hm, ⟨-, rfl⟩ | ⟨new, zo, zn, Q, hnew, -, hzn, hQ, rfl⟩⟩ := NHeapPool.realloc_ok hr
  · have hbal := h.malloc hs hm hroom
    exact hbal
  · have hs' := hs.malloc hm hroom.1
    have hmem : new ∈ s.1.live := by
      rw [(NHeapPool.malloc_live hm hnew).1]
      exact List.mem_cons_self
    have hp := (hs'.block hzn hmem).1
    exact ((h.malloc hs hm hroom).fill hs' hzn hp _ _ _).free_step (hs'.fill hzn _ _ _) hQ

theorem step (h : Balanced P) (hs : Sound P) {c : HeapCall} (hc : RoomyCall P c)
    (hr : P.step c = .ok Q) : Balanced Q := by
  cases c with
  | malloc size mem =>
      obtain ⟨r, hm, rfl⟩ := except_map_ok hr
      exact h.malloc hs hm hc
  | free b => exact h.free_step hs hr
  | write b f =>
      obtain ⟨hb, z, hz, rfl⟩ := NHeapPool.write_ok hr
      exact h.fill hs hz (hs.block hz hb).1 _ _ _
  | realloc b size mem =>
      obtain ⟨r, hm, rfl⟩ := except_map_ok hr
      exact h.realloc hs hm hc

theorem init {unit max : ℕ} {dynamic best : Bool} (h : NHeapPool.init unit max dynamic best mem = some P) :
    Balanced P := by
  obtain ⟨hg, hlive⟩ := init_grown h
  have hzero : ((NHeapPool.poolHeaps unit max).map PoolHeap.heads).sum = 0 := by
    unfold NHeapPool.poolHeaps
    rw [List.map_map]
    exact List.sum_eq_zero fun x hx => by
      obtain ⟨i, -, rfl⟩ := List.mem_map.mp hx
      rfl
  refine ⟨fun k z hz => ?_, ?_⟩
  · rcases hg.new k z hz with hold | ⟨-, hmade⟩
    · exact absurd ((heapAt_poolHeaps unit max k).symm.trans hold) (by simp)
    · have hL : HeapHolds [] k z _ := HeapHolds.made hmade rfl
      rw [hmade.free, hL.freeSize]
      rfl
  · rw [hlive, hg.use, hzero, Int.zero_add]
    exact (Int.zero_add _).symm

end Balanced

theorem RoomyCall.sized {P : NHeapPool} {c : HeapCall} (h : RoomyCall P c) : Sized P c := by
  cases c with
  | malloc size mem => exact h.1
  | free b => trivial
  | write b f => trivial
  | realloc b size mem => exact h.1

/-- A row without blocks is one free segment. -/
theorem HeapHolds.empty {k : ℕ} {z : ZHeap} {L : List Cell} (h : HeapHolds [] k z L) :
    L = [.free (z.hLast - 1)] := by
  have hblocks : blocks k L = [] := h.perm.symm.eq_nil
  have hall : ∀ c ∈ L, c.IsFree := by
    intro c hc
    cases c with
    | free n => exact ⟨n, rfl⟩
    | block size =>
        obtain ⟨A, B, rfl⟩ := List.append_of_mem hc
        have hmem : (⟨k, span Cell.len A, size⟩ : HeapBlock) ∈ blocks k (A ++ .block size :: B) :=
          mem_blocks.mpr ⟨rfl, A, B, rfl, rfl⟩
        rw [hblocks] at hmem
        cases hmem
  have hlast := h.last
  have hpos := h.pos
  cases L with
  | nil =>
      rw [span_nil] at hlast
      omega
  | cons c L =>
      obtain ⟨n, rfl⟩ := hall c List.mem_cons_self
      cases L with
      | nil =>
          rw [span_cons, span_nil, Cell.len, Cell.units] at hlast
          rw [hlast]
          rfl
      | cons d L =>
          -- the second would be a free neighbour
          exact absurd ⟨⟨n, rfl⟩, hall d (List.mem_cons_of_mem _ List.mem_cons_self)⟩
            ((List.isChain_cons.mp h.joined).1 d rfl)

/-- The heaps of a pool that are made -/
def madeHeaps (P : NHeapPool) : ℕ := P.aHeaps.countP fun hp => hp.heap?.any (·.hPool)

theorem heads_empty {P : NHeapPool} (hs : Sound P) (hlive : P.live = []) :
    (P.aHeaps.map PoolHeap.heads).sum = 2 * madeHeaps P := by
  have hheads : ∀ hp ∈ P.aHeaps,
      hp.heads = if hp.heap?.any (·.hPool) then 2 else 0 := by
    intro hp hmem
    unfold PoolHeap.heads
    cases hz : hp.heap? with
    | none => rfl
    | some z =>
        obtain ⟨k, hk⟩ := List.mem_iff_getElem?.mp hmem
        obtain ⟨L, hL⟩ := hs.heaps k z (by rw [NHeapPool.heapOf, NHeapPool.heapAt, hk]; exact hz)
        rw [hlive] at hL
        rw [Option.elim_some, Option.any_some, hL.length, hL.empty]
        rfl
  rw [List.map_congr_left hheads, madeHeaps]
  generalize P.aHeaps = hps
  induction hps with
  | nil => rfl
  | cons hp hps ih =>
      rw [List.map_cons, List.sum_cons, ih, List.countP_cons]
      split_ifs <;> omega

/-- In every run in which each allocation takes a unit at least, from a larger segment, `h_free` of
each heap are the units of its free segments, and `p_Use` are the units of the blocks that callers
have and the headers of the heaps. When callers have none, `h_free` is what `_hinit` has set,
and `p_Use` two units for each heap that is made. -/
theorem NHeapPool.counters {unit max : ℕ} {dynamic best : Bool} {mem : ℕ → Option HeapMem}
    {P₀ P : NHeapPool} {cs : List HeapCall}
    (h₀ : NHeapPool.init unit max dynamic best mem = some P₀)
    (hrun : run NHeapPool.step P₀ cs = .ok P) (hroom : Along NHeapPool.step RoomyCall P₀ cs) :
    (∀ k z, P.heapOf k = some z → z.hFree = z.freeSize) ∧
      P.pUse = blockUnits P.live + (P.aHeaps.map PoolHeap.heads).sum ∧
      (P.live = [] → (∀ k z, P.heapOf k = some z → z.hFree = z.hLast - 1) ∧
        P.pUse = 2 * madeHeaps P) := by
  have hstep : ∀ (P : NHeapPool) (c : HeapCall) (Q : NHeapPool), Sound P ∧ Balanced P →
      RoomyCall P c → P.step c = .ok Q → Sound Q ∧ Balanced Q :=
    fun _ _ _ h hc hr => ⟨h.1.step hc.sized hr, h.2.step h.1 hc hr⟩
  have hinv := run_invariant hstep ⟨Sound.init h₀, Balanced.init h₀⟩ hroom hrun
  refine ⟨hinv.2.free, hinv.2.use, fun hlive => ⟨fun k z hz => ?_, ?_⟩⟩
  · obtain ⟨L, hL⟩ := hinv.1.heaps k z hz
    have hpos := hL.pos
    rw [hlive] at hL
    rw [hinv.2.free k z hz, hL.freeSize, hL.empty]
    simp only [span_cons, span_nil, Cell.freeUnits]
    omega
  · rw [hinv.2.use, heads_empty hinv.1 hlive, hlive]
    exact Int.zero_add _

/-- Memory of zeros -/
def zeroMem (_ : ℕ) : Option HeapMem :=
  some ⟨fun _ => ⟨none, 0, 0⟩, fun _ => 0, fun _ _ => 0⟩

/-- What a search finds can be tested. -/
theorem Roomy.of_search {P : NHeapPool} {size : ℕ} {mem : ℕ → Option HeapMem} (hu : 0 < unitsOf size)
    (h : (NHeapPool.search P.best (unitsOf size) mem 0 P.aHeaps).toOption.all (fun r =>
      r.2.2.all fun c => decide ((unitsOf size : ℤ) < (c.2.1.seg c.2.2).sSize)) = true) :
    Roomy P size mem := by
  refine ⟨hu, fun hps use k z i hs => ?_⟩
  rw [hs] at h
  exact of_decide_eq_true h

/-- A block is taken and released, and the pool is as it was. -/
theorem NHeapPool.counters_round : ∃ P₀ P, NHeapPool.init 856 1 false false zeroMem = some P₀ ∧
    run NHeapPool.step P₀ [.malloc 50 zeroMem, .free ⟨0, 0, 50⟩] = .ok P ∧
    P.live = [] ∧ P.pUse = 2 * madeHeaps P := by
  obtain ⟨P₀, h₀, hP⟩ : ∃ P₀, NHeapPool.init 856 1 false false zeroMem = some P₀ ∧
      (decide (0 < unitsOf 50) && (NHeapPool.search P₀.best (unitsOf 50) zeroMem 0
        P₀.aHeaps).toOption.all (fun r =>
          r.2.2.all fun c => decide ((unitsOf 50 : ℤ) < (c.2.1.seg c.2.2).sSize)) &&
        (run NHeapPool.step P₀ [.malloc 50 zeroMem, .free ⟨0, 0, 50⟩]).toOption.any fun P =>
          decide (P.live = [])) = true :=
    option_any (by decide +kernel)
  rw [Bool.and_eq_true, Bool.and_eq_true] at hP
  obtain ⟨P, hrun, hlive⟩ := except_any hP.2
  have hroom : Roomy P₀ 50 zeroMem := .of_search (of_decide_eq_true hP.1.1) hP.1.2
  have hcounters := NHeapPool.counters h₀ hrun ⟨hroom, fun _ _ => ⟨trivial, fun _ _ => trivial⟩⟩
  exact ⟨P₀, P, h₀, hrun, of_decide_eq_true hlive, (hcounters.2.2 (of_decide_eq_true hlive)).2⟩

/-- `p_Use` counts the headers of a pool without blocks, and that of a free segment between two
blocks. -/
theorem NHeapPool.use_not_blocks : ∃ P₀ P, NHeapPool.init 856 1 false false zeroMem = some P₀ ∧
    run NHeapPool.step P₀ [.malloc 1 zeroMem, .malloc 1 zeroMem, .malloc 1 zeroMem,
      .free ⟨0, 2, 1⟩] = .ok P ∧
    P₀.live = [] ∧ P₀.pUse ≠ 0 ∧
    P.pUse - P₀.pUse ≠ (P.live.map fun b => (unitsOf b.size + 1 : ℤ)).sum := by
  obtain ⟨P₀, h₀, hP⟩ : ∃ P₀, NHeapPool.init 856 1 false false zeroMem = some P₀ ∧
      (decide (P₀.live = [] ∧ P₀.pUse ≠ 0) && (run NHeapPool.step P₀ [.malloc 1 zeroMem,
        .malloc 1 zeroMem, .malloc 1 zeroMem, .free ⟨0, 2, 1⟩]).toOption.any fun P =>
          decide (P.pUse - P₀.pUse ≠ (P.live.map fun b => (unitsOf b.size + 1 : ℤ)).sum)) = true :=
    option_any (by decide +kernel)
  rw [Bool.and_eq_true] at hP
  obtain ⟨P, hrun, hne⟩ := except_any hP.2
  have hempty := of_decide_eq_true hP.1
  exact ⟨P₀, P, h₀, hrun, hempty.1, hempty.2, of_decide_eq_true hne⟩

end PaxosSolutions.NWGadget
