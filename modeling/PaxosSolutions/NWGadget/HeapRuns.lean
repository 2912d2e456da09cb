import PaxosSolutions.NWGadget.HeapRelease

/-!
# Pools over runs

Each heap of a pool has a row, and the blocks of the row are those that callers
have. Heaps that are made on the way have one free segment. A call that takes a
unit at least keeps this.
-/
namespace PaxosSolutions.NWGadget
open Lib Lib.Tiles

namespace ZHeap
variable {z : ZHeap} {L : List Cell}

/-- `HEAP_FREE_SIZE` as the sum over the free segments -/
def freeSize (z : ZHeap) : ℤ := (z.sizes.filter (0 < ·)).sum

theorem walk_row {p : Option ℕ} {i n : ℕ} (h : Row z.seg p i L)
    (hlast : z.hLast = i + span Cell.len L) (hn : span Cell.len L ≤ n) :
    z.walk n i = L.map Cell.signed := by
  induction L generalizing p i n with
  | nil =>
      rw [span_nil, Nat.add_zero] at hlast
      cases n with
      | zero => rfl
      | succ n => exact if_neg (by omega)
  | cons c L ih =>
      rw [span_cons] at hlast hn
      have hlen : c.len = c.units + 1 := rfl
      have hsize := h.2.1.signed
      have habs : (z.seg i).sSize.natAbs = c.units := by
        rw [hsize]
        cases c with
        | free n => exact Int.natAbs_natCast n
        | block size => exact (Int.natAbs_neg _).trans (Int.natAbs_natCast _)
      obtain ⟨n, rfl⟩ : ∃ m, n = m + 1 := ⟨n - 1, by omega⟩
      rw [walk, if_pos (by omega), hsize, ← hsize, habs, hsize, List.map_cons,
        show i + 1 + c.units = i + c.len by omega]
      rw [ih h.2.2 (by omega) (by omega)]

/-- The walk of the statistics sees the row. -/
theorem sizes_row (h : Row z.seg none 0 L) (hlast : z.hLast = span Cell.len L) :
    z.sizes = L.map Cell.signed :=
  walk_row h (by rw [hlast, Nat.zero_add]) hlast.ge

theorem freeSize_row (h : Row z.seg none 0 L) (hlast : z.hLast = span Cell.len L) :
    z.freeSize = span Cell.freeUnits L := by
  rw [freeSize, sizes_row h hlast]
  clear h hlast
  induction L with
  | nil => rfl
  | cons c L ih =>
      rw [List.map_cons, List.filter_cons, span_cons, Nat.cast_add, ← ih]
      cases c with
      | free n =>
          split_ifs with hn
          · rw [List.sum_cons]
            rfl
          · have hz : n = 0 := by
              simpa using hn
            rw [Cell.freeUnits, hz, Nat.cast_zero, Int.zero_add]
      | block size =>
          rw [if_neg (by simp)]
          exact (Int.zero_add _).symm

end ZHeap

namespace PoolHeap

/-- The headers of a heap that its pool counts -/
def heads (hp : PoolHeap) : ℤ :=
  hp.heap?.elim 0 fun z => if z.hPool then z.sizes.length + 1 else 0

end PoolHeap

/-- A heap that is just made -/
structure Made (z : ZHeap) : Prop where
  pos : 0 < z.hLast
  row : Row z.seg none 0 [.free (z.hLast - 1)]
  linked : z.hPool = true → Linked z.frees [.free (z.hLast - 1)]
  free : z.hFree = (z.hLast - 1 : ℕ)

/-- What `_hinit` makes of memory -/
theorem hinit_eq {m : HeapMem} {bytes lowHigh : ℕ} {best : Bool} {r : ZHeap × ℤ}
    (h : ZHeap.hinit m bytes lowHigh best = some r) :
    ∃ n : ℕ, r.2 = int32 n ∧ r.1.hLast = n + 1 ∧ r.1.hFree = n ∧ r.1.frees = [0] ∧ r.1.hPool = false ∧
      r.1.seg = Function.update (Function.update m.seg 0 ⟨none, n, (m.seg 0).dLink⟩) (n + 1)
        ⟨some 0, -1, 0⟩ := by
  unfold ZHeap.hinit at h
  by_cases hb : bytes ≤ sizeofZHeap + 2 * sizeofSeg
  · rw [if_pos hb] at h
    cases h
  · rw [if_neg hb] at h
    dsimp only at h
    generalize (bytes - (sizeofZHeap + 2 * sizeofSeg)) / sizeofSeg = n at h
    rw [← Option.some.inj h]
    refine ⟨n, ?_, ?_, ?_, ?_, ?_, ?_⟩
    · dsimp only
    · split_ifs <;> rfl
    · split_ifs <;> rfl
    · split_ifs <;> rfl
    · split_ifs <;> rfl
    · split_ifs <;> rfl

theorem made_hinit {m : HeapMem} {bytes lowHigh : ℕ} {best pool : Bool} {r : ZHeap × ℤ}
    (h : ZHeap.hinit m bytes lowHigh best = some r) (hp : pool = true → r.2 ≠ 0) :
    Made { r.1 with hPool := pool } := by
  obtain ⟨n, hr, hlast, hfree, hfrees, -, hseg⟩ := hinit_eq h
  have hn : r.1.hLast - 1 = n := by omega
  refine ⟨?_, ?_, fun hpool => ?_, ?_⟩
  · exact hlast ▸ Nat.succ_pos n
  · change Row r.1.seg none 0 [.free (r.1.hLast - 1)]
    rw [hn, hseg]
    refine ⟨?_, ?_, ?_, ?_⟩
    · rw [Function.update_of_ne (by omega), Function.update_self]
    · rw [Function.update_of_ne (by omega), Function.update_self]
      rfl
    · rw [Nat.zero_add, Cell.len, Cell.units, Function.update_self]
    · rw [Nat.zero_add, Cell.len, Cell.units, Function.update_self]
  · change Linked r.1.frees [.free (r.1.hLast - 1)]
    rw [hn, hfrees]
    have hpos : 0 < n := by
      refine Nat.pos_of_ne_zero fun hz => hp hpool ?_
      rw [hr, hz]
      rfl
    refine ⟨List.nodup_singleton 0, fun i hi => ⟨n, hpos, ?_⟩⟩
    rw [List.mem_singleton.mp hi]
    exact List.mem_singleton.mpr rfl
  · change r.1.hFree = (r.1.hLast - 1 : ℕ)
    rw [hn, hfree]

theorem Made.heads {z : ZHeap} {hp : PoolHeap} (h : Made z) (hz : hp.heap? = some z) :
    hp.heads = if z.hPool then 2 else 0 := by
  have hlast : z.hLast = span Cell.len [.free (z.hLast - 1)] := by
    have hpos := h.pos
    simp only [span_cons, span_nil, Cell.len, Cell.units]
    omega
  rw [PoolHeap.heads, hz, Option.elim_some, ZHeap.sizes_row h.row hlast]
  rfl

/-- Heaps that are the same, or made since. `use` are the headers of those made. -/
structure HeapsGrown (hps hps' : List PoolHeap) (use : ℤ) : Prop where
  old : ∀ k z, NHeapPool.heapAt hps k = some z → NHeapPool.heapAt hps' k = some z
  new : ∀ k z, NHeapPool.heapAt hps' k = some z →
    NHeapPool.heapAt hps k = some z ∨
      (NHeapPool.heapAt hps k = none ∧ Made z)
  use : (hps'.map PoolHeap.heads).sum = (hps.map PoolHeap.heads).sum + use

namespace HeapsGrown
variable {hps hps' : List PoolHeap} {hp hp' : PoolHeap} {use use' : ℤ}

theorem refl : HeapsGrown hps hps 0 := ⟨fun _ _ h => h, fun _ _ h => .inl h, (Int.add_zero _).symm⟩

theorem cons (h : HeapsGrown hps hps' use) (h' : HeapsGrown [hp] [hp'] use') :
    HeapsGrown (hp :: hps) (hp' :: hps') (use' + use) where
  old k := by
    cases k with
    | zero => exact h'.old 0
    | succ k => exact h.old k
  new k := by
    cases k with
    | zero => exact h'.new 0
    | succ k => exact h.new k
  use := by
    have hu := h'.use
    simp only [List.map_cons, List.map_nil, List.sum_cons, List.sum_nil, Int.add_zero] at hu ⊢
    rw [h.use, hu]
    omega

theorem single (h : hp'.heap? = hp.heap?) : HeapsGrown [hp] [hp'] 0 where
  old k z hk := by
    cases k with
    | zero => exact h.trans hk
    | succ k => exact hk
  new k z hk := by
    cases k with
    | zero => exact .inl (h.symm.trans hk)
    | succ k => exact .inl hk
  use := by
    simp only [List.map_cons, List.map_nil, List.sum_cons, List.sum_nil, PoolHeap.heads, h,
      Int.add_zero]

theorem made {z : ZHeap} (h : hp.heap? = none) (h' : hp'.heap? = some z) (hz : Made z) :
    HeapsGrown [hp] [hp'] (if z.hPool then 2 else 0) where
  old k z hk := by
    cases k with
    | zero => exact absurd (h.symm.trans hk) (by simp)
    | succ k => cases hk
  new k z' hk := by
    cases k with
    | zero =>
        cases Option.some.inj (h'.symm.trans hk)
        exact .inr ⟨h, hz⟩
    | succ k => cases hk
  use := by
    have hnone : hp.heads = 0 := by
      rw [PoolHeap.heads, h]
      rfl
    simp only [List.map_cons, List.map_nil, List.sum_cons, List.sum_nil, hz.heads h', hnone,
      Int.zero_add, Int.add_zero]

end HeapsGrown

theorem openHeap_grown (hp : PoolHeap) (best : Bool) (mem : Option HeapMem) :
    HeapsGrown [hp] [(hp.openHeap best mem).1] (hp.openHeap best mem).2.1 := by
  unfold PoolHeap.openHeap
  cases hh : hp.hHeap with
  | ready z => exact .refl
  | refused => exact .refl
  | absent =>
      have hnone : hp.heap? = none := by
        rw [PoolHeap.heap?, hh]
      cases mem with
      | none => exact .refl
      | some m =>
          rw [Option.elim_some]
          cases hi : ZHeap.hinit m hp.hSize hp.hLowHigh best with
          | none =>
              refine HeapsGrown.single ?_
              rw [hnone]
              rfl
          | some r =>
              rw [Option.elim_some]
              split_ifs with hz
              · have hpool : r.1.hPool = false := (hinit_eq hi).choose_spec.2.2.2.2.1
                have hm : Made { r.1 with hPool := false } :=
                  made_hinit hi fun h => absurd h Bool.false_ne_true
                rw [← hpool] at hm
                have hg : HeapsGrown [hp] [{ hp with hHeap := .ready r.1 }] _ := .made hnone rfl hm
                rwa [hpool] at hg
              · have hm : Made { r.1 with hPool := true } := made_hinit hi fun _ => hz
                exact HeapsGrown.made hnone rfl hm

/-- The heaps of a pool that are made at once -/
theorem openAll_grown {best : Bool} {mem : ℕ → Option HeapMem} {hps : List PoolHeap}
    {r : List PoolHeap × ℤ} {k : ℕ} (h : NHeapPool.openAll best mem k hps = some r) :
    HeapsGrown hps r.1 r.2 := by
  induction hps generalizing k r with
  | nil =>
      cases h
      exact .refl
  | cons hp hps ih =>
      rw [NHeapPool.openAll] at h
      split_ifs at h
      obtain ⟨s, hs, rfl⟩ := Option.map_eq_some_iff.mp h
      exact (ih hs).cons (openHeap_grown hp best _)

/-- The heaps after a search, and the segment that it has found -/
theorem search_grown {best : Bool} {u : ℕ} {mem : ℕ → Option HeapMem} {hps : List PoolHeap} {k : ℕ}
    {r : List PoolHeap × ℤ × Option (ℕ × ZHeap × ℕ)}
    (h : NHeapPool.search best u mem k hps = .ok r) :
    HeapsGrown hps r.1 r.2.1 ∧ ∀ c, r.2.2 = some c → ∃ j, c.1 = k + j ∧
      NHeapPool.heapAt r.1 j = some c.2.1 ∧ c.2.1.hPool = true ∧ c.2.1.find u = some c.2.2 := by
  induction hps generalizing k r with
  | nil =>
      cases h
      exact ⟨.refl, fun c hc => absurd hc (by simp)⟩
  | cons hp hps ih =>
      have ho := openHeap_grown hp best (mem k)
      rw [NHeapPool.search] at h
      split_ifs at h with hopen
      · cases h
        exact ⟨by simpa using HeapsGrown.refl.cons ho, fun c hc => absurd hc (by simp)⟩
      · cases hz : (hp.openHeap best (mem k)).1.heap? with
        | none =>
            rw [hz] at h
            cases h
        | some z =>
            rw [hz, Option.elim_some] at h
            cases hf : z.find u with
            | none =>
                rw [hf, Option.elim_none] at h
                obtain ⟨s, hs, rfl⟩ := except_map_ok h
                obtain ⟨hg, hc⟩ := ih hs
                refine ⟨hg.cons ho, fun c hsome => ?_⟩
                obtain ⟨j, hj, hat, hrest⟩ := hc c hsome
                exact ⟨j + 1, by omega, hat, hrest⟩
            | some i =>
                rw [hf, Option.elim_some] at h
                split_ifs at h with hpool
                cases h
                refine ⟨by simpa using HeapsGrown.refl.cons ho, fun c hc => ?_⟩
                rw [← Option.some.inj hc]
                exact ⟨0, rfl, hz, hpool, hf⟩

theorem blocks_nodup (k : ℕ) (L : List Cell) : (blocks k L).Nodup := by
  refine List.Pairwise.filterMap (blockAt k) ?_ (places_sorted (fun _ => Nat.succ_pos _) 0 L)
  rintro ⟨i, c⟩ ⟨j, d⟩ hlt b hb b' hb' rfl
  cases c with
  | free n => cases hb
  | block size =>
      cases d with
      | free n => cases hb'
      | block size' =>
          have he := congrArg HeapBlock.seg (Option.some.inj (hb.trans hb'.symm))
          exact absurd he hlt.ne

/-- The heap `k` has the row `L`, and its blocks are those that callers have. -/
structure HeapHolds (live : List HeapBlock) (k : ℕ) (z : ZHeap) (L : List Cell) : Prop where
  pos : 0 < z.hLast
  fits : z.hPool = true → Fits z L
  bare : z.hPool = false → L = [.free (z.hLast - 1)] ∧ Row z.seg none 0 L
  perm : (live.filter (·.heap = k)).Perm (blocks k L)

namespace HeapHolds
variable {live : List HeapBlock} {k n size : ℕ} {z : ZHeap} {L A B : List Cell} {b : HeapBlock}

theorem row (h : HeapHolds live k z L) : Row z.seg none 0 L := by
  cases hp : z.hPool with
  | false => exact (h.bare hp).2
  | true => exact (h.fits hp).row

theorem last (h : HeapHolds live k z L) : z.hLast = span Cell.len L := by
  cases hp : z.hPool with
  | false =>
      have hpos := h.pos
      rw [(h.bare hp).1]
      simp only [span_cons, span_nil, Cell.len, Cell.units]
      omega
  | true => exact (h.fits hp).last

theorem joined (h : HeapHolds live k z L) : Joined L := by
  cases hp : z.hPool with
  | false =>
      rw [(h.bare hp).1]
      exact List.isChain_singleton _
  | true => exact (h.fits hp).joined

/-- A block that a caller has is one of the row. -/
theorem block (h : HeapHolds live k z L) (hb : b ∈ live) (hk : b.heap = k) : z.hPool = true ∧
    ∃ A B, L = A ++ .block b.size :: B ∧ b.seg = span Cell.len A := by
  have hmem := h.perm.mem_iff.mp (List.mem_filter.mpr ⟨hb, decide_eq_true hk⟩)
  refine ⟨?_, (mem_blocks.mp hmem).2⟩
  cases hp : z.hPool with
  | true => rfl
  | false =>
      rw [(h.bare hp).1] at hmem
      cases hmem

theorem made (hz : Made z) (hk : live.filter (·.heap = k) = []) :
    HeapHolds live k z [.free (z.hLast - 1)] where
  pos := hz.pos
  fits hp := by
    refine ⟨hz.row, ?_, hz.linked hp, List.isChain_singleton _⟩
    have hpos := hz.pos
    simp only [span_cons, span_nil, Cell.len, Cell.units]
    omega
  bare _ := ⟨rfl, hz.row⟩
  perm := by
    rw [hk]
    exact List.Perm.nil

theorem alloc (h : HeapHolds live k z (A ++ .free n :: B)) (hp : z.hPool = true)
    (hu : 0 < unitsOf size) (hn : unitsOf size ≤ n) :
    HeapHolds (⟨k, span Cell.len A, size⟩ :: live) k (z.take (span Cell.len A) (unitsOf size))
      (A ++ .block size :: (rest n (unitsOf size) ++ B)) where
  pos := by
    rw [ZHeap.take_hLast]
    exact h.pos
  fits _ := (h.fits hp).take hu hn
  bare hf := by
    rw [ZHeap.take_hPool, hp] at hf
    cases hf
  perm := by
    have hspan : span Cell.len (.block size :: rest n (unitsOf size)) = n + 1 := by
      rw [span_cons, Cell.len, Cell.units, span_rest hn]
    have hrest : ∀ i, (places Cell.len i (rest n (unitsOf size))).filterMap (blockAt k) = [] := by
      intro i
      unfold rest
      split_ifs <;> rfl
    have hblock : (places Cell.len (span Cell.len A)
        (.block size :: rest n (unitsOf size))).filterMap (blockAt k) =
          [⟨k, span Cell.len A, size⟩] :=
      congrArg (List.cons _) (hrest _)
    have hold := blocks_mid k (A := A) (B := B) (X := [.free n]) (n := n + 1) rfl
    have hnew := blocks_mid k (A := A) (B := B) hspan
    rw [hblock, List.cons_append] at hnew
    rw [List.filter_cons, if_pos (decide_eq_true rfl), hnew]
    refine (h.perm.cons _).trans ?_
    refine (List.Perm.of_eq ?_).trans List.perm_middle.symm
    exact congrArg _ hold

/-- A release takes the block from the row. -/
theorem free (h : HeapHolds live k z (A ++ .block b.size :: B)) (hp : z.hPool = true) (hb : b ∈ live)
    (hk : b.heap = k) (hs : b.seg = span Cell.len A) :
    ∃ L d, HeapHolds (live.erase b) k (z.hfree b.seg).1 L ∧
      (z.hfree b.seg).2 = (unitsOf b.size + d : ℕ) ∧
      Joins (A ++ .free (unitsOf b.size) :: B) L d ∧
      (z.hfree b.seg).1.hFree = z.hFree + (unitsOf b.size + d : ℕ) ∧
      (z.hfree b.seg).1.hPool = z.hPool ∧
      Kept (A ++ .block b.size :: B) z (z.hfree b.seg).1 := by
  obtain ⟨L, d, hfits, huse, hjoins, hfree, hpool, hkept⟩ := (h.fits hp).hfree
  rw [← hs] at hfits huse hfree hpool hkept
  refine ⟨L, d, ⟨?_, fun _ => hfits, fun hf => ?_, ?_⟩, huse, hjoins, hfree, hpool, hkept⟩
  · rw [hfits.last, hjoins.reach, span_append, span_cons]
    exact Nat.lt_of_lt_of_le (Nat.succ_pos _) (Nat.le_add_left _ _ |>.trans' (Nat.le_add_right _ _))
  · rw [hpool, hp] at hf
    cases hf
  · have hmid := blocks_mid k (A := A) (B := B) (X := [.block b.size]) (n := unitsOf b.size + 1) rfl
    have hold := blocks_mid k (A := A) (B := B) (X := [.free (unitsOf b.size)])
      (n := unitsOf b.size + 1) rfl
    have hblock : (places Cell.len (span Cell.len A) [.block b.size]).filterMap (blockAt k) = [b] := by
      rw [← hs, ← hk]
      rfl
    have hlive := (List.perm_cons_erase hb).filter (·.heap = k)
    rw [List.filter_cons, if_pos (decide_eq_true hk)] at hlive
    rw [hblock] at hmid
    rw [hjoins.blocks]
    refine List.Perm.cons_inv (hlive.symm.trans (h.perm.trans ?_)) (a := b)
    refine (List.Perm.of_eq hmid).trans (List.perm_middle.trans ?_)
    exact (List.Perm.of_eq hold.symm).cons b

/-- What the caller writes is not in the row. -/
theorem fill (h : HeapHolds live k z L) (p m : ℕ) (f : ℕ → UInt8) : HeapHolds live k (z.fill p m f) L where
  pos := h.pos
  fits hp := ⟨(h.fits hp).row, (h.fits hp).last, (h.fits hp).linked, (h.fits hp).joined⟩
  bare := h.bare
  perm := h.perm

end HeapHolds

/-- A pool whose heaps have rows -/
structure Sound (P : NHeapPool) : Prop where
  heaps : ∀ k z, P.heapOf k = some z → ∃ L, HeapHolds P.live k z L
  live : ∀ b ∈ P.live, ∃ z, P.heapOf b.heap = some z

namespace NHeapPool
variable {P Q : NHeapPool} {b new : HeapBlock} {size : ℕ} {mem : ℕ → Option HeapMem}

theorem heapAt_setHeap {hps : List PoolHeap} {k : ℕ} {z z₀ : ZHeap} (h : heapAt hps k = some z₀)
    (j : ℕ) : heapAt (setHeap hps k z) j = if j = k then some z else heapAt hps j := by
  unfold heapAt setHeap
  rw [List.getElem?_modify]
  by_cases hj : j = k
  · rw [if_pos hj, hj]
    obtain ⟨hp, hget, -⟩ := Option.bind_eq_some_iff.mp h
    rw [hget, Option.map_eq_map, Option.map_some, if_pos rfl]
    rfl
  · rw [if_neg hj]
    cases hps[j]? with
    | none => rfl
    | some hp =>
        rw [Option.map_eq_map, Option.map_some, if_neg (Ne.symm hj)]

/-- What `NHeapMalloc` has done -/
theorem malloc_ok {r : NHeapPool × Option HeapBlock} (h : P.malloc size mem = .ok r) :
    ∃ (hps : List PoolHeap) (use : ℤ) (c : Option (ℕ × ZHeap × ℕ)),
      search P.best (unitsOf size) mem 0 P.aHeaps = .ok (hps, use, c) ∧
      HeapsGrown P.aHeaps hps use ∧
      (∀ d, c = some d → heapAt hps d.1 = some d.2.1 ∧ d.2.1.hPool = true ∧
        d.2.1.find (unitsOf size) = some d.2.2) ∧
      r = c.elim ({ P with
        aHeaps := hps
        pUse := P.pUse + use }, none) (alloc { P with
        aHeaps := hps
        pUse := P.pUse + use } size) := by
  obtain ⟨⟨hps, use, c⟩, hs, rfl⟩ := except_map_ok h
  obtain ⟨hg, hc⟩ := search_grown hs
  refine ⟨hps, use, c, hs, hg, fun d hd => ?_, rfl⟩
  obtain ⟨j, hj, hat, hrest⟩ := hc d hd
  rw [Nat.zero_add] at hj
  exact ⟨hj ▸ hat, hrest⟩

/-- The block of `NHeapMalloc` is one that the caller has now. -/
theorem malloc_live {r : NHeapPool × Option HeapBlock} (h : P.malloc size mem = .ok r)
    (hn : r.2 = some new) : r.1.live = new :: P.live ∧ new.size = size := by
  obtain ⟨hps, use, c, -, -, -, rfl⟩ := malloc_ok h
  cases c with
  | none => cases hn
  | some d =>
      cases hn
      exact ⟨rfl, rfl⟩

theorem free_ok (h : P.free b = .ok Q) : b ∈ P.live ∧ ∃ z, P.heapOf b.heap = some z ∧
    Q = { P with
      aHeaps := setHeap P.aHeaps b.heap (z.hfree b.seg).1
      pUse := P.pUse - (z.hfree b.seg).2
      live := P.live.erase b } := by
  unfold free at h
  split_ifs at h with hb
  cases hz : P.heapOf b.heap with
  | none =>
      rw [hz] at h
      cases h
  | some z =>
      rw [hz] at h
      exact ⟨hb, z, rfl, (Except.ok.inj h).symm⟩

theorem write_ok {f : ℕ → UInt8} (h : P.write b f = .ok Q) : b ∈ P.live ∧
    ∃ z, P.heapOf b.heap = some z ∧
      Q = { P with aHeaps := setHeap P.aHeaps b.heap (z.fill b.body b.size f) } := by
  unfold write at h
  split_ifs at h with hb
  cases hz : P.heapOf b.heap with
  | none =>
      rw [hz] at h
      cases h
  | some z =>
      rw [hz] at h
      exact ⟨hb, z, rfl, (Except.ok.inj h).symm⟩

/-- What `NHeapRealloc` has done -/
theorem realloc_ok {r : NHeapPool × Option HeapBlock} (h : P.realloc b size mem = .ok r) :
    b ∈ P.live ∧ ∃ s, P.malloc size mem = .ok s ∧
      ((s.2 = none ∧ r = (s.1, none)) ∨ ∃ new zo zn Q, s.2 = some new ∧
        s.1.heapOf b.heap = some zo ∧ s.1.heapOf new.heap = some zn ∧
        (s.1.copy b new size zo zn).free b = .ok Q ∧ r = (Q, some new)) := by
  unfold realloc at h
  split_ifs at h with hb
  refine ⟨hb, ?_⟩
  obtain ⟨⟨S, new⟩, hs, h⟩ := except_bind_ok h
  refine ⟨(S, new), hs, ?_⟩
  cases new with
  | none => exact .inl ⟨rfl, (Except.ok.inj h).symm⟩
  | some new =>
      rw [Option.elim_some] at h
      cases hzo : S.heapOf b.heap with
      | none =>
          rw [hzo] at h
          cases h
      | some zo =>
          cases hzn : S.heapOf new.heap with
          | none =>
              rw [hzo, hzn] at h
              cases h
          | some zn =>
              rw [hzo, hzn] at h
              obtain ⟨Q, hQ, hr⟩ := except_map_ok h
              exact .inr ⟨new, zo, zn, Q, rfl, rfl, hzn, hQ, hr.symm⟩

end NHeapPool

namespace Sound
variable {P Q : NHeapPool} {b : HeapBlock} {size k : ℕ} {mem : ℕ → Option HeapMem}

/-- Heaps are made. -/
theorem grow (h : Sound P) {hps : List PoolHeap} {use use' : ℤ} (hg : HeapsGrown P.aHeaps hps use) :
    Sound { P with
      aHeaps := hps
      pUse := use' } where
  heaps k z hz := by
    rcases hg.new k z hz with hold | ⟨hnone, hmade⟩
    · exact h.heaps k z hold
    · refine ⟨_, HeapHolds.made hmade (List.filter_eq_nil_iff.mpr fun b hb hk => ?_)⟩
      obtain ⟨z', hz'⟩ := h.live b hb
      rw [of_decide_eq_true hk] at hz'
      exact absurd (hnone.symm.trans hz') (by simp)
  live b hb := (h.live b hb).imp fun z hz => hg.old b.heap z hz

/-- One heap and its blocks change. -/
theorem update (h : Sound P) {z z' : ZHeap} (hz : P.heapOf k = some z) {live : List HeapBlock}
    {use : ℤ} {L : List Cell} (hL : HeapHolds live k z' L)
    (hother : ∀ j, j ≠ k → (live.filter (·.heap = j)).Perm (P.live.filter (·.heap = j))) :
    Sound { P with
      aHeaps := NHeapPool.setHeap P.aHeaps k z'
      pUse := use
      live := live } where
  heaps j y hy := by
    have hat := NHeapPool.heapAt_setHeap (z := z') hz j
    rw [show NHeapPool.heapAt _ j = some y from hy] at hat
    split_ifs at hat with hj
    · cases hat
      exact ⟨L, hj ▸ hL⟩
    · obtain ⟨L', hL'⟩ := h.heaps j y hat.symm
      exact ⟨L', ⟨hL'.pos, hL'.fits, hL'.bare, (hother j hj).trans hL'.perm⟩⟩
  live b hb := by
    have hat := NHeapPool.heapAt_setHeap (z := z') hz b.heap
    by_cases hj : b.heap = k
    · rw [if_pos hj] at hat
      exact ⟨z', hat⟩
    · rw [if_neg hj] at hat
      have hmem := (hother b.heap hj).mem_iff.mp (List.mem_filter.mpr ⟨hb, decide_eq_true rfl⟩)
      obtain ⟨y, hy⟩ := h.live b (List.mem_filter.mp hmem).1
      exact ⟨y, hat.trans hy⟩

/-- A block that a caller has is one of a row. -/
theorem block (h : Sound P) {z : ZHeap} (hz : P.heapOf b.heap = some z) (hb : b ∈ P.live) :
    z.hPool = true ∧ ∃ A B, HeapHolds P.live b.heap z (A ++ .block b.size :: B) ∧
      b.seg = span Cell.len A := by
  obtain ⟨L, hL⟩ := h.heaps _ z hz
  obtain ⟨hp, A, B, rfl, hs⟩ := hL.block hb rfl
  exact ⟨hp, A, B, hL, hs⟩

/-- The bytes of a heap change. -/
theorem fill (h : Sound P) {z : ZHeap} (hz : P.heapOf k = some z) (p m : ℕ) (f : ℕ → UInt8) :
    Sound { P with aHeaps := NHeapPool.setHeap P.aHeaps k (z.fill p m f) } := by
  obtain ⟨L, hL⟩ := h.heaps k z hz
  exact h.update hz (hL.fill p m f) fun _ _ => List.Perm.refl _

/-- The segment that a search has found -/
theorem found (h : Sound P) {c : ℕ × ZHeap × ℕ} {u : ℕ} (hz : P.heapOf c.1 = some c.2.1)
    (hp : c.2.1.hPool = true) (hf : c.2.1.find u = some c.2.2) :
    ∃ (A B : List Cell) (n : ℕ), HeapHolds P.live c.1 c.2.1 (A ++ .free n :: B) ∧
      c.2.2 = span Cell.len A ∧ (c.2.1.seg c.2.2).sSize = n ∧ u ≤ n := by
  obtain ⟨L, hL⟩ := h.heaps c.1 c.2.1 hz
  obtain ⟨A, B, n, rfl, hi, hs, hn⟩ := (hL.fits hp).find hf
  exact ⟨A, B, n, hL, hi, hs, hn⟩

theorem alloc (h : Sound P) {c : ℕ × ZHeap × ℕ} (hz : P.heapOf c.1 = some c.2.1)
    (hp : c.2.1.hPool = true) (hf : c.2.1.find (unitsOf size) = some c.2.2)
    (hu : 0 < unitsOf size) : Sound (P.alloc size c).1 := by
  obtain ⟨A, B, n, hL, hi, -, hn⟩ := h.found hz hp hf
  have hL' := hL.alloc hp hu hn
  rw [← hi] at hL'
  refine h.update hz hL' fun j hj => ?_
  rw [List.filter_cons, if_neg]
  simpa using Ne.symm hj

theorem free (h : Sound P) (hr : P.free b = .ok Q) : Sound Q := by
  obtain ⟨hb, z, hz, rfl⟩ := NHeapPool.free_ok hr
  obtain ⟨hp, A, B, hL, hs⟩ := h.block hz hb
  obtain ⟨L', d, hL', -⟩ := hL.free hp hb rfl hs
  refine h.update hz hL' fun j hj => ?_
  have hperm := (List.perm_cons_erase hb).filter (·.heap = j)
  rw [List.filter_cons, if_neg (by simpa using Ne.symm hj)] at hperm
  exact hperm.symm

theorem malloc (h : Sound P) {r : NHeapPool × Option HeapBlock} (hr : P.malloc size mem = .ok r)
    (hu : 0 < unitsOf size) : Sound r.1 := by
  obtain ⟨hps, use, c, -, hg, hc, rfl⟩ := NHeapPool.malloc_ok hr
  cases c with
  | none => exact h.grow hg
  | some d =>
      obtain ⟨hz, hp, hf⟩ := hc d rfl
      exact (h.grow hg).alloc hz hp hf hu

theorem write (h : Sound P) {f : ℕ → UInt8} (hr : P.write b f = .ok Q) : Sound Q := by
  obtain ⟨-, z, hz, rfl⟩ := NHeapPool.write_ok hr
  exact h.fill hz _ _ _

theorem realloc (h : Sound P) {r : NHeapPool × Option HeapBlock}
    (hr : P.realloc b size mem = .ok r) (hu : 0 < unitsOf size) : Sound r.1 := by
  obtain ⟨-, s, hs, ⟨-, rfl⟩ | ⟨new, zo, zn, Q, -, -, hzn, hQ, rfl⟩⟩ := NHeapPool.realloc_ok hr
  · have hsound := h.malloc hs hu
    exact hsound
  · exact ((h.malloc hs hu).fill hzn _ _ _).free hQ

end Sound

/-- An allocation of a call has a unit at least. -/
def Sized (_ : NHeapPool) : HeapCall → Prop
  | .malloc size _ => 0 < unitsOf size
  | .realloc _ size _ => 0 < unitsOf size
  | _ => True

theorem Sound.step {P Q : NHeapPool} {c : HeapCall} (h : Sound P) (hc : Sized P c)
    (hr : P.step c = .ok Q) : Sound Q := by
  cases c with
  | malloc size mem =>
      obtain ⟨r, hm, rfl⟩ := except_map_ok hr
      exact h.malloc hm hc
  | free b => exact h.free hr
  | write b f => exact h.write hr
  | realloc b size mem =>
      obtain ⟨r, hm, rfl⟩ := except_map_ok hr
      exact h.realloc hm hc

theorem heapAt_poolHeaps (unit max k : ℕ) :
    NHeapPool.heapAt (NHeapPool.poolHeaps unit max) k = none := by
  unfold NHeapPool.heapAt NHeapPool.poolHeaps
  rw [List.getElem?_map]
  cases (List.range max)[k]? with
  | none => rfl
  | some i => rfl

/-- What `NHeapPoolInit` has made -/
theorem init_grown {unit max : ℕ} {dynamic best : Bool} {mem : ℕ → Option HeapMem} {P : NHeapPool}
    (h : NHeapPool.init unit max dynamic best mem = some P) :
    HeapsGrown (NHeapPool.poolHeaps unit max) P.aHeaps P.pUse ∧ P.live = [] := by
  unfold NHeapPool.init at h
  split_ifs at h
  · cases h
    exact ⟨.refl, rfl⟩
  · obtain ⟨r, hr, rfl⟩ := Option.map_eq_some_iff.mp h
    exact ⟨openAll_grown hr, rfl⟩

theorem Sound.init {unit max : ℕ} {dynamic best : Bool} {mem : ℕ → Option HeapMem} {P : NHeapPool}
    (h : NHeapPool.init unit max dynamic best mem = some P) : Sound P := by
  obtain ⟨hg, hlive⟩ := init_grown h
  have hsound : Sound { best := best, aHeaps := NHeapPool.poolHeaps unit max } := by
    refine ⟨fun k z hz => ?_, fun b hb => absurd hb List.not_mem_nil⟩
    exact absurd ((heapAt_poolHeaps unit max k).symm.trans hz) (by simp)
  have hgrow : Sound { best := best, aHeaps := P.aHeaps, pUse := P.pUse } := hsound.grow hg
  exact ⟨fun k z hz => hlive ▸ hgrow.heaps k z hz, fun b hb => absurd (hlive ▸ hb) List.not_mem_nil⟩

end PaxosSolutions.NWGadget
