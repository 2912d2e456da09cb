import PaxosSolutions.NWGadget.HeapUse

/-!
# `NHeapRealloc`

The length of the copy is the size in the header of the old block, and that is in
units. The bytes of a block that are behind as many bytes as it has units are
not copied.
-/
namespace PaxosSolutions.NWGadget
open Lib Lib.Tiles

/-- A byte of a block is in none of the headers. -/
theorem body_inside {s i u : ℕ} (hi : i < sizeofSeg * u) :
    s < (sizeofSeg * (s + 1) + i) / sizeofSeg ∧
      (sizeofSeg * (s + 1) + i) / sizeofSeg < s + (u + 1) := by
  have hsize : sizeofSeg = 40 := rfl
  rw [hsize] at hi ⊢
  omega

theorem Kept.block {z z' : ZHeap} {A B : List Cell} {c : Cell} {i : ℕ} (h : Kept (A ++ c :: B) z z')
    (hi : i < sizeofSeg * c.units) :
    z'.byte (sizeofSeg * (span Cell.len A + 1) + i) =
      z.byte (sizeofSeg * (span Cell.len A + 1) + i) :=
  h _ (not_edge_inside (body_inside hi).1 (body_inside hi).2)

/-- A heap that is there is not made again. -/
theorem PoolHeap.openHeap_heap {hp : PoolHeap} {z : ZHeap} {best : Bool} {mem : Option HeapMem}
    (h : hp.heap? = some z) : hp.openHeap best mem = (hp, 0, true) := by
  unfold PoolHeap.heap? at h
  unfold PoolHeap.openHeap
  cases hk : hp.hHeap with
  | ready y => rfl
  | refused => rfl
  | absent =>
      rw [hk] at h
      cases h

namespace NHeapPool
variable {P Q : NHeapPool} {b b' new : HeapBlock} {size i k : ℕ} {mem : ℕ → Option HeapMem}

theorem heapAt_setHeap_some {hps : List PoolHeap} {j : ℕ} {z z₀ y : ZHeap}
    (h : heapAt hps k = some z₀) (hj : heapAt hps j = some y) :
    ∃ x, heapAt (setHeap hps k z) j = some x := by
  rw [heapAt_setHeap h]
  split_ifs
  · exact ⟨z, rfl⟩
  · exact ⟨y, hj⟩

theorem byteOf_setHeap {z₀ z : ZHeap} {use : ℤ} {live : List HeapBlock}
    (h : P.heapOf k = some z₀) (b : HeapBlock) (i : ℕ) :
    byteOf { P with
      aHeaps := setHeap P.aHeaps k z
      pUse := use
      live := live } b i =
      if b.heap = k then some (z.byte (b.body + i)) else P.byteOf b i := by
  unfold byteOf heapOf
  rw [heapAt_setHeap h]
  split_ifs
  · rfl
  · rfl

/-- A write to one heap is seen in what a search finds. -/
theorem search_setHeap {best : Bool} {u j : ℕ} {hps : List PoolHeap} {z z' : ZHeap}
    (hz : heapAt hps j = some z) (hfind : z'.find u = z.find u) (hpool : z'.hPool = z.hPool) :
    search best u mem k (setHeap hps j z') = (search best u mem k hps).map fun r =>
      (setHeap r.1 j z', r.2.1, r.2.2.map fun c =>
        (c.1, if c.1 = k + j then z' else c.2.1, c.2.2)) := by
  induction hps generalizing k j with
  | nil => cases hz
  | cons hp hps ih =>
      cases j with
      | zero =>
          have hheap : hp.heap? = some z := hz
          have hheap' : PoolHeap.heap? { hp with hHeap := .ready z' } = some z' := rfl
          rw [setHeap, List.modify_zero_cons, search, search, PoolHeap.openHeap_heap hheap,
            PoolHeap.openHeap_heap hheap']
          simp only [Bool.true_eq_false, if_false, hheap, hheap', Option.elim_some, hfind, hpool]
          cases hf : z.find u with
          | some i =>
              rw [Option.elim_some, Option.elim_some]
              split_ifs with hp'
              · simp only [Except.map, Option.map_some, Nat.add_zero, if_true]
                rfl
              · rfl
          | none =>
              rw [Option.elim_none, Option.elim_none]
              cases hs : search best u mem (k + 1) hps with
              | error e => rfl
              | ok r =>
                  have hc : r.2.2.map (fun c => (c.1, if c.1 = k + 0 then z' else c.2.1, c.2.2)) =
                      r.2.2 := by
                    cases hr : r.2.2 with
                    | none => rfl
                    | some c =>
                        obtain ⟨j, hj, -⟩ := (search_grown hs).2 c hr
                        rw [Option.map_some, if_neg (by omega)]
                  simp only [Except.map, hc]
                  rfl
      | succ j =>
          have hs := ih (k := k + 1) (j := j) hz
          rw [setHeap, List.modify_succ_cons, search, search]
          rw [setHeap] at hs
          rcases hp.openHeap best (mem k) with ⟨hp', use, ok⟩
          cases ok with
          | false =>
              simp only [if_true, Except.map, Option.map_none, setHeap, List.modify_succ_cons]
          | true =>
              simp only [Bool.true_eq_false, if_false]
              cases hh : hp'.heap? with
              | none => rfl
              | some y =>
                  rw [Option.elim_some, Option.elim_some]
                  cases hf : y.find u with
                  | some i =>
                      rw [Option.elim_some, Option.elim_some]
                      split_ifs
                      · simp only [Except.map, Option.map_some, setHeap, List.modify_succ_cons]
                        rw [if_neg (by omega)]
                      · rfl
                  | none =>
                      rw [Option.elim_none, Option.elim_none, hs]
                      cases search best u mem (k + 1) hps with
                      | error e => rfl
                      | ok r =>
                          simp only [Except.map, setHeap, List.modify_succ_cons,
                            show k + 1 + j = k + (j + 1) by omega]

theorem byteOf_alloc {c : ℕ × ZHeap × ℕ} (hz : P.heapOf c.1 = some c.2.1) (b : HeapBlock) (i : ℕ) :
    (P.alloc size c).1.byteOf b i = if b.heap = c.1 then
      some ((c.2.1.take c.2.2 (unitsOf size)).byte (b.body + i)) else P.byteOf b i :=
  byteOf_setHeap hz b i

/-- An allocation leaves the blocks as they are, and its own block as the segment was. -/
theorem alloc_kept (h : Sound P) {c : ℕ × ZHeap × ℕ} (hz : P.heapOf c.1 = some c.2.1)
    (hp : c.2.1.hPool = true) (hf : c.2.1.find (unitsOf size) = some c.2.2)
    (hu : 0 < unitsOf size) (hb : b ∈ (P.alloc size c).1.live)
    (hi : i < sizeofSeg * unitsOf b.size) :
    (P.alloc size c).1.byteOf b i = P.byteOf b i := by
  rw [byteOf_alloc hz]
  split_ifs with hk
  · obtain ⟨A, B, n, hL, hseg, -, hn⟩ := h.found hz hp hf
    have hL' := hL.alloc hp hu hn
    have hkept := (hL.fits hp).take_kept hn
    rw [← hseg] at hL' hkept
    obtain ⟨-, C, D, hCD, hs⟩ := hL'.block hb hk
    rw [hCD] at hkept
    have hbyte := hkept.block hi
    rw [← hs] at hbyte
    rw [byteOf, hk, hz, Option.map_some, HeapBlock.body, hbyte]
  · rfl

theorem grow_kept (h : Sound P) {hps : List PoolHeap} {use use' : ℤ} (hg : HeapsGrown P.aHeaps hps use)
    (hb : b ∈ P.live) :
    byteOf { P with
      aHeaps := hps
      pUse := use' } b i = P.byteOf b i := by
  obtain ⟨z, hz⟩ := h.live b hb
  unfold byteOf
  rw [hz]
  exact congrArg (Option.map _) (hg.old _ _ hz)

theorem malloc_kept (h : Sound P) {r : NHeapPool × Option HeapBlock}
    (hr : P.malloc size mem = .ok r) (hu : 0 < unitsOf size) (hb : b ∈ P.live)
    (hi : i < sizeofSeg * unitsOf b.size) : r.1.byteOf b i = P.byteOf b i := by
  obtain ⟨hps, use, c, -, hg, hc, rfl⟩ := malloc_ok hr
  cases c with
  | none => exact grow_kept h hg hb
  | some d =>
      obtain ⟨hz, hp, hf⟩ := hc d rfl
      exact (alloc_kept (h.grow hg) hz hp hf hu (List.mem_cons_of_mem _ hb) hi).trans
        (grow_kept h hg hb)

/-- A release leaves the blocks as they are. -/
theorem free_kept (h : Sound P) (hr : P.free b = .ok Q) (hb : b' ∈ P.live)
    (hi : i < sizeofSeg * unitsOf b'.size) : Q.byteOf b' i = P.byteOf b' i := by
  obtain ⟨hmem, z, hz, rfl⟩ := free_ok hr
  rw [byteOf_setHeap hz]
  split_ifs with hk
  · obtain ⟨hp, A, B, hL, hs⟩ := h.block hz hmem
    obtain ⟨L, d, -, -, -, -, -, hkept⟩ := hL.free hp hmem rfl hs
    obtain ⟨-, C, D, hCD, hs'⟩ := hL.block hb hk
    rw [hCD] at hkept
    have hbyte := hkept.block hi
    rw [← hs'] at hbyte
    rw [byteOf, hk, hz, Option.map_some, HeapBlock.body, hbyte]
  · rfl

/-- What a reallocation has copied: as many bytes as the old block has units -/
theorem copy_eq {zo zn : ZHeap} (h : Sound P) (hzo : P.heapOf b.heap = some zo)
    (hzn : P.heapOf new.heap = some zn) (hb : b ∈ P.live) :
    (P.copy b new size zo zn).byteOf new i =
      if i < min (unitsOf b.size) size then P.byteOf b i else P.byteOf new i := by
  obtain ⟨-, A, B, hL, hs⟩ := h.block hzo hb
  have hd := hL.row.drop.2.1
  rw [Nat.zero_add, ← hs] at hd
  have hlt : unitsOf b.size < 2 ^ 64 := by
    unfold unitsOf
    rw [show sizeofSeg = 40 from rfl]
    omega
  have hcp : ((-(zo.seg b.seg).sSize) % 2 ^ 64).toNat = unitsOf b.size := by
    rw [hd.1, neg_neg]
    omega
  have hn : (if unitsOf b.size < size then unitsOf b.size else size) = min (unitsOf b.size) size := by
    split_ifs <;> omega
  unfold copy
  rw [hcp, byteOf_setHeap hzn, if_pos rfl, hn, ZHeap.fill]
  dsimp only
  unfold byteOf
  rw [hzo, hzn, Option.map_some, Option.map_some, Nat.add_sub_cancel_left]
  by_cases hi : i < min (unitsOf b.size) size
  · rw [if_pos hi, if_pos ⟨Nat.le_add_right _ _, by omega⟩]
  · rw [if_neg hi, if_neg (by omega)]

/-- What `NHeapMalloc` has done when it returns a block -/
theorem malloc_some (h : P.malloc size mem = .ok (Q, some new)) :
    ∃ (hps : List PoolHeap) (use : ℤ) (c : ℕ × ZHeap × ℕ),
      search P.best (unitsOf size) mem 0 P.aHeaps = .ok (hps, use, some c) ∧
      HeapsGrown P.aHeaps hps use ∧ heapAt hps c.1 = some c.2.1 ∧ c.2.1.hPool = true ∧
      c.2.1.find (unitsOf size) = some c.2.2 ∧ new = ⟨c.1, c.2.2, size⟩ ∧
      Q = (alloc { P with
        aHeaps := hps
        pUse := P.pUse + use } size c).1 := by
  obtain ⟨hps, use, c, hs, hg, hc, hr⟩ := malloc_ok h
  cases c with
  | none => cases hr
  | some c =>
      obtain ⟨hz, hp, hf⟩ := hc c rfl
      obtain ⟨rfl, hnew⟩ := Prod.mk.inj hr
      exact ⟨hps, use, c, hs, hg, hz, hp, hf, Option.some.inj hnew, rfl⟩

/-- The segment of a search and a block lie apart. -/
theorem found_apart (h : Sound P) {c : ℕ × ZHeap × ℕ} {u : ℕ} (hz : P.heapOf c.1 = some c.2.1)
    (hp : c.2.1.hPool = true) (hf : c.2.1.find u = some c.2.2) (hb : b ∈ P.live)
    (hk : b.heap = c.1) :
    c.2.2 + (u + 1) ≤ b.seg ∨ b.seg + (unitsOf b.size + 1) ≤ c.2.2 := by
  obtain ⟨A, B, n, hL, hseg, -, hn⟩ := h.found hz hp hf
  obtain ⟨-, C, D, hCD, hs⟩ := hL.block hb hk
  have hfree : _ ∈ places Cell.len 0 _ := mem_places_mid A B (.free n)
  have hblock : _ ∈ places Cell.len 0 _ := mem_places_mid C D (.block b.size)
  rw [← hCD, ← hs] at hblock
  rw [← hseg] at hfree
  rcases apart hfree hblock with ⟨-, hcell⟩ | hle | hle
  · cases hcell
  · simp only [Cell.len, Cell.units] at hle
    omega
  · exact .inr hle

theorem malloc_ne (h : Sound P) (hm : P.malloc size mem = .ok (Q, some new)) (hb : b ∈ P.live) :
    new ≠ b := by
  obtain ⟨hps, use, c, -, hg, hz, hp, hf, rfl, -⟩ := malloc_some hm
  rintro rfl
  have hG : Sound { P with
    aHeaps := hps
    pUse := P.pUse + use } := h.grow hg
  have hle := found_apart hG hz hp hf hb rfl
  dsimp only at hle
  omega

/-- What callers have is written in their own blocks only: the new block is the same. -/
theorem malloc_write (h : Sound P) {f : ℕ → UInt8} {P₁ : NHeapPool} (hw : P.write b f = .ok Q)
    (hm : P.malloc size mem = .ok (P₁, some new)) :
    ∃ Q₁, Q.malloc size mem = .ok (Q₁, some new) ∧
      (0 < unitsOf size → b.size ≤ sizeofSeg * unitsOf b.size →
        ∀ i < sizeofSeg * unitsOf size, Q₁.byteOf new i = P₁.byteOf new i) := by
  obtain ⟨hb, z, hz, rfl⟩ := write_ok hw
  obtain ⟨hps, use, c, hs, hg, hc, hp, hf, rfl, rfl⟩ := malloc_some hm
  set zf := z.fill b.body b.size f with hzf
  have hgz : heapAt hps b.heap = some z := hg.old _ _ hz
  have hsearch : search P.best (unitsOf size) mem 0 (setHeap P.aHeaps b.heap zf) = _ :=
    search_setHeap hz rfl rfl
  rw [hs] at hsearch
  let d : ℕ × ZHeap × ℕ := (c.1, if c.1 = 0 + b.heap then zf else c.2.1, c.2.2)
  let G : NHeapPool := { P with
    aHeaps := hps
    pUse := P.pUse + use }
  let G' : NHeapPool := { G with aHeaps := setHeap hps b.heap zf }
  have hrun : malloc { P with aHeaps := setHeap P.aHeaps b.heap zf } size mem =
      .ok ((G'.alloc size d).1, some ⟨c.1, c.2.2, size⟩) := by
    unfold malloc
    rw [hsearch]
    rfl
  refine ⟨_, hrun, fun hu hsize i hi => ?_⟩
  have hG : Sound G := h.grow hg
  have hG' : Sound G' := hG.fill hgz _ _ _
  have hd : G'.heapOf d.1 = some d.2.1 := by
    refine (heapAt_setHeap hgz d.1).trans ?_
    by_cases hk : c.1 = b.heap
    · rw [if_pos hk, show d.2.1 = zf from if_pos (by omega)]
    · rw [if_neg hk, show d.2.1 = c.2.1 from if_neg (by omega)]
      exact hc
  have hdz : d.2.1.hPool = true ∧ d.2.1.find (unitsOf size) = some d.2.2 := by
    by_cases hk : c.1 = b.heap
    · have hcz : c.2.1 = z := Option.some.inj (hc.symm.trans (hk ▸ hgz))
      rw [show d.2.1 = zf from if_pos (by omega)]
      rw [hcz] at hp hf
      exact ⟨hp, hf⟩
    · rw [show d.2.1 = c.2.1 from if_neg (by omega)]
      exact ⟨hp, hf⟩
  rw [alloc_kept hG' hd hdz.1 hdz.2 hu List.mem_cons_self hi,
    alloc_kept hG hc hp hf hu List.mem_cons_self hi]
  refine (byteOf_setHeap (P := G) hgz _ i).trans ?_
  split_ifs with hk
  · have hapart := found_apart hG hc hp hf hb hk.symm
    have hbyte : zf.byte (HeapBlock.body ⟨c.1, c.2.2, size⟩ + i) =
        z.byte (HeapBlock.body ⟨c.1, c.2.2, size⟩ + i) := by
      refine if_neg ?_
      unfold HeapBlock.body
      rw [show sizeofSeg = 40 from rfl] at hsize hi ⊢
      dsimp only
      omega
    rw [hbyte, byteOf, show G.heapOf _ = some z from hk ▸ hgz]
    rfl
  · rfl

/-- `NHeapRealloc` goes through when `NHeapMalloc` has returned a block. -/
theorem realloc_go (h : Sound P) {P₁ : NHeapPool} (hb : b ∈ P.live)
    (hm : P.malloc size mem = .ok (P₁, some new)) :
    ∃ zo zn Q, P₁.heapOf b.heap = some zo ∧ P₁.heapOf new.heap = some zn ∧
      (P₁.copy b new size zo zn).free b = .ok Q ∧ P.realloc b size mem = .ok (Q, some new) ∧
      Q.live = new :: P.live.erase b := by
  obtain ⟨hps, use, c, -, hg, hc, -, -, hnew, hP₁⟩ := malloc_some hm
  have hlive : P₁.live = new :: P.live := (malloc_live hm rfl).1
  have hat : ∀ k z, heapAt hps k = some z → ∃ y, P₁.heapOf k = some y := by
    intro k z hk
    rw [hP₁]
    exact heapAt_setHeap_some hc hk
  obtain ⟨z, hz⟩ := h.live b hb
  obtain ⟨zo, hzo⟩ := hat _ _ (hg.old _ _ hz)
  obtain ⟨zn, hzn⟩ := hat _ _ (show heapAt hps new.heap = some c.2.1 by rw [hnew]; exact hc)
  obtain ⟨y, hy⟩ : ∃ y, (P₁.copy b new size zo zn).heapOf b.heap = some y :=
    heapAt_setHeap_some hzn hzo
  have hmem : b ∈ (P₁.copy b new size zo zn).live := by
    change b ∈ P₁.live
    rw [hlive]
    exact List.mem_cons_of_mem _ hb
  have hfree : (P₁.copy b new size zo zn).free b = .ok { P₁.copy b new size zo zn with
      aHeaps := setHeap (P₁.copy b new size zo zn).aHeaps b.heap (y.hfree b.seg).1
      pUse := (P₁.copy b new size zo zn).pUse - (y.hfree b.seg).2
      live := (P₁.copy b new size zo zn).live.erase b } := by
    unfold free
    rw [if_pos hmem, hy]
    rfl
  refine ⟨zo, zn, _, hzo, hzn, hfree, ?_, ?_⟩
  · unfold realloc
    rw [if_pos hb, hm]
    change (P₁.heapOf b.heap).elim _ _ = _
    rw [hzo, Option.elim_some, hzn, Option.elim_some, hfree]
    rfl
  · change P₁.live.erase b = _
    rw [hlive, List.erase_cons_tail]
    simpa using malloc_ne h hm hb

theorem write_kept {f : ℕ → UInt8} (hw : P.write b f = .ok Q) :
    Q.live = P.live ∧ ∀ i < b.size, Q.byteOf b i = some (f i) := by
  obtain ⟨-, z, hz, rfl⟩ := write_ok hw
  refine ⟨rfl, fun i hi => ?_⟩
  rw [byteOf_setHeap hz, if_pos rfl, ZHeap.fill]
  dsimp only
  rw [if_pos ⟨Nat.le_add_right _ _, by omega⟩, Nat.add_sub_cancel_left]

theorem write_go (h : Sound P) (hb : b ∈ P.live) (f : ℕ → UInt8) : ∃ Q, P.write b f = .ok Q := by
  obtain ⟨z, hz⟩ := h.live b hb
  unfold write
  rw [if_pos hb, hz]
  exact ⟨_, rfl⟩

theorem nodup (h : Sound P) : P.live.Nodup := by
  refine List.nodup_iff_count_le_one.mpr fun b => ?_
  by_cases hb : b ∈ P.live
  · obtain ⟨z, hz⟩ := h.live b hb
    obtain ⟨L, hL⟩ := h.heaps _ z hz
    have hcount := hL.perm.count_eq b
    rw [List.count_filter (p := fun x : HeapBlock => decide (x.heap = b.heap))
      (decide_eq_true rfl)] at hcount
    rw [hcount]
    exact List.nodup_iff_count_le_one.mp (blocks_nodup _ L) b
  · rw [List.count_eq_zero.mpr hb]
    exact Nat.zero_le 1

/-- What `NHeapRealloc` leaves: the first bytes, as many as the old block has units, and behind
them what the new place had. -/
theorem realloc_eq (h : Sound P) {P₁ : NHeapPool} (hb : b ∈ P.live)
    (hm : P.malloc size mem = .ok (P₁, some new)) :
    ∃ Q, P.realloc b size mem = .ok (Q, some new) ∧ b ∉ Q.live ∧ new ∈ Q.live ∧
      (0 < unitsOf size → ∀ i < sizeofSeg * unitsOf size, Q.byteOf new i =
        if i < min (unitsOf b.size) size then P.byteOf b i else P₁.byteOf new i) := by
  obtain ⟨zo, zn, Q, hzo, hzn, hfree, hrun, hlive⟩ := realloc_go h hb hm
  have hnew := malloc_live hm rfl
  refine ⟨Q, hrun, ?_, ?_, fun hu i hi => ?_⟩
  · rw [hlive, List.mem_cons, not_or]
    exact ⟨(malloc_ne h hm hb).symm, (nodup h).not_mem_erase⟩
  · rw [hlive]
    exact List.mem_cons_self
  · have hP₁ : Sound P₁ := h.malloc hm hu
    have hsize : sizeofSeg = 40 := rfl
    have hmem : new ∈ P₁.live := hnew.1 ▸ List.mem_cons_self
    have hold : b ∈ P₁.live := hnew.1 ▸ List.mem_cons_of_mem _ hb
    have hcopy : Sound (P₁.copy b new size zo zn) := hP₁.fill hzn _ _ _
    rw [free_kept hcopy hfree hmem (by rw [hnew.2]; exact hi),
      copy_eq hP₁ hzo hzn hold]
    split_ifs with hlt
    · refine malloc_kept h hm hu hb ?_
      rw [hsize]
      omega
    · rfl

end NHeapPool

/-- A size of a byte at least that does not wrap when it is rounded up -/
def Whole (size : ℕ) : Prop := 0 < size ∧ size + (sizeofSeg - 1) < 2 ^ 64

theorem units_le {size : ℕ} (h : size + (sizeofSeg - 1) < 2 ^ 64) :
    size ≤ sizeofSeg * unitsOf size := by
  unfold unitsOf
  rw [Nat.mod_eq_of_lt h, show sizeofSeg = 40 from rfl]
  omega

theorem Whole.units_pos {size : ℕ} (h : Whole size) : 0 < unitsOf size := by
  have hle := units_le h.2
  have hpos := h.1
  exact Nat.pos_of_ne_zero fun hz => by rw [hz] at hle; omega

/-- The allocation of a call has such a size. -/
def WholeCall (_ : NHeapPool) : HeapCall → Prop
  | .malloc size _ => Whole size
  | .realloc _ size _ => Whole size
  | _ => True

theorem WholeCall.sized {P : NHeapPool} {c : HeapCall} (h : WholeCall P c) : Sized P c := by
  cases c with
  | malloc size mem => exact h.units_pos
  | free b => trivial
  | write b f => trivial
  | realloc b size mem => exact h.units_pos

theorem WholeCall.live {P Q : NHeapPool} {c : HeapCall} (h : WholeCall P c)
    (hP : ∀ b ∈ P.live, Whole b.size) (hr : P.step c = .ok Q) : ∀ b ∈ Q.live, Whole b.size := by
  have hmalloc : ∀ size mem r, Whole size → P.malloc size mem = .ok r →
      ∀ b ∈ r.1.live, Whole b.size := by
    intro size mem r hsize hm b hb
    cases hn : r.2 with
    | none =>
        obtain ⟨hps, use, c, -, -, -, rfl⟩ := NHeapPool.malloc_ok hm
        cases c with
        | none => exact hP b hb
        | some d => cases hn
    | some new =>
        obtain ⟨hlive, rfl⟩ := NHeapPool.malloc_live hm hn
        rw [hlive, List.mem_cons] at hb
        exact hb.elim (fun he => he ▸ hsize) (hP b)
  cases c with
  | malloc size mem =>
      obtain ⟨r, hm, rfl⟩ := except_map_ok hr
      exact hmalloc size mem r h hm
  | free b =>
      obtain ⟨-, z, -, rfl⟩ := NHeapPool.free_ok hr
      exact fun b' hb' => hP b' (List.mem_of_mem_erase hb')
  | write b f =>
      rw [(NHeapPool.write_kept hr).1]
      exact hP
  | realloc b size mem =>
      obtain ⟨r, hm, rfl⟩ := except_map_ok hr
      obtain ⟨-, s, hs, ⟨-, rfl⟩ | ⟨new, zo, zn, R, -, -, -, hR, rfl⟩⟩ := NHeapPool.realloc_ok hm
      · exact hmalloc size mem s h hs
      · obtain ⟨-, z, -, rfl⟩ := NHeapPool.free_ok hR
        exact fun b' hb' => hmalloc size mem s h hs b' (List.mem_of_mem_erase hb')

/-- In a pool whose blocks have a unit at least, `NHeapRealloc` to a size that does not wrap keeps
whatever the caller has in the block, and releases the block, if and only if the bytes to keep are
not more than the units of the block. -/
theorem NHeapPool.realloc_keeps_iff {unit max : ℕ} {dynamic best : Bool} {m₀ : ℕ → Option HeapMem}
    {P₀ P : NHeapPool} {cs : List HeapCall}
    (h₀ : NHeapPool.init unit max dynamic best m₀ = some P₀)
    (hrun : run NHeapPool.step P₀ cs = .ok P) (hcs : Along NHeapPool.step WholeCall P₀ cs)
    {b new : HeapBlock} {t : ℕ} {mem : ℕ → Option HeapMem} {P' : NHeapPool}
    (ht : t + (sizeofSeg - 1) < 2 ^ 64) (hr : P.realloc b t mem = .ok (P', some new)) :
    (∀ f Q, P.write b f = .ok Q → ∃ Q', Q.realloc b t mem = .ok (Q', some new) ∧
      (∀ i < min b.size t, Q'.byteOf new i = some (f i)) ∧ b ∉ Q'.live ∧ new ∈ Q'.live) ↔
      min b.size t ≤ unitsOf b.size := by
  have hstep : ∀ (P : NHeapPool) (c : HeapCall) (Q : NHeapPool),
      (Sound P ∧ ∀ b ∈ P.live, Whole b.size) → WholeCall P c → P.step c = .ok Q →
      Sound Q ∧ ∀ b ∈ Q.live, Whole b.size :=
    fun _ _ _ h hc hr => ⟨h.1.step hc.sized hr, hc.live h.2 hr⟩
  have hbase : Sound P₀ ∧ ∀ b ∈ P₀.live, Whole b.size :=
    ⟨Sound.init h₀, fun b hb => absurd ((init_grown h₀).2 ▸ hb) List.not_mem_nil⟩
  obtain ⟨hP, hwhole⟩ := run_invariant hstep hbase hcs hrun
  obtain ⟨hb, ⟨P₁, n⟩, hm, ⟨-, hnone⟩ | ⟨new', zo, zn, R, hn, -, -, -, hsome⟩⟩ := realloc_ok hr
  · cases hnone
  obtain rfl : new = new' := Option.some.inj (Prod.mk.inj hsome).2
  obtain rfl : n = some new := hn
  have hsize : sizeofSeg = 40 := rfl
  have hle := units_le (hwhole b hb).2
  have hlet := units_le ht
  constructor
  · intro h
    by_contra hlt
    have hu : 0 < unitsOf t := (show Whole t from ⟨by omega, ht⟩).units_pos
    have hk : unitsOf b.size < sizeofSeg * unitsOf t := by omega
    obtain ⟨v, hv⟩ : ∃ v, P₁.byteOf new (unitsOf b.size) = some v := by
      obtain ⟨z, hz⟩ := (hP.malloc hm hu).live new ((malloc_live hm rfl).1 ▸ List.mem_cons_self)
      exact ⟨_, by rw [byteOf, hz]; rfl⟩
    -- the byte behind the copy gets another value than the new place has
    obtain ⟨Q, hw⟩ := write_go hP hb fun _ => if v = 0 then 1 else 0
    obtain ⟨Q', hrun', hbytes, -⟩ := h _ Q hw
    obtain ⟨Q₁, hm', hsame⟩ := malloc_write hP hw hm
    obtain ⟨R, hR, -, -, hRbytes⟩ := realloc_eq (hP.write hw) ((write_kept hw).1 ▸ hb) hm'
    obtain rfl : Q' = R := (Prod.mk.inj (Except.ok.inj (hrun'.symm.trans hR))).1
    have hkept := hbytes (unitsOf b.size) (by omega)
    rw [hRbytes hu _ hk, if_neg (by omega), hsame hu hle _ hk, hv] at hkept
    by_cases hzero : v = 0
    · rw [if_pos hzero, hzero] at hkept
      exact absurd hkept (by decide)
    · rw [if_neg hzero] at hkept
      exact hzero (Option.some.inj hkept)
  · intro hmin f Q hw
    obtain ⟨Q₁, hm', -⟩ := malloc_write hP hw hm
    obtain ⟨R, hR, hout, hin, hbytes⟩ := realloc_eq (hP.write hw) ((write_kept hw).1 ▸ hb) hm'
    refine ⟨R, hR, fun i hi => ?_, hout, hin⟩
    have hu : 0 < unitsOf t := (show Whole t from ⟨by omega, ht⟩).units_pos
    rw [hbytes hu i (by omega), if_pos (by omega)]
    exact (write_kept hw).2 i (by omega)

/-- A block of two units keeps its two bytes in a block of one unit. -/
theorem NHeapPool.realloc_keeps_iff_two : ∃ P₀ P P' new,
    NHeapPool.init 856 1 false false zeroMem = some P₀ ∧
    run NHeapPool.step P₀ [.malloc 80 zeroMem] = .ok P ∧
    P.realloc ⟨0, 0, 80⟩ 2 zeroMem = .ok (P', some new) ∧
    ∀ f Q, P.write ⟨0, 0, 80⟩ f = .ok Q →
      ∃ Q', Q.realloc ⟨0, 0, 80⟩ 2 zeroMem = .ok (Q', some new) ∧
        (∀ i < min 80 2, Q'.byteOf new i = some (f i)) ∧ ⟨0, 0, 80⟩ ∉ Q'.live ∧ new ∈ Q'.live := by
  obtain ⟨P₀, h₀, hP⟩ : ∃ P₀, NHeapPool.init 856 1 false false zeroMem = some P₀ ∧
      ((run NHeapPool.step P₀ [.malloc 80 zeroMem]).toOption.any fun P =>
        (P.realloc ⟨0, 0, 80⟩ 2 zeroMem).toOption.any fun r => r.2.isSome) = true :=
    option_any (by decide +kernel)
  obtain ⟨P, hrun, hP⟩ := except_any hP
  obtain ⟨⟨P', new⟩, hr, hnew⟩ := except_any hP
  obtain ⟨new, rfl⟩ := Option.isSome_iff_exists.mp hnew
  have hwhole : Whole 80 := ⟨by decide, by decide⟩
  refine ⟨P₀, P, P', new, h₀, hrun, hr, ?_⟩
  exact (NHeapPool.realloc_keeps_iff h₀ hrun ⟨hwhole, fun _ _ => trivial⟩ (by decide) hr).mpr
    (by decide)

/-- A block of two bytes has one unit, and the second byte is not copied. -/
theorem NHeapPool.realloc_not_keeps : ∃ P₀ P P' new,
    NHeapPool.init 856 1 false false zeroMem = some P₀ ∧
    run NHeapPool.step P₀ [.malloc 2 zeroMem, .write ⟨0, 0, 2⟩ fun _ => 7] = .ok P ∧
    ⟨0, 0, 2⟩ ∈ P.live ∧ P.realloc ⟨0, 0, 2⟩ 2 zeroMem = .ok (P', some new) ∧
    P'.byteOf new 1 ≠ P.byteOf ⟨0, 0, 2⟩ 1 := by
  obtain ⟨P₀, h₀, hP⟩ : ∃ P₀, NHeapPool.init 856 1 false false zeroMem = some P₀ ∧
      ((run NHeapPool.step P₀ [.malloc 2 zeroMem, .write ⟨0, 0, 2⟩ fun _ => 7]).toOption.any fun P =>
        decide (⟨0, 0, 2⟩ ∈ P.live) && (P.realloc ⟨0, 0, 2⟩ 2 zeroMem).toOption.any fun r =>
          r.2.any fun new => decide (r.1.byteOf new 1 ≠ P.byteOf ⟨0, 0, 2⟩ 1)) = true :=
    option_any (by decide +kernel)
  obtain ⟨P, hrun, hP⟩ := except_any hP
  rw [Bool.and_eq_true] at hP
  obtain ⟨⟨P', new⟩, hr, hnew⟩ := except_any hP.2
  obtain ⟨new, rfl, hbyte⟩ := option_any hnew
  exact ⟨P₀, P, P', new, h₀, hrun, of_decide_eq_true hP.1, hr, of_decide_eq_true hbyte⟩

end PaxosSolutions.NWGadget
