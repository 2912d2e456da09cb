import PaxosSolutions.NWGadget.HeapRealloc

/-!
# The blocks of callers

In every reachable pool the segments of a heap tile it, and the lists hold its
free segments. The blocks that callers have lie apart and inside their heaps. So
what a caller has written stays until it calls for the block again, whatever is
called for others.
-/
namespace PaxosSolutions.NWGadget
open Lib Lib.Tiles

/-- In every run in which each allocation takes a unit at least, the segments of a heap tile it up
to `h_last`, each with the header before it, no two free ones are neighbours, its blocks are those
that callers have, and its lists hold only free segments with units, each once. When callers have
no blocks the heap is one free segment. -/
theorem NHeapPool.tiled {unit max : ℕ} {dynamic best : Bool} {mem : ℕ → Option HeapMem}
    {P₀ P : NHeapPool} {cs : List HeapCall}
    (h₀ : NHeapPool.init unit max dynamic best mem = some P₀)
    (hrun : run NHeapPool.step P₀ cs = .ok P) (hsized : Along NHeapPool.step Sized P₀ cs)
    {k : ℕ} {z : ZHeap} (hz : P.heapOf k = some z) :
    ∃ L, Row z.seg none 0 L ∧ z.hLast = span Cell.len L ∧ Joined L ∧
      (P.live.filter (·.heap = k)).Perm (blocks k L) ∧
      (z.hPool = true → z.frees.Nodup ∧
        ∀ i ∈ z.frees, ∃ n, 0 < n ∧ (i, Cell.free n) ∈ places Cell.len 0 L) ∧
      (P.live = [] → L = [.free (z.hLast - 1)]) := by
  have hs : Sound P :=
    run_invariant (fun _ _ _ h hc hr => h.step hc hr) (Sound.init h₀) hsized hrun
  obtain ⟨L, hL⟩ := hs.heaps k z hz
  refine ⟨L, hL.row, hL.last, hL.joined, hL.perm, fun hp => ?_, fun hlive => ?_⟩
  · have hfits := hL.fits hp
    exact ⟨hfits.linked.nodup, hfits.linked.mem⟩
  · rw [hlive] at hL
    exact hL.empty

/-- Three blocks, of which the middle one is released, in a heap with best fit -/
theorem NHeapPool.tiled_gap : ∃ P₀ P z, NHeapPool.init 856 1 true true zeroMem = some P₀ ∧
    run NHeapPool.step P₀ [.malloc 50 zeroMem, .malloc 90 zeroMem, .malloc 1 zeroMem,
      .free ⟨0, 3, 90⟩] = .ok P ∧ P.heapOf 0 = some z ∧
    ∃ L, Row z.seg none 0 L ∧ z.hLast = span Cell.len L ∧ Joined L ∧
      (P.live.filter (·.heap = 0)).Perm (blocks 0 L) ∧
      (z.hPool = true → z.frees.Nodup ∧
        ∀ i ∈ z.frees, ∃ n, 0 < n ∧ (i, Cell.free n) ∈ places Cell.len 0 L) ∧
      (P.live = [] → L = [.free (z.hLast - 1)]) := by
  obtain ⟨P₀, h₀, hP⟩ : ∃ P₀, NHeapPool.init 856 1 true true zeroMem = some P₀ ∧
      ((run NHeapPool.step P₀ [.malloc 50 zeroMem, .malloc 90 zeroMem, .malloc 1 zeroMem,
        .free ⟨0, 3, 90⟩]).toOption.any fun P => (P.heapOf 0).isSome) = true :=
    option_any (by decide)
  obtain ⟨P, hrun, hP⟩ := except_any hP
  obtain ⟨z, hz⟩ := Option.isSome_iff_exists.mp hP
  have hu : ∀ size ∈ [50, 90, 1], 0 < unitsOf size := by decide
  refine ⟨P₀, P, z, h₀, hrun, hz, tiled h₀ hrun ?_ hz⟩
  refine ⟨hu 50 (by decide), fun _ _ => ⟨hu 90 (by decide), fun _ _ => ⟨hu 1 (by decide), ?_⟩⟩⟩
  exact fun _ _ => ⟨trivial, fun _ _ => trivial⟩

/-! ### Blocks lie apart -/

section
variable {P Q : NHeapPool} {b new : HeapBlock} {size i : ℕ} {mem : ℕ → Option HeapMem}

theorem Sound.apart (h : Sound P) (hb : b ∈ P.live) (hnew : new ∈ P.live) (hne : new ≠ b)
    (hk : new.heap = b.heap) :
    b.seg + (unitsOf b.size + 1) ≤ new.seg ∨ new.seg + (unitsOf new.size + 1) ≤ b.seg := by
  obtain ⟨z, hz⟩ := h.live b hb
  obtain ⟨-, A, B, hL, hs⟩ := h.block hz hb
  obtain ⟨-, C, D, hCD, hs'⟩ := hL.block hnew hk
  have hmem : _ ∈ places Cell.len 0 _ := mem_places_mid A B (.block b.size)
  have hmem' : _ ∈ places Cell.len 0 _ := mem_places_mid C D (.block new.size)
  rw [← hCD, ← hs'] at hmem'
  rw [← hs] at hmem
  rcases Tiles.apart hmem hmem' with ⟨hseg, hcell⟩ | hle | hle
  · have hsize := Cell.block.inj hcell
    refine absurd ?_ hne
    cases b
    cases new
    simp only [HeapBlock.mk.injEq]
    exact ⟨hk, hseg.symm, hsize.symm⟩
  · exact .inl hle
  · exact .inr hle

theorem Sound.inside (h : Sound P) (hb : b ∈ P.live) :
    ∃ z, P.heapOf b.heap = some z ∧ b.seg + (unitsOf b.size + 1) ≤ z.hLast := by
  obtain ⟨z, hz⟩ := h.live b hb
  obtain ⟨-, A, B, hL, hs⟩ := h.block hz hb
  refine ⟨z, hz, ?_⟩
  rw [hL.last, hs, span_append, span_cons, Cell.len, Cell.units]
  omega

end

/-- Pools with rows whose blocks have sizes that do not wrap -/
def WholePool (P : NHeapPool) : Prop := Sound P ∧ ∀ b ∈ P.live, Whole b.size

namespace WholePool
variable {P Q : NHeapPool} {b : HeapBlock} {i : ℕ} {c : HeapCall} {cs : List HeapCall}

theorem init {unit max : ℕ} {dynamic best : Bool} {mem : ℕ → Option HeapMem}
    (h : NHeapPool.init unit max dynamic best mem = some P) : WholePool P :=
  ⟨Sound.init h, fun _ hb => absurd ((init_grown h).2 ▸ hb) List.not_mem_nil⟩

theorem step (h : WholePool P) (hc : WholeCall P c) (hr : P.step c = .ok Q) : WholePool Q :=
  ⟨h.1.step hc.sized hr, hc.live h.2 hr⟩

theorem along (h : WholePool P) (hcs : Along NHeapPool.step WholeCall P cs)
    (hr : run NHeapPool.step P cs = .ok Q) : WholePool Q :=
  run_invariant (fun _ _ _ h hc hr => h.step hc hr) h hcs hr

end WholePool

/-- In every run with sizes that do not wrap, the bytes of a block that a caller has lie inside its
heap, and the bytes of two blocks, with their headers, do not overlap. -/
theorem NHeapPool.live_apart {unit max : ℕ} {dynamic best : Bool} {mem : ℕ → Option HeapMem}
    {P₀ P : NHeapPool} {cs : List HeapCall}
    (h₀ : NHeapPool.init unit max dynamic best mem = some P₀)
    (hrun : run NHeapPool.step P₀ cs = .ok P) (hcs : Along NHeapPool.step WholeCall P₀ cs)
    {b : HeapBlock} (hb : b ∈ P.live) :
    (∃ z, P.heapOf b.heap = some z ∧ b.body + b.size ≤ sizeofSeg * z.hLast) ∧
      ∀ b' ∈ P.live, b' ≠ b → b'.heap = b.heap →
        b.body + b.size ≤ sizeofSeg * b'.seg ∨ b'.body + b'.size ≤ sizeofSeg * b.seg := by
  obtain ⟨hs, hwhole⟩ := (WholePool.init h₀).along hcs hrun
  have hunits := units_le (hwhole b hb).2
  have hsize : sizeofSeg = 40 := rfl
  unfold HeapBlock.body
  rw [hsize] at hunits ⊢
  constructor
  · obtain ⟨z, hz, hle⟩ := hs.inside hb
    exact ⟨z, hz, by omega⟩
  · intro b' hb' hne hk
    have hunits' := units_le (hwhole b' hb').2
    rw [hsize] at hunits'
    exact (hs.apart hb hb' hne hk).imp (fun h => by omega) fun h => by omega

/-- Two blocks of one heap -/
theorem NHeapPool.live_apart_two : ∃ P₀ P, NHeapPool.init 856 1 true false zeroMem = some P₀ ∧
    run NHeapPool.step P₀ [.malloc 50 zeroMem, .malloc 7 zeroMem] = .ok P ∧ ⟨0, 3, 7⟩ ∈ P.live ∧
    (∃ z, P.heapOf 0 = some z ∧ HeapBlock.body ⟨0, 3, 7⟩ + 7 ≤ sizeofSeg * z.hLast) ∧
      ∀ b' ∈ P.live, b' ≠ ⟨0, 3, 7⟩ → b'.heap = 0 →
        HeapBlock.body ⟨0, 3, 7⟩ + 7 ≤ sizeofSeg * b'.seg ∨ b'.body + b'.size ≤ sizeofSeg * 3 := by
  obtain ⟨P₀, h₀, hP⟩ : ∃ P₀, NHeapPool.init 856 1 true false zeroMem = some P₀ ∧
      ((run NHeapPool.step P₀ [.malloc 50 zeroMem, .malloc 7 zeroMem]).toOption.any fun P =>
        decide (⟨0, 3, 7⟩ ∈ P.live)) = true :=
    option_any (by decide)
  obtain ⟨P, hrun, hP⟩ := except_any hP
  have hb := of_decide_eq_true hP
  have hcs : Along NHeapPool.step WholeCall P₀ [.malloc 50 zeroMem, .malloc 7 zeroMem] :=
    ⟨⟨by decide, by decide⟩, fun _ _ => ⟨⟨by decide, by decide⟩, fun _ _ => trivial⟩⟩
  exact ⟨P₀, P, h₀, hrun, hb, live_apart h₀ hrun hcs hb⟩

/-! ### What is written stays -/

/-- A call for a block -/
def HeapCall.For (b : HeapBlock) : HeapCall → Prop
  | .malloc _ _ => False
  | .free b' => b' = b
  | .write b' _ => b' = b
  | .realloc b' _ _ => b' = b

namespace NHeapPool
variable {P Q : NHeapPool} {b new : HeapBlock} {size i : ℕ} {mem : ℕ → Option HeapMem}

theorem fill_kept (h : Sound P) {z : ZHeap} {n : ℕ} {f : ℕ → UInt8} (hz : P.heapOf new.heap = some z)
    (hnew : new ∈ P.live) (hb : b ∈ P.live) (hne : new ≠ b) (hn : n ≤ sizeofSeg * unitsOf new.size)
    (hi : i < sizeofSeg * unitsOf b.size) :
    byteOf { P with aHeaps := setHeap P.aHeaps new.heap (z.fill new.body n f) } b i =
      P.byteOf b i := by
  rw [byteOf_setHeap hz]
  split_ifs with hk
  · have hapart := h.apart hb hnew hne hk.symm
    rw [byteOf, hk, hz, Option.map_some, ZHeap.fill]
    dsimp only
    rw [if_neg]
    unfold HeapBlock.body
    rw [show sizeofSeg = 40 from rfl] at hn hi ⊢
    omega
  · rfl

theorem malloc_mem {r : NHeapPool × Option HeapBlock} (hr : P.malloc size mem = .ok r)
    (hb : b ∈ P.live) : b ∈ r.1.live := by
  obtain ⟨hps, use, c, -, -, -, rfl⟩ := malloc_ok hr
  cases c with
  | none => exact hb
  | some d => exact List.mem_cons_of_mem _ hb

theorem realloc_kept (h : Sound P) {b' : HeapBlock} {r : NHeapPool × Option HeapBlock}
    (hr : P.realloc b' size mem = .ok r) (hw : Whole size) (hne : b' ≠ b) (hb : b ∈ P.live) :
    b ∈ r.1.live ∧ ∀ i < sizeofSeg * unitsOf b.size, r.1.byteOf b i = P.byteOf b i := by
  obtain ⟨-, s, hs, ⟨-, rfl⟩ | ⟨new, zo, zn, R, hnew, -, hzn, hR, rfl⟩⟩ := realloc_ok hr
  · have hmem := malloc_mem hs hb
    have hkept := fun i hi => malloc_kept (i := i) h hs hw.units_pos hb hi
    exact ⟨hmem, hkept⟩
  · obtain ⟨P₁, n⟩ := s
    obtain rfl : n = some new := hnew
    have hlive := malloc_live hs rfl
    have hmem : new ∈ P₁.live := hlive.1 ▸ List.mem_cons_self
    have hold : b ∈ P₁.live := malloc_mem hs hb
    have hP₁ : Sound P₁ := h.malloc hs hw.units_pos
    have hcopy : Sound (P₁.copy b' new size zo zn) := hP₁.fill hzn _ _ _
    refine ⟨?_, fun i hi => ?_⟩
    · obtain ⟨-, z, -, rfl⟩ := free_ok hR
      exact (List.mem_erase_of_ne hne.symm).mpr hold
    · have hunits := units_le hw.2
      have hlen : (if ((-(zo.seg b'.seg).sSize) % 2 ^ 64).toNat < size then
          ((-(zo.seg b'.seg).sSize) % 2 ^ 64).toNat else size) ≤ sizeofSeg * unitsOf new.size := by
        rw [hlive.2]
        split_ifs <;> omega
      rw [free_kept hcopy hR hold hi]
      refine (fill_kept hP₁ hzn hmem hold (malloc_ne h hs hb) hlen hi).trans ?_
      exact malloc_kept h hs hw.units_pos hb hi

/-- A call for other blocks leaves a block and its bytes. -/
theorem step_kept (h : WholePool P) {c : HeapCall} (hc : WholeCall P c) (hr : P.step c = .ok Q)
    (hnot : ¬ c.For b) (hb : b ∈ P.live) :
    b ∈ Q.live ∧ ∀ i < sizeofSeg * unitsOf b.size, Q.byteOf b i = P.byteOf b i := by
  cases c with
  | malloc size mem =>
      obtain ⟨r, hm, rfl⟩ := except_map_ok hr
      exact ⟨malloc_mem hm hb, fun i hi => malloc_kept h.1 hm hc.units_pos hb hi⟩
  | free b' =>
      refine ⟨?_, fun i hi => free_kept h.1 hr hb hi⟩
      obtain ⟨-, z, -, rfl⟩ := free_ok hr
      exact (List.mem_erase_of_ne fun he => hnot he.symm).mpr hb
  | write b' f =>
      obtain ⟨hb', z, hz, rfl⟩ := write_ok hr
      exact ⟨hb, fun i hi => fill_kept h.1 hz hb' hb hnot (units_le (h.2 b' hb').2) hi⟩
  | realloc b' size mem =>
      obtain ⟨r, hm, rfl⟩ := except_map_ok hr
      exact realloc_kept h.1 hm hc hnot hb

theorem run_kept {cs : List HeapCall} (h : WholePool P) (hcs : Along step WholeCall P cs)
    (hr : run step P cs = .ok Q) (hnot : ∀ c ∈ cs, ¬ c.For b) (hb : b ∈ P.live) :
    b ∈ Q.live ∧ ∀ i < sizeofSeg * unitsOf b.size, Q.byteOf b i = P.byteOf b i := by
  induction cs generalizing P with
  | nil =>
      cases hr
      exact ⟨hb, fun _ _ => rfl⟩
  | cons c cs ih =>
      obtain ⟨R, hR, hr⟩ := run_cons_ok hr
      obtain ⟨hbR, hkept⟩ := step_kept h hcs.1 hR (hnot c List.mem_cons_self) hb
      obtain ⟨hbQ, hrest⟩ := ih (h.step hcs.1 hR) (hcs.2 R hR) hr
        (fun d hd => hnot d (List.mem_cons_of_mem _ hd)) hbR
      exact ⟨hbQ, fun i hi => (hrest i hi).trans (hkept i hi)⟩

/-- In every run with sizes that do not wrap, what a caller has written in its block is there until
it calls for the block again, whatever is allocated, released, written or reallocated for
others. -/
theorem written_stays {unit max : ℕ} {dynamic best : Bool} {m₀ : ℕ → Option HeapMem}
    {P₀ P₁ P₂ : NHeapPool} {cs ds : List HeapCall} {f : ℕ → UInt8}
    (h₀ : init unit max dynamic best m₀ = some P₀) (hrun : run step P₀ cs = .ok P₁)
    (hcs : Along step WholeCall P₀ cs) (hw : P₁.write b f = .ok P₂) (hrun' : run step P₂ ds = .ok P)
    (hds : Along step WholeCall P₂ ds) (hnot : ∀ c ∈ ds, ¬ c.For b) :
    b ∈ P.live ∧ ∀ i < b.size, P.byteOf b i = some (f i) := by
  have h₁ : WholePool P₁ := (WholePool.init h₀).along hcs hrun
  have h₂ : WholePool P₂ := h₁.step (c := .write b f) trivial hw
  have hb : b ∈ P₂.live := by
    obtain ⟨hb, z, -, rfl⟩ := write_ok hw
    exact hb
  obtain ⟨hmem, hkept⟩ := run_kept h₂ hds hrun' hnot hb
  have hunits := units_le (h₂.2 b hb).2
  exact ⟨hmem, fun i hi => (hkept i (by omega)).trans ((write_kept hw).2 i hi)⟩

/-- A block stays while another one is reallocated and a third one is taken. -/
theorem written_stays_realloc : ∃ P₀ P₁ P₂ P, init 856 1 true false zeroMem = some P₀ ∧
    run step P₀ [.malloc 50 zeroMem, .malloc 7 zeroMem] = .ok P₁ ∧
    P₁.write ⟨0, 3, 7⟩ (fun _ => 9) = .ok P₂ ∧
    run step P₂ [.realloc ⟨0, 0, 50⟩ 90 zeroMem, .malloc 1 zeroMem] = .ok P ∧
    ∀ i < 7, P.byteOf ⟨0, 3, 7⟩ i = some 9 := by
  obtain ⟨P₀, h₀, hP⟩ : ∃ P₀, init 856 1 true false zeroMem = some P₀ ∧
      ((run step P₀ [.malloc 50 zeroMem, .malloc 7 zeroMem]).toOption.any fun P₁ =>
        (P₁.write ⟨0, 3, 7⟩ fun _ => 9).toOption.any fun P₂ =>
          (run step P₂ [.realloc ⟨0, 0, 50⟩ 90 zeroMem, .malloc 1 zeroMem]).toOption.isSome) = true :=
    option_any (by decide)
  obtain ⟨P₁, hrun, hP⟩ := except_any hP
  obtain ⟨P₂, hw, hP⟩ := except_any hP
  obtain ⟨P, hrun', -⟩ := except_any (p := fun _ => true) (by simpa using hP)
  have hwhole : ∀ size ∈ [50, 7, 90, 1], Whole size := by
    unfold Whole
    decide
  refine ⟨P₀, P₁, P₂, P, h₀, hrun, hw, hrun', (written_stays h₀ hrun ?_ hw hrun' ?_ ?_).2⟩
  · exact ⟨hwhole 50 (by decide), fun _ _ => ⟨hwhole 7 (by decide), fun _ _ => trivial⟩⟩
  · exact ⟨hwhole 90 (by decide), fun _ _ => ⟨hwhole 1 (by decide), fun _ _ => trivial⟩⟩
  · intro c hc
    rcases List.mem_pair.mp hc with rfl | rfl
    · exact fun h => by cases h
    · exact id

end NHeapPool

end PaxosSolutions.NWGadget
