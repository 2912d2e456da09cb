import PaxosSolutions.NWGadget.HeapRow

/-!
# A release joins neighbours

A released block becomes a free segment that is in no list. It is joined with
the free segment before it and the one behind it, each of which leaves its
list, and what has become of it is linked. A header less is a free unit more.
-/
namespace PaxosSolutions.NWGadget
open Lib Lib.Tiles

/-- The block of a segment in the heap `k` -/
def blockAt (k : ℕ) (x : ℕ × Cell) : Option HeapBlock :=
  match x.2 with
  | .free _ => none
  | .block size => some ⟨k, x.1, size⟩

/-- The blocks of a row -/
def blocks (k : ℕ) (L : List Cell) : List HeapBlock :=
  (places Cell.len 0 L).filterMap (blockAt k)

theorem blocks_append (k : ℕ) (A B : List Cell) : blocks k (A ++ B) = blocks k A ++
    (places Cell.len (span Cell.len A) B).filterMap (blockAt k) := by
  unfold blocks
  rw [places_append, List.filterMap_append, Nat.zero_add]

/-- Blocks are exchanged for segments of the same length. -/
theorem blocks_mid (k : ℕ) {A B X : List Cell} {n : ℕ} (h : span Cell.len X = n) :
    blocks k (A ++ (X ++ B)) = blocks k A ++
      ((places Cell.len (span Cell.len A) X).filterMap (blockAt k) ++
        (places Cell.len (span Cell.len A + n) B).filterMap (blockAt k)) := by
  rw [blocks_append, places_append, List.filterMap_append, h]

theorem mem_blocks {k : ℕ} {L : List Cell} {b : HeapBlock} :
    b ∈ blocks k L ↔ b.heap = k ∧ ∃ A B, L = A ++ .block b.size :: B ∧ b.seg = span Cell.len A := by
  unfold blocks
  rw [List.mem_filterMap]
  constructor
  · rintro ⟨⟨i, c⟩, hmem, hb⟩
    obtain ⟨A, B, rfl, rfl⟩ := mem_places.mp hmem
    cases c with
    | free n => cases hb
    | block size =>
        cases hb
        exact ⟨rfl, A, B, rfl, Nat.zero_add _⟩
  · rintro ⟨rfl, A, B, rfl, hs⟩
    refine ⟨(b.seg, .block b.size), hs ▸ mem_places_mid A B _, rfl⟩

/-- `Y` is `X` with `d` pairs of free neighbours joined. -/
inductive Joins (X : List Cell) : List Cell → ℕ → Prop
  | refl : Joins X X 0
  | join {A B : List Cell} {m n d : ℕ} : Joins X (A ++ .free m :: .free n :: B) d →
      Joins X (A ++ .free (m + 1 + n) :: B) (d + 1)

namespace Joins
variable {X Y W : List Cell} {d e : ℕ}

theorem trans (h : Joins X Y d) (h' : Joins Y W e) : Joins X W (d + e) := by
  induction h' with
  | refl => exact h
  | join _ ih => exact ih.join

theorem freeUnits (h : Joins X Y d) :
    span Cell.freeUnits Y = span Cell.freeUnits X + d := by
  induction h with
  | refl => rfl
  | join _ ih =>
      simp only [span_append, span_cons, Cell.freeUnits] at ih ⊢
      omega

theorem reach (h : Joins X Y d) : span Cell.len Y = span Cell.len X := by
  induction h with
  | refl => rfl
  | join _ ih =>
      simp only [span_append, span_cons, Cell.len, Cell.units] at ih ⊢
      omega

theorem length (h : Joins X Y d) : Y.length + d = X.length := by
  induction h with
  | refl => rfl
  | join _ ih =>
      simp only [List.length_append, List.length_cons] at ih ⊢
      omega

theorem blocks (h : Joins X Y d) (k : ℕ) : blocks k Y = blocks k X := by
  induction h with
  | refl => rfl
  | @join A B m n d _ ih =>
      have hspan : span Cell.len [.free m, .free n] = m + 1 + n + 1 := by
        simp only [span_cons, span_nil, Cell.len, Cell.units]
        omega
      rw [← ih]
      exact (blocks_mid k (X := [.free (m + 1 + n)]) rfl).trans (blocks_mid k hspan).symm

theorem edge {i : ℕ} (h : Joins X Y d) (hi : Edge Cell.len Y i) : Edge Cell.len X i := by
  induction h with
  | refl => exact hi
  | @join A B m n d _ ih =>
      have hspan : span Cell.len [.free m, .free n] = (Cell.free (m + 1 + n)).len := by
        simp only [span_cons, span_nil, Cell.len, Cell.units]
        omega
      exact ih (hi.cut hspan)

end Joins

/-- What joining does to a heap -/
structure Joining (z z' : ZHeap) (X Y : List Cell) (d : ℕ) : Prop where
  joins : Joins X Y d
  free : z'.hFree = z.hFree + d
  pool : z'.hPool = z.hPool
  kept : Kept X z z'

namespace Joining
variable {z z' z'' : ZHeap} {X Y W : List Cell} {d e : ℕ}

theorem refl : Joining z z X X 0 := ⟨.refl, (Int.add_zero _).symm, rfl, fun _ _ => rfl⟩

theorem trans (h : Joining z z' X Y d) (h' : Joining z' z'' Y W e) :
    Joining z z'' X W (d + e) where
  joins := h.joins.trans h'.joins
  free := by rw [h'.free, h.free, Nat.cast_add, Int.add_assoc]
  pool := h'.pool.trans h.pool
  kept x hx := (h'.kept x fun he => hx (h.joins.edge he)).trans (h.kept x hx)

end Joining

namespace ZHeap
variable {z : ZHeap} {i m : ℕ} {A B : List Cell}

@[simp] theorem absorb_seg : (z.absorb i).seg = z.seg := by
  unfold absorb
  split_ifs <;> rfl

@[simp] theorem absorb_byte : (z.absorb i).byte = z.byte := by
  unfold absorb
  split_ifs <;> rfl

@[simp] theorem absorb_hLast : (z.absorb i).hLast = z.hLast := by
  unfold absorb
  split_ifs <;> rfl

@[simp] theorem absorb_hPool : (z.absorb i).hPool = z.hPool := by
  unfold absorb
  split_ifs <;> rfl

@[simp] theorem absorb_hFree : (z.absorb i).hFree = z.hFree + 1 := by
  unfold absorb
  split_ifs <;> rfl

theorem absorb_frees : (z.absorb i).frees.Sublist z.frees := by
  unfold absorb
  split_ifs
  · exact unlink_frees z i
  · exact List.Sublist.refl _

/-- A neighbour without units is not in the lists. -/
theorem not_mem_absorb (h : Linked z.frees (A ++ .free m :: B))
    (hs : (z.seg (span Cell.len A)).sSize = m) :
    span Cell.len A ∉ (z.absorb (span Cell.len A)).frees := by
  unfold absorb
  split_ifs with hm
  · exact not_mem_unlink h.nodup
  · intro hmem
    obtain ⟨n, hn, he⟩ := h.mem_iff hmem
    cases he
    rw [hs] at hm
    omega

end ZHeap

/-- A heap with a free segment that is not in the lists -/
structure Loose (z : ZHeap) (A : List Cell) (n : ℕ) (B : List Cell) : Prop where
  row : Row z.seg none 0 (A ++ .free n :: B)
  last : z.hLast = span Cell.len (A ++ .free n :: B)
  linked : Linked z.frees (A ++ .free n :: B)
  out : span Cell.len A ∉ z.frees
  front : Joined A
  back : Joined B

namespace Loose
variable {z z' : ZHeap} {A B : List Cell} {m n : ℕ}

theorem tail (h : Loose z A n B) : (z.seg (span Cell.len A)).sFrwd = lastOf none 0 A ∧
    (z.seg (span Cell.len A)).sSize = n ∧
    Row z.seg (some (span Cell.len A)) (span Cell.len A + (n + 1)) B := by
  have hd := h.row.drop
  rw [Nat.zero_add] at hd
  exact hd

theorem behind (h : Loose z A n B) : z.behind (span Cell.len A) = span Cell.len A + (n + 1) := by
  rw [ZHeap.behind, h.tail.2.1, Int.toNat_natCast]
  omega

/-- Two free segments that are in no list become one. -/
theorem merge (hrow : Row z.seg none 0 (A ++ .free m :: .free n :: B))
    (hlast : z.hLast = span Cell.len (A ++ .free m :: .free n :: B))
    (hlink : Linked z.frees (A ++ .free m :: .free n :: B)) (hA : Joined A) (hB : Joined B)
    (hf : z'.seg (span Cell.len A) = { z.seg (span Cell.len A) with sSize := (m + 1 + n : ℕ) })
    (hb : z'.seg (span Cell.len A + (m + 1) + (n + 1)) =
      { z.seg (span Cell.len A + (m + 1) + (n + 1)) with sFrwd := some (span Cell.len A) })
    (hseg : ∀ j, j < span Cell.len A ∨ span Cell.len A + (m + 1) + (n + 1) < j →
      z'.seg j = z.seg j)
    (hlast' : z'.hLast = z.hLast) (hsub : z'.frees.Sublist z.frees)
    (hout : span Cell.len A ∉ z'.frees) (hout' : span Cell.len A + (m + 1) ∉ z'.frees) :
    Loose z' A (m + 1 + n) B where
  row := hrow.merge hf hb hseg
  last := by
    rw [hlast', hlast]
    simp only [span_append, span_cons, Cell.len, Cell.units]
    omega
  linked := by
    have hl : Linked z.frees (A ++ [.free m, .free n] ++ B) := by
      rwa [List.append_assoc]
    have hx := hl.exchange (Y := [.free (m + 1 + n)]) ?_ hsub ?_
    · rwa [List.append_assoc] at hx
    · simp only [span_cons, span_nil, Cell.len, Cell.units]
      omega
    · intro i c hc
      rw [places, places, places, List.mem_cons, List.mem_singleton] at hc
      rcases hc with hc | hc
      · rwa [(Prod.mk.inj hc).1]
      · rwa [(Prod.mk.inj hc).1]
  out := hout
  front := hA
  back := hB

theorem joinFront_stay (h : Loose z A n B) (hA : ∀ c ∈ A.getLast?, ¬ c.IsFree) :
    z.joinFront (span Cell.len A) = (z, span Cell.len A, 0) := by
  unfold ZHeap.joinFront
  rw [h.tail.1]
  rcases A.eq_nil_or_concat with rfl | ⟨C, c, rfl⟩
  · rfl
  · rw [List.concat_eq_append] at hA h ⊢
    rw [lastOf_concat, Option.elim_some, Nat.zero_add, if_neg]
    have hd := h.row
    rw [List.append_assoc] at hd
    have hc := hd.drop.2.1
    rw [Nat.zero_add] at hc
    rw [hc.free_iff]
    exact hA c (by rw [List.getLast?_concat]; rfl)

/-- The segment is joined with the free one before it. -/
theorem joinFront_free (h : Loose z (A ++ [.free m]) n B) :
    ∃ z', z.joinFront (span Cell.len (A ++ [.free m])) = (z', span Cell.len A, 1) ∧
      Loose z' A (m + 1 + n) B ∧
      Joining z z' (A ++ .free m :: .free n :: B) (A ++ .free (m + 1 + n) :: B) 1 := by
  have hspan : span Cell.len (A ++ [.free m]) = span Cell.len A + (m + 1) := by
    rw [span_append, span_cons, span_nil]
    rfl
  have hrow := h.row
  have hlast := h.last
  have hlink := h.linked
  rw [List.append_assoc, List.singleton_append] at hrow hlast hlink
  have hs : (z.seg (span Cell.len A)).sSize = m := by
    have hd := hrow.drop.2.1
    rwa [Nat.zero_add] at hd
  have hb := h.behind
  have ht := h.tail
  have hout := h.out
  rw [hspan] at hb ht hout ⊢
  refine ⟨((z.absorb (span Cell.len A)).setFrwd (span Cell.len A + (m + 1) + (n + 1))
    (span Cell.len A)).setSize (span Cell.len A) (m + 1 + n : ℕ), ?_, ?_, ?_⟩
  · unfold ZHeap.joinFront
    rw [ht.1, lastOf_concat, Option.elim_some, Nat.zero_add, hs, ht.2.1, hb,
      if_pos (Int.natCast_nonneg m)]
    have hsize : (m : ℤ) + (1 + n) = (m + 1 + n : ℕ) := by
      rw [Nat.cast_add, Nat.cast_add, Nat.cast_one, Int.add_assoc]
    rw [hsize]
  · refine merge hrow hlast hlink (List.isChain_append.mp h.front).1 h.back ?_ ?_ ?_ ?_ ?_ ?_ ?_
    · rw [ZHeap.setSize_seg, Function.update_self, ZHeap.setFrwd_seg, ZHeap.absorb_seg,
        Function.update_of_ne (by omega)]
    · rw [ZHeap.setSize_seg, Function.update_of_ne (by omega), ZHeap.setFrwd_seg, ZHeap.absorb_seg,
        Function.update_self]
    · intro j hj
      rw [ZHeap.setSize_seg, Function.update_of_ne (by omega), ZHeap.setFrwd_seg, ZHeap.absorb_seg,
        Function.update_of_ne (by omega)]
    · exact ZHeap.absorb_hLast
    · exact ZHeap.absorb_frees
    · exact ZHeap.not_mem_absorb hlink hs
    · exact fun hmem => hout (ZHeap.absorb_frees.subset hmem)
  · refine ⟨Joins.refl.join, ZHeap.absorb_hFree, ZHeap.absorb_hPool, fun x hx => ?_⟩
    have hx' : x / sizeofSeg ≠ span Cell.len A := fun he => hx (he ▸ edge_append A _)
    have hx'' : x / sizeofSeg ≠ span Cell.len A + (m + 1) + (n + 1) := by
      intro he
      refine hx ⟨A ++ [.free m, .free n], B, by rw [List.append_assoc]; rfl, ?_⟩
      rw [he, span_append, span_cons, span_cons, span_nil]
      simp only [Cell.len, Cell.units]
      omega
    rw [ZHeap.setSize, ZHeap.put_byte hx', ZHeap.setFrwd, ZHeap.put_byte hx'', ZHeap.absorb_byte]

theorem joinBack_stay (h : Loose z A n B) (hB : ∀ c ∈ B.head?, ¬ c.IsFree) :
    z.joinBack (span Cell.len A) = (z, 0) := by
  unfold ZHeap.joinBack
  rw [h.behind, if_neg]
  have ht := h.tail.2.2
  cases B with
  | nil =>
      rw [ht.2]
      decide
  | cons c B =>
      rw [ht.2.1.free_iff]
      exact hB c rfl

/-- The segment is joined with the free one behind it. -/
theorem joinBack_free (h : Loose z A n (.free m :: B)) :
    ∃ z', z.joinBack (span Cell.len A) = (z', 1) ∧ Loose z' A (n + 1 + m) B ∧
      Joining z z' (A ++ .free n :: .free m :: B) (A ++ .free (n + 1 + m) :: B) 1 := by
  have ht := h.tail
  have hs : (z.seg (span Cell.len A + (n + 1))).sSize = m := ht.2.2.2.1
  have hsize : (n : ℤ) + (1 + m) = (n + 1 + m : ℕ) := by
    rw [Nat.cast_add, Nat.cast_add, Nat.cast_one, Int.add_assoc]
  have hlink : Linked z.frees ((A ++ [.free n]) ++ .free m :: B) := by
    rw [List.append_assoc]
    exact h.linked
  have hspan : span Cell.len (A ++ [.free n]) = span Cell.len A + (n + 1) := by
    rw [span_append, span_cons, span_nil]
    rfl
  have hend : span Cell.len A + 1 + (n + 1 + m) = span Cell.len A + (n + 1) + (m + 1) := by omega
  refine ⟨((z.absorb (span Cell.len A + (n + 1))).setSize (span Cell.len A)
    (n + 1 + m : ℕ)).setFrwd (span Cell.len A + (n + 1) + (m + 1)) (span Cell.len A), ?_, ?_, ?_⟩
  · unfold ZHeap.joinBack
    rw [h.behind, hs, if_pos (Int.natCast_nonneg m), ht.2.1]
    simp only [hsize, Int.toNat_natCast, hend]
  · refine merge h.row h.last h.linked h.front (List.isChain_cons.mp h.back).2 ?_ ?_ ?_ ?_ ?_ ?_ ?_
    · rw [ZHeap.setFrwd_seg, Function.update_of_ne (by omega), ZHeap.setSize_seg, ZHeap.absorb_seg,
        Function.update_self]
    · rw [ZHeap.setFrwd_seg, Function.update_self, ZHeap.setSize_seg, ZHeap.absorb_seg,
        Function.update_of_ne (by omega)]
    · intro j hj
      rw [ZHeap.setFrwd_seg, Function.update_of_ne (by omega), ZHeap.setSize_seg, ZHeap.absorb_seg,
        Function.update_of_ne (by omega)]
    · exact ZHeap.absorb_hLast
    · exact ZHeap.absorb_frees
    · exact fun hmem => h.out (ZHeap.absorb_frees.subset hmem)
    · have hn := ZHeap.not_mem_absorb hlink (hspan ▸ hs)
      rwa [hspan] at hn
  · refine ⟨Joins.refl.join, ZHeap.absorb_hFree, ZHeap.absorb_hPool, fun x hx => ?_⟩
    have hx' : x / sizeofSeg ≠ span Cell.len A := fun he => hx (he ▸ edge_append A _)
    have hx'' : x / sizeofSeg ≠ span Cell.len A + (n + 1) + (m + 1) := by
      intro he
      refine hx ⟨A ++ [.free n, .free m], B, by rw [List.append_assoc]; rfl, ?_⟩
      rw [he, span_append, span_cons, span_cons, span_nil]
      simp only [Cell.len, Cell.units]
      omega
    rw [ZHeap.setFrwd, ZHeap.put_byte hx'', ZHeap.setSize, ZHeap.put_byte hx', ZHeap.absorb_byte]

/-- What a release has after it has looked forward -/
theorem joinFront (h : Loose z A n B) :
    ∃ (z' : ZHeap) (C : List Cell) (m d : ℕ),
      z.joinFront (span Cell.len A) = (z', span Cell.len C, (d : ℤ)) ∧ Loose z' C m B ∧ n ≤ m ∧
      (∀ c ∈ C.getLast?, ¬ c.IsFree) ∧
      Joining z z' (A ++ .free n :: B) (C ++ .free m :: B) d := by
  by_cases hA : ∀ c ∈ A.getLast?, ¬ c.IsFree
  · exact ⟨z, A, n, 0, h.joinFront_stay hA, h, le_rfl, hA, .refl⟩
  · push Not at hA
    obtain ⟨c, hc, m, rfl⟩ := hA
    obtain ⟨C, rfl⟩ := List.getLast?_eq_some_iff.mp hc
    obtain ⟨z', hz, hl, hj⟩ := h.joinFront_free
    refine ⟨z', C, m + 1 + n, 1, hz, hl, Nat.le_add_left n _, ?_, ?_⟩
    · exact fun c hc hf => (List.isChain_append.mp h.front).2.2 c hc _ rfl ⟨hf, m, rfl⟩
    · rw [List.append_assoc]
      exact hj

theorem joinBack (h : Loose z A n B) :
    ∃ (z' : ZHeap) (C : List Cell) (m d : ℕ),
      z.joinBack (span Cell.len A) = (z', (d : ℤ)) ∧ Loose z' A m C ∧ n ≤ m ∧
      (∀ c ∈ C.head?, ¬ c.IsFree) ∧
      Joining z z' (A ++ .free n :: B) (A ++ .free m :: C) d := by
  by_cases hB : ∀ c ∈ B.head?, ¬ c.IsFree
  · exact ⟨z, B, n, 0, h.joinBack_stay hB, h, le_rfl, hB, .refl⟩
  · push Not at hB
    obtain ⟨c, hc, m, rfl⟩ := hB
    obtain ⟨C, rfl⟩ := List.head?_eq_some_iff.mp hc
    obtain ⟨z', hz, hl, hj⟩ := h.joinBack_free
    refine ⟨z', C, n + 1 + m, 1, hz, hl, ?_, h.back.behind, hj⟩
    omega

/-- The segment is linked when both neighbours are blocks. -/
theorem link (h : Loose z A n B) (hn : 0 < n) (hA : ∀ c ∈ A.getLast?, ¬ c.IsFree)
    (hB : ∀ c ∈ B.head?, ¬ c.IsFree) :
    Fits (z.link (span Cell.len A)) (A ++ .free n :: B) where
  row := by
    rw [ZHeap.link_seg]
    exact h.row
  last := by
    rw [ZHeap.link_hLast]
    exact h.last
  linked := h.linked.link hn h.out (z.link_frees _)
  joined := h.front.free h.back hA hB

end Loose

namespace ZHeap
variable (z : ZHeap) (p : ℕ)

/-- A block that nothing links any more -/
def released : ZHeap := (z.put p { z.seg p with dLink := (z.seg p).dLink - 1 }).release p

theorem released_seg : (z.released p).seg = Function.update z.seg p
    { z.seg p with
      sSize := -(z.seg p).sSize
      dLink := (z.seg p).dLink - 1 } := by
  change Function.update (Function.update z.seg p _) p _ = _
  rw [put_seg, Function.update_self, Function.update_idem]

theorem released_hFree : (z.released p).hFree = z.hFree - (z.seg p).sSize := by
  change z.hFree + ((z.released p).seg p).sSize = _
  rw [released_seg, Function.update_self]
  exact (Int.sub_eq_add_neg ..).symm

theorem hfree_eq (h : (z.seg p).dLink = 1) : z.hfree p =
    ((((z.released p).joinFront p).1.joinBack ((z.released p).joinFront p).2.1).1.link
      ((z.released p).joinFront p).2.1,
      ((z.released p).seg p).sSize + ((z.released p).joinFront p).2.2 +
        (((z.released p).joinFront p).1.joinBack ((z.released p).joinFront p).2.1).2) := by
  have hzero : ¬ ((z.put p { z.seg p with dLink := (z.seg p).dLink - 1 }).seg p).dLink ≠ 0 := by
    rw [put_seg, Function.update_self, h]
    exact fun hn => hn rfl
  exact if_neg hzero

end ZHeap

namespace Fits
variable {z : ZHeap} {A B : List Cell} {size : ℕ}

theorem block_tail (h : Fits z (A ++ .block size :: B)) :
    (z.seg (span Cell.len A)).sFrwd = lastOf none 0 A ∧
      (Cell.block size).Is (z.seg (span Cell.len A)) ∧
      Row z.seg (some (span Cell.len A)) (span Cell.len A + (unitsOf size + 1)) B := by
  have hd := h.row.drop
  rw [Nat.zero_add] at hd
  exact hd

/-- The header of a block is not in the lists. -/
theorem not_mem_frees (h : Fits z (A ++ .block size :: B)) : span Cell.len A ∉ z.frees := by
  intro hmem
  obtain ⟨n, -, hn⟩ := h.linked.mem_iff hmem
  cases hn

/-- A block becomes a free segment. -/
theorem released (h : Fits z (A ++ .block size :: B)) :
    Loose (z.released (span Cell.len A)) A (unitsOf size) B where
  row := by
    have ht := h.block_tail
    refine h.row.replace (fun j hj => ?_) ?_
    · rw [ZHeap.released_seg, Function.update_of_ne (by omega)]
    · rw [Nat.zero_add]
      refine ⟨?_, ?_, ht.2.2.congr fun j hj => ?_⟩
      · rw [ZHeap.released_seg, Function.update_self]
        exact ht.1
      · rw [ZHeap.released_seg, Function.update_self, ht.2.1.1, neg_neg]
        rfl
      · rw [ZHeap.released_seg, Function.update_of_ne (by omega)]
  last := by
    rw [span_append, span_cons]
    exact h.last.trans (by rw [span_append, span_cons]; rfl)
  linked := by
    have hl := h.linked
    rw [List.append_cons] at hl ⊢
    refine hl.exchange rfl (List.Sublist.refl _) fun i c hc => ?_
    rw [places, places, List.mem_singleton] at hc
    rw [(Prod.mk.inj hc).1]
    exact h.not_mem_frees
  out := h.not_mem_frees
  front := h.joined.around.1
  back := h.joined.around.2

theorem released_kept :
    Kept (A ++ .block size :: B) z (z.released (span Cell.len A)) := by
  intro x hx
  have hx' : x / sizeofSeg ≠ span Cell.len A := fun he => hx (he ▸ edge_append A _)
  exact (ZHeap.put_byte hx').trans (ZHeap.put_byte hx')

/-- A release: the row with a block less, joined with its neighbours -/
theorem hfree (h : Fits z (A ++ .block size :: B)) :
    ∃ L d, Fits (z.hfree (span Cell.len A)).1 L ∧
      (z.hfree (span Cell.len A)).2 = (unitsOf size + d : ℕ) ∧
      Joins (A ++ .free (unitsOf size) :: B) L d ∧
      (z.hfree (span Cell.len A)).1.hFree = z.hFree + (unitsOf size + d : ℕ) ∧
      (z.hfree (span Cell.len A)).1.hPool = z.hPool ∧
      Kept (A ++ .block size :: B) z (z.hfree (span Cell.len A)).1 := by
  obtain ⟨hs, hpos, hlink⟩ := h.block_tail.2.1
  obtain ⟨z₁, C, m, d, hz₁, hl₁, hm, hC, hj₁⟩ := h.released.joinFront
  obtain ⟨z₂, D, n, e, hz₂, hl₂, hn, hD, hj₂⟩ := hl₁.joinBack
  have hj := hj₁.trans hj₂
  have hsize : ((z.released (span Cell.len A)).seg (span Cell.len A)).sSize = unitsOf size := by
    rw [ZHeap.released_seg, Function.update_self, hs, neg_neg]
  have hrun : z.hfree (span Cell.len A) =
      (z₂.link (span Cell.len C), ((unitsOf size + (d + e) : ℕ) : ℤ)) := by
    rw [ZHeap.hfree_eq z _ hlink, hz₁]
    dsimp only
    rw [hz₂, hsize, Nat.cast_add, Nat.cast_add, Int.add_assoc]
  rw [hrun]
  refine ⟨C ++ .free n :: D, d + e, hl₂.link (by omega) hC hD, rfl, hj.joins, ?_, ?_, ?_⟩
  · rw [ZHeap.link_hFree, hj.free, ZHeap.released_hFree, hs, Int.sub_neg, Nat.cast_add (unitsOf size),
      Int.add_assoc]
  · rw [ZHeap.link_hPool, hj.pool]
    rfl
  · intro x hx
    rw [ZHeap.link_byte]
    refine (hj.kept x fun he => hx ?_).trans (released_kept x hx)
    exact he.cut (Y := [.block size]) rfl

end Fits

end PaxosSolutions.NWGadget
