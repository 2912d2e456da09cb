import Mathlib.Data.List.Chain
import PaxosSolutions.Lib.Tiles
import PaxosSolutions.NWGadget.HeapPool

/-!
# The row of a heap

The segments of a heap lie one behind the other up to `h_last`. What is in the
lists are free segments of the row, and no two free segments are neighbours. An
allocation cuts a free segment, a release joins a segment with its neighbours,
and neither writes into a block.
-/
namespace PaxosSolutions.NWGadget
open Lib Lib.Tiles

/-- A segment: free units, or the block for a size. -/
inductive Cell
  | free (n : ℕ)
  | block (size : ℕ)

namespace Cell

@[simp] def units : Cell → ℕ
  | free n => n
  | block size => unitsOf size

/-- The units with the header -/
@[simp] def len (c : Cell) : ℕ := c.units + 1

@[simp] def freeUnits : Cell → ℕ
  | free n => n
  | block _ => 0

@[simp] def signed : Cell → ℤ
  | free n => n
  | block size => -unitsOf size

def IsFree (c : Cell) : Prop := ∃ n, c = free n

/-- The header of a segment -/
def Is : Cell → ZSeg → Prop
  | free n, s => s.sSize = n
  | block size, s => s.sSize = -unitsOf size ∧ 0 < unitsOf size ∧ s.dLink = 1

theorem Is.signed {c : Cell} {s : ZSeg} (h : c.Is s) : s.sSize = c.signed := by
  cases c with
  | free n => exact h
  | block size => exact h.1

/-- The sign of a size tells a block. -/
theorem Is.free_iff {c : Cell} {s : ZSeg} (h : c.Is s) : 0 ≤ s.sSize ↔ c.IsFree := by
  cases c with
  | free n => exact iff_of_true (h ▸ Int.natCast_nonneg n) ⟨n, rfl⟩
  | block size =>
      refine iff_of_false ?_ (by rintro ⟨n, hn⟩; cases hn)
      have hs := h.1
      have hpos := h.2.1
      omega

theorem not_isFree_block (size : ℕ) : ¬ (block size).IsFree := by
  rintro ⟨n, hn⟩
  cases hn

end Cell

/-- The headers of a row, with the header before it, and its end mark -/
def Row (seg : ℕ → ZSeg) : Option ℕ → ℕ → List Cell → Prop
  | p, i, [] => (seg i).sFrwd = p ∧ (seg i).sSize = -1
  | p, i, c :: l => (seg i).sFrwd = p ∧ c.Is (seg i) ∧ Row seg (some i) (i + c.len) l

/-- The last header of a row -/
def lastOf : Option ℕ → ℕ → List Cell → Option ℕ
  | p, _, [] => p
  | _, i, c :: l => lastOf (some i) (i + c.len) l

@[simp] theorem lastOf_nil (p : Option ℕ) (i : ℕ) : lastOf p i [] = p := rfl

@[simp] theorem lastOf_concat (p : Option ℕ) (i : ℕ) (A : List Cell) (c : Cell) :
    lastOf p i (A ++ [c]) = some (i + span Cell.len A) := by
  induction A generalizing p i with
  | nil => rfl
  | cons a A ih =>
      rw [List.cons_append, lastOf, ih, span_cons, Nat.add_assoc]

namespace Row
variable {seg seg' : ℕ → ZSeg} {p q : Option ℕ} {i : ℕ} {A B B' L : List Cell}

theorem drop (h : Row seg p i (A ++ B)) : Row seg (lastOf p i A) (i + span Cell.len A) B := by
  induction A generalizing p i with
  | nil => exact h
  | cons a A ih =>
      rw [lastOf, span_cons, ← Nat.add_assoc]
      exact ih h.2.2

/-- A row depends on its own headers. -/
theorem congr (h : Row seg p i L) (hseg : ∀ j, i ≤ j → seg' j = seg j) : Row seg' p i L := by
  induction L generalizing p i with
  | nil =>
      rw [Row, hseg i (Nat.le_refl i)]
      exact h
  | cons c l ih =>
      rw [Row, hseg i (Nat.le_refl i)]
      exact ⟨h.1, h.2.1, ih h.2.2 fun j hj => hseg j (by omega)⟩

theorem replace (h : Row seg p i (A ++ B)) (hseg : ∀ j, j < i + span Cell.len A → seg' j = seg j)
    (hB : Row seg' (lastOf p i A) (i + span Cell.len A) B') : Row seg' p i (A ++ B') := by
  induction A generalizing p i with
  | nil => exact hB
  | cons a A ih =>
      rw [span_cons, ← Nat.add_assoc] at hseg hB
      rw [List.cons_append, Row, hseg i (by simp only [Cell.len]; omega)]
      exact ⟨h.1, h.2.1, ih h.2.2 hseg hB⟩

/-- The row behind gets another header before it. -/
theorem setFrwd (h : Row seg p i L) (hi : seg' i = { seg i with sFrwd := q })
    (hseg : ∀ j, i < j → seg' j = seg j) : Row seg' q i L := by
  cases L with
  | nil =>
      rw [Row, hi]
      exact ⟨rfl, h.2⟩
  | cons c l =>
      have hc : c.Is (seg' i) := by
        rw [hi]
        cases c with
        | free n => exact h.2.1
        | block size => exact h.2.1
      refine ⟨by rw [hi], hc, h.2.2.congr fun j hj => hseg j ?_⟩
      simp only [Cell.len] at hj
      omega

/-- Two free segments become one. -/
theorem merge {m n : ℕ} (h : Row seg none 0 (A ++ .free m :: .free n :: B))
    (hf : seg' (span Cell.len A) = { seg (span Cell.len A) with sSize := (m + 1 + n : ℕ) })
    (hb : seg' (span Cell.len A + (m + 1) + (n + 1)) =
      { seg (span Cell.len A + (m + 1) + (n + 1)) with sFrwd := some (span Cell.len A) })
    (hseg : ∀ j, j < span Cell.len A ∨ span Cell.len A + (m + 1) + (n + 1) < j → seg' j = seg j) :
    Row seg' none 0 (A ++ .free (m + 1 + n) :: B) := by
  have hd := h.drop
  rw [Nat.zero_add] at hd
  refine h.replace (fun j hj => hseg j (.inl (by omega))) ?_
  rw [Nat.zero_add]
  refine ⟨by rw [hf]; exact hd.1, by rw [hf]; rfl, ?_⟩
  have hB : span Cell.len A + (Cell.free (m + 1 + n)).len =
      span Cell.len A + (m + 1) + (n + 1) := by
    simp only [Cell.len, Cell.units]
    omega
  rw [hB]
  exact hd.2.2.2.2.setFrwd hb fun j hj => hseg j (.inr hj)

end Row

namespace ZHeap
variable (z : ZHeap) (i j n : ℕ)

@[simp] theorem unlink_seg : (z.unlink i).seg = z.seg := rfl

@[simp] theorem unlink_byte : (z.unlink i).byte = z.byte := rfl

@[simp] theorem link_seg : (z.link i).seg = z.seg := by
  unfold link
  split_ifs <;> rfl

@[simp] theorem link_byte : (z.link i).byte = z.byte := by
  unfold link
  split_ifs <;> rfl

@[simp] theorem link_hLast : (z.link i).hLast = z.hLast := by
  unfold link
  split_ifs <;> rfl

@[simp] theorem link_hFree : (z.link i).hFree = z.hFree := by
  unfold link
  split_ifs <;> rfl

@[simp] theorem link_hPool : (z.link i).hPool = z.hPool := by
  unfold link
  split_ifs <;> rfl

/-- What is in the lists and in the tree -/
def frees : List ℕ := z.freeLow ++ (z.freeHigh ++ z.pFree)

theorem link_frees : (z.link i).frees.Perm (i :: z.frees) := by
  unfold link frees
  split_ifs
  · rw [← List.append_assoc, ← List.append_assoc]
    exact ((List.perm_orderedInsert _ i z.pFree).append_left _).trans List.perm_middle
  · dsimp only
    rw [List.append_assoc]
    exact List.perm_middle
  · dsimp only
    rw [List.append_assoc z.freeHigh, ← List.append_assoc z.freeLow z.freeHigh,
      ← List.append_assoc z.freeLow z.freeHigh]
    exact List.perm_middle

theorem unlink_frees : (z.unlink i).frees.Sublist z.frees :=
  (List.erase_sublist ..).append ((List.erase_sublist ..).append (List.erase_sublist ..))

variable {z i n}

theorem not_mem_unlink (h : z.frees.Nodup) : i ∉ (z.unlink i).frees := by
  have hl := h.of_append_left
  have hh := h.of_append_right.of_append_left
  have ht := h.of_append_right.of_append_right
  simp only [unlink, frees, List.mem_append, hl.mem_erase_iff, hh.mem_erase_iff, ht.mem_erase_iff,
    not_or, not_and]
  exact ⟨fun h => absurd rfl h, fun h => absurd rfl h, fun h => absurd rfl h⟩

@[simp] theorem put_seg (s : ZSeg) : (z.put i s).seg = Function.update z.seg i s := rfl

@[simp] theorem setFrwd_seg :
    (z.setFrwd i j).seg = Function.update z.seg i { z.seg i with sFrwd := some j } := rfl

@[simp] theorem setSize_seg (m : ℤ) :
    (z.setSize i m).seg = Function.update z.seg i { z.seg i with sSize := m } := rfl

theorem put_byte {s : ZSeg} {x : ℕ} (hx : x / sizeofSeg ≠ i) : (z.put i s).byte x = z.byte x :=
  if_neg hx

theorem hfit_mem {l : List ℕ} {u : ℕ} (h : (l.find? fun j => u ≤ (z.seg j).sSize) = some i) :
    i ∈ l ∧ u ≤ (z.seg i).sSize :=
  ⟨List.mem_of_find?_eq_some h, by simpa using List.find?_some h⟩

theorem find_mem {u : ℕ} (h : z.find u = some i) : i ∈ z.frees ∧ u ≤ (z.seg i).sSize := by
  unfold find at h
  unfold frees
  rw [List.mem_append, List.mem_append]
  split_ifs at h
  · exact (hfit_mem h).imp_left fun h => .inr (.inr h)
  · rcases Option.or_eq_some_iff.mp h with h | ⟨-, h⟩
    · exact (hfit_mem h).imp_left .inl
    · exact (hfit_mem h).imp_left fun h => .inr (.inl h)
  · rw [Option.none_or] at h
    exact (hfit_mem h).imp_left fun h => .inr (.inl h)

/-- The headers that an allocation writes -/
theorem take_seg {u : ℕ} (hs : (z.seg i).sSize = n) :
    (z.take i u).seg = Function.update
      (if u + 1 ≤ n then
        Function.update
          (Function.update z.seg (i + 1 + n) { z.seg (i + 1 + n) with sFrwd := some (i + u + 1) })
          (i + u + 1) ⟨some i, (n - (u + 1) : ℕ), (z.seg (i + u + 1)).dLink⟩
      else z.seg) i
      { z.seg i with
        sSize := -u
        dLink := 1 } := by
  have hb : z.behind i = i + 1 + n := by
    rw [behind, hs, Int.toNat_natCast]
  have hcast : ((u + 1 : ℕ) : ℤ) ≤ n ↔ u + 1 ≤ n := Nat.cast_le
  unfold take
  simp only [hs, hb, hcast]
  by_cases hn : u + 1 ≤ n
  · have hi : i ≠ i + u + 1 := by omega
    have hi' : i ≠ i + 1 + n := by omega
    have hsub : ((n : ℤ) - (u + 1 : ℕ)) = (n - (u + 1) : ℕ) := (Nat.cast_sub hn).symm
    simp only [if_pos hn, hsub]
    split_ifs <;> simp [Function.update_of_ne hi, Function.update_of_ne hi']
  · simp only [if_neg hn]
    split_ifs <;> simp

theorem take_byte {u x : ℕ} (hs : (z.seg i).sSize = n) (hx : x / sizeofSeg ≠ i)
    (hn : u + 1 ≤ n → x / sizeofSeg ≠ i + u + 1 ∧ x / sizeofSeg ≠ i + 1 + n) :
    (z.take i u).byte x = z.byte x := by
  have hb : z.behind i = i + 1 + n := by
    rw [behind, hs, Int.toNat_natCast]
  have hcast : ((u + 1 : ℕ) : ℤ) ≤ n ↔ u + 1 ≤ n := Nat.cast_le
  unfold take
  simp only [hs, hb, hcast]
  by_cases hc : u + 1 ≤ n
  · simp only [if_pos hc]
    obtain ⟨hx', hb⟩ := hn hc
    split_ifs
    · rw [link_byte, put_byte hx, unlink_byte, put_byte hx']
      exact put_byte hb
    · rw [put_byte hx, unlink_byte, put_byte hx']
      exact put_byte hb
  · simp only [if_neg hc]
    split_ifs
    · rw [link_byte, put_byte hx, unlink_byte]
    · rw [put_byte hx, unlink_byte]

theorem take_frees {u : ℕ} (hs : (z.seg i).sSize = n) :
    (u + 1 < n → (z.take i u).frees.Perm ((i + u + 1) :: (z.unlink i).frees)) ∧
      (n ≤ u + 1 → (z.take i u).frees = (z.unlink i).frees) := by
  have hcast : ((u + 1 : ℕ) : ℤ) ≤ n ↔ u + 1 ≤ n := Nat.cast_le
  unfold take
  simp only [hs, hcast]
  constructor
  · intro hn
    rw [if_pos hn.le, if_pos (by omega)]
    exact link_frees _ _
  · intro hn
    rw [if_neg (by omega : ¬ (0 : ℤ) < n - (u + 1 : ℕ))]
    split_ifs <;> rfl

@[simp] theorem take_hLast (u : ℕ) : (z.take i u).hLast = z.hLast := by
  unfold take
  dsimp only
  split_ifs <;> simp [put, setFrwd, unlink]

@[simp] theorem take_hPool (u : ℕ) : (z.take i u).hPool = z.hPool := by
  unfold take
  dsimp only
  split_ifs <;> simp [put, setFrwd, unlink]

@[simp] theorem take_hFree (u : ℕ) : (z.take i u).hFree = z.hFree - (u + 1 : ℕ) := by
  unfold take
  dsimp only
  split_ifs <;> simp [put, setFrwd, unlink]

end ZHeap

/-- What is in the lists are free segments of the row. -/
structure Linked (fs : List ℕ) (L : List Cell) : Prop where
  nodup : fs.Nodup
  mem : ∀ i ∈ fs, ∃ n, 0 < n ∧ (i, Cell.free n) ∈ places Cell.len 0 L

namespace Linked
variable {fs gs : List ℕ} {A B L X Y : List Cell} {i n : ℕ} {c : Cell}

/-- Segments that are not in the lists are exchanged. -/
theorem exchange (h : Linked fs (A ++ X ++ B)) (hXY : span Cell.len X = span Cell.len Y)
    (hgs : gs.Sublist fs) (hX : ∀ i c, (i, c) ∈ places Cell.len (span Cell.len A) X → i ∉ gs) :
    Linked gs (A ++ Y ++ B) where
  nodup := h.nodup.sublist hgs
  mem i hi := by
    obtain ⟨n, hn, hmem⟩ := h.mem i (hgs.subset hi)
    refine ⟨n, hn, places_exchange hXY hmem fun hc => ?_⟩
    rw [Nat.zero_add] at hc
    exact hX i _ hc hi

/-- A free segment is linked. -/
theorem link (h : Linked fs (A ++ .free n :: B)) (hn : 0 < n) (hA : span Cell.len A ∉ fs)
    (hgs : gs.Perm (span Cell.len A :: fs)) : Linked gs (A ++ .free n :: B) where
  nodup := hgs.nodup_iff.mpr (List.nodup_cons.mpr ⟨hA, h.nodup⟩)
  mem i hi := by
    rcases List.mem_cons.mp (hgs.subset hi) with rfl | hi
    · exact ⟨n, hn, mem_places_mid A B _⟩
    · exact h.mem i hi

/-- What is in the lists has free units. -/
theorem mem_iff (h : Linked fs (A ++ c :: B)) (hA : span Cell.len A ∈ fs) :
    ∃ n, 0 < n ∧ c = .free n := by
  obtain ⟨n, hn, hmem⟩ := h.mem _ hA
  exact ⟨n, hn, unique (fun _ => Nat.succ_pos _) (mem_places_mid A B c) hmem⟩

end Linked

/-- No two free segments are neighbours. -/
abbrev Joined (L : List Cell) : Prop := L.IsChain fun c d => ¬ (c.IsFree ∧ d.IsFree)

namespace Joined
variable {A B : List Cell} {c : Cell} {n size : ℕ}

theorem around (h : Joined (A ++ c :: B)) : Joined A ∧ Joined B :=
  ⟨(List.isChain_append.mp h).1, (List.isChain_cons.mp (List.isChain_append.mp h).2.1).2⟩

theorem block (hA : Joined A) (hB : Joined B) : Joined (A ++ .block size :: B) := by
  refine List.isChain_append.mpr ⟨hA, List.isChain_cons.mpr ⟨?_, hB⟩, ?_⟩
  · rintro c - ⟨h, -⟩
    exact Cell.not_isFree_block size h
  · rintro c - d hd ⟨-, h⟩
    rw [List.head?_cons, Option.mem_some_iff] at hd
    exact Cell.not_isFree_block size (hd ▸ h)

theorem free (hA : Joined A) (hB : Joined B) (hA' : ∀ c ∈ A.getLast?, ¬ c.IsFree)
    (hB' : ∀ c ∈ B.head?, ¬ c.IsFree) : Joined (A ++ .free n :: B) := by
  refine List.isChain_append.mpr ⟨hA, List.isChain_cons.mpr ⟨?_, hB⟩, ?_⟩
  · rintro c hc ⟨-, h⟩
    exact hB' c hc h
  · rintro c hc d - ⟨h, -⟩
    exact hA' c hc h

theorem behind (h : Joined (.free n :: B)) : ∀ c ∈ B.head?, ¬ c.IsFree :=
  fun c hc hf => (List.isChain_cons.mp h).1 c hc ⟨⟨n, rfl⟩, hf⟩

end Joined

/-- A heap with the segments of a row -/
structure Fits (z : ZHeap) (L : List Cell) : Prop where
  row : Row z.seg none 0 L
  last : z.hLast = span Cell.len L
  linked : Linked z.frees L
  joined : Joined L

/-- Nothing but headers of a row is written. -/
def Kept (L : List Cell) (z z' : ZHeap) : Prop :=
  ∀ x, ¬ Edge Cell.len L (x / sizeofSeg) → z'.byte x = z.byte x

/-- What an allocation leaves of a free segment -/
def rest (n u : ℕ) : List Cell := if u + 1 ≤ n then [.free (n - (u + 1))] else []

theorem span_rest {n u : ℕ} (h : u ≤ n) : u + 1 + span Cell.len (rest n u) = n + 1 := by
  unfold rest
  split_ifs
  · rw [span_cons, span_nil, Cell.len, Cell.units]
    omega
  · rw [span_nil]
    omega

namespace Fits
variable {z : ZHeap} {A B L : List Cell} {i n size : ℕ}

/-- The search finds a free segment that is large enough. -/
theorem find {u : ℕ} (h : Fits z L) (hf : z.find u = some i) :
    ∃ (A B : List Cell) (n : ℕ), L = A ++ .free n :: B ∧ i = span Cell.len A ∧
      (z.seg i).sSize = n ∧ u ≤ n := by
  obtain ⟨hi, hu⟩ := ZHeap.find_mem hf
  obtain ⟨n, -, hmem⟩ := h.linked.mem i hi
  obtain ⟨A, B, rfl, rfl⟩ := mem_places.mp hmem
  rw [Nat.zero_add] at hu ⊢
  have hs : (z.seg (span Cell.len A)).sSize = n := by
    have hd := h.row.drop
    rw [Nat.zero_add] at hd
    exact hd.2.1
  rw [hs] at hu
  exact ⟨A, B, n, rfl, rfl, hs, Nat.cast_le.mp hu⟩

theorem take_row (h : Fits z (A ++ .free n :: B)) (hpos : 0 < unitsOf size)
    (hn : unitsOf size ≤ n) :
    Row (z.take (span Cell.len A) (unitsOf size)).seg none 0
      (A ++ .block size :: (rest n (unitsOf size) ++ B)) := by
  have hd := h.row.drop
  rw [Nat.zero_add] at hd
  obtain ⟨hfrwd, hs, hB⟩ := hd
  refine h.row.replace (fun j hj => ?_) ?_
  · rw [ZHeap.take_seg hs, Function.update_of_ne (by omega)]
    split_ifs
    · rw [Function.update_of_ne (by omega), Function.update_of_ne (by omega)]
    · rfl
  · rw [Nat.zero_add, ZHeap.take_seg hs]
    refine ⟨by rw [Function.update_self]; exact hfrwd, ?_, ?_⟩
    · rw [Function.update_self]
      exact ⟨rfl, hpos, rfl⟩
    · simp only [Cell.len, Cell.units] at hB ⊢
      unfold rest
      split_ifs with hc
      · rw [List.cons_append, List.nil_append]
        refine ⟨?_, ?_, ?_⟩
        · rw [Function.update_of_ne (by omega), ← Nat.add_assoc, Function.update_self]
        · rw [Function.update_of_ne (by omega), ← Nat.add_assoc, Function.update_self]
          rfl
        · have hi : span Cell.len A + (unitsOf size + 1) +
              (Cell.free (n - (unitsOf size + 1))).len = span Cell.len A + (n + 1) := by
            simp only [Cell.len, Cell.units]
            omega
          rw [hi]
          refine hB.setFrwd ?_ fun j hj => ?_
          · rw [Function.update_of_ne (by omega), Function.update_of_ne (by omega),
              show span Cell.len A + (n + 1) = span Cell.len A + 1 + n by omega,
              Function.update_self]
            rfl
          · rw [Function.update_of_ne (by omega), Function.update_of_ne (by omega),
              Function.update_of_ne (by omega)]
      · have hi : span Cell.len A + (unitsOf size + 1) = span Cell.len A + (n + 1) := by omega
        rw [List.nil_append, hi]
        exact hB.congr fun j hj => Function.update_of_ne (by omega) ..

theorem take_linked (h : Fits z (A ++ .free n :: B)) (hn : unitsOf size ≤ n) :
    Linked (z.take (span Cell.len A) (unitsOf size)).frees
      (A ++ .block size :: (rest n (unitsOf size) ++ B)) := by
  have hs : (z.seg (span Cell.len A)).sSize = n := by
    have hd := h.row.drop
    rw [Nat.zero_add] at hd
    exact hd.2.1
  have hout := ZHeap.not_mem_unlink (i := span Cell.len A) h.linked.nodup
  have hmid : Linked (z.unlink (span Cell.len A)).frees
      (A ++ .block size :: (rest n (unitsOf size) ++ B)) := by
    have hl := h.linked
    rw [List.append_cons] at hl
    have hx := hl.exchange (Y := .block size :: rest n (unitsOf size)) ?_ (z.unlink_frees (span Cell.len A)) ?_
    · rwa [List.append_assoc, List.cons_append] at hx
    · rw [span_cons, span_cons, span_nil, Cell.len, Cell.len, Cell.units, Cell.units,
        span_rest hn]
    · intro j c hj
      rw [places, places, List.mem_singleton] at hj
      rwa [(Prod.mk.inj hj).1]
  by_cases hc : unitsOf size + 1 < n
  · have hperm := (ZHeap.take_frees hs).1 hc
    rw [rest, if_pos hc.le, List.cons_append, List.nil_append, List.append_cons] at hmid ⊢
    have hspan : span Cell.len (A ++ [.block size]) = span Cell.len A + unitsOf size + 1 := by
      rw [span_append, span_cons, span_nil, Cell.len, Cell.units]
      omega
    rw [← hspan] at hperm
    refine hmid.link (Nat.sub_pos_of_lt hc) (fun hmem => ?_) hperm
    -- the rest begins inside the segment, where the lists have nothing
    obtain ⟨m, -, hm⟩ := h.linked.mem _ ((z.unlink_frees _).subset hmem)
    rw [hspan] at hm
    refine not_edge_inside ?_ ?_ (edge_of_mem hm)
    · omega
    · simp only [Cell.len, Cell.units]
      omega
  · rw [(ZHeap.take_frees hs).2 (Nat.le_of_not_lt hc)]
    exact hmid

/-- An allocation cuts a free segment. -/
theorem take (h : Fits z (A ++ .free n :: B)) (hpos : 0 < unitsOf size) (hn : unitsOf size ≤ n) :
    Fits (z.take (span Cell.len A) (unitsOf size))
      (A ++ .block size :: (rest n (unitsOf size) ++ B)) where
  row := h.take_row hpos hn
  last := by
    have hr := span_rest hn
    rw [ZHeap.take_hLast, h.last]
    simp only [span_append, span_cons, Cell.len, Cell.units]
    omega
  linked := h.take_linked hn
  joined := by
    obtain ⟨hA, hB⟩ := h.joined.around
    refine hA.block ?_
    unfold rest
    split_ifs
    · refine List.isChain_cons.mpr ⟨?_, hB⟩
      rintro c hc ⟨-, hf⟩
      exact Joined.behind (List.isChain_append.mp h.joined).2.1 c hc hf
    · exact hB

theorem take_kept (h : Fits z (A ++ .free n :: B)) (hn : unitsOf size ≤ n) :
    Kept (A ++ .block size :: (rest n (unitsOf size) ++ B)) z
      (z.take (span Cell.len A) (unitsOf size)) := by
  have hs : (z.seg (span Cell.len A)).sSize = n := by
    have hd := h.row.drop
    rw [Nat.zero_add] at hd
    exact hd.2.1
  intro x hx
  refine ZHeap.take_byte hs (fun he => ?_) fun hc => ⟨fun he => ?_, fun he => ?_⟩
  · exact hx (he ▸ edge_append A _)
  · refine hx ⟨A ++ [.block size], rest n (unitsOf size) ++ B, ?_, ?_⟩
    · rw [← List.append_cons]
    · rw [he, span_append, span_cons, span_nil, Cell.len, Cell.units]
      omega
  · have hr := span_rest hn
    refine hx ⟨A ++ .block size :: rest n (unitsOf size), B, ?_, ?_⟩
    · rw [List.append_assoc, List.cons_append]
    · rw [he, span_append, span_cons, Cell.len, Cell.units]
      omega

end Fits

end PaxosSolutions.NWGadget
