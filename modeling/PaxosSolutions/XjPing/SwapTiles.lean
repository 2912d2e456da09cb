import PaxosSolutions.XjPing.Swap
import Mathlib.Algebra.BigOperators.Group.List.Basic
import Mathlib.Data.List.Chain
import Mathlib.Data.List.Perm.Basic
import Mathlib.Data.Nat.Bitwise

/-!
# Segments of the swap file

The swap file as a row of cells. Each operation is a change of the row, and the
bytes of the file are those of the row all along a run that splits no segment.
-/
namespace PaxosSolutions.XjPing
open Lib

/-- A segment: is it used, and what is behind its head. -/
structure Cell where
  used : Bool
  body : List UInt8
  body_pos : 0 < body.length

namespace Cell

def size (c : Cell) : ℕ := 8 + c.body.length

def len (c : Cell) : ℤ := if c.used then c.body.length else -c.body.length

def bytes (prev : ℕ) (c : Cell) : List UInt8 := XjSwapHead.bytes ⟨prev, c.len⟩ ++ c.body

theorem natAbs_len (c : Cell) : c.len.natAbs = c.body.length := by
  unfold len
  split_ifs <;> simp

theorem len_ne_zero (c : Cell) : c.len ≠ 0 := by
  have h := c.natAbs_len
  have hpos := c.body_pos
  omega

theorem len_neg_iff (c : Cell) : c.len < 0 ↔ c.used = false := by
  have hpos := c.body_pos
  unfold len
  split_ifs with h
  · simp [h]
  · simp only [h, iff_true]
    omega

theorem len_pos_iff (c : Cell) : 0 < c.len ↔ c.used = true := by
  have hpos := c.body_pos
  unfold len
  split_ifs with h
  · simp only [h, iff_true]
    omega
  · simp [h]

theorem len_used {c : Cell} (h : c.used = true) : c.len = c.body.length := by simp [len, h]

theorem len_free {c : Cell} (h : c.used = false) : c.len = -c.body.length := by simp [len, h]

end Cell

@[simp] theorem head_bytes_length (head : XjSwapHead) : head.bytes.length = 8 := rfl

@[simp] theorem cell_bytes_length (prev : ℕ) (c : Cell) : (c.bytes prev).length = c.size := by
  simp [Cell.bytes, Cell.size]

/-- The cells from the offset `off` on, behind a cell at `prev`. -/
def cellsBytes : ℕ → ℕ → List Cell → List UInt8
  | _, _, [] => []
  | prev, off, c :: cs => c.bytes prev ++ cellsBytes off (off + c.size) cs

def lastAt : ℕ → ℕ → List Cell → ℕ
  | prev, _, [] => prev
  | _, off, c :: cs => lastAt off (off + c.size) cs

def endAt (off : ℕ) (cs : List Cell) : ℕ := off + (cs.map Cell.size).sum

/-- The cells and the terminator. -/
def fileBytes (prev off : ℕ) (cs : List Cell) : List UInt8 :=
  cellsBytes prev off cs ++ XjSwapHead.bytes ⟨lastAt prev off cs, 0⟩

@[simp] theorem endAt_nil (off : ℕ) : endAt off [] = off := rfl

@[simp] theorem endAt_cons (off : ℕ) (c : Cell) (cs : List Cell) :
    endAt off (c :: cs) = endAt (off + c.size) cs := by
  simp only [endAt, List.map_cons, List.sum_cons]
  omega

theorem endAt_append (off : ℕ) (xs ys : List Cell) :
    endAt off (xs ++ ys) = endAt (endAt off xs) ys := by
  simp only [endAt, List.map_append, List.sum_append]
  omega

theorem le_endAt (off : ℕ) (cs : List Cell) : off ≤ endAt off cs := Nat.le_add_right _ _

theorem cellsBytes_length (prev off : ℕ) (cs : List Cell) :
    off + (cellsBytes prev off cs).length = endAt off cs := by
  induction cs generalizing prev off with
  | nil => rfl
  | cons c cs ih =>
      rw [cellsBytes, List.length_append, cell_bytes_length, endAt_cons, ← ih off]
      omega

theorem endAt_zero (cs : List Cell) : endAt 0 cs = (cellsBytes 0 0 cs).length := by
  rw [← cellsBytes_length 0 0 cs, Nat.zero_add]

theorem fileBytes_length (prev off : ℕ) (cs : List Cell) :
    off + (fileBytes prev off cs).length = endAt off cs + 8 := by
  rw [fileBytes, List.length_append, ← Nat.add_assoc, cellsBytes_length, head_bytes_length]

theorem cellsBytes_append (prev off : ℕ) (xs ys : List Cell) :
    cellsBytes prev off (xs ++ ys) =
      cellsBytes prev off xs ++ cellsBytes (lastAt prev off xs) (endAt off xs) ys := by
  induction xs generalizing prev off with
  | nil => rfl
  | cons x xs ih => simp only [List.cons_append, cellsBytes, lastAt, endAt_cons, ih, List.append_assoc]

theorem lastAt_append (prev off : ℕ) (xs ys : List Cell) :
    lastAt prev off (xs ++ ys) = lastAt (lastAt prev off xs) (endAt off xs) ys := by
  induction xs generalizing prev off with
  | nil => rfl
  | cons x xs ih => simp only [List.cons_append, lastAt, endAt_cons, ih]

theorem lastAt_concat (prev off : ℕ) (xs : List Cell) (c : Cell) :
    lastAt prev off (xs ++ [c]) = endAt off xs := by
  rw [lastAt_append]
  rfl

theorem lastAt_le (prev off : ℕ) (cs : List Cell) : lastAt prev off cs ≤ max prev (endAt off cs) := by
  induction cs generalizing prev off with
  | nil => exact Nat.le_max_left _ _
  | cons c cs ih =>
      have h := ih off (off + c.size)
      have hle := le_endAt (off + c.size) cs
      rw [lastAt, endAt_cons]
      omega

theorem fileBytes_append (prev off : ℕ) (xs ys : List Cell) :
    fileBytes prev off (xs ++ ys) =
      cellsBytes prev off xs ++ fileBytes (lastAt prev off xs) (endAt off xs) ys := by
  rw [fileBytes, fileBytes, cellsBytes_append, lastAt_append, List.append_assoc]

theorem fileBytes_cons (prev off : ℕ) (c : Cell) (cs : List Cell) :
    fileBytes prev off (c :: cs) = c.bytes prev ++ fileBytes off (off + c.size) cs := by
  simp only [fileBytes, cellsBytes, lastAt, List.append_assoc]

/-! ### The heads of the file -/

/-- The length in the first head, and what is behind it. -/
def firstLen : List Cell → ℤ
  | [] => 0
  | c :: _ => c.len

def fileTail (off : ℕ) : List Cell → List UInt8
  | [] => []
  | c :: cs => c.body ++ fileBytes off (off + c.size) cs

theorem fileBytes_eq (prev off : ℕ) (cs : List Cell) :
    fileBytes prev off cs = XjSwapHead.bytes ⟨prev, firstLen cs⟩ ++ fileTail off cs := by
  cases cs with
  | nil => simp [fileBytes, cellsBytes, lastAt, firstLen, fileTail]
  | cons c cs => simp [fileBytes_cons, Cell.bytes, firstLen, fileTail]

/-- Both numbers of a head are in the range of `int`. -/
structure HeadFits (head : XjSwapHead) : Prop where
  prev_lo : -2 ^ 31 ≤ head.pPrev
  prev_hi : head.pPrev < 2 ^ 31
  len_lo : -2 ^ 31 ≤ head.pLen
  len_hi : head.pLen < 2 ^ 31

theorem ofBytes_bytes {head : XjSwapHead} (h : HeadFits head) (rest : List UInt8) :
    XjSwapHead.ofBytes (head.bytes ++ rest) = head := by
  obtain ⟨prev, len⟩ := head
  have htake : ((intBytes prev ++ intBytes len) ++ rest).take 4 = intBytes prev := rfl
  have hdrop : (((intBytes prev ++ intBytes len) ++ rest).drop 4).take 4 = intBytes len := rfl
  unfold XjSwapHead.ofBytes XjSwapHead.bytes
  rw [htake, hdrop, bytesInt_intBytes h.prev_lo h.prev_hi, bytesInt_intBytes h.len_lo h.len_hi]

/-- A read where the file has a head gives it. -/
theorem readHead_at {head : XjSwapHead} (h : HeadFits head) (pre post : List UInt8)
    (old : XjSwapHead) : readHead ⟨pre ++ (head.bytes ++ post), pre.length⟩ old =
      (head, ⟨pre ++ (head.bytes ++ post), pre.length + 8⟩) := by
  have hread := File.read_append pre head.bytes post
  rw [head_bytes_length] at hread
  unfold readHead
  rw [hread]
  simp only
  rw [ofBytes_bytes h]

theorem firstLen_natAbs_lt (prev off : ℕ) (cs : List Cell) :
    (firstLen cs).natAbs < (fileBytes prev off cs).length := by
  have hlen := fileBytes_length prev off cs
  cases cs with
  | nil => simp [firstLen, fileBytes]
  | cons c cs =>
      have hle := le_endAt (off + c.size) cs
      simp only [firstLen, c.natAbs_len]
      rw [endAt_cons] at hlen
      unfold Cell.size at hlen hle
      omega

theorem headFits_first {prev : ℕ} {cs : List Cell} (off : ℕ) (hprev : prev < 2 ^ 31)
    (h : (fileBytes prev off cs).length < 2 ^ 31) : HeadFits ⟨prev, firstLen cs⟩ := by
  have hlt := firstLen_natAbs_lt prev off cs
  constructor <;> dsimp only <;> omega

/-- The offsets and the heads of cells and of the terminator. -/
def headsOf : ℕ → ℕ → List Cell → List (ℕ × XjSwapHead)
  | prev, off, [] => [(off, ⟨prev, 0⟩)]
  | prev, off, c :: cs => (off, ⟨prev, c.len⟩) :: headsOf off (off + c.size) cs

theorem heads_fileBytes {fuel prev off : ℕ} {cs : List Cell} (hfuel : cs.length < fuel)
    (hprev : prev < 2 ^ 31) (hrange : off + (fileBytes prev off cs).length < 2 ^ 31) :
    heads fuel off (fileBytes prev off cs) = some (headsOf prev off cs) := by
  induction cs generalizing fuel prev off with
  | nil =>
      obtain ⟨fuel, rfl⟩ : ∃ n, fuel = n + 1 := ⟨fuel - 1, by simp at hfuel; omega⟩
      have hfits : HeadFits ⟨prev, firstLen []⟩ := headFits_first off hprev (by omega)
      have hof := ofBytes_bytes hfits []
      have hbytes : fileBytes prev off [] = XjSwapHead.bytes ⟨prev, firstLen []⟩ ++ [] :=
        fileBytes_eq prev off []
      rw [hbytes]
      unfold heads
      rw [hof]
      simp [firstLen, headsOf]
  | cons c cs ih =>
      obtain ⟨fuel, rfl⟩ : ∃ n, fuel = n + 1 := ⟨fuel - 1, by simp at hfuel; omega⟩
      have hfits : HeadFits ⟨prev, firstLen (c :: cs)⟩ := headFits_first off hprev (by omega)
      have hof := ofBytes_bytes hfits (fileTail off (c :: cs))
      have hlen := fileBytes_length prev off (c :: cs)
      have hrest := fileBytes_length off (off + c.size) cs
      have hle := le_endAt (off + c.size) cs
      rw [endAt_cons] at hlen
      have hdrop : (fileBytes prev off (c :: cs)).drop (8 + c.body.length) =
          fileBytes off (off + c.size) cs := by
        rw [fileBytes_cons]
        exact List.drop_left' (cell_bytes_length prev c)
      have hsize : off + 8 + c.body.length = off + c.size := by
        unfold Cell.size
        omega
      have hih : heads fuel (off + c.size) (fileBytes off (off + c.size) cs) =
          some (headsOf off (off + c.size) cs) :=
        ih (by rw [List.length_cons] at hfuel; omega) (by omega) (by omega)
      rw [← fileBytes_eq] at hof
      unfold heads
      rw [if_neg (by unfold Cell.size at hle; omega), hof]
      simp only [firstLen, c.natAbs_len, if_neg c.len_ne_zero, hdrop, hsize, hih]
      rfl

/-! ### Swapping out at the end -/

theorem length_le_endAt (off : ℕ) (cs : List Cell) : off + cs.length ≤ endAt off cs := by
  induction cs generalizing off with
  | nil => exact le_refl _
  | cons c cs ih =>
      have h := ih (off + c.size)
      rw [endAt_cons, List.length_cons]
      unfold Cell.size at h ⊢
      omega

theorem ok_bind {α β : Type} (a : α) (f : α → Except SwapFault β) : .ok a >>= f = f a := by
  simp [bind, Except.bind]

theorem seekOr_some_bind {β : Type} (fd : File) (f : File → Except SwapFault β) :
    seekOr (some fd) >>= f = f fd := by simp [seekOr, bind, Except.bind]

theorem seekCur_getD {fd : File} {bs : List UInt8} {p n : ℕ} (h : fd = ⟨bs, p⟩) :
    (fd.seekCur n).getD fd = ⟨bs, p + n⟩ := by
  rw [File.seekCur_add, h]
  rfl

theorem seekCur_back_getD (bs : List UInt8) (p : ℕ) :
    (File.seekCur ⟨bs, p + 8⟩ (-8)).getD ⟨bs, p + 8⟩ = ⟨bs, p⟩ := by
  have h : (⟨bs, p + 8⟩ : File).seekCur (-(8 : ℕ)) = some ⟨bs, p⟩ := File.seekCur_back rfl
  exact congrArg (·.getD ⟨bs, p + 8⟩) h

/-- Writes behind each other at the end of the file. -/
theorem write_tail (pre new : List UInt8) :
    File.write ⟨pre, pre.length⟩ new = ⟨pre ++ new, (pre ++ new).length⟩ := by
  have h : File.write ⟨pre ++ [], pre.length⟩ new = ⟨pre ++ new, pre.length + new.length⟩ :=
    File.write_end (Nat.zero_le _)
  rwa [List.append_nil, ← List.length_append] at h

/-- A head is written over another one. -/
theorem write_head (pre post : List UInt8) (old new : XjSwapHead) :
    File.write ⟨pre ++ (old.bytes ++ post), pre.length⟩ new.bytes =
      ⟨pre ++ (new.bytes ++ post), pre.length + 8⟩ := File.write_append rfl

theorem outLoop_end {fuel prev : ℕ} {pre addrp : List UInt8} {head : XjSwapHead}
    (hsize : 0 < addrp.length) (hprev : prev < 2 ^ 31) :
    ∃ pos, outLoop (fuel + 1) addrp pre.length head
        ⟨pre ++ fileBytes prev pre.length [], pre.length⟩ =
      .ok (setSeq 0 pre.length, ⟨pre ++ fileBytes prev pre.length [⟨true, addrp, hsize⟩], pos⟩) := by
  have hfits : HeadFits ⟨prev, firstLen []⟩ := headFits_first 0 hprev (by simp [fileBytes, cellsBytes])
  have hread := readHead_at hfits pre (fileTail pre.length []) head
  have hlen : pre.length + 8 = (pre ++ XjSwapHead.bytes ⟨prev, addrp.length⟩).length := by simp
  rw [← fileBytes_eq] at hread
  refine ⟨(pre ++ XjSwapHead.bytes ⟨prev, addrp.length⟩ ++ addrp ++
    XjSwapHead.bytes ⟨pre.length, 0⟩).length, ?_⟩
  unfold outLoop
  simp only [hread, firstLen, if_pos]
  rw [seekCur_back_getD, fileBytes_eq, write_head, fileTail, List.append_nil, hlen, write_tail,
    write_tail]
  simp [fileBytes, cellsBytes, lastAt, Cell.bytes, Cell.len]

/-- A used cell and a free one without the room are passed. -/
theorem outLoop_skip {fuel prev : ℕ} {pre addrp : List UInt8} {c : Cell} {cs : List Cell}
    {head : XjSwapHead} (hprev : prev < 2 ^ 31)
    (hrange : pre.length + (fileBytes prev pre.length (c :: cs)).length < 2 ^ 31)
    (hfit : c.used = false → c.body.length < addrp.length + 2 * 8) :
    outLoop (fuel + 1) addrp pre.length head
        ⟨pre ++ fileBytes prev pre.length (c :: cs), pre.length⟩ =
      outLoop fuel addrp (pre ++ c.bytes prev).length ⟨prev, c.len⟩
        ⟨pre ++ c.bytes prev ++ fileBytes pre.length (pre ++ c.bytes prev).length cs,
          (pre ++ c.bytes prev).length⟩ := by
  have hfits : HeadFits ⟨prev, firstLen (c :: cs)⟩ := headFits_first pre.length hprev (by omega)
  have hread := readHead_at hfits pre (fileTail pre.length (c :: cs)) head
  have hsz : c.size = 8 + c.body.length := rfl
  have hlen := fileBytes_length prev pre.length (c :: cs)
  have hle := le_endAt (pre.length + c.size) cs
  have hnext : (pre ++ c.bytes prev).length = pre.length + c.size := by simp
  have hbytes : pre ++ c.bytes prev ++ fileBytes pre.length (pre ++ c.bytes prev).length cs =
      pre ++ fileBytes prev pre.length (c :: cs) := by
    rw [hnext, List.append_assoc, ← fileBytes_cons]
  rw [endAt_cons] at hlen
  have hseq : int32 (pre.length + c.body.length + 8) = (pre ++ c.bytes prev).length := by
    rw [int32_of_range (by omega) (by omega), hnext]
    omega
  have hseek : (File.seekCur ⟨pre ++ fileBytes prev pre.length (c :: cs), pre.length + 8⟩
      c.body.length).getD ⟨pre ++ fileBytes prev pre.length (c :: cs), pre.length + 8⟩ =
      ⟨pre ++ fileBytes prev pre.length (c :: cs), (pre ++ c.bytes prev).length⟩ := by
    rw [seekCur_getD rfl, hnext, hsz, Nat.add_assoc]
  rw [← fileBytes_eq] at hread
  rw [hbytes]
  conv_lhs => unfold outLoop
  simp only [hread, firstLen, if_neg c.len_ne_zero]
  cases hused : c.used with
  | true =>
      have hpos : 0 < c.len := c.len_pos_iff.mpr hused
      rw [if_pos hpos, Cell.len_used hused, hseq, hseek]
  | false =>
      have hneg : ¬0 < c.len := by
        rw [c.len_pos_iff, hused]
        decide
      have hroom := hfit hused
      have hres : - -(c.body.length : ℤ) = c.body.length := Int.neg_neg _
      have hlt : (c.body.length : ℤ) < addrp.length + 2 * 8 := by omega
      rw [if_neg hneg, Cell.len_free hused, hres, if_pos hlt, hseq, hseek]

/-- Where no free cell has the room, a cell is appended. -/
theorem outLoop_append {fuel prev : ℕ} {cs : List Cell} {addrp : List UInt8} (pre : List UInt8)
    (head : XjSwapHead) (hsize : 0 < addrp.length) (hfuel : cs.length < fuel)
    (hprev : prev < 2 ^ 31)
    (hrange : pre.length + (fileBytes prev pre.length cs).length < 2 ^ 31)
    (hfit : ∀ c ∈ cs, c.used = false → c.body.length < addrp.length + 2 * 8) :
    ∃ pos, outLoop fuel addrp pre.length head ⟨pre ++ fileBytes prev pre.length cs, pre.length⟩ =
      .ok (setSeq 0 (endAt pre.length cs),
        ⟨pre ++ fileBytes prev pre.length (cs ++ [⟨true, addrp, hsize⟩]), pos⟩) := by
  induction cs generalizing fuel prev pre head with
  | nil =>
      obtain ⟨fuel, rfl⟩ : ∃ n, fuel = n + 1 := ⟨fuel - 1, by omega⟩
      exact outLoop_end hsize hprev
  | cons c cs ih =>
      obtain ⟨fuel, rfl⟩ : ∃ n, fuel = n + 1 := ⟨fuel - 1, by omega⟩
      have hnext : (pre ++ c.bytes prev).length = pre.length + c.size := by simp
      have hlen := fileBytes_length prev pre.length (c :: cs)
      have hrest := fileBytes_length pre.length (pre ++ c.bytes prev).length cs
      rw [List.length_cons] at hfuel
      rw [endAt_cons] at hlen
      have hfit' : ∀ d ∈ cs, d.used = false → d.body.length < addrp.length + 2 * 8 :=
        fun d hd => hfit d (List.mem_cons_of_mem c hd)
      have hrange' : (pre ++ c.bytes prev).length +
          (fileBytes pre.length (pre ++ c.bytes prev).length cs).length < 2 ^ 31 := by
        rw [hnext] at hrest ⊢
        omega
      have hprev' : pre.length < 2 ^ 31 := by omega
      have hfuel' : cs.length < fuel := by omega
      obtain ⟨pos, hpos⟩ := ih (pre ++ c.bytes prev) ⟨prev, c.len⟩ hfuel' hprev' hrange' hfit'
      refine ⟨pos, ?_⟩
      rw [outLoop_skip hprev hrange (hfit c List.mem_cons_self), hpos, endAt_cons, List.cons_append,
        fileBytes_cons, hnext, List.append_assoc]

theorem setSeq_ofNat {n : ℕ} (h : n < 2 ^ 31) : setSeq 0 n = n := by
  have hmod : ((n : ℤ) % 2 ^ 32).toNat = n := by omega
  rw [setSeq, hmod, Nat.zero_or]

theorem xjSwapOut_append {fd : File} {addrp : List UInt8} {cs : List Cell}
    (hsize : 0 < addrp.length) (hbytes : fd.bytes = fileBytes 0 0 cs)
    (hrange : fd.bytes.length < 2 ^ 31)
    (hfit : ∀ c ∈ cs, c.used = false → c.body.length < addrp.length + 2 * 8) :
    ∃ fd', xjSwapOut fd addrp = .ok (endAt 0 cs, fd') ∧
      fd'.bytes = fileBytes 0 0 (cs ++ [⟨true, addrp, hsize⟩]) := by
  have hlen := fileBytes_length 0 0 cs
  have hle := length_le_endAt 0 cs
  rw [hbytes] at hrange
  have hfuel : cs.length < (fileBytes 0 0 cs).length + 1 := by omega
  have hrange' : ([] : List UInt8).length + (fileBytes 0 0 cs).length < 2 ^ 31 := by simpa using hrange
  obtain ⟨pos, hpos⟩ := outLoop_append [] {} hsize hfuel (by omega) hrange' hfit
  rw [List.length_nil, List.nil_append, List.nil_append, Nat.cast_zero] at hpos
  have hseek : fd.seekSet 0 = some ⟨fileBytes 0 0 cs, 0⟩ := by
    rw [← hbytes]
    exact File.seekSet_ofNat fd 0
  have hend : setSeq 0 (endAt 0 cs) = endAt 0 cs := setSeq_ofNat (by omega)
  refine ⟨⟨fileBytes 0 0 (cs ++ [⟨true, addrp, hsize⟩]), pos⟩, ?_, rfl⟩
  rw [hend] at hpos
  rw [xjSwapOut, hseek, seekOr_some_bind, hpos]

/-! ### Swapping in -/

/-- What is joined on the left: the free cell before the one that is swapped in. -/
def TakesLeft (pre left : List Cell) (junk : List UInt8) : Prop :=
  (pre = left ∧ junk = [] ∧ ∀ b ∈ pre.getLast?, b.used = true) ∨
    ∃ b, b.used = false ∧ pre = left ++ [b] ∧ junk = b.bytes (lastAt 0 0 left)

/-- What is joined on the right: the free cell behind the one at `prev`. -/
def TakesRight (prev : ℕ) (post rest : List Cell) (junk : List UInt8) : Prop :=
  (post = rest ∧ junk = [] ∧ ∀ c ∈ post.head?, c.used = true) ∨
    ∃ f, f.used = false ∧ post = f :: rest ∧ junk = f.bytes prev

theorem TakesLeft.length {pre left : List Cell} {junk : List UInt8} (h : TakesLeft pre left junk) :
    endAt 0 left + junk.length = endAt 0 pre := by
  rcases h with ⟨rfl, rfl, -⟩ | ⟨b, -, rfl, rfl⟩
  · rfl
  · rw [endAt_append, cell_bytes_length, endAt_cons, endAt_nil]

theorem TakesLeft.bytes {pre left : List Cell} {junk : List UInt8} (h : TakesLeft pre left junk) :
    cellsBytes 0 0 pre = cellsBytes 0 0 left ++ junk := by
  rcases h with ⟨rfl, rfl, -⟩ | ⟨b, -, rfl, rfl⟩
  · rw [List.append_nil]
  · rw [cellsBytes_append, cellsBytes, cellsBytes, List.append_nil]

/-- The head in the file at the start of a row. -/
theorem readHead_fileBytes {prev off : ℕ} {cs : List Cell} {pre : List UInt8}
    (hpre : off = pre.length) (hprev : prev < 2 ^ 31)
    (hrange : (fileBytes prev off cs).length < 2 ^ 31) (old : XjSwapHead) :
    readHead ⟨pre ++ fileBytes prev off cs, off⟩ old =
      (⟨prev, firstLen cs⟩, ⟨pre ++ fileBytes prev off cs, off + 8⟩) := by
  have hfits : HeadFits ⟨prev, firstLen cs⟩ := headFits_first off hprev hrange
  rw [fileBytes_eq, hpre]
  exact readHead_at hfits pre _ old

/-- The link back of the first head is rewritten. -/
theorem relink_fileBytes (prev seq : ℕ) (cs : List Cell) {off : ℕ} {pre : List UInt8}
    (hpre : off = pre.length) :
    ((File.seekCur ⟨pre ++ fileBytes prev off cs, off + 8⟩ (-8)).getD
        ⟨pre ++ fileBytes prev off cs, off + 8⟩).write (XjSwapHead.bytes ⟨seq, firstLen cs⟩) =
      ⟨pre ++ fileBytes seq off cs, off + 8⟩ := by
  rw [seekCur_back_getD, fileBytes_eq, hpre, write_head, ← fileBytes_eq]

theorem prevConcat_takes (tail : List UInt8) (pos : ℕ) (head headw : XjSwapHead) {pre : List Cell}
    {l : ℕ} (hprev : head.pPrev = lastAt 0 0 pre) (hlen : head.pLen = -l)
    (hrange : endAt 0 pre + l < 2 ^ 31) :
    ∃ left junk headw' pos', TakesLeft pre left junk ∧
      prevConcat ⟨cellsBytes 0 0 pre ++ tail, pos⟩ (endAt 0 pre) head headw =
        .ok (endAt 0 left, { head with pLen := -(l + junk.length : ℕ) }, headw',
          ⟨cellsBytes 0 0 pre ++ tail, pos'⟩) := by
  rcases List.eq_nil_or_concat pre with rfl | ⟨left, b, rfl⟩
  · refine ⟨[], [], headw, pos, .inl ⟨rfl, rfl, by simp⟩, ?_⟩
    simp [prevConcat, ← hlen]
  · rw [List.concat_eq_append] at hprev hrange ⊢
    have hsz : b.size = 8 + b.body.length := rfl
    have hend : endAt 0 (left ++ [b]) = endAt 0 left + b.size := by
      rw [endAt_append, endAt_cons, endAt_nil]
    have hne : ¬((endAt 0 (left ++ [b]) : ℕ) : ℤ) = 0 := by omega
    have hleft := endAt_zero left
    have hbytes : cellsBytes 0 0 (left ++ [b]) ++ tail =
        cellsBytes 0 0 left ++ (XjSwapHead.bytes ⟨lastAt 0 0 left, b.len⟩ ++ (b.body ++ tail)) := by
      simp [cellsBytes_append, cellsBytes, Cell.bytes]
    have hlast := lastAt_le 0 0 left
    have hfits : HeadFits ⟨lastAt 0 0 left, b.len⟩ := by
      have habs := b.natAbs_len
      constructor <;> dsimp only <;> omega
    have hread := readHead_at hfits (cellsBytes 0 0 left) (b.body ++ tail) headw
    rw [← hbytes, ← hleft] at hread
    rw [lastAt_concat] at hprev
    cases hused : b.used with
    | true =>
        have hnot : ¬b.len < 0 := by
          rw [b.len_neg_iff, hused]
          decide
        refine ⟨left ++ [b], [], ⟨lastAt 0 0 left, b.len⟩, endAt 0 left + 8,
          .inl ⟨rfl, rfl, by simpa using hused⟩, ?_⟩
        rw [prevConcat, if_neg hne, hprev, File.seekSet_ofNat, seekOr_some_bind]
        simp only [hread, if_neg hnot, List.length_nil, Nat.add_zero, ← hlen]
        rw [← hprev]
    | false =>
        have hneg : b.len < 0 := b.len_neg_iff.mpr hused
        have hlen' : int32 (-(l : ℤ) - 8 + b.len) = -(l + (b.bytes (lastAt 0 0 left)).length : ℕ) := by
          rw [Cell.len_free hused, int32_of_range (by omega) (by omega), cell_bytes_length]
          omega
        refine ⟨left, b.bytes (lastAt 0 0 left), ⟨lastAt 0 0 left, b.len⟩, endAt 0 left + 8,
          .inr ⟨b, hused, rfl, rfl⟩, ?_⟩
        rw [prevConcat, if_neg hne, hprev, File.seekSet_ofNat, seekOr_some_bind]
        simp only [hread, if_pos hneg, hlen, hlen']

theorem nextConcat_takes (seq pos : ℕ) (head headw : XjSwapHead) {h l : ℕ} {pre : List UInt8}
    {post : List Cell} (hlen : head.pLen = -l) (hh : h < 2 ^ 31)
    (hrange : l + (fileBytes h pre.length post).length < 2 ^ 31)
    (hpre : pre.length + (fileBytes h pre.length post).length < 2 ^ 31) :
    ∃ rest junk pos', TakesRight h post rest junk ∧
      nextConcat ⟨pre ++ fileBytes h pre.length post, pos⟩ seq pre.length head headw =
        .ok ({ head with pLen := -(l + junk.length : ℕ) },
          ⟨pre ++ (junk ++ fileBytes seq (pre.length + junk.length) rest), pos'⟩) := by
  have hread := readHead_fileBytes (rfl : pre.length = pre.length) hh
    (by omega : (fileBytes h pre.length post).length < 2 ^ 31) headw
  by_cases hneg : firstLen post < 0
  · cases post with
    | nil => exact absurd hneg (by simp [firstLen])
    | cons f rest =>
        have hfree : f.used = false := f.len_neg_iff.mp hneg
        have hsz : f.size = 8 + f.body.length := rfl
        have hfile := fileBytes_length h pre.length (f :: rest)
        have hrest := fileBytes_length pre.length (pre.length + f.size) rest
        have hle := le_endAt (pre.length + f.size) rest
        rw [endAt_cons] at hfile
        have hpos : (pre ++ f.bytes h).length = pre.length + f.size := by simp
        have hbytes : pre ++ f.bytes h ++ fileBytes pre.length (pre.length + f.size) rest =
            pre ++ fileBytes h pre.length (f :: rest) := by
          rw [fileBytes_cons, List.append_assoc]
        have hfirst : firstLen (f :: rest) = -(f.body.length : ℤ) := Cell.len_free hfree
        have hread' := readHead_fileBytes hpos.symm (by omega : pre.length < 2 ^ 31)
          (by omega : (fileBytes pre.length (pre.length + f.size) rest).length < 2 ^ 31)
          ⟨h, -(f.body.length : ℤ)⟩
        have hlink := relink_fileBytes pre.length seq rest hpos.symm
        have hseek : File.seekCur ⟨pre ++ fileBytes h pre.length (f :: rest), pre.length + 8⟩
            f.body.length = some ⟨pre ++ fileBytes h pre.length (f :: rest), pre.length + f.size⟩ := by
          rw [File.seekCur_add, hsz, ← Nat.add_assoc]
        have hlen' : int32 (-(l : ℤ) - 8 + -(f.body.length : ℤ)) =
            -(l + (f.bytes h).length : ℕ) := by
          rw [int32_of_range (by omega) (by omega), cell_bytes_length]
          omega
        have hback : - -(f.body.length : ℤ) = f.body.length := Int.neg_neg _
        rw [hbytes] at hread' hlink
        refine ⟨rest, f.bytes h, pre.length + f.size + 8, .inr ⟨f, hfree, rfl, rfl⟩, ?_⟩
        rw [nextConcat, File.seekSet_ofNat, seekOr_some_bind]
        simp only [hread, if_pos hneg]
        simp only [hfirst, hback, hseek, seekOr_some_bind, hread', hlink, hlen, hlen', pure_bind]
        rw [List.append_assoc, cell_bytes_length]
        rfl
  · have hused : ∀ c ∈ post.head?, c.used = true := by
      intro c hc
      cases post with
      | nil => cases hc
      | cons d rest =>
          cases hc
          rw [← Bool.not_eq_false, ← c.len_neg_iff]
          exact hneg
    have hlink := relink_fileBytes h seq post (rfl : pre.length = pre.length)
    refine ⟨post, [], pre.length + 8, .inl ⟨rfl, rfl, hused⟩, ?_⟩
    rw [nextConcat, File.seekSet_ofNat, seekOr_some_bind]
    simp only [hread, if_neg hneg, pure_bind, hlink, List.length_nil, Nat.add_zero, ← hlen,
      List.nil_append]
    rfl

theorem getSeq_of_lt {n : ℕ} (h : n < 2 ^ 20) : getSeq n = n := by
  have hmask : (0xfffff : ℕ) = 2 ^ 20 - 1 := by decide
  rw [getSeq, hmask, Nat.and_two_pow_sub_one_eq_mod, Nat.mod_eq_of_lt h]

theorem getPool_of_lt {n : ℕ} (h : n < 2 ^ 20) : getPool n = 0 := by
  have hshift : n >>> 28 = 0 := by
    rw [Nat.shiftRight_eq_div_pow]
    omega
  rw [getPool, hshift, Nat.zero_and]

/-- The head is written over the first 8 bytes of the joined cells. -/
theorem write_joined {left mid rest : List UInt8} {n : ℕ} {head : XjSwapHead}
    (hleft : n = left.length) (hmid : 8 ≤ mid.length) :
    (File.write ⟨left ++ (mid ++ rest), n⟩ head.bytes).bytes =
      left ++ (head.bytes ++ (mid.drop 8 ++ rest)) := by
  have htake : head.bytes.length = (mid.take 8).length := by
    rw [head_bytes_length, List.length_take, Nat.min_eq_left hmid]
  have hwrite : File.write ⟨left ++ (mid.take 8 ++ (mid.drop 8 ++ rest)), left.length⟩ head.bytes =
      ⟨left ++ (head.bytes ++ (mid.drop 8 ++ rest)), left.length + head.bytes.length⟩ :=
    File.write_append htake
  rw [← List.append_assoc (mid.take 8), List.take_append_drop] at hwrite
  rw [hleft, hwrite]

theorem eight_le_joined (jl jr : List UInt8) (prev : ℕ) (c : Cell) :
    8 ≤ (jl ++ c.bytes prev ++ jr).length := by
  rw [List.length_append, List.length_append, cell_bytes_length]
  unfold Cell.size
  omega

/-- What is read back is the body of the cell. The cell and what it is joined
with become one free cell with the back link of the one that was read. -/
theorem xjSwapIn_takes {fd : File} {pre post : List Cell} {c : Cell} (hused : c.used = true)
    (hbytes : fd.bytes = fileBytes 0 0 (pre ++ c :: post)) (hrange : fd.bytes.length < 2 ^ 31)
    (hmask : endAt 0 pre < 2 ^ 20) :
    ∃ left rest jl jr fd', TakesLeft pre left jl ∧ TakesRight (endAt 0 pre) post rest jr ∧
      xjSwapIn fd (endAt 0 pre) = .ok ((c.body, c.body.length), fd') ∧
      fd'.bytes = cellsBytes 0 0 left ++
        (XjSwapHead.bytes ⟨lastAt 0 0 pre, -(c.body.length + jl.length + jr.length : ℕ)⟩ ++
          ((jl ++ c.bytes (lastAt 0 0 pre) ++ jr).drop 8 ++
            fileBytes (endAt 0 left) (endAt 0 pre + c.size + jr.length) rest)) := by
  have hsz : c.size = 8 + c.body.length := rfl
  have hfile := fileBytes_length 0 0 (pre ++ c :: post)
  have hpost := fileBytes_length (endAt 0 pre) (endAt 0 pre + c.size) post
  have hcs := fileBytes_length (lastAt 0 0 pre) (endAt 0 pre) (c :: post)
  have hpre := endAt_zero pre
  have hlast := lastAt_le 0 0 pre
  have hle := le_endAt (endAt 0 pre + c.size) post
  rw [hbytes] at hrange
  rw [endAt_append, endAt_cons] at hfile
  rw [endAt_cons] at hcs
  have hsplit : fileBytes 0 0 (pre ++ c :: post) =
      cellsBytes 0 0 pre ++ fileBytes (lastAt 0 0 pre) (endAt 0 pre) (c :: post) :=
    fileBytes_append 0 0 pre (c :: post)
  have hbody : fileBytes 0 0 (pre ++ c :: post) =
      cellsBytes 0 0 pre ++ XjSwapHead.bytes ⟨lastAt 0 0 pre, c.len⟩ ++
        (c.body ++ fileBytes (endAt 0 pre) (endAt 0 pre + c.size) post) := by
    rw [hsplit, fileBytes_cons, Cell.bytes]
    simp only [List.append_assoc]
  have hupto : fileBytes 0 0 (pre ++ c :: post) =
      (cellsBytes 0 0 pre ++ c.bytes (lastAt 0 0 pre)) ++
        fileBytes (endAt 0 pre) (endAt 0 pre + c.size) post := by
    rw [hsplit, fileBytes_cons, List.append_assoc]
  have hnext : (cellsBytes 0 0 pre ++ c.bytes (lastAt 0 0 pre)).length = endAt 0 pre + c.size := by
    rw [List.length_append, cell_bytes_length, ← hpre]
  have hread := readHead_fileBytes hpre (by omega : lastAt 0 0 pre < 2 ^ 31)
    (by omega : (fileBytes (lastAt 0 0 pre) (endAt 0 pre) (c :: post)).length < 2 ^ 31) {}
  have hat : endAt 0 pre + 8 =
      (cellsBytes 0 0 pre ++ XjSwapHead.bytes ⟨lastAt 0 0 pre, c.len⟩).length := by
    rw [List.length_append, head_bytes_length, ← hpre]
  have hdata : File.read ⟨fileBytes 0 0 (pre ++ c :: post), endAt 0 pre + 8⟩ c.body.length =
      (c.body, ⟨fileBytes 0 0 (pre ++ c :: post), endAt 0 pre + 8 + c.body.length⟩) := by
    rw [hbody, hat]
    exact File.read_append _ c.body _
  obtain ⟨left, jl, headw', pos', hl, hprev⟩ := prevConcat_takes
    (fileBytes (lastAt 0 0 pre) (endAt 0 pre) (c :: post)) (endAt 0 pre + 8 + c.body.length)
    ⟨lastAt 0 0 pre, -(c.body.length : ℤ)⟩ {} rfl rfl (by omega : endAt 0 pre + c.body.length < 2 ^ 31)
  have hlen := hl.length
  have hroom : c.body.length + jl.length + (fileBytes (endAt 0 pre)
      (cellsBytes 0 0 pre ++ c.bytes (lastAt 0 0 pre)).length post).length < 2 ^ 31 := by
    rw [hnext]
    omega
  obtain ⟨rest, jr, pos'', hr, hgo⟩ := nextConcat_takes (endAt 0 left) pos'
    ⟨lastAt 0 0 pre, -(c.body.length + jl.length : ℕ)⟩ headw' rfl (by omega) hroom
    (by rw [hnext]; omega)
  have hseq : int32 (endAt 0 pre + 8 + c.body.length) = (endAt 0 pre + c.size : ℕ) := by
    rw [int32_of_range (by omega) (by omega)]
    omega
  have hfirst : firstLen (c :: post) = (c.body.length : ℤ) := Cell.len_used hused
  have hpos : ¬(c.body.length : ℤ) < 0 := Int.not_lt.mpr (Int.natCast_nonneg _)
  rw [← hsplit] at hread hprev
  rw [hnext, ← hupto] at hgo
  have hjoined : cellsBytes 0 0 pre ++ c.bytes (lastAt 0 0 pre) ++
      (jr ++ fileBytes (endAt 0 left) (endAt 0 pre + c.size + jr.length) rest) =
        cellsBytes 0 0 left ++ (jl ++ c.bytes (lastAt 0 0 pre) ++ jr ++
          fileBytes (endAt 0 left) (endAt 0 pre + c.size + jr.length) rest) := by
    rw [hl.bytes]
    simp only [List.append_assoc]
  rw [hjoined] at hgo
  refine ⟨left, rest, jl, jr, _, hl, hr, ?_,
    write_joined (endAt_zero left) (eight_le_joined jl jr _ c)⟩
  rw [xjSwapIn, getPool_of_lt hmask, getSeq_of_lt hmask, if_neg (by decide)]
  simp only [File.seekSet_ofNat, seekOr_some_bind, hbytes, hread, hfirst, if_neg hpos,
    Int.toNat_natCast, hdata, hprev, hseq, ok_bind, hgo]
  rfl

end PaxosSolutions.XjPing
