import PaxosSolutions.Lib.File
import Mathlib.Data.List.Range

/-!
# Flat files

A file seen as its bytes by their offsets, with zeros behind its end: what a write at any
offset leaves of them, and what is read into memory of a part or of a row of parts.
-/
namespace PaxosSolutions.Lib

/-- A variable into which a part of a file is read. The bytes that the file does not have
are what was in it before. -/
def readTo (junk : ℕ → UInt8) (file : List UInt8) (off len : ℕ) : List UInt8 :=
  (List.range len).map fun i => file.getD (off + i) (junk (off + i))

section Bytes
variable {junk : ℕ → UInt8} {file pre mid post bs : List UInt8} {i k n off len : ℕ} {x : ℤ}

@[simp] theorem readTo_length : (readTo junk file off len).length = len := by
  simp [readTo]

/-- A byte that is read is the file's if the file has it. -/
theorem readTo_getD (hi : i < len) (hin : off + i < file.length) :
    (readTo junk file off len).getD i 0 = file.getD (off + i) 0 := by
  simp [readTo, hi, hin]

/-- Two rows of bytes of one length are the same if they are byte by byte. -/
theorem ext_getD {xs ys : List UInt8} (hlen : xs.length = ys.length)
    (h : ∀ i < xs.length, xs.getD i 0 = ys.getD i 0) : xs = ys := by
  refine List.ext_getElem hlen ?_
  intro i hx hy
  have hi := h i hx
  simpa [List.getD_eq_getElem?_getD, hx, hy] using hi

theorem getD_part (hi : i < len) : ((file.drop off).take len).getD i 0 = file.getD (off + i) 0 := by
  simp [List.getD_eq_getElem?_getD, hi]

/-- Zeros behind the end change no byte. -/
theorem getD_zeros (file : List UInt8) (n i : ℕ) : (file ++ List.replicate n 0).getD i 0 = file.getD i 0 := by
  simp only [List.getD_eq_getElem?_getD, List.getElem?_append, List.getElem?_replicate]
  split_ifs with h hn
  · rfl
  · rw [List.getElem?_eq_none (by omega)]
    rfl
  · rw [List.getElem?_eq_none (by omega)]

/-- The part at the offset is read whole. -/
theorem readTo_append (pre mid post : List UInt8) :
    readTo junk (pre ++ (mid ++ post)) pre.length mid.length = mid := by
  refine ext_getD readTo_length ?_
  intro i hi
  rw [readTo_length] at hi
  rw [readTo_getD hi (by simp; omega)]
  simp [List.getD_eq_getElem?_getD, List.getElem?_append, hi]

/-- The part of a file that begins at an offset -/
def PartAt (file : List UInt8) (off : ℕ) (mid : List UInt8) : Prop :=
  ∃ pre post, file = pre ++ (mid ++ post) ∧ off = pre.length

theorem PartAt.here (mid post : List UInt8) : PartAt (mid ++ post) 0 mid := ⟨[], post, rfl, rfl⟩

theorem PartAt.skip (h : PartAt file off mid) (pre : List UInt8) (hn : n = pre.length + off) :
    PartAt (pre ++ file) n mid := by
  obtain ⟨pre', post, rfl, rfl⟩ := h
  exact ⟨pre ++ pre', post, by rw [List.append_assoc], by rw [hn, List.length_append]⟩

theorem PartAt.read (h : PartAt file off mid) (hlen : len = mid.length) : readTo junk file off len = mid := by
  obtain ⟨pre, post, rfl, rfl⟩ := h
  rw [hlen, readTo_append]

theorem PartAt.readInt (h : PartAt file off (intBytes x)) (hx : -2 ^ 31 ≤ x ∧ x < 2 ^ 31) :
    bytesInt (readTo junk file off 4) = x := by
  rw [h.read (intBytes_length x).symm, bytesInt_intBytes hx.1 hx.2]

/-- A row of parts of one length is read part by part. -/
theorem readTo_parts {α : Type} {enc : α → List UInt8} {dec : List UInt8 → α} (hk : ∀ a, (enc a).length = k)
    (as : List α) (hdec : ∀ a ∈ as, dec (enc a) = a) (h : PartAt file off (as.flatMap enc)) :
    (List.range as.length).map (fun i => dec (readTo junk file (off + i * k) k)) = as := by
  induction as generalizing off with
  | nil => rfl
  | cons a as ih =>
      obtain ⟨pre, post, rfl, rfl⟩ := h
      rw [List.flatMap_cons, List.append_assoc] at *
      have hfirst : PartAt (pre ++ (enc a ++ (as.flatMap enc ++ post))) (pre.length + 0 * k) (enc a) :=
        ⟨pre, _, rfl, by omega⟩
      have hrest : PartAt (pre ++ (enc a ++ (as.flatMap enc ++ post))) (pre.length + k) (as.flatMap enc) :=
        ⟨pre ++ enc a, post, by rw [List.append_assoc], by rw [List.length_append, hk]⟩
      have htail := ih (fun b hb => hdec b (List.mem_cons_of_mem a hb)) hrest
      rw [List.length_cons, List.range_succ_eq_map, List.map_cons, List.map_map, hfirst.read (hk a).symm,
        hdec a (List.mem_cons_self ..)]
      congr 1
      refine Eq.trans (List.map_congr_left ?_) htail
      intro i hi
      rw [Function.comp_apply, Nat.succ_mul, Nat.add_comm (i * k), Nat.add_assoc]

theorem flatMap_length {α : Type} {enc : α → List UInt8} (hk : ∀ a, (enc a).length = k) (as : List α) :
    (as.flatMap enc).length = as.length * k := by
  induction as with
  | nil => simp
  | cons a as ih =>
      rw [List.flatMap_cons, List.length_append, hk, ih, List.length_cons, Nat.succ_mul, Nat.add_comm]

/-! ### Writes at any offset -/

theorem write_length (file : List UInt8) (off : ℕ) (bs : List UInt8) :
    (File.write ⟨file, off⟩ bs).bytes.length = max file.length (off + bs.length) := by
  simp only [File.write, List.length_append, List.length_take, List.length_replicate, List.length_drop]
  omega

/-- The bytes of a write are at its offset, the others are as they were, and zeros fill a gap. -/
theorem getD_write (file : List UInt8) (off : ℕ) (bs : List UInt8) (i : ℕ) :
    (File.write ⟨file, off⟩ bs).bytes.getD i 0 =
      if off ≤ i ∧ i < off + bs.length then bs.getD (i - off) 0 else file.getD i 0 := by
  have hgap : (file.take off ++ List.replicate (off - file.length) 0).length = off := by
    rw [List.length_append, List.length_take, List.length_replicate]
    omega
  have hfront : i < off → (file.take off ++ List.replicate (off - file.length) 0).getD i 0 = file.getD i 0 := by
    intro hi
    rw [getD_zeros, List.getD_eq_getElem?_getD, List.getElem?_take_of_lt hi, ← List.getD_eq_getElem?_getD]
  unfold File.write
  simp only [List.getD_eq_getElem?_getD] at hfront ⊢
  by_cases hi : i < off
  · rw [if_neg (by omega), List.append_assoc, List.getElem?_append_left (by omega), hfront hi]
  · by_cases hbs : i < off + bs.length
    · rw [if_pos (by omega), List.append_assoc, List.getElem?_append_right (by omega), hgap,
        List.getElem?_append_left (by omega)]
    · rw [if_neg (by omega), List.append_assoc, List.getElem?_append_right (by omega), hgap,
        List.getElem?_append_right (by omega), List.getElem?_drop]
      congr 2
      omega

/-- A write behind a part leaves that part. -/
theorem write_behind (pre file : List UInt8) (off : ℕ) (bs : List UInt8) :
    (File.write ⟨pre ++ file, pre.length + off⟩ bs).bytes = pre ++ (File.write ⟨file, off⟩ bs).bytes := by
  simp only [File.write, List.length_append, List.take_append, Nat.add_sub_cancel_left, List.drop_append,
    Nat.add_assoc, Nat.add_sub_add_left]
  rw [List.take_of_length_le (Nat.le_add_right ..), List.drop_of_length_le (Nat.le_add_right ..)]
  simp

theorem write_at_end (file bs : List UInt8) : (File.write ⟨file, file.length⟩ bs).bytes = file ++ bs := by
  simp [File.write]

end Bytes

end PaxosSolutions.Lib
