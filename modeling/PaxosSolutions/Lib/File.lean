import Mathlib.Data.Nat.Digits.Lemmas
import Mathlib.Data.List.Basic
import Mathlib.Algebra.Order.Ring.Int

/-!
# Files of bytes

An open file has its bytes and a position. A read takes what there is from the
position on, a write replaces what there is and appends the rest. Where the
bytes are written as a row of parts, both act on the part the position is at.
Integers of 32 bits are kept as four bytes, the lowest first.
-/
namespace PaxosSolutions.Lib

structure File where
  bytes : List UInt8 := []
  pos : ℕ := 0
deriving DecidableEq, Repr

namespace File

/-- `lseek` from the start of the file. A position before it is refused. -/
def seekSet (fd : File) (off : ℤ) : Option File :=
  if off < 0 then none else some { fd with pos := off.toNat }

/-- `lseek` from the position. -/
def seekCur (fd : File) (off : ℤ) : Option File := fd.seekSet (fd.pos + off)

def read (fd : File) (n : ℕ) : List UInt8 × File :=
  let bs := (fd.bytes.drop fd.pos).take n
  (bs, { fd with pos := fd.pos + bs.length })

/-- A gap before the position is filled with zeros. -/
def write (fd : File) (bs : List UInt8) : File where
  bytes := fd.bytes.take fd.pos ++ List.replicate (fd.pos - fd.bytes.length) 0 ++ bs ++
    fd.bytes.drop (fd.pos + bs.length)
  pos := fd.pos + bs.length

theorem seekSet_ofNat (fd : File) (n : ℕ) : fd.seekSet n = some { fd with pos := n } := by
  simp [seekSet]

theorem seekCur_add (fd : File) (n : ℕ) :
    fd.seekCur n = some { fd with pos := fd.pos + n } := by
  unfold seekCur
  rw [← Nat.cast_add, seekSet_ofNat]

theorem seekCur_back {fd : File} {n p : ℕ} (h : fd.pos = p + n) :
    fd.seekCur (-n) = some { fd with pos := p } := by
  have hp : (fd.pos : ℤ) + -(n : ℤ) = (p : ℤ) := by omega
  unfold seekCur
  rw [hp, seekSet_ofNat]

variable {pre mid post new : List UInt8}

/-- A read of the part at the position gives it whole. -/
theorem read_append (pre mid post : List UInt8) :
    read ⟨pre ++ (mid ++ post), pre.length⟩ mid.length =
      (mid, ⟨pre ++ (mid ++ post), pre.length + mid.length⟩) := by
  simp [read]

/-- A write over a part of the same length leaves the others. -/
theorem write_append (h : new.length = mid.length) :
    write ⟨pre ++ (mid ++ post), pre.length⟩ new =
      ⟨pre ++ (new ++ post), pre.length + new.length⟩ := by
  have hdrop : (pre ++ (mid ++ post)).drop (pre.length + new.length) = post := by
    rw [h, ← List.append_assoc, ← List.length_append, List.drop_left]
  unfold write
  simp only [hdrop, List.take_left]
  simp [Nat.sub_eq_zero_of_le]

/-- A write at the last part may go beyond it. -/
theorem write_end (h : mid.length ≤ new.length) :
    write ⟨pre ++ mid, pre.length⟩ new = ⟨pre ++ new, pre.length + new.length⟩ := by
  have hdrop : (pre ++ mid).drop (pre.length + new.length) = [] := by
    rw [List.drop_eq_nil_iff, List.length_append]
    omega
  unfold write
  simp only [hdrop, List.take_left]
  simp [Nat.sub_eq_zero_of_le]

end File

/-! ### Integers in four bytes -/

/-- The value an `int` keeps of a number. -/
def int32 (x : ℤ) : ℤ := Int.bmod x (2 ^ 32)

def intBytes (x : ℤ) : List UInt8 :=
  let n := (x % 2 ^ 32).toNat
  [UInt8.ofNat n, UInt8.ofNat (n / 2 ^ 8), UInt8.ofNat (n / 2 ^ 16), UInt8.ofNat (n / 2 ^ 24)]

def bytesInt (bs : List UInt8) : ℤ := int32 (Nat.ofDigits 256 (bs.map UInt8.toNat) : ℕ)

@[simp] theorem intBytes_length (x : ℤ) : (intBytes x).length = 4 := rfl

theorem int32_of_range {x : ℤ} (hlo : -2 ^ 31 ≤ x) (hhi : x < 2 ^ 31) : int32 x = x := by
  unfold int32
  exact Int.bmod_eq_of_le (by omega) (by omega)

/-- The value differs by a number of wraps. -/
theorem int32_spec (x : ℤ) : ∃ q : ℤ, int32 x = x - 2 ^ 32 * q ∧ -2 ^ 31 ≤ int32 x ∧ int32 x < 2 ^ 31 := by
  have hlo := Int.le_bmod (x := x) (m := 2 ^ 32) (by omega)
  have hhi := Int.bmod_lt (x := x) (m := 2 ^ 32) (by omega)
  refine ⟨Int.bdiv x (2 ^ 32), Int.bmod_eq_self_sub_mul_bdiv x (2 ^ 32), ?_, ?_⟩
  · unfold int32
    omega
  · unfold int32
    omega

theorem int32_lt (x : ℤ) : int32 x < 2 ^ 31 := by
  obtain ⟨q, -, -, hlt⟩ := int32_spec x
  exact hlt

theorem int32_add (x y : ℤ) : int32 (int32 x + y) = int32 (x + y) := Int.bmod_add_bmod

theorem bytesInt_intBytes {x : ℤ} (hlo : -2 ^ 31 ≤ x) (hhi : x < 2 ^ 31) :
    bytesInt (intBytes x) = x := by
  have hdigits : Nat.ofDigits 256 ((intBytes x).map UInt8.toNat) = (x % 2 ^ 32).toNat := by
    simp only [intBytes, List.map_cons, List.map_nil, UInt8.toNat_ofNat', Nat.ofDigits_cons,
      Nat.ofDigits_nil]
    omega
  have hnat : ((x % 2 ^ 32).toNat : ℤ) = x % 2 ^ 32 := Int.toNat_of_nonneg (by omega)
  have hmod : (x % 2 ^ 32).bmod (2 ^ 32) = x.bmod (2 ^ 32) := Int.emod_bmod x (2 ^ 32)
  unfold bytesInt int32
  rw [hdigits, hnat, hmod]
  exact Int.bmod_eq_of_le (by omega) (by omega)

end PaxosSolutions.Lib
