import Mathlib.Data.Int.Order.Basic
import Mathlib.Tactic.Linarith

/-!
# Wrap-around sequence numbers

The comparison and increment macros on `uint32_t`. `cmp32` is the sign of the
difference in 32 bits, so it is an order only between numbers less than half
the range apart.
-/
namespace PaxosSolutions.NWGadget

/-- `CMP( x, y )`: `(int)((x) - (y))`. -/
def cmp32 (x y : UInt32) : ℤ := (x - y).toBitVec.toInt

/-- `SEQ_INC( x )` skips zero. -/
def seqInc (x : UInt32) : UInt32 := if x + 1 = 0 then 1 else x + 1

/-- `SEQ_CMP( x, y )`: zero is before every other number. -/
def seqCmp (x y : UInt32) : ℤ :=
  if x = 0 then (if y = 0 then 0 else -1) else if y = 0 then 1 else cmp32 x y

theorem cmp32_eq_bmod (x y : UInt32) :
    cmp32 x y = ((x.toNat : ℤ) - y.toNat).bmod (2 ^ 32) := by
  unfold cmp32
  rw [UInt32.toBitVec_sub, BitVec.toInt_sub]
  simp only [BitVec.toInt_eq_toNat_bmod, UInt32.toNat_toBitVec, Int.bmod_sub_bmod,
    Int.sub_bmod_bmod]

/-- Between numbers less than half the range apart the comparison is that of
the numbers themselves. -/
theorem cmp32_eq_sub {x y : UInt32} (h₁ : x.toNat < y.toNat + 2 ^ 31)
    (h₂ : y.toNat ≤ x.toNat + 2 ^ 31) : cmp32 x y = (x.toNat : ℤ) - y.toNat := by
  rw [cmp32_eq_bmod]
  apply Int.bmod_eq_of_le <;> omega

theorem cmp32_of_lt {x y : UInt32} (hx : x.toNat < 2 ^ 31) (hy : y.toNat < 2 ^ 31) :
    cmp32 x y = (x.toNat : ℤ) - y.toNat := cmp32_eq_sub (by omega) (by omega)

/-- Numbers that are within half the range of a base are ordered by how far
they are from it. -/
theorem cmp32_eq_sub_base {x y base : UInt32} (hx : (x - base).toNat < 2 ^ 31)
    (hy : (y - base).toNat < 2 ^ 31) :
    cmp32 x y = ((x - base).toNat : ℤ) - (y - base).toNat := by
  have hsub : x - base - (y - base) = x - y := by grind
  rw [← cmp32_of_lt hx hy]
  unfold cmp32
  rw [hsub]

@[simp] theorem cmp32_eq_zero_iff {x y : UInt32} : cmp32 x y = 0 ↔ x = y := by
  have hx := x.toNat_lt
  have hy := y.toNat_lt
  rw [cmp32_eq_bmod, ← UInt32.toNat_inj]
  constructor
  · intro h
    have hd := Int.dvd_of_bmod_eq_zero h
    omega
  · intro h
    simp [h]

@[simp] theorem cmp32_self (x : UInt32) : cmp32 x x = 0 := cmp32_eq_zero_iff.mpr rfl

/-- Up to half the range `SEQ_CMP` has the sign of the plain difference. -/
theorem seqCmp_of_lt {x y : UInt32} (hx : x.toNat < 2 ^ 31) (hy : y.toNat < 2 ^ 31) :
    (seqCmp x y ≤ 0 ↔ x.toNat ≤ y.toNat) ∧ (seqCmp x y = 0 ↔ x = y) := by
  unfold seqCmp
  split_ifs with h₁ h₂ h₂
  · simp [h₁, h₂]
  · subst h₁
    exact ⟨by simp, by simp [Ne.symm h₂]⟩
  · subst h₂
    have : x.toNat ≠ 0 := fun h => h₁ (UInt32.toNat_inj.mp (by simpa using h))
    exact ⟨by simpa using this, by simp [h₁]⟩
  · rw [cmp32_of_lt hx hy]
    refine ⟨by omega, ?_⟩
    rw [← UInt32.toNat_inj]
    omega

end PaxosSolutions.NWGadget
