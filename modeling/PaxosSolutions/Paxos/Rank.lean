import PaxosSolutions.Paxos.Data
import Mathlib.Data.Prod.Lex

/-!
# The order of rounds

`CMP_ROUND` as the order of ranks: first the number, then the id, the smaller
one the stronger. Without a number all rounds are alike. This holds as long as
the numbers stay below half of their range.
-/
namespace PaxosSolutions
open NWGadget

namespace Round

/-- The number is below half of its range, where `SEQ_CMP` is the usual order. -/
def Small (r : Round) : Prop := r.rSeq.toNat < 2 ^ 31

instance (r : Round) : Decidable r.Small := inferInstanceAs (Decidable (_ < _))

def rank (r : Round) : ℕ ×ₗ ℕᵒᵈ :=
  toLex (r.rSeq.toNat, if r.rSeq = 0 then OrderDual.toDual 0 else OrderDual.toDual r.rId)

theorem rank_le_iff {x y : Round} : x.rank ≤ y.rank ↔
    x.rSeq.toNat < y.rSeq.toNat ∨ x.rSeq = y.rSeq ∧ (x.rSeq ≠ 0 → y.rId ≤ x.rId) := by
  unfold rank
  rw [Prod.Lex.toLex_le_toLex]
  refine or_congr Iff.rfl ⟨fun ⟨h₁, h₂⟩ => ?_, fun ⟨h₁, h₂⟩ => ?_⟩
  · have hseq : x.rSeq = y.rSeq := UInt32.toNat_inj.mp h₁
    refine ⟨hseq, fun hx => ?_⟩
    rwa [if_neg hx, if_neg (hseq ▸ hx)] at h₂
  · refine ⟨congrArg UInt32.toNat h₁, ?_⟩
    rcases eq_or_ne x.rSeq 0 with hx | hx
    · simp only [hx, ← h₁, if_true]
      exact le_rfl
    · simp only [hx, ← h₁, if_false]
      exact h₂ hx

end Round

theorem cmpRound_self (r : Round) : cmpRound r r = 0 := by
  unfold cmpRound seqCmp
  split_ifs <;> simp_all

/-- A round without a number is above none. -/
theorem cmpRound_zero_le {x : Round} (h : x.rSeq = 0) (y : Round) : cmpRound x y ≤ 0 := by
  unfold cmpRound seqCmp
  rw [if_pos h]
  split_ifs <;> simp_all

theorem cmpRound_le_iff {x y : Round} (hx : x.Small) (hy : y.Small) :
    cmpRound x y ≤ 0 ↔ x.rank ≤ y.rank := by
  obtain ⟨hle, heq⟩ := seqCmp_of_lt hx hy
  rw [Round.rank_le_iff]
  unfold cmpRound
  simp only [heq]
  split_ifs with h₁ h₂ h₃ h₄
  · simp only [h₁]
    constructor
    · intro h
      omega
    · rintro (h | ⟨-, h⟩)
      · omega
      · have := h (h₁ ▸ h₂)
        omega
  · exact ⟨fun _ => .inr ⟨h₁, fun _ => h₄.le⟩, fun _ => by omega⟩
  · exact ⟨fun _ => .inr ⟨h₁, fun _ => not_lt.mp h₃⟩, fun _ => le_rfl⟩
  · exact ⟨fun _ => .inr ⟨h₁, fun h => absurd h h₂⟩, fun _ => le_rfl⟩
  · rw [hle]
    have hne : x.rSeq.toNat ≠ y.rSeq.toNat := fun h => h₁ (UInt32.toNat_inj.mp h)
    constructor
    · exact fun h => .inl (lt_of_le_of_ne h hne)
    · rintro (h | ⟨h, -⟩)
      · exact h.le
      · exact absurd h h₁

theorem cmpRound_antisymm {x y : Round} (hx : x.Small) (hy : y.Small) :
    cmpRound y x < 0 ↔ 0 < cmpRound x y := by
  obtain ⟨hle, heq⟩ := seqCmp_of_lt hx hy
  obtain ⟨hle', heq'⟩ := seqCmp_of_lt hy hx
  unfold cmpRound
  simp only [heq, heq']
  rcases eq_or_ne x.rSeq y.rSeq with h | h
  · simp only [h, if_true]
    split_ifs <;> omega
  · have hne : x.rSeq.toNat ≠ y.rSeq.toNat := fun h' => h (UInt32.toNat_inj.mp h')
    rw [if_neg h, if_neg (Ne.symm h)]
    have h₁ : seqCmp x.rSeq y.rSeq ≠ 0 := fun h' => h (heq.mp h')
    have h₂ : seqCmp y.rSeq x.rSeq ≠ 0 := fun h' => h (heq'.mp h').symm
    omega

theorem le_cmpRound_iff {x y : Round} (hx : x.Small) (hy : y.Small) :
    0 ≤ cmpRound x y ↔ y.rank ≤ x.rank := by
  rw [← cmpRound_le_iff hy hx, ← not_lt, ← not_lt, cmpRound_antisymm hy hx]

end PaxosSolutions
