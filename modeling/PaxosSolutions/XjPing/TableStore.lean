import PaxosSolutions.XjPing.TableLoad

/-!
# What a store writes

The loop of a store goes over runs of slots. In the end it has written each slot
it was to write, and no other.
-/
namespace PaxosSolutions.XjPing
open Lib

/-- A slot that has been written. -/
def RRec.stored (r : RRec) : RRec :=
  { r with rStat := { r.rStat with busy := false, insert := false, update := false } }

/-- The table after a store of the slots of `p`. -/
def RTbl.storeOf (td : RTbl) (p : ℕ → Prop) [DecidablePred p] : RTbl :=
  { td with
    tRec := fun j => if p j then (td.tRec j).stored else td.tRec j
    file := { td.file with recs := fun j => if p j then (td.tRec j).rHead else td.file.recs j } }

variable {p : ℕ → Bool} {e k i j : ℕ} {td : RTbl} {ud : Option Usr}

theorem scan_le (hi : i ≤ e) : i ≤ RTbl.scan p e k i ∧ RTbl.scan p e k i ≤ e := by
  induction k generalizing i with
  | zero => exact ⟨Nat.le_refl i, hi⟩
  | succ k ih =>
      unfold RTbl.scan
      split
      · next h =>
          have hlt : i < e := by simpa using (Bool.and_eq_true_iff.mp h).1
          have := ih (Nat.succ_le_of_lt hlt)
          exact ⟨Nat.le_trans (Nat.le_succ i) this.1, this.2⟩
      · exact ⟨Nat.le_refl i, hi⟩

/-- None of the slots a scan goes over meets `p`. -/
theorem scan_before (hj : i ≤ j) (hlt : j < RTbl.scan p e k i) : p j = false := by
  induction k generalizing i with
  | zero =>
      have : j < i := hlt
      omega
  | succ k ih =>
      unfold RTbl.scan at hlt
      split at hlt
      · next h =>
          rcases Nat.eq_or_lt_of_le hj with rfl | hj
          · simpa using (Bool.and_eq_true_iff.mp h).2
          · exact ih (Nat.succ_le_of_lt hj) hlt
      · omega

/-- A scan with steps enough ends at a slot that meets `p`, or at the end. -/
theorem scan_at (hk : e - i ≤ k) (hlt : RTbl.scan p e k i < e) : p (RTbl.scan p e k i) = true := by
  induction k generalizing i with
  | zero =>
      have : i < e := hlt
      omega
  | succ k ih =>
      unfold RTbl.scan at hlt ⊢
      split at hlt
      · next h =>
          rw [if_pos h]
          exact ih (by omega) hlt
      · next h =>
          rw [if_neg h]
          simp only [Bool.and_eq_true, decide_eq_true_eq, Bool.not_eq_true'] at h
          by_contra hp
          exact h ⟨hlt, by simpa using hp⟩

theorem scan_pos (hp : p i = false) (hi : i < e) (hk : 0 < k) : i < RTbl.scan p e k i := by
  obtain ⟨k, rfl⟩ := Nat.exists_eq_succ_of_ne_zero (Nat.pos_iff_ne_zero.mp hk)
  unfold RTbl.scan
  rw [if_pos (by simp [hp, hi])]
  exact (scan_le (Nat.succ_le_of_lt hi)).1

/-- Of what has been written nothing is left to store. -/
theorem storeSeg_stores (s n : ℕ) : (td.storeSeg s n).stores ud j =
    (td.stores ud j && !(decide (s ≤ j) && decide (j < n))) := by
  unfold RTbl.stores RTbl.storeSeg
  dsimp only
  by_cases h : s ≤ j ∧ j < n
  · simp [h, RStat.dirty]
  · have h' : (decide (s ≤ j) && decide (j < n)) = false := by simpa using h
    simp [if_neg h, h']

theorem storeOf_congr {p q : ℕ → Prop} [DecidablePred p] [DecidablePred q] (h : ∀ j, p j ↔ q j) :
    td.storeOf p = td.storeOf q := by
  unfold RTbl.storeOf
  simp only [h]

theorem storeOf_none {p : ℕ → Prop} [DecidablePred p] (h : ∀ j, ¬p j) : td.storeOf p = td := by
  unfold RTbl.storeOf
  simp only [h, if_false]

/-- A store of slots apart from a run that was written before. -/
theorem storeOf_storeSeg {q : ℕ → Prop} [DecidablePred q] {s n : ℕ} (h : ∀ j, q j → ¬(s ≤ j ∧ j < n)) :
    (td.storeSeg s n).storeOf q = td.storeOf fun j => s ≤ j ∧ j < n ∨ q j := by
  have hrec : (fun j => if q j then ((td.storeSeg s n).tRec j).stored else (td.storeSeg s n).tRec j) =
      fun j => if s ≤ j ∧ j < n ∨ q j then (td.tRec j).stored else td.tRec j := by
    funext j
    unfold RTbl.storeSeg
    by_cases hq : q j
    · simp [hq, h j hq]
    · simp [hq, RRec.stored]
  have hfile : (fun j => if q j then ((td.storeSeg s n).tRec j).rHead
      else (td.storeSeg s n).file.recs j) =
      fun j => if s ≤ j ∧ j < n ∨ q j then (td.tRec j).rHead else td.file.recs j := by
    funext j
    unfold RTbl.storeSeg
    by_cases hq : q j
    · simp [hq, h j hq]
    · simp [hq]
  unfold RTbl.storeOf
  rw [hrec, hfile]
  rfl

/-- The loop of a store writes the slots it was to write from `i` on. -/
theorem storeLoop_eq (hk : e - i < k) : td.storeLoop ud e k i =
    td.storeOf fun j => i ≤ j ∧ j < e ∧ td.stores ud j = true := by
  induction k generalizing i td with
  | zero => omega
  | succ k ih =>
      unfold RTbl.storeLoop
      dsimp only
      by_cases hs : RTbl.scan (td.stores ud) e (e - i) i < e
      · rw [if_pos hs]
        have hi : i ≤ e := by
          by_contra hi
          have hzero : e - i = 0 := by omega
          rw [hzero, RTbl.scan] at hs
          omega
        have hle := (scan_le (p := td.stores ud) (k := e - i) hi).1
        have hbefore : ∀ j, i ≤ j → j < RTbl.scan (td.stores ud) e (e - i) i →
            td.stores ud j = false := fun j hj hlt => scan_before hj hlt
        have hat := scan_at (Nat.le_refl (e - i)) hs
        generalize RTbl.scan (td.stores ud) e (e - i) i = s at hs hle hbefore hat ⊢
        have hn := (scan_le (p := fun j => !td.stores ud j) (k := e - s) (Nat.le_of_lt hs)).2
        have hsn := scan_pos (p := fun j => !td.stores ud j) (by simp [hat]) hs (Nat.sub_pos_of_lt hs)
        have hrun : ∀ j, s ≤ j → j < RTbl.scan (fun j => !td.stores ud j) e (e - s) s →
            td.stores ud j = true := fun j hj hlt => by simpa using scan_before hj hlt
        generalize RTbl.scan (fun j => !td.stores ud j) e (e - s) s = n at hn hsn hrun ⊢
        rw [ih (by omega), storeOf_storeSeg (by omega)]
        refine storeOf_congr fun j => ?_
        rw [storeSeg_stores]
        constructor
        · rintro (⟨hj, hlt⟩ | ⟨hj, hlt, hst⟩)
          · exact ⟨Nat.le_trans hle hj, by omega, hrun j hj hlt⟩
          · exact ⟨by omega, hlt, (Bool.and_eq_true_iff.mp hst).1⟩
        · rintro ⟨hj, hlt, hst⟩
          have hsj : s ≤ j := by
            by_contra hsj
            have := hbefore j hj (by omega)
            simp [hst] at this
          by_cases hjn : j < n
          · exact .inl ⟨hsj, hjn⟩
          · refine .inr ⟨by omega, hlt, ?_⟩
            simp [hst, hjn]
      · rw [if_neg hs, storeOf_none]
        rintro j ⟨hj, hlt, hst⟩
        have hi : i ≤ e := by omega
        have hbefore := scan_before (p := td.stores ud) (e := e) (k := e - i) hj (by omega)
        simp [hst] at hbefore

theorem storeLoop_all (n : ℕ) : td.storeLoop ud (0 + n) (n + 1) 0 =
    td.storeOf fun j => j < n ∧ td.stores ud j = true := by
  rw [storeLoop_eq (by omega)]
  refine storeOf_congr fun j => ?_
  simp

end PaxosSolutions.XjPing
