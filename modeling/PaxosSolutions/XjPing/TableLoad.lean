import PaxosSolutions.XjPing.Table

/-!
# A table and the records it has not loaded

To each table belongs the table with all records loaded. A load that reads over
nothing that was changed does not change it, and each operation does the same to
a table and to its loaded table. So a run with loads on demand answers as if all
records had been loaded when the table was opened.
-/
namespace PaxosSolutions.XjPing
open Lib

/-- A slot as it is once its record is in memory, which is `rp` in the file. -/
def RRec.resolve (r : RRec) (rp : RHead) : RRec :=
  if r.rStat.cache then r else if r.rStat.swap then r.swapIn else r.load rp

namespace RTbl

def resolve (td : RTbl) (j : ℕ) : RRec := (td.tRec j).resolve (td.file.recs j)

/-- The table with all records loaded. -/
def loaded (td : RTbl) : RTbl :=
  { td with tRec := fun j => if j < td.tRecNum then td.resolve j else td.tRec j }

/-- What is read of the slot `j` in a load is what it has. -/
def sameAsFile (td : RTbl) (j : ℕ) : Bool :=
  !(td.tRec j).rStat.dirty && !(td.tRec j).rStat.busy &&
    (td.tRec j).rStat.used = (td.file.recs j).rStat.used &&
    (td.tRec j).rHead = td.file.recs j

/-- A load makes its first record cached, and the records of its range are not
dirty. If it reads the range, each record it reads over is as in the file. -/
def loadSafe (td : RTbl) (s l : ℕ) : Bool :=
  s < td.tRecNum && 0 < l && (td.range s l).all (fun j => !(td.tRec j).rStat.dirty) &&
    ((td.loadSwap s l).fresh s l || (td.range s l).all fun j =>
      !((td.loadSwap s l).tRec j).rStat.cache || (td.loadSwap s l).sameAsFile j)

end RTbl

/-- The load that stops on a fault instead of reading over a changed record. -/
def safeLoad : Loader := fun s l => do
  let td ← get
  faultIf (!td.loadSafe s l) .lost
  svcLoad s l

/-- Slots that are not in memory have no change, and no slot is cached and
swapped out. -/
def Settled (td : RTbl) : Prop :=
  ∀ j, ((td.tRec j).rStat.cache = true → (td.tRec j).rStat.swap = false) ∧
    ((td.tRec j).rStat.cache = false → (td.tRec j).rStat.swap = false →
      (td.tRec j).rStat.busy = false ∧ (td.tRec j).rStat.insert = false ∧
        (td.tRec j).rStat.update = false)

/-- A slot whose record is in memory. -/
def RRec.InMemory (r : RRec) : Prop := r.rStat.cache = true ∧ r.rStat.swap = false

variable {td : RTbl} {i j s l : ℕ}

@[simp] theorem setRec_self (r : RRec) : (td.setRec i r).tRec i = r := Function.update_self ..
@[simp] theorem setRec_ne (r : RRec) (h : j ≠ i) : (td.setRec i r).tRec j = td.tRec j :=
  Function.update_of_ne h ..
@[simp] theorem setRec_tRecNum (r : RRec) : (td.setRec i r).tRecNum = td.tRecNum := rfl
@[simp] theorem setRec_file (r : RRec) : (td.setRec i r).file = td.file := rfl

@[simp] theorem loaded_tRecNum : td.loaded.tRecNum = td.tRecNum := rfl
@[simp] theorem loaded_tRecSize : td.loaded.tRecSize = td.tRecSize := rfl
@[simp] theorem loaded_tScm : td.loaded.tScm = td.tScm := rfl
@[simp] theorem loaded_file : td.loaded.file = td.file := rfl
@[simp] theorem loaded_page : td.loaded.page = td.page := rfl
@[simp] theorem loaded_tUnusedIndex : td.loaded.tUnusedIndex = td.tUnusedIndex := rfl
@[simp] theorem loaded_tUsrCnt : td.loaded.tUsrCnt = td.tUsrCnt := rfl
@[simp] theorem loaded_uCursor : td.loaded.uCursor = td.uCursor := rfl
@[simp] theorem loaded_checkLock (ud : Usr) (w : Bool) :
    td.loaded.checkLock ud w = td.checkLock ud w := rfl

theorem RRec.InMemory.resolve {r : RRec} (h : r.InMemory) (rp : RHead) : r.resolve rp = r := if_pos h.1

theorem resolve_of_inMemory (h : (td.tRec j).InMemory) : td.resolve j = td.tRec j := h.resolve _

theorem loaded_tRec (td : RTbl) (j : ℕ) :
    td.loaded.tRec j = if j < td.tRecNum then td.resolve j else td.tRec j := rfl

theorem loaded_of_inMemory (h : (td.tRec j).InMemory) : td.loaded.tRec j = td.tRec j := by
  change (if _ then _ else _) = _
  rw [resolve_of_inMemory h, ite_self]

theorem loaded_of_ge (h : td.tRecNum ≤ j) : td.loaded.tRec j = td.tRec j :=
  if_neg (Nat.not_lt.mpr h)

theorem loaded_of_lt (h : j < td.tRecNum) : td.loaded.tRec j = td.resolve j := if_pos h

theorem Settled.inMemory (h : Settled td) (hc : (td.tRec j).rStat.cache = true) :
    (td.tRec j).InMemory := ⟨hc, (h j).1 hc⟩

/-- Below the number of slots every record of the loaded table is in memory. -/
theorem resolve_inMemory (h : Settled td) (j : ℕ) : (td.resolve j).InMemory := by
  unfold RTbl.resolve RRec.resolve
  by_cases hc : (td.tRec j).rStat.cache = true
  · rw [if_pos hc]
    exact h.inMemory hc
  · rw [if_neg hc]
    by_cases hs : (td.tRec j).rStat.swap = true
    · rw [if_pos hs, RRec.swapIn, if_pos hs]
      exact ⟨rfl, rfl⟩
    · rw [if_neg hs]
      exact ⟨rfl, Bool.eq_false_iff.mpr hs⟩

/-- Two tables have the same loaded table if they differ in their slots only, and
these resolve to the same. -/
theorem loaded_congr {f g : ℕ → RRec}
    (h : ∀ j < td.tRecNum, RTbl.resolve { td with tRec := f } j = RTbl.resolve { td with tRec := g } j)
    (h' : ∀ j, td.tRecNum ≤ j → f j = g j) :
    RTbl.loaded { td with tRec := f } = RTbl.loaded { td with tRec := g } := by
  unfold RTbl.loaded
  congr 1
  funext j
  by_cases hj : j < td.tRecNum
  · rw [if_pos hj, if_pos hj, h j hj]
  · rw [if_neg hj, if_neg hj]
    exact h' j (Nat.not_lt.mp hj)

/-! ### Loads -/

theorem mem_range : j ∈ td.range s l ↔ s ≤ j ∧ j < min (s + l) td.tRecNum := by
  rw [RTbl.range, List.mem_range'_1]
  omega

theorem swapIn_inMemory {r : RRec} (h : r.rStat.cache = true → r.rStat.swap = false)
    (hr : r.rStat.cache = true ∨ r.rStat.swap = true) : r.swapIn.InMemory := by
  unfold RRec.swapIn
  by_cases hs : r.rStat.swap = true
  · rw [if_pos hs]
    exact ⟨rfl, rfl⟩
  · rw [if_neg hs]
    have hc := hr.resolve_right hs
    exact ⟨hc, h hc⟩

theorem swapIn_of_not_swap {r : RRec} (h : r.rStat.swap = false) : r.swapIn = r :=
  if_neg (by simp [h])

theorem swapIn_settled (h : Settled td) : Settled td.swapIn := by
  intro j
  change (_ → (if _ then _ else _ : RRec).rStat.swap = false) ∧ _
  unfold RTbl.swapIn
  by_cases hj : j < td.tRecNum
  · simp only [if_pos hj, RRec.swapIn]
    by_cases hs : (td.tRec j).rStat.swap = true
    · simp [hs]
    · simpa [hs] using h j
  · simpa only [if_neg hj] using h j

theorem swapIn_loaded (h : Settled td) : td.swapIn.loaded = td.loaded := by
  refine loaded_congr ?_ fun j hj => if_neg (Nat.not_lt.mpr hj)
  intro j hj
  unfold RTbl.resolve RRec.resolve
  simp only [if_pos hj]
  by_cases hs : (td.tRec j).rStat.swap = true
  · have hc : (td.tRec j).rStat.cache = false := by
      by_contra hc
      have := (h j).1 (by simpa using hc)
      simp [hs] at this
    simp [RRec.swapIn, hs, hc]
  · rw [swapIn_of_not_swap (Bool.eq_false_iff.mpr hs)]
    simp only [if_neg hs]

theorem loadSwap_settled (h : Settled td) : Settled (td.loadSwap s l) := by
  unfold RTbl.loadSwap
  split
  · exact swapIn_settled h
  · exact h

theorem loadSwap_loaded (h : Settled td) : (td.loadSwap s l).loaded = td.loaded := by
  unfold RTbl.loadSwap
  split
  · exact swapIn_loaded h
  · rfl

@[simp] theorem loadSwap_tRecNum : (td.loadSwap s l).tRecNum = td.tRecNum := by
  unfold RTbl.loadSwap
  split <;> rfl

@[simp] theorem loadSwap_file : (td.loadSwap s l).file = td.file := by
  unfold RTbl.loadSwap
  split <;> rfl

@[simp] theorem loadSwap_range : (td.loadSwap s l).range s l = td.range s l := by
  unfold RTbl.range
  rw [loadSwap_tRecNum]

/-- After the swap-in nothing of the range is swapped out. -/
theorem loadSwap_swap (hj : j ∈ td.range s l) : ((td.loadSwap s l).tRec j).rStat.swap = false := by
  have hlt : j < td.tRecNum := Nat.lt_of_lt_of_le (mem_range.mp hj).2 (Nat.min_le_right _ _)
  unfold RTbl.loadSwap
  split
  · change (if _ then _ else _ : RRec).rStat.swap = false
    rw [if_pos hlt, RRec.swapIn]
    split
    · rfl
    · next h => exact Bool.eq_false_iff.mpr h
  · next h =>
      rw [Bool.not_eq_true, List.any_eq_false] at h
      exact Bool.eq_false_iff.mpr (h j hj)

/-- A record that is read over as it is does not change. -/
theorem load_same (h : td.sameAsFile j = true) (hc : (td.tRec j).rStat.cache = true) :
    (td.tRec j).load (td.file.recs j) = td.tRec j := by
  unfold RTbl.sameAsFile RStat.dirty at h
  simp only [Bool.and_eq_true, Bool.not_eq_true', decide_eq_true_eq, Bool.or_eq_false_iff] at h
  obtain ⟨⟨⟨⟨hi, hu⟩, hb⟩, hused⟩, hhead⟩ := h
  cases hr : td.tRec j with
  | mk rStat rHead rAccess rWait =>
      rw [hr] at hi hu hb hused hhead hc
      dsimp only at hi hu hb hused hhead hc
      unfold RRec.load
      cases rStat
      dsimp only at hi hu hb hused hc
      simp [hi, hu, hb, hused, hhead, hc]

theorem loadRange_settled (h : Settled td) (hswap : ∀ j ∈ td.range s l, (td.tRec j).rStat.swap = false) :
    Settled (td.loadRange s l) := by
  intro j
  unfold RTbl.loadRange
  by_cases hj : j ∈ td.range s l
  · simp only [if_pos hj, RRec.load]
    exact ⟨fun _ => hswap j hj, fun h => Bool.noConfusion h⟩
  · simpa only [if_neg hj] using h j

theorem loadRange_loaded
    (hswap : ∀ j ∈ td.range s l, (td.tRec j).rStat.swap = false)
    (hsame : ∀ j ∈ td.range s l, (td.tRec j).rStat.cache = true → td.sameAsFile j = true) :
    (td.loadRange s l).loaded = td.loaded := by
  refine loaded_congr ?_ fun j hj => if_neg ?_
  · intro j hj
    unfold RTbl.resolve RRec.resolve
    by_cases hr : j ∈ td.range s l
    · simp only [if_pos hr]
      by_cases hc : (td.tRec j).rStat.cache = true
      · rw [load_same (hsame j hr hc) hc]
        simp only [if_pos hc]
      · have hs := hswap j hr
        simp [RRec.load, hc, hs]
    · simp only [if_neg hr]
  · intro hr
    have := (mem_range.mp hr).2
    omega

/-- What a safe load leaves: the same loaded table, and its first record in
memory. -/
theorem svcLoad_safe (h : Settled td) (hsafe : td.loadSafe s l = true) :
    Settled (td.svcLoad s l) ∧ (td.svcLoad s l).loaded = td.loaded ∧
      ((td.svcLoad s l).tRec s).InMemory := by
  unfold RTbl.loadSafe at hsafe
  simp only [Bool.and_eq_true, decide_eq_true_eq, Bool.or_eq_true, List.all_eq_true,
    Bool.not_eq_true'] at hsafe
  obtain ⟨⟨⟨hs, hl⟩, -⟩, hcover⟩ := hsafe
  have hmem : s ∈ td.range s l := mem_range.mpr ⟨Nat.le_refl s, by omega⟩
  have hset := loadSwap_settled (s := s) (l := l) h
  unfold RTbl.svcLoad
  dsimp only
  by_cases hfresh : (td.loadSwap s l).fresh s l = true
  · rw [if_pos hfresh]
    refine ⟨hset, loadSwap_loaded h, hset.inMemory ?_⟩
    unfold RTbl.fresh at hfresh
    rw [loadSwap_range, List.all_eq_true] at hfresh
    exact (Bool.and_eq_true_iff.mp (hfresh s hmem)).1
  · rw [if_neg hfresh]
    have hsame := hcover.resolve_left hfresh
    have hswap : ∀ j ∈ (td.loadSwap s l).range s l, ((td.loadSwap s l).tRec j).rStat.swap = false := by
      intro j hj
      rw [loadSwap_range] at hj
      exact loadSwap_swap hj
    refine ⟨loadRange_settled hset hswap, ?_, ?_⟩
    · rw [loadRange_loaded hswap, loadSwap_loaded h]
      intro j hj hc
      rw [loadSwap_range] at hj
      exact (hsame j hj).resolve_left (by simp [hc])
    · have hmem' : s ∈ (td.loadSwap s l).range s l := by rwa [loadSwap_range]
      unfold RTbl.loadRange
      rw [RRec.InMemory]
      simp only [if_pos hmem', RRec.load]
      exact ⟨trivial, hswap s hmem'⟩

end PaxosSolutions.XjPing
