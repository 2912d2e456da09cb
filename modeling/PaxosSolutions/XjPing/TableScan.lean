import PaxosSolutions.XjPing.TableDemand

/-!
# Loads from one slot to the next

An operation that goes through the slots of a table in their order loads a record
when it comes to one that is not cached. Such a load reads on from that slot, so what
the operation has passed is not changed, and what it will find does not depend on what
it has changed behind it.
-/
namespace PaxosSolutions.XjPing
open Lib

/-- The slot `i` before the record of it is read -/
def RTbl.ensure (pn : ℕ) (td : RTbl) (i : ℕ) : RTbl :=
  if (td.tRec i).rStat.cache then td else td.svcLoad i pn

/-- The table after the next `k` slots have been loaded -/
def RTbl.ensureFrom (pn k i : ℕ) (td : RTbl) : RTbl := (List.range' i k).foldl (RTbl.ensure pn) td

variable {td u : RTbl} {i j k l s pn : ℕ}

/-! ### What is behind -/

/-- A load or a swap-in has left the record of a slot, and who has locked it. -/
structure KeepsHead (r r' : RRec) : Prop where
  rHead : r'.rHead = r.rHead
  used : r'.rStat.used = r.rStat.used
  exclusive : r'.rStat.exclusive = r.rStat.exclusive
  share : r'.rStat.share = r.rStat.share
  rAccess : r'.rAccess = r.rAccess

theorem KeepsHead.refl (r : RRec) : KeepsHead r r := ⟨rfl, rfl, rfl, rfl, rfl⟩

theorem KeepsHead.symm {r r' : RRec} (h : KeepsHead r r') : KeepsHead r' r :=
  ⟨h.rHead.symm, h.used.symm, h.exclusive.symm, h.share.symm, h.rAccess.symm⟩

theorem KeepsHead.trans {r r' r'' : RRec} (h : KeepsHead r r') (h' : KeepsHead r' r'') :
    KeepsHead r r'' :=
  ⟨h'.rHead.trans h.rHead, h'.used.trans h.used, h'.exclusive.trans h.exclusive,
    h'.share.trans h.share, h'.rAccess.trans h.rAccess⟩

theorem swapIn_keepsHead (r : RRec) : KeepsHead r r.swapIn := by
  unfold RRec.swapIn
  split
  · exact ⟨rfl, rfl, rfl, rfl, rfl⟩
  · exact KeepsHead.refl r

theorem loadSwap_keepsHead : KeepsHead (td.tRec j) ((td.loadSwap s l).tRec j) := by
  unfold RTbl.loadSwap
  split
  · change KeepsHead _ (if j < td.tRecNum then (td.tRec j).swapIn else td.tRec j)
    split
    · exact swapIn_keepsHead _
    · exact KeepsHead.refl _
  · exact KeepsHead.refl _

/-- A load reads slots from its first one on. -/
theorem svcLoad_keepsHead (hj : j < s) : KeepsHead (td.tRec j) ((td.svcLoad s l).tRec j) := by
  have hmem : j ∉ (td.loadSwap s l).range s l := fun h => absurd (mem_range.mp h).1 (by omega)
  have hrange : ((td.loadSwap s l).loadRange s l).tRec j = (td.loadSwap s l).tRec j := if_neg hmem
  unfold RTbl.svcLoad
  by_cases hfresh : (td.loadSwap s l).fresh s l = true
  · rw [if_pos hfresh]
    exact loadSwap_keepsHead
  · rw [if_neg hfresh, hrange]
    exact loadSwap_keepsHead

theorem loadSwap_only : td.loadSwap s l = { td with tRec := (td.loadSwap s l).tRec } := by
  unfold RTbl.loadSwap
  split <;> rfl

theorem svcLoad_only : td.svcLoad s l = { td with tRec := (td.svcLoad s l).tRec } := by
  unfold RTbl.svcLoad
  by_cases hfresh : (td.loadSwap s l).fresh s l = true
  · rw [if_pos hfresh]
    exact loadSwap_only
  · rw [if_neg hfresh]
    exact congrArg (fun u : RTbl => { u with tRec := ((td.loadSwap s l).loadRange s l).tRec })
      loadSwap_only

theorem ensure_keepsHead (hj : j < i) : KeepsHead (td.tRec j) ((td.ensure pn i).tRec j) := by
  unfold RTbl.ensure
  split
  · exact KeepsHead.refl _
  · exact svcLoad_keepsHead hj

theorem ensure_only : td.ensure pn i = { td with tRec := (td.ensure pn i).tRec } := by
  unfold RTbl.ensure
  split
  · rfl
  · exact svcLoad_only

theorem perform_slot_load : perform (slot svcLoad i pn) td =
    .ok (.ok ((td.ensure pn i).tRec i), td.ensure pn i) := by
  have hcached : perform (cached svcLoad i pn) td = .ok (.ok (), td.ensure pn i) := by
    unfold cached RTbl.ensure
    rw [perform_bind_of_ok perform_get]
    split <;> rfl
  unfold slot
  rw [perform_bind_of_ok hcached]
  rfl

theorem ensureFrom_keepsHead (td : RTbl) (pn k : ℕ) (hj : j < i) :
    KeepsHead (td.tRec j) ((td.ensureFrom pn k i).tRec j) := by
  induction k generalizing td i with
  | zero => exact KeepsHead.refl _
  | succ k ih => exact (ensure_keepsHead hj).trans (ih _ (by omega))

theorem ensureFrom_only : td.ensureFrom pn k i = { td with tRec := (td.ensureFrom pn k i).tRec } := by
  induction k generalizing td i with
  | zero => rfl
  | succ k ih =>
      change (td.ensure pn i).ensureFrom pn k (i + 1) =
        { td with tRec := ((td.ensure pn i).ensureFrom pn k (i + 1)).tRec }
      rw [ih]
      exact congrArg
        (fun u : RTbl => { u with tRec := ((td.ensure pn i).ensureFrom pn k (i + 1)).tRec }) ensure_only

/-- A load makes its first record cached. -/
theorem svcLoad_cached (hs : s < td.tRecNum) (hl : 0 < l) :
    ((td.svcLoad s l).tRec s).rStat.cache = true := by
  have hmem : s ∈ (td.loadSwap s l).range s l := by
    rw [loadSwap_range, mem_range]
    omega
  unfold RTbl.svcLoad
  dsimp only
  split
  case isTrue hfresh =>
    have hall := List.all_eq_true.mp hfresh s hmem
    exact (Bool.and_eq_true_iff.mp hall).1
  case isFalse =>
    change (if s ∈ (td.loadSwap s l).range s l then _ else _ : RRec).rStat.cache = true
    rw [if_pos hmem]
    rfl

theorem svcLoad_zero (td : RTbl) (s : ℕ) : td.svcLoad s 0 = td := by
  have hrange (td : RTbl) : td.range s 0 = [] := by
    unfold RTbl.range
    rw [Nat.add_zero, Nat.sub_eq_zero_of_le (Nat.min_le_left ..)]
    rfl
  unfold RTbl.svcLoad RTbl.fresh RTbl.loadSwap
  rw [hrange]
  simp [hrange]

/-- A record that has been read is not read again. -/
theorem ensure_ensure (hi : i < td.tRecNum) (pn : ℕ) :
    (td.ensure pn i).ensure pn i = td.ensure pn i := by
  by_cases hc : (td.tRec i).rStat.cache = true
  · have hstay : td.ensure pn i = td := if_pos hc
    rw [hstay, hstay]
  · have hload : td.ensure pn i = td.svcLoad i pn := if_neg hc
    rw [hload]
    rcases Nat.eq_zero_or_pos pn with rfl | hpn
    · rw [svcLoad_zero]
      exact hload.trans (svcLoad_zero td i)
    · exact if_pos (svcLoad_cached hi hpn)

/-! ### What is ahead -/

/-- Two tables are the same from a slot on. -/
structure SameFrom (s : ℕ) (td u : RTbl) : Prop where
  num : u.tRecNum = td.tRecNum
  file : u.file = td.file
  slots : ∀ j, s ≤ j → u.tRec j = td.tRec j

theorem SameFrom.range (h : SameFrom i td u) (s l : ℕ) : u.range s l = td.range s l := by
  unfold RTbl.range
  rw [h.num]

theorem SameFrom.mem_range (his : i ≤ s) (hj : j ∈ td.range s l) : i ≤ j :=
  Nat.le_trans his (XjPing.mem_range.mp hj).1

theorem SameFrom.loadSwap (h : SameFrom i td u) (his : i ≤ s) (l : ℕ) :
    SameFrom i (td.loadSwap s l) (u.loadSwap s l) := by
  have hany : ((u.range s l).any fun j => (u.tRec j).rStat.swap) =
      (td.range s l).any fun j => (td.tRec j).rStat.swap := by
    rw [h.range]
    refine Bool.eq_iff_iff.mpr ?_
    rw [List.any_eq_true, List.any_eq_true]
    refine exists_congr fun j => and_congr_right fun hj => ?_
    rw [h.slots j (SameFrom.mem_range his hj)]
  unfold RTbl.loadSwap
  rw [hany]
  split
  · refine ⟨h.num, h.file, fun j hj => ?_⟩
    change (if j < u.tRecNum then (u.tRec j).swapIn else u.tRec j) =
      if j < td.tRecNum then (td.tRec j).swapIn else td.tRec j
    rw [h.num, h.slots j hj]
  · exact h

theorem SameFrom.svcLoad (h : SameFrom i td u) (his : i ≤ s) (l : ℕ) :
    SameFrom i (td.svcLoad s l) (u.svcLoad s l) := by
  have hswap := h.loadSwap his l
  have hfresh : (u.loadSwap s l).fresh s l = (td.loadSwap s l).fresh s l := by
    unfold RTbl.fresh
    rw [hswap.range]
    refine Bool.eq_iff_iff.mpr ?_
    rw [List.all_eq_true, List.all_eq_true]
    refine forall₂_congr fun j hj => ?_
    rw [hswap.slots j (SameFrom.mem_range his hj)]
  unfold RTbl.svcLoad
  dsimp only
  rw [hfresh]
  split
  · exact hswap
  · refine ⟨hswap.num, hswap.file, fun j hj => ?_⟩
    change (if j ∈ (u.loadSwap s l).range s l then
        ((u.loadSwap s l).tRec j).load ((u.loadSwap s l).file.recs j)
      else (u.loadSwap s l).tRec j) = if j ∈ (td.loadSwap s l).range s l then
        ((td.loadSwap s l).tRec j).load ((td.loadSwap s l).file.recs j)
      else (td.loadSwap s l).tRec j
    rw [hswap.range, hswap.file, hswap.slots j hj]

theorem SameFrom.ensure (h : SameFrom i td u) (his : i ≤ s) (pn : ℕ) :
    SameFrom i (td.ensure pn s) (u.ensure pn s) := by
  unfold RTbl.ensure
  rw [h.slots s his]
  split
  · exact h
  · exact h.svcLoad his pn

theorem SameFrom.ensureFrom (h : SameFrom i td u) (his : i ≤ s) (pn k : ℕ) :
    SameFrom i (td.ensureFrom pn k s) (u.ensureFrom pn k s) := by
  induction k generalizing td u s with
  | zero => exact h
  | succ k ih => exact ih (h.ensure his pn) (Nat.le_succ_of_le his)

end PaxosSolutions.XjPing
