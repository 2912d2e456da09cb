import PaxosSolutions.XjPing.TableEdits

/-!
# The used slots of a table

The number of used records that a table keeps is right, and no slot before its
hint is free. This is shown for each edit of a table in memory, for a cancel, a
store and a compression, and then for whole runs.
-/
namespace PaxosSolutions.XjPing
open Lib

namespace RTbl

def usedAt (td : RTbl) (j : ℕ) : Bool := (td.tRec j).rStat.used

/-- How many records are used. -/
def usedNum (td : RTbl) : ℕ := (List.range td.tRecNum).countP td.usedAt

end RTbl

/-- A record that is used has the number `j`. -/
def RHead.Numbered (rp : RHead) (j : ℕ) : Prop :=
  rp.rStat.used = true → rp.rRel = j ∧ rp.rAbs = j

/-- The books of a table. -/
structure Accounts (td : RTbl) : Prop where
  used : td.tRecUsed = td.usedNum
  hint : td.tUnusedIndex ≤ td.tRecNum
  below : ∀ j < td.tUnusedIndex, td.usedAt j = true
  head : ∀ j < td.tRecNum, td.usedAt j = true → (td.tRec j).rHead.rStat.used = true
  number : ∀ j < td.tRecNum, (td.tRec j).rHead.Numbered j
  file : ∀ j, (td.file.recs j).Numbered j

/-- The books are right and all records are in memory. -/
structure Good (td : RTbl) : Prop where
  allIn : AllIn td
  accounts : Accounts td

variable {td u v : RTbl} {i j n : ℕ} {ud : Usr} {mode : RLock} {r : RRec} {p q : ℕ → Bool}
  {E : RTbl → Prop}

def RRec.one (r : RRec) : ℤ := if r.rStat.used then 1 else 0

/-! ### Counts -/

theorem countP_range_congr (h : ∀ j < n, p j = q j) :
    (List.range n).countP p = (List.range n).countP q := by
  refine List.countP_congr fun j hj => ?_
  rw [h j (List.mem_range.mp hj)]

theorem countP_range_succ (p : ℕ → Bool) (n : ℕ) :
    (List.range (n + 1)).countP p = (List.range n).countP p + if p n then 1 else 0 := by
  rw [List.range_succ, List.countP_append, List.countP_singleton]

/-- A count after a change at one place. -/
theorem countP_change (hi : i < n) (h : ∀ j < n, j ≠ i → q j = p j) :
    ((List.range n).countP q : ℤ) =
      (List.range n).countP p - (if p i then 1 else 0) + if q i then 1 else 0 := by
  induction n with
  | zero => omega
  | succ n ih =>
      rw [countP_range_succ, countP_range_succ]
      rcases Nat.eq_or_lt_of_le (Nat.lt_succ_iff.mp hi) with rfl | hin
      · rw [countP_range_congr fun j hj => h j (by omega) (by omega)]
        split_ifs <;> push_cast <;> omega
      · have hn := h n (by omega) (by omega)
        have hih := ih hin fun j hj => h j (by omega)
        rw [hn]
        push_cast
        omega

theorem countP_range_all (h : ∀ j < n, p j = true) : (List.range n).countP p = n := by
  rw [List.countP_eq_length.mpr fun j hj => h j (List.mem_range.mp hj), List.length_range]

/-! ### The books after an edit -/

/-- The books are about the heads of the slots, their number, the counter and the
hint. -/
theorem Good.congr (h : Good td) (hnum : u.tRecNum = td.tRecNum)
    (hrec : ∀ j, (u.tRec j).rStat.used = (td.tRec j).rStat.used ∧
      (u.tRec j).rHead = (td.tRec j).rHead ∧ ((td.tRec j).InMemory → (u.tRec j).InMemory))
    (hused : u.tRecUsed = td.tRecUsed) (hhint : u.tUnusedIndex = td.tUnusedIndex)
    (hfile : ∀ j, (u.file.recs j).Numbered j) : Good u := by
  have hat : u.usedAt = td.usedAt := funext fun j => (hrec j).1
  obtain ⟨hall, hacc⟩ := h
  refine ⟨?_, ?_, ?_, ?_, ?_, ?_, hfile⟩
  · exact fun j hj => (hrec j).2.2 (hall j (hnum ▸ hj))
  · rw [hused, hacc.used, RTbl.usedNum, RTbl.usedNum, hnum, hat]
  · rw [hhint, hnum]
    exact hacc.hint
  · rw [hhint, hat]
    exact hacc.below
  · intro j hj hu
    rw [hat] at hu
    rw [(hrec j).2.1]
    exact hacc.head j (hnum ▸ hj) hu
  · intro j hj
    rw [(hrec j).2.1]
    exact hacc.number j (hnum ▸ hj)

/-- A change apart from the slots, the counter and the hint. -/
theorem Good.apart (h : Good td) (hnum : u.tRecNum = td.tRecNum) (hrec : u.tRec = td.tRec)
    (hused : u.tRecUsed = td.tRecUsed) (hhint : u.tUnusedIndex = td.tUnusedIndex)
    (hfile : u.file.recs = td.file.recs) : Good u := by
  refine h.congr hnum (fun j => ?_) hused hhint fun j => ?_
  · rw [hrec]
    exact ⟨rfl, rfl, fun h => h⟩
  · rw [hfile]
    exact h.accounts.file j

theorem Good.hash (h : Good td) (hu : HashOnly td u) : Good u :=
  h.apart hu.tRecNum hu.tRec hu.tRecUsed hu.tUnusedIndex (congrArg TblFile.recs hu.file)

/-- The books after a change of one slot. -/
theorem Good.change (h : Good td) (hi : i < td.tRecNum) (hr : r.InMemory)
    (hnum : u.tRecNum = td.tRecNum) (hrec : u.tRec = (td.setRec i r).tRec)
    (hfile : u.file = td.file) (hhead : r.rStat.used = true → r.rHead.rStat.used = true)
    (hnumber : r.rHead.Numbered i) (hused : u.tRecUsed = td.tRecUsed - (td.tRec i).one + r.one)
    (hhint : u.tUnusedIndex ≤ td.tRecNum)
    (hbelow : ∀ j < u.tUnusedIndex, j ≠ i → td.usedAt j = true)
    (hat : i < u.tUnusedIndex → r.rStat.used = true) : Good u := by
  have hself : u.tRec i = r := by rw [hrec, setRec_self]
  have hne : ∀ j ≠ i, u.tRec j = td.tRec j := fun j hj => by rw [hrec, setRec_ne r hj]
  have hused_ne : ∀ j ≠ i, u.usedAt j = td.usedAt j := by
    intro j hj
    rw [RTbl.usedAt, RTbl.usedAt, hne j hj]
  have hused_self : u.usedAt i = r.rStat.used := by rw [RTbl.usedAt, hself]
  refine ⟨?_, ?_, by rwa [hnum], ?_, ?_, ?_, by rw [hfile]; exact h.accounts.file⟩
  · intro j hj
    rcases eq_or_ne j i with rfl | hji
    · rwa [hself]
    · rw [hne j hji]
      exact h.allIn j (by omega)
  · have hcount := countP_change hi fun j _ hji => hused_ne j hji
    rw [RTbl.usedNum, hnum, hcount, hused, h.accounts.used, hused_self]
    rfl
  · intro j hj
    rcases eq_or_ne j i with rfl | hji
    · rw [hused_self]
      exact hat hj
    · rw [hused_ne j hji]
      exact hbelow j hj hji
  · intro j hj hu
    rcases eq_or_ne j i with rfl | hji
    · rw [hused_self] at hu
      rw [hself]
      exact hhead hu
    · rw [hused_ne j hji] at hu
      rw [hne j hji]
      exact h.accounts.head j (by omega) hu
  · intro j hj
    rcases eq_or_ne j i with rfl | hji
    · rwa [hself]
    · rw [hne j hji]
      exact h.accounts.number j (by omega)

/-- A slot that stays what it is for the books. -/
theorem Good.set (h : Good td) (hi : i < td.tRecNum) (hr : r.InMemory)
    (hused : r.rStat.used = (td.tRec i).rStat.used)
    (hhead : r.rHead.rStat.used = (td.tRec i).rHead.rStat.used)
    (hrel : r.rHead.rRel = (td.tRec i).rHead.rRel) (habs : r.rHead.rAbs = (td.tRec i).rHead.rAbs) :
    Good (td.setRec i r) := by
  refine h.change hi hr rfl rfl rfl ?_ ?_ ?_ h.accounts.hint ?_ ?_
  · rw [hused, hhead]
    exact h.accounts.head i hi
  · unfold RHead.Numbered
    rw [hhead, hrel, habs]
    exact h.accounts.number i hi
  · unfold RRec.one
    rw [hused]
    change td.tRecUsed = _
    omega
  · exact fun j hj _ => h.accounts.below j hj
  · intro hlt
    rw [hused]
    exact h.accounts.below i hlt

/-- A record is put in the first slot that is not used. -/
theorem Good.insertAt (h : Good td) (hi : i < td.tRecNum) (hfree : td.usedAt i = false)
    (hbelow : ∀ j < i, td.usedAt j = true) (data : List UInt8) :
    Good (td.insertAt ud mode data i) := by
  have hhash : HashOnly (td.setRec i ((td.tRec i).inserted ud mode data i))
      ((td.setRec i ((td.tRec i).inserted ud mode data i)).hashAddAll
        ((td.tRec i).inserted ud mode data i) i) := hashAddAll_only
  have hmem := h.allIn i hi
  refine h.change (r := (td.tRec i).inserted ud mode data i) hi ⟨hmem.1, hmem.2⟩ hhash.tRecNum
    hhash.tRec hhash.file (fun _ => rfl) (fun _ => ⟨rfl, rfl⟩) ?_ hi ?_ fun _ => rfl
  · have hone : (td.tRec i).one = 0 := if_neg (by rw [← RTbl.usedAt, hfree]; simp)
    change _ + 1 = _
    rw [hhash.tRecUsed, hone]
    change td.tRecUsed + 1 = td.tRecUsed - 0 + 1
    omega
  · intro j hj hji
    have hj' : j < i + 1 := hj
    exact hbelow j (by omega)

theorem RTbl.FirstFree.below (h : td.FirstFree i) (hacc : Accounts td) (hj : j < i) :
    td.usedAt j = true := by
  by_cases hlt : j < td.tUnusedIndex
  · exact hacc.below j hlt
  · exact h.2.2.2 j (Nat.not_lt.mp hlt) hj

theorem Good.insertFree (h : Good td) (hi : td.FirstFree i) (data : List UInt8) :
    Good (td.insertAt ud mode data i) :=
  h.insertAt hi.2.1 hi.2.2.1 (fun _ hj => hi.below h.accounts hj) data

theorem extended_usedAt (j : ℕ) :
    td.extended.usedAt j = (decide (j < td.tRecNum) && td.usedAt j) := by
  rw [RTbl.usedAt, extended_tRec]
  by_cases hj : j < td.tRecNum
  · simp [hj, RTbl.usedAt]
  · rw [if_neg hj]
    split <;> simp [hj]

/-- The new slots of an extended table are free. -/
theorem Good.extended (h : Good td) : Good td.extended := by
  obtain ⟨hall, hacc⟩ := h
  have hnum : td.extended.tRecNum = td.tRecNum * 2 := rfl
  refine ⟨?_, ?_, ?_, ?_, ?_, ?_, hacc.file⟩
  · intro j hj
    rw [extended_tRec]
    split_ifs with hlt hlt'
    · exact hall j hlt
    · exact ⟨rfl, rfl⟩
    · omega
  · have hcount : td.extended.usedNum = td.usedNum := by
      unfold RTbl.usedNum
      rw [hnum, Nat.mul_two, List.range_add, List.countP_append]
      have hnew : (List.map (td.tRecNum + ·) (List.range td.tRecNum)).countP td.extended.usedAt = 0 := by
        rw [List.countP_eq_zero]
        intro j hj
        obtain ⟨k, -, rfl⟩ := List.mem_map.mp hj
        rw [extended_usedAt]
        simp only [Bool.and_eq_true, decide_eq_true_eq, not_and]
        intro hlt
        omega
      rw [hnew, Nat.add_zero]
      refine countP_range_congr fun j hj => ?_
      rw [extended_usedAt]
      simp [hj]
    rw [hcount]
    exact hacc.used
  · have := hacc.hint
    change td.tUnusedIndex ≤ _
    omega
  · intro j hj
    have hj' : j < td.tUnusedIndex := hj
    have hlt : j < td.tRecNum := Nat.lt_of_lt_of_le hj' hacc.hint
    rw [extended_usedAt]
    simpa [hlt] using hacc.below j hj'
  · intro j hj hu
    rw [extended_usedAt] at hu
    simp only [Bool.and_eq_true, decide_eq_true_eq] at hu
    rw [extended_tRec, if_pos hu.1]
    exact hacc.head j hu.1 hu.2
  · intro j hj
    rw [extended_tRec]
    split_ifs with hlt hlt'
    · exact hacc.number j hlt
    · exact fun h => Bool.noConfusion h
    · exact fun h => Bool.noConfusion h

/-- A new record in the first slot that an extension has made. -/
theorem Good.insertFull (h : Good td) (hfull : td.Full) (hpos : 0 < td.tRecNum) (data : List UInt8) :
    Good (td.extended.insertAt ud mode data td.tRecNum) := by
  have hnum : td.extended.tRecNum = td.tRecNum * 2 := rfl
  refine h.extended.insertAt (by omega) ?_ ?_ data
  · rw [extended_usedAt]
    simp
  · intro j hj
    rw [extended_usedAt]
    simp only [hj, decide_true, Bool.true_and]
    by_cases hlt : j < td.tUnusedIndex
    · exact h.accounts.below j hlt
    · exact hfull j (Nat.not_lt.mp hlt) hj

theorem Good.deleteAt (h : Good td) (hi : i < td.tRecNum) (hused : (td.tRec i).rStat.used = true) :
    Good (td.deleteAt ud i) := by
  have hhash : HashOnly td (td.hashDelList td.tScm (td.tRec i) i) := hashDelList_only td.tScm
  have hmem := h.allIn i hi
  have hhint : (td.deleteAt ud i).tUnusedIndex = if i < td.tUnusedIndex then i else td.tUnusedIndex := by
    change (if i < _ then i else _) = _
    rw [show ((td.hashDelList td.tScm (td.tRec i) i).setRec i ((td.tRec i).deleted ud)).tUnusedIndex =
      td.tUnusedIndex from hhash.tUnusedIndex]
  refine h.change (r := (td.tRec i).deleted ud) hi ⟨hmem.1, hmem.2⟩ hhash.tRecNum ?_ hhash.file
    (fun h => Bool.noConfusion h) (fun h => Bool.noConfusion h) ?_ ?_ ?_ ?_
  · exact congrArg (fun f => Function.update f i ((td.tRec i).deleted ud)) hhash.tRec
  · have hone : (td.tRec i).one = 1 := if_pos hused
    change _ - 1 = _
    rw [show ((td.hashDelList td.tScm (td.tRec i) i).setRec i ((td.tRec i).deleted ud)).tRecUsed =
      td.tRecUsed from hhash.tRecUsed, hone]
    change td.tRecUsed - 1 = td.tRecUsed - 1 + 0
    omega
  · have := h.accounts.hint
    rw [hhint]
    split <;> omega
  · intro j hj hji
    rw [hhint] at hj
    refine h.accounts.below j ?_
    split at hj <;> omega
  · intro hlt
    rw [hhint] at hlt
    split at hlt <;> omega

/-! ### Cancel and store -/

theorem lowered_le {c : Prop} [Decidable c] : (if c ∧ i < n then i else n) ≤ n := by
  split
  · next h => exact Nat.le_of_lt h.2
  · exact Nat.le_refl n

theorem lt_lowered {c : Prop} [Decidable c] (h : i < if c ∧ i < n then i else n) : ¬c ∧ i < n := by
  split at h
  · omega
  · next hc => exact ⟨fun h' => hc ⟨h', h⟩, h⟩

/-- A cancel of a slot counts a record that has gone or come back. -/
theorem Good.cancelSlot (h : Good td) (hi : i < td.tRecNum) : Good (td.cancelSlot ud i) := by
  unfold RTbl.cancelSlot
  dsimp only
  split
  · rw [svcLoad_one_of_inMemory hi (h.allIn i hi)]
    by_cases hd : (td.tRec i).rStat.dirty = true
    · rw [if_pos hd, setRec_self]
      have hmem := h.allIn i hi
      refine h.change (r := (td.tRec i).load (td.file.recs i)) hi ⟨rfl, hmem.2⟩ rfl rfl rfl
        (fun hu => hu) (h.accounts.file i) ?_ ?_ ?_ ?_
      · unfold RRec.one RRec.load
        change td.tRecUsed + _ = _
        dsimp only
        split_ifs <;> omega
      · exact Nat.le_trans lowered_le h.accounts.hint
      · exact fun j hj _ => h.accounts.below j (Nat.lt_of_lt_of_le hj lowered_le)
      · intro hlt
        obtain ⟨hc, hlt⟩ := lt_lowered hlt
        have hold := h.accounts.below i hlt
        rw [RTbl.usedAt] at hold
        by_contra hu
        exact hc (by rw [if_neg hu, if_pos hold])
    · rw [if_neg hd]
      have hsame : (if (td.tRec i).rStat.used = true then if (td.tRec i).rStat.used = true then 0 else 1
          else if (td.tRec i).rStat.used = true then -1 else 0 : ℤ) = 0 := by
        split_ifs <;> rfl
      rw [hsame]
      refine h.apart rfl rfl ?_ ?_ rfl
      · exact Int.add_zero _
      · simp
  · exact h

theorem Good.cancel (h : Good td) : Good (td.cancel ud) := by
  have hloop : ∀ n, n ≤ td.tRecNum →
      Good ((List.range n).foldl (fun td i => td.cancelSlot ud i) td) ∧
        ((List.range n).foldl (fun td i => td.cancelSlot ud i) td).tRecNum = td.tRecNum := by
    intro n hn
    induction n with
    | zero => exact ⟨h, rfl⟩
    | succ n ih =>
        obtain ⟨hgood, hnum⟩ := ih (Nat.le_of_succ_le hn)
        rw [List.range_succ, List.foldl_append, List.foldl_cons, List.foldl_nil]
        refine ⟨hgood.cancelSlot (by omega), ?_⟩
        rw [(cancelSlot_only hgood.allIn (by omega)).2.1, hnum]
  exact (hloop td.tRecNum (Nat.le_refl _)).1.apart rfl rfl rfl rfl rfl

theorem Good.storeAll (h : Good td) (x : Option Usr) : Good (td.storeAll x td.tRecNum) := by
  have hstore : Good (td.storeOf fun j => j < td.tRecNum ∧ td.stores x j = true) := by
    refine h.congr rfl (fun j => ?_) rfl rfl fun j => ?_
    · unfold RTbl.storeOf
      dsimp only
      split
      · exact ⟨rfl, rfl, fun h => h⟩
      · exact ⟨rfl, rfl, fun h => h⟩
    · unfold RTbl.storeOf
      dsimp only
      split
      · next hj => exact h.accounts.number j hj.1
      · exact h.accounts.file j
  unfold RTbl.storeAll
  cases x with
  | none => exact hstore
  | some x => exact hstore.apart rfl rfl rfl rfl rfl

/-! ### Compression -/

/-- The record of a slot, whatever its number and whether it has been moved. -/
def RTbl.content (td : RTbl) (j : ℕ) : RRec := (td.tRec j).moved 0

/-- The used records of the first `n` slots, in their order. -/
def RTbl.usedRecs (td : RTbl) (n : ℕ) : List RRec :=
  ((List.range n).filter td.usedAt).map td.content

theorem usedRecs_succ (td : RTbl) (n : ℕ) : td.usedRecs (n + 1) =
    td.usedRecs n ++ if td.usedAt n then [td.content n] else [] := by
  unfold RTbl.usedRecs
  rw [List.range_succ, List.filter_append, List.map_append, List.filter_singleton]
  cases td.usedAt n <;> rfl

theorem usedRecs_length (td : RTbl) (n : ℕ) :
    (td.usedRecs n).length = (List.range n).countP td.usedAt := by
  rw [RTbl.usedRecs, List.length_map, List.countP_eq_length_filter]

/-- A slot that is used and has its number. -/
def RTbl.Placed (td : RTbl) (j : ℕ) : Prop :=
  td.usedAt j = true ∧ (td.tRec j).rHead.rStat.used = true ∧
    (td.tRec j).rHead.rRel = j ∧ (td.tRec j).rHead.rAbs = j

/-- The first `i` slots of `td` have been moved down to the first `numn` of `u`. -/
structure Packed (td : RTbl) (i numn : ℕ) (u : RTbl) : Prop where
  allIn : AllIn u
  rest : u = { td with tRec := u.tRec }
  le : numn ≤ i
  placed : ∀ j < numn, u.Placed j
  same : ∀ j, i ≤ j → u.tRec j = td.tRec j
  recs : (List.range numn).map u.content = td.usedRecs i

theorem Packed.tRecNum {numn : ℕ} (h : Packed td i numn u) : u.tRecNum = td.tRecNum := by
  rw [h.rest]

theorem Good.placed (h : Good td) (hi : i < td.tRecNum) (hused : td.usedAt i = true) :
    td.Placed i :=
  have hhead := h.accounts.head i hi hused
  ⟨hused, hhead, h.accounts.number i hi hhead⟩

/-- The slot `i` after its record has been moved to `numn`. -/
def RTbl.moveTo (td : RTbl) (i numn : ℕ) : RTbl :=
  if i = numn then td else (td.setRec numn ((td.tRec i).moved numn)).setRec i (td.tRec i).left

theorem perform_moveRec (i numn : ℕ) : perform (moveRec i numn (td.tRec i)) td =
    .ok (.ok (), td.moveTo i numn) := by
  unfold moveRec RTbl.moveTo
  split <;> rfl

theorem content_moved {numn : ℕ} : (r.moved numn).moved 0 = r.moved 0 := rfl

theorem Packed.moveTo {numn : ℕ} (hgood : Good td) (h : Packed td i numn u) (hi : i < td.tRecNum)
    (hused : td.usedAt i = true) : Packed td (i + 1) (numn + 1) (u.moveTo i numn) := by
  have hrec := h.same i (Nat.le_refl i)
  have hplaced := hgood.placed hi hused
  have hmem : (u.tRec i).InMemory := by
    rw [hrec]
    exact hgood.allIn i hi
  have hle := h.le
  unfold RTbl.moveTo
  split
  · next heq =>
      subst heq
      refine ⟨h.allIn, h.rest, Nat.le_refl _, fun j hj => ?_, fun j hj => h.same j (by omega), ?_⟩
      · rcases Nat.eq_or_lt_of_le (Nat.lt_succ_iff.mp hj) with rfl | hj
        · unfold RTbl.Placed RTbl.usedAt
          rw [hrec]
          exact hplaced
        · exact h.placed j hj
      · rw [List.range_succ, List.map_append, h.recs, usedRecs_succ, if_pos hused]
        have hcontent : u.content i = td.content i := congrArg (fun r => RRec.moved r 0) hrec
        rw [List.map_singleton, hcontent]
  · next hne =>
      have hni : numn ≠ i := fun h => hne h.symm
      have hat : ((u.setRec numn ((u.tRec i).moved numn)).setRec i (u.tRec i).left).tRec numn =
          (u.tRec i).moved numn := by
        rw [setRec_ne _ hni, setRec_self]
      have hlow : ∀ j < numn, ((u.setRec numn ((u.tRec i).moved numn)).setRec i (u.tRec i).left).tRec j =
          u.tRec j := by
        intro j hj
        rw [setRec_ne _ (by omega), setRec_ne _ (by omega)]
      refine ⟨?_, ?_, by omega, fun j hj => ?_, fun j hj => ?_, ?_⟩
      · intro j hj
        rcases eq_or_ne j i with rfl | hji
        · rw [setRec_self]
          exact ⟨hmem.1, hmem.2⟩
        · rw [setRec_ne _ hji]
          rcases eq_or_ne j numn with rfl | hjn
          · rw [setRec_self]
            exact ⟨hmem.1, hmem.2⟩
          · rw [setRec_ne _ hjn]
            exact h.allIn j hj
      · unfold RTbl.setRec
        dsimp only
        rw [h.rest]
      · rcases Nat.eq_or_lt_of_le (Nat.lt_succ_iff.mp hj) with rfl | hj
        · unfold RTbl.Placed RTbl.usedAt
          rw [hat, hrec]
          exact ⟨hplaced.1, hplaced.2.1, rfl, rfl⟩
        · unfold RTbl.Placed RTbl.usedAt
          rw [hlow j hj]
          exact h.placed j hj
      · rw [setRec_ne _ (by omega), setRec_ne _ (by omega)]
        exact h.same j (by omega)
      · rw [List.range_succ, List.map_append, List.map_singleton, usedRecs_succ, if_pos hused, ← h.recs]
        congr 1
        · refine List.map_congr_left fun j hj => ?_
          exact congrArg (fun r => RRec.moved r 0) (hlow j (List.mem_range.mp hj))
        · have hcontent : RRec.moved ((u.tRec i).moved numn) 0 = td.content i :=
            content_moved.trans (congrArg (fun r => RRec.moved r 0) hrec)
          rw [RTbl.content, hat, hcontent]

theorem Packed.skip {numn : ℕ} (h : Packed td i numn u) (hused : td.usedAt i = false) :
    Packed td (i + 1) numn u := by
  refine ⟨h.allIn, h.rest, Nat.le_succ_of_le h.le, h.placed, fun j hj => h.same j (by omega), ?_⟩
  rw [h.recs, usedRecs_succ, hused]
  simp

theorem gives_compressLoop {pn k numn : ℕ} (hgood : Good td) (hk : i + k = td.tRecNum) :
    Gives (Packed td i numn) (compressLoop noLoad pn k i numn)
      (fun numn s => Packed td td.tRecNum numn s) E := by
  induction k generalizing i numn with
  | zero =>
      rw [Nat.add_zero] at hk
      subst hk
      exact Gives.pure.weaken (fun s hs => hs) (fun _ _ h => h) fun _ h => h
  | succ k ih =>
      refine gives_slot.bind fun r => ?_
      refine Gives.each fun s hs => ?_
      obtain ⟨hpack, rfl, -⟩ := hs
      have hsame : (s.tRec i).rStat.used = td.usedAt i := by
        rw [hpack.same i (Nat.le_refl i)]
        rfl
      cases hu : td.usedAt i with
      | true =>
          rw [if_pos (hsame.trans hu)]
          refine Gives.bind (Q := fun _ => Packed td (i + 1) (numn + 1)) ?_ fun _ => ih (by omega)
          exact Gives.of_perform (perform_moveRec i numn) (hpack.moveTo hgood (by omega) hu)
      | false =>
          rw [if_neg (by rw [hsame, hu]; simp)]
          exact (ih (by omega)).weaken (fun t ht => ht ▸ hpack.skip hu) (fun _ _ h => h) fun _ h => h

/-- After a compression the used records are the same ones in the same order, and
they fill the table. -/
structure Compressed (td u : RTbl) : Prop where
  placed : ∀ j < u.tRecNum, u.Placed j
  recs : (List.range u.tRecNum).map u.content = td.usedRecs td.tRecNum

/-- A table whose used records are its first slots, and that has no others. -/
theorem Packed.cut {numn : ℕ} (hgood : Good td) (h : Packed td td.tRecNum numn u)
    (hnum : v.tRecNum = numn) (hrec : ∀ j < numn, v.tRec j = u.tRec j)
    (hused : v.tRecUsed = td.tRecUsed) (hhint : v.tUnusedIndex = td.tUnusedIndex)
    (hfile : v.file.recs = td.file.recs) : Good v ∧ Compressed td v := by
  have hacc := hgood.accounts
  have hplaced : ∀ j < numn, v.Placed j := by
    intro j hj
    unfold RTbl.Placed RTbl.usedAt
    rw [hrec j hj]
    exact h.placed j hj
  have hcount : td.usedNum = numn := by
    rw [RTbl.usedNum, ← usedRecs_length, ← h.recs, List.length_map, List.length_range]
  have hbelow : td.tUnusedIndex ≤ numn := by
    rw [← hcount, RTbl.usedNum]
    calc td.tUnusedIndex = (List.range td.tUnusedIndex).countP td.usedAt :=
          (countP_range_all hacc.below).symm
      _ ≤ (List.range td.tRecNum).countP td.usedAt :=
          (List.range_sublist.mpr hacc.hint).countP_le
  refine ⟨⟨?_, ?_, ?_, ?_, ?_, ?_, ?_⟩, ?_, ?_⟩
  · intro j hj
    rw [hrec j (hnum ▸ hj)]
    exact h.allIn j (by have := h.tRecNum; have := h.le; omega)
  · rw [hused, hacc.used, hcount, RTbl.usedNum, hnum]
    rw [countP_range_all fun j hj => (hplaced j hj).1]
  · rw [hhint, hnum]
    exact hbelow
  · rw [hhint]
    exact fun j hj => (hplaced j (by omega)).1
  · exact fun j hj _ => (hplaced j (hnum ▸ hj)).2.1
  · exact fun j hj _ => (hplaced j (hnum ▸ hj)).2.2
  · rw [hfile]
    exact hacc.file
  · rw [hnum]
    exact hplaced
  · rw [hnum, ← h.recs]
    refine List.map_congr_left fun j hj => ?_
    exact congrArg (fun r => RRec.moved r 0) (hrec j (List.mem_range.mp hj))

theorem gives_shrink {numn : ℕ} (hgood : Good td) :
    Gives (Packed td td.tRecNum numn) (shrink numn) (fun _ s => Good s ∧ Compressed td s) E := by
  refine Gives.each fun s h => ?_
  have hnum := h.tRecNum
  have hused : s.tRecUsed = td.tRecUsed := by rw [h.rest]
  have hhint : s.tUnusedIndex = td.tUnusedIndex := by rw [h.rest]
  have hfile : s.file.recs = td.file.recs := by rw [h.rest]
  by_cases hlt : numn < s.tRecNum
  · by_cases hswap : ((List.range numn).any fun i => (s.tRec i).rStat.swap) = true
    · exact Gives.of_fault (by rw [perform_shrink, if_pos hlt, if_pos hswap])
    · refine Gives.of_perform (by rw [perform_shrink, if_pos hlt, if_neg hswap]) ?_
      exact h.cut hgood rfl (fun j hj => if_pos hj) hused hhint hfile
  · refine Gives.of_perform (by rw [perform_shrink, if_neg hlt]) ?_
    have hle := h.le
    exact h.cut hgood (by omega) (fun _ _ => rfl) hused hhint hfile

theorem gives_svcCompress (hgood : Good td) :
    Gives (fun s => s = td) (svcCompress noLoad) (fun _ s => Good s ∧ Compressed td s)
      (fun s => s = td.hashClear) := by
  have hclear : Good td.hashClear := hgood.hash rfl
  refine Gives.bind (Q := fun _ s => s = td.hashClear) ?_ fun _ => ?_
  · exact Gives.modify fun s hs => congrArg RTbl.hashClear hs
  refine Gives.getBind fun s hs => ?_
  subst hs
  refine (gives_throwIf fun t ht => ht).bind fun _ => ?_
  refine gives_faultIf.bind fun _ => ?_
  have hpack : Packed td.hashClear 0 0 td.hashClear :=
    ⟨hclear.allIn, rfl, Nat.le_refl 0, fun _ hj => by omega, fun _ _ => rfl, rfl⟩
  refine Gives.bind ((gives_compressLoop hclear (Nat.zero_add _)).weaken
    (fun t ht => ht.1.1 ▸ hpack) (fun _ _ h => h) fun _ h => h) fun numn => ?_
  exact (gives_shrink hclear).weaken (fun _ h => h) (fun _ _ h => ⟨h.1, h.2.placed, h.2.recs⟩)
    fun _ h => h

end PaxosSolutions.XjPing
