import PaxosSolutions.XjPing.TableEdits
import Mathlib.Algebra.BigOperators.Fin
import Mathlib.Algebra.Order.BigOperators.Group.Finset

/-!
# Who has changed a record last

Of each slot of a table in memory it is kept who has changed its record and not
stored it since. As long as nobody changes a record that another user has put in
or deleted, these are the slots a store of that user writes, and what he has
added is the difference of the used records it makes.
-/
namespace PaxosSolutions.XjPing
open Lib

/-- One for a record that is used. -/
def RStat.one (r : RStat) : ℤ := if r.used then 1 else 0

namespace RTbl

/-- The difference a store of the slot `j` makes to the used records of the file. -/
def delta (td : RTbl) (j : ℕ) : ℤ := (td.tRec j).rStat.one - (td.file.recs j).rStat.one

/-- The used records of the file. -/
def fileUsed (td : RTbl) : ℤ := ∑ j ∈ Finset.range td.tRecNum, (td.file.recs j).rStat.one

/-- What the changes of a user add to the used records of the file. -/
def gain (td : RTbl) (who : ℕ → Option Usr) (ud : Usr) : ℤ :=
  ∑ j ∈ Finset.range td.tRecNum, if who j = some ud then td.delta j else 0

/-- Another user has put a record in the slot or has deleted it, and has not
stored that. -/
def taken (td : RTbl) (ud : Usr) (i : ℕ) : Bool :=
  (td.tRec i).rStat.dirty && (td.tRec i).rAccess ≠ some ud &&
    (td.tRec i).rStat.used ≠ (td.file.recs i).rStat.used

end RTbl

/-- `who` are the users whose changes of the slots are not stored. -/
structure Owned (td : RTbl) (who : ℕ → Option Usr) : Prop where
  allIn : AllIn td
  head : ∀ j < td.tRecNum, (td.tRec j).rHead.rStat.used = (td.tRec j).rStat.used
  busy : ∀ j < td.tRecNum, (td.tRec j).rStat.busy = (td.tRec j).rStat.dirty
  dirty : ∀ j < td.tRecNum, (td.tRec j).rStat.dirty = true →
    who j ≠ none ∧ who j = (td.tRec j).rAccess
  clean : ∀ j < td.tRecNum, (td.tRec j).rStat.dirty = false →
    who j = none ∧ (td.tRec j).rStat.used = (td.file.recs j).rStat.used
  past : ∀ j, td.tRecNum ≤ j → who j = none ∧ (td.file.recs j).rStat.used = false
  added : ∀ ud, td.uAdded ud = td.gain who ud
  ori : td.tRecOriUsed = td.fileUsed

variable {td s u : RTbl} {who : ℕ → Option Usr} {i j n : ℕ} {ud : Usr} {mode : RLock} {r : RRec}

theorem one_of_used {a b : RStat} (h : a.used = b.used) : a.one = b.one := by
  unfold RStat.one
  rw [h]

/-- A sum after a change at one place. -/
theorem sum_change {f g : ℕ → ℤ} (hi : i < n) (h : ∀ j < n, j ≠ i → g j = f j) :
    ∑ j ∈ Finset.range n, g j = ∑ j ∈ Finset.range n, f j - f i + g i := by
  have hmem := Finset.mem_range.mpr hi
  have hrest : ∑ j ∈ (Finset.range n).erase i, g j = ∑ j ∈ (Finset.range n).erase i, f j := by
    refine Finset.sum_congr rfl fun j hj => ?_
    obtain ⟨hji, hj⟩ := Finset.mem_erase.mp hj
    exact h j (Finset.mem_range.mp hj) hji
  rw [← Finset.add_sum_erase _ g hmem, ← Finset.add_sum_erase _ f hmem, hrest]
  omega

theorem Owned.who_iff (h : Owned td who) (hj : j < td.tRecNum) :
    who j = some ud ↔ (td.tRec j).rStat.dirty = true ∧ (td.tRec j).rAccess = some ud := by
  cases hd : (td.tRec j).rStat.dirty with
  | true =>
      rw [(h.dirty j hj hd).2]
      simp
  | false =>
      rw [(h.clean j hj hd).1]
      simp

/-- A slot that is not taken adds nothing for another user. -/
theorem Owned.delta_of_other (h : Owned td who) (hi : i < td.tRecNum) (hfree : td.taken ud i = false)
    {x : Usr} (hx : x ≠ ud) (hwho : who i = some x) : td.delta i = 0 := by
  obtain ⟨hd, ha⟩ := (h.who_iff hi).mp hwho
  unfold RTbl.taken at hfree
  rw [hd, ha] at hfree
  have hused : (td.tRec i).rStat.used = (td.file.recs i).rStat.used := by simpa [hx] using hfree
  rw [RTbl.delta, one_of_used hused, sub_self]

/-- The table after a change of one slot by `ud`. -/
structure Edit (td : RTbl) (ud : Usr) (i : ℕ) (r : RRec) (u : RTbl) : Prop where
  inMemory : r.InMemory
  head : r.rHead.rStat.used = r.rStat.used
  busy : r.rStat.busy = true
  dirty : r.rStat.dirty = true
  access : r.rAccess = some ud
  num : u.tRecNum = td.tRecNum
  tRec : u.tRec = (td.setRec i r).tRec
  file : u.file = td.file
  ori : u.tRecOriUsed = td.tRecOriUsed
  added : u.uAdded = Function.update td.uAdded ud
    (td.uAdded ud + (r.rStat.one - (td.tRec i).rStat.one))

theorem Edit.self (h : Edit td ud i r u) : u.tRec i = r := by rw [h.tRec, setRec_self]

theorem Edit.ne (h : Edit td ud i r u) (hj : j ≠ i) : u.tRec j = td.tRec j := by
  rw [h.tRec, setRec_ne r hj]

/-- What a user has added is what his changes add, also after one more. -/
theorem Edit.gain (h : Edit td ud i r u) (hown : Owned td who) (hi : i < td.tRecNum)
    (hfree : td.taken ud i = false) (x : Usr) :
    u.uAdded x = u.gain (Function.update who i (some ud)) x := by
  have hdelta : u.delta i = r.rStat.one - (td.file.recs i).rStat.one := by
    rw [RTbl.delta, h.self, h.file]
  have hsum := sum_change (f := fun j => if who j = some x then td.delta j else 0)
    (g := fun j => if Function.update who i (some ud) j = some x then u.delta j else 0) hi
      fun j _ hj => by rw [Function.update_of_ne hj, RTbl.delta, RTbl.delta, h.ne hj, h.file]
  rw [RTbl.gain, h.num, hsum, ← RTbl.gain, h.added, ← hown.added, Function.update_self]
  by_cases hx : x = ud
  · subst hx
    rw [Function.update_self, if_pos rfl, hdelta]
    cases hwho : who i with
    | none =>
        have hclean : (td.tRec i).rStat.dirty = false := by
          by_contra hd
          exact (hown.dirty i hi (by simpa using hd)).1 hwho
        rw [one_of_used (hown.clean i hi hclean).2]
        simp
    | some y =>
        by_cases hy : y = x
        · subst hy
          rw [if_pos rfl, RTbl.delta]
          omega
        · have hzero := hown.delta_of_other hi hfree hy hwho
          rw [RTbl.delta] at hzero
          rw [if_neg (by simpa using hy)]
          omega
  · have hnew : (if (some ud : Option Usr) = some x then u.delta i else 0) = 0 :=
      if_neg fun h => hx (Option.some.inj h).symm
    rw [Function.update_of_ne hx, hnew]
    split
    · next hwho =>
        rw [hown.delta_of_other hi hfree hx hwho]
        omega
    · omega

/-- A change of a slot that is not taken. -/
theorem Edit.owned (h : Edit td ud i r u) (hown : Owned td who) (hi : i < td.tRecNum)
    (hfree : td.taken ud i = false) : Owned u (Function.update who i (some ud)) := by
  have hof : ∀ {p : ℕ → RRec → Prop}, p i r → (∀ j < td.tRecNum, j ≠ i → p j (td.tRec j)) →
      ∀ j < u.tRecNum, p j (u.tRec j) := by
    intro p hself hrest j hj
    rcases eq_or_ne j i with rfl | hji
    · rwa [h.self]
    · rw [h.ne hji]
      exact hrest j (h.num ▸ hj) hji
  refine ⟨?_, ?_, ?_, ?_, ?_, ?_, h.gain hown hi hfree, ?_⟩
  · exact hof (p := fun _ r => r.InMemory) h.inMemory fun j hj _ => hown.allIn j hj
  · exact hof (p := fun _ r => r.rHead.rStat.used = r.rStat.used) h.head fun j hj _ => hown.head j hj
  · exact hof (p := fun _ r => r.rStat.busy = r.rStat.dirty) (h.busy.trans h.dirty.symm)
      fun j hj _ => hown.busy j hj
  · refine hof (p := fun j r => r.rStat.dirty = true → Function.update who i (some ud) j ≠ none ∧
      Function.update who i (some ud) j = r.rAccess) ?_ fun j hj hji => ?_
    · rw [Function.update_self, h.access]
      simp
    · rw [Function.update_of_ne hji]
      exact hown.dirty j hj
  · refine hof (p := fun j r => r.rStat.dirty = false → Function.update who i (some ud) j = none ∧
      r.rStat.used = (u.file.recs j).rStat.used) ?_ fun j hj hji => ?_
    · rw [h.dirty]
      exact fun hd => Bool.noConfusion hd
    · rw [Function.update_of_ne hji, h.file]
      exact hown.clean j hj
  · intro j hj
    rw [h.num] at hj
    rw [Function.update_of_ne (by omega), h.file]
    exact hown.past j hj
  · rw [h.ori, RTbl.fileUsed, h.num, h.file]
    exact hown.ori

/-- Apart from the slots, the file and the counters of the users. -/
theorem Owned.apart (h : Owned td who) (hnum : u.tRecNum = td.tRecNum) (hrec : u.tRec = td.tRec)
    (hfile : u.file.recs = td.file.recs) (hadded : u.uAdded = td.uAdded)
    (hori : u.tRecOriUsed = td.tRecOriUsed) : Owned u who := by
  obtain ⟨hall, hhead, hbusy, hdirty, hclean, hpast, hgain, horiu⟩ := h
  refine ⟨?_, ?_, ?_, ?_, ?_, ?_, fun x => ?_, ?_⟩
  · unfold AllIn
    rwa [hrec, hnum]
  · rwa [hrec, hnum]
  · rwa [hrec, hnum]
  · rwa [hrec, hnum]
  · rwa [hrec, hnum, hfile]
  · rwa [hnum, hfile]
  · rw [hadded, hgain, RTbl.gain, RTbl.gain, hnum]
    unfold RTbl.delta
    rw [hrec, hfile]
  · rw [hori, horiu, RTbl.fileUsed, RTbl.fileUsed, hnum, hfile]

/-- The new slots of an extended table have nobody's changes. -/
theorem Owned.extended (h : Owned td who) : Owned td.extended who := by
  have hnum : td.extended.tRecNum = td.tRecNum + td.tRecNum := Nat.mul_two _
  have hfile : td.extended.file.recs = td.file.recs := rfl
  have hof : ∀ {p : ℕ → RRec → Prop}, (∀ j < td.tRecNum, p j (td.tRec j)) →
      (∀ j, td.tRecNum ≤ j → p j
        { rStat := { cache := true }
          rHead := { data := List.replicate (td.tRecSize - R_HEAD_SIZE) 0 } }) →
        ∀ j < td.extended.tRecNum, p j (td.extended.tRec j) := by
    intro p hold hnew j hj
    rw [extended_tRec]
    split_ifs with hlt hlt'
    · exact hold j hlt
    · exact hnew j (Nat.not_lt.mp hlt)
    · omega
  have hsum : ∀ f : ℕ → ℤ, (∀ j, td.tRecNum ≤ j → f j = 0) →
      ∑ j ∈ Finset.range (td.tRecNum + td.tRecNum), f j = ∑ j ∈ Finset.range td.tRecNum, f j := by
    intro f hf
    rw [Finset.sum_range_add, Finset.sum_eq_zero fun j _ => hf _ (Nat.le_add_right _ j), add_zero]
  refine ⟨?_, ?_, ?_, ?_, ?_, ?_, fun x => ?_, ?_⟩
  · exact hof (p := fun _ r => r.InMemory) h.allIn fun _ _ => ⟨rfl, rfl⟩
  · exact hof (p := fun _ r => r.rHead.rStat.used = r.rStat.used) h.head fun _ _ => rfl
  · exact hof (p := fun _ r => r.rStat.busy = r.rStat.dirty) h.busy fun _ _ => rfl
  · exact hof (p := fun j r => r.rStat.dirty = true → who j ≠ none ∧ who j = r.rAccess) h.dirty
      fun _ _ hd => Bool.noConfusion hd
  · exact hof (p := fun j r => r.rStat.dirty = false → who j = none ∧
      r.rStat.used = (td.file.recs j).rStat.used) h.clean fun j hj _ =>
        ⟨(h.past j hj).1, (h.past j hj).2.symm⟩
  · intro j hj
    exact h.past j (by omega)
  · have hadded : td.extended.uAdded = td.uAdded := rfl
    rw [hadded, h.added, RTbl.gain, RTbl.gain, hnum, hsum]
    · refine Finset.sum_congr rfl fun j hj => ?_
      have hdelta : td.extended.delta j = td.delta j := by
        rw [RTbl.delta, RTbl.delta, extended_tRec, if_pos (Finset.mem_range.mp hj), hfile]
      rw [hdelta]
    · intro j hj
      rw [(h.past j hj).1]
      simp
  · have hori : td.extended.tRecOriUsed = td.tRecOriUsed := rfl
    rw [hori, h.ori, RTbl.fileUsed, RTbl.fileUsed, hnum, hfile, hsum]
    intro j hj
    rw [RStat.one, (h.past j hj).2]
    rfl

/-! ### The edits of an operation -/

/-- The slot `j` is another one in `s`. A new slot counts if it is used. -/
def RTbl.changed (td s : RTbl) (j : ℕ) : Bool :=
  if j < td.tRecNum then s.tRec j ≠ td.tRec j else j < s.tRecNum && (s.tRec j).rStat.used

/-- The slots that have become others from `td` to `s` are changed by `ud`. -/
def marked (who : ℕ → Option Usr) (ud : Usr) (td s : RTbl) (j : ℕ) : Option Usr :=
  if td.changed s j then some ud else who j

/-- An operation of `ud` on `td` has come to `s`. -/
structure Edited (td : RTbl) (who : ℕ → Option Usr) (ud : Usr) (s : RTbl) : Prop where
  owned : Owned s (marked who ud td s)
  num : td.tRecNum ≤ s.tRecNum
  file : s.file.recs = td.file.recs

theorem changed_congr (hrec : u.tRec = s.tRec) (hnum : u.tRecNum = s.tRecNum) (j : ℕ) :
    td.changed u j = td.changed s j := by
  rw [RTbl.changed, RTbl.changed, hrec, hnum]

theorem Owned.edited (h : Owned td who) (ud : Usr) : Edited td who ud td := by
  have hsame : marked who ud td td = who := by
    funext j
    unfold marked RTbl.changed
    by_cases hj : j < td.tRecNum
    · simp [hj]
    · simp [hj]
  exact ⟨hsame.symm ▸ h, Nat.le_refl _, rfl⟩

theorem Edited.hash (h : Edited td who ud s) (hu : HashOnly s u) : Edited td who ud u := by
  have hmarked : marked who ud td u = marked who ud td s := by
    funext j
    rw [marked, marked, changed_congr hu.tRec hu.tRecNum]
  have hfile : u.file.recs = s.file.recs := by rw [hu.file]
  refine ⟨?_, hu.tRecNum ▸ h.num, hfile.trans h.file⟩
  rw [hmarked]
  exact h.owned.apart hu.tRecNum hu.tRec hfile hu.uAdded (by rw [hu])

/-- A slot that is taken is as it was at the start of the operation. -/
theorem Edited.same_of_taken (h : Edited td who ud s) (h0 : Owned td who) (hi : i < s.tRecNum)
    (ht : s.taken ud i = true) : i < td.tRecNum ∧ s.tRec i = td.tRec i := by
  unfold RTbl.taken at ht
  simp only [Bool.and_eq_true, decide_eq_true_eq] at ht
  obtain ⟨⟨hd, ha⟩, -⟩ := ht
  obtain ⟨hne, hwho⟩ := h.owned.dirty i hi hd
  have hmark : td.changed s i = false := by
    by_contra hc
    rw [marked, if_pos (by simpa using hc)] at hwho
    exact ha hwho.symm
  rw [marked, hmark] at hne
  by_cases hlt : i < td.tRecNum
  · rw [RTbl.changed, if_pos hlt] at hmark
    exact ⟨hlt, by simpa using hmark⟩
  · exact absurd (h0.past i (Nat.not_lt.mp hlt)).1 hne

theorem Edited.taken_eq (h : Edited td who ud s) (hs : s.tRec i = td.tRec i) :
    s.taken ud i = td.taken ud i := by
  rw [RTbl.taken, RTbl.taken, hs, h.file]

/-- One more change of the operation. -/
theorem Edited.edit (h : Edited td who ud s) (h0 : Owned td who) (hi : i < s.tRecNum)
    (hfree : s.taken ud i = false) (hr : Edit s ud i r u) (hold : i < td.tRecNum ∨ r.rStat.used = true) :
    Edited td who ud u := by
  have hmarked : marked who ud td u = Function.update (marked who ud td s) i (some ud) := by
    funext j
    rcases eq_or_ne j i with rfl | hji
    · rw [Function.update_self, marked]
      by_cases hlt : j < td.tRecNum
      · rw [RTbl.changed, if_pos hlt, hr.self]
        by_cases hsame : r = td.tRec j
        · have hd : (td.tRec j).rStat.dirty = true := hsame ▸ hr.dirty
          have ha : (td.tRec j).rAccess = some ud := hsame ▸ hr.access
          simp [hsame, (h0.who_iff hlt).mpr ⟨hd, ha⟩]
        · simp [hsame]
      · rw [RTbl.changed, if_neg hlt, hr.num, hr.self]
        simp [hi, hold.resolve_left hlt]
    · rw [Function.update_of_ne hji, marked, marked, RTbl.changed, RTbl.changed, hr.ne hji, hr.num]
  have hfile : u.file.recs = s.file.recs := by rw [hr.file]
  refine ⟨?_, hr.num ▸ h.num, hfile.trans h.file⟩
  rw [hmarked]
  exact hr.owned h.owned hi hfree

theorem Edited.extended (h : Edited td who ud s) : Edited td who ud s.extended := by
  have hnum : s.extended.tRecNum = s.tRecNum * 2 := rfl
  have hle := h.num
  have hmarked : marked who ud td s.extended = marked who ud td s := by
    funext j
    have hchanged : td.changed s.extended j = td.changed s j := by
      unfold RTbl.changed
      rw [extended_tRec]
      by_cases hlt : j < td.tRecNum
      · rw [if_pos hlt, if_pos hlt, if_pos (by omega)]
      · rw [if_neg hlt, if_neg hlt]
        by_cases hj : j < s.tRecNum
        · have hj' : j < s.extended.tRecNum := by omega
          simp [hj, hj']
        · rw [if_neg hj]
          split <;> simp [hj]
    rw [marked, marked, hchanged]
  refine ⟨?_, by omega, h.file⟩
  rw [hmarked]
  exact h.owned.extended

/-! ### Each edit as a change of one slot -/

theorem insertAt_edit (hmem : (td.tRec i).InMemory) (hfree : (td.tRec i).rStat.used = false)
    (data : List UInt8) :
    Edit td ud i ((td.tRec i).inserted ud mode data i) (td.insertAt ud mode data i) := by
  have hhash : HashOnly (td.setRec i ((td.tRec i).inserted ud mode data i))
      ((td.setRec i ((td.tRec i).inserted ud mode data i)).hashAddAll
        ((td.tRec i).inserted ud mode data i) i) := hashAddAll_only
  refine ⟨⟨hmem.1, hmem.2⟩, rfl, rfl, rfl, rfl, hhash.tRecNum, hhash.tRec, hhash.file, ?_, ?_⟩
  · change RTbl.tRecOriUsed (RTbl.hashAddAll _ _ _) = _
    rw [hhash]
    rfl
  · change Function.update (RTbl.uAdded (RTbl.hashAddAll _ _ _)) ud
      (RTbl.uAdded (RTbl.hashAddAll _ _ _) ud + 1) = _
    rw [hhash.uAdded, RStat.one, RStat.one, hfree]
    rfl

theorem deleteAt_edit (hmem : (td.tRec i).InMemory) (hused : (td.tRec i).rStat.used = true) :
    Edit td ud i ((td.tRec i).deleted ud) (td.deleteAt ud i) := by
  have hhash : HashOnly td (td.hashDelList td.tScm (td.tRec i) i) := hashDelList_only td.tScm
  refine ⟨⟨hmem.1, hmem.2⟩, rfl, rfl, ?_, rfl, hhash.tRecNum, ?_, hhash.file, ?_, ?_⟩
  · exact Bool.or_true _
  · exact congrArg (fun f => Function.update f i ((td.tRec i).deleted ud)) hhash.tRec
  · change RTbl.tRecOriUsed (RTbl.hashDelList _ _ _ _) = _
    rw [hhash]
  · change Function.update (RTbl.uAdded (RTbl.hashDelList _ _ _ _)) ud
      (RTbl.uAdded (RTbl.hashDelList _ _ _ _) ud - 1) = _
    rw [hhash.uAdded, RStat.one, RStat.one, hused]
    rfl

/-- An update that leaves a used record used adds nothing. -/
theorem updated_edit {data : List UInt8} (hmem : (td.tRec i).InMemory)
    (hhead : (td.tRec i).rHead.rStat.used = (td.tRec i).rStat.used)
    (hu : HashOnly (td.setRec i (((td.tRec i).setData data).updated ud mode)) u) :
    Edit td ud i (((td.tRec i).setData data).updated ud mode) u := by
  refine ⟨⟨hmem.1, hmem.2⟩, hhead, rfl, ?_, rfl, hu.tRecNum, hu.tRec, hu.file, ?_, ?_⟩
  · exact Bool.or_true _
  · rw [hu]
    rfl
  · have hzero : (((td.tRec i).setData data).updated ud mode).rStat.one - (td.tRec i).rStat.one = 0 :=
      sub_self _
    rw [hzero, add_zero, Function.update_eq_self, hu.uAdded]
    rfl

end PaxosSolutions.XjPing
