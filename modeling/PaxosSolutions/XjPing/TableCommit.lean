import PaxosSolutions.XjPing.TableOwners

/-!
# Commit and rollback

A store of a user writes the slots he has changed last and no others, and the
head of the file counts its used records. A cancel and a rollback read these
slots back and leave the changes of others alone.
-/
namespace PaxosSolutions.XjPing
open Lib

variable {td s u : RTbl} {who : ℕ → Option Usr} {i j n : ℕ} {ud : Usr} {mode : RLock} {r r' : RRec}
  {rp : RHead} {E : RTbl → Prop}

/-- A user has no changes left. -/
def cleared (who : ℕ → Option Usr) (ud : Usr) (j : ℕ) : Option Usr :=
  if who j = some ud then none else who j

theorem cleared_self (h : who j = some ud) : cleared who ud j = none := if_pos h

theorem cleared_of_ne (h : who j ≠ some ud) : cleared who ud j = who j := if_neg h

theorem cleared_ne : cleared who ud j ≠ some ud := by
  unfold cleared
  split
  · simp
  · next hw => exact hw

/-- What the others have added is not different if their slots are not. -/
theorem gain_cleared (hnum : u.tRecNum = td.tRecNum)
    (hother : ∀ j < td.tRecNum, who j ≠ some ud → u.delta j = td.delta j) (x : Usr) :
    u.gain (cleared who ud) x = Function.update (td.gain who) ud 0 x := by
  rw [RTbl.gain, hnum]
  by_cases hx : x = ud
  · subst hx
    rw [Function.update_self, Finset.sum_eq_zero]
    exact fun j _ => if_neg cleared_ne
  · rw [Function.update_of_ne hx, RTbl.gain]
    refine Finset.sum_congr rfl fun j hj => ?_
    by_cases hw : who j = some ud
    · have hne : ¬(some ud = some x) := fun h => hx (Option.some.inj h).symm
      rw [cleared_self hw, hw, if_neg hne, if_neg (by simp)]
    · rw [cleared_of_ne hw, hother j (Finset.mem_range.mp hj) hw]

/-! ### Cancel and rollback -/

/-- A slot that has been read back from the file. -/
structure RRec.Restored (r : RRec) (rp : RHead) : Prop where
  inMemory : r.InMemory
  head : r.rHead = rp
  used : r.rStat.used = rp.rStat.used
  dirty : r.rStat.dirty = false
  busy : r.rStat.busy = false

/-- The record of a slot and its change are the same. A lock may have ended. -/
structure RRec.SameRecord (r r' : RRec) : Prop where
  inMemory : r.InMemory → r'.InMemory
  head : r'.rHead = r.rHead
  used : r'.rStat.used = r.rStat.used
  dirty : r'.rStat.dirty = r.rStat.dirty
  busy : r'.rStat.busy = r.rStat.busy
  access : r.rStat.dirty = true → r'.rAccess = r.rAccess

theorem RRec.SameRecord.refl (r : RRec) : r.SameRecord r :=
  ⟨fun h => h, rfl, rfl, rfl, rfl, fun _ => rfl⟩

/-- The changes of `ud` are taken back, and those of others are not. -/
structure TakenBack (td u : RTbl) (who : ℕ → Option Usr) (ud : Usr) : Prop where
  num : u.tRecNum = td.tRecNum
  file : u.file = td.file
  ori : u.tRecOriUsed = td.tRecOriUsed
  added : u.uAdded = Function.update td.uAdded ud 0
  mine : ∀ j < td.tRecNum, who j = some ud → (u.tRec j).Restored (td.file.recs j)
  others : ∀ j < td.tRecNum, who j ≠ some ud → (td.tRec j).SameRecord (u.tRec j)

theorem TakenBack.owned (h : TakenBack td u who ud) (hown : Owned td who) :
    Owned u (cleared who ud) := by
  have hof : ∀ {p : ℕ → RRec → Prop},
      (∀ j < td.tRecNum, who j = some ud → (u.tRec j).Restored (td.file.recs j) → p j (u.tRec j)) →
      (∀ j < td.tRecNum, who j ≠ some ud → (td.tRec j).SameRecord (u.tRec j) → p j (u.tRec j)) →
        ∀ j < u.tRecNum, p j (u.tRec j) := by
    intro p hmine hother j hj
    rw [h.num] at hj
    by_cases hw : who j = some ud
    · exact hmine j hj hw (h.mine j hj hw)
    · exact hother j hj hw (h.others j hj hw)
  refine ⟨?_, ?_, ?_, ?_, ?_, ?_, fun x => ?_, ?_⟩
  · exact hof (p := fun _ r => r.InMemory) (fun _ _ _ hr => hr.inMemory)
      fun j hj _ hr => hr.inMemory (hown.allIn j hj)
  · refine hof (p := fun _ r => r.rHead.rStat.used = r.rStat.used) (fun j _ _ hr => ?_)
      fun j hj _ hr => ?_
    · rw [hr.head, hr.used]
    · rw [hr.head, hr.used]
      exact hown.head j hj
  · refine hof (p := fun _ r => r.rStat.busy = r.rStat.dirty) (fun j _ _ hr => ?_)
      fun j hj _ hr => ?_
    · rw [hr.busy, hr.dirty]
    · rw [hr.busy, hr.dirty]
      exact hown.busy j hj
  · refine hof (p := fun j r => r.rStat.dirty = true → cleared who ud j ≠ none ∧
      cleared who ud j = r.rAccess) (fun j _ _ hr hd => ?_) fun j hj hw hr hd => ?_
    · rw [hr.dirty] at hd
      cases hd
    · rw [hr.dirty] at hd
      rw [cleared_of_ne hw, hr.access hd]
      exact hown.dirty j hj hd
  · refine hof (p := fun j r => r.rStat.dirty = false → cleared who ud j = none ∧
      r.rStat.used = (u.file.recs j).rStat.used) (fun j _ hw hr _ => ?_) fun j hj hw hr hd => ?_
    · rw [cleared_self hw, h.file]
      exact ⟨rfl, hr.used⟩
    · rw [hr.dirty] at hd
      rw [cleared_of_ne hw, hr.used, h.file]
      exact hown.clean j hj hd
  · intro j hj
    rw [h.num] at hj
    obtain ⟨hw, hf⟩ := hown.past j hj
    rw [cleared_of_ne (by simp [hw]), h.file]
    exact ⟨hw, hf⟩
  · have hadded : td.uAdded = td.gain who := funext hown.added
    rw [h.added, hadded, gain_cleared h.num]
    intro j hj hw
    rw [RTbl.delta, RTbl.delta, h.file, one_of_used (h.others j hj hw).used]
  · rw [h.ori, hown.ori, RTbl.fileUsed, RTbl.fileUsed, h.num, h.file]

/-- From `td` to `u` the first `n` slots have become `g` of what they and the file
have. -/
structure AtSlots (g : RRec → RHead → RRec) (n : ℕ) (td u : RTbl) : Prop where
  num : u.tRecNum = td.tRecNum
  file : u.file = td.file
  ori : u.tRecOriUsed = td.tRecOriUsed
  added : u.uAdded = td.uAdded
  tRec : ∀ j, u.tRec j = if j < n then g (td.tRec j) (td.file.recs j) else td.tRec j

theorem foldl_atSlots {f : RTbl → ℕ → RTbl} {g : RRec → RHead → RRec}
    (hmem : ∀ r rp, r.InMemory → (g r rp).InMemory)
    (hf : ∀ u i, AllIn u → i < u.tRecNum → (f u i).tRecNum = u.tRecNum ∧ (f u i).file = u.file ∧
      (f u i).tRecOriUsed = u.tRecOriUsed ∧ (f u i).uAdded = u.uAdded ∧
        (f u i).tRec = (u.setRec i (g (u.tRec i) (u.file.recs i))).tRec)
    (h : AllIn td) (hn : n ≤ td.tRecNum) : AtSlots g n td ((List.range n).foldl f td) := by
  induction n with
  | zero => exact ⟨rfl, rfl, rfl, rfl, fun j => rfl⟩
  | succ n ih =>
      obtain ⟨hnum, hfile, hori, hadded, hrec⟩ := ih (Nat.le_of_succ_le hn)
      rw [List.range_succ, List.foldl_append, List.foldl_cons, List.foldl_nil]
      generalize (List.range n).foldl f td = u at hnum hfile hori hadded hrec
      have hall : AllIn u := by
        intro j hj
        rw [hrec j]
        split
        · exact hmem _ _ (h j (hnum ▸ hj))
        · exact h j (hnum ▸ hj)
      obtain ⟨hnum', hfile', hori', hadded', hrec'⟩ := hf u n hall (by omega)
      refine ⟨hnum'.trans hnum, hfile'.trans hfile, hori'.trans hori, hadded'.trans hadded, fun j => ?_⟩
      rw [hrec']
      rcases eq_or_ne j n with rfl | hj
      · rw [setRec_self, hrec j, hfile, if_neg (Nat.lt_irrefl j), if_pos (Nat.lt_succ_self j)]
      · rw [setRec_ne _ hj, hrec j]
        by_cases hlt : j < n
        · rw [if_pos hlt, if_pos (by omega)]
        · rw [if_neg hlt, if_neg (by omega)]

/-- A slot after the change of it has been thrown away. -/
def RRec.reload (r : RRec) (rp : RHead) : RRec := if r.rStat.dirty then r.load rp else r

/-- A slot after a cancel. -/
def RRec.canceled (ud : Usr) (r : RRec) (rp : RHead) : RRec :=
  if r.rAccess = some ud ∧ r.rStat.busy then r.reload rp else r

/-- A slot after a rollback. -/
def RRec.rolledBack (ud : Usr) (r : RRec) (rp : RHead) : RRec :=
  if r.rAccess = some ud then (r.reload rp).released r.rStat.locked else r

theorem reload_inMemory (h : r.InMemory) : (r.reload rp).InMemory := by
  unfold RRec.reload
  split
  · exact ⟨rfl, h.2⟩
  · exact h

theorem svcLoad_reload (hi : i < td.tRecNum) (h : (td.tRec i).InMemory) :
    (td.svcLoad i 1).tRec = (td.setRec i ((td.tRec i).reload (td.file.recs i))).tRec ∧
      (td.svcLoad i 1).tRecNum = td.tRecNum ∧ (td.svcLoad i 1).file = td.file ∧
      (td.svcLoad i 1).tRecOriUsed = td.tRecOriUsed ∧ (td.svcLoad i 1).uAdded = td.uAdded := by
  rw [svcLoad_one_of_inMemory hi h]
  unfold RRec.reload
  split
  · exact ⟨rfl, rfl, rfl, rfl, rfl⟩
  · exact ⟨(Function.update_eq_self i td.tRec).symm, rfl, rfl, rfl, rfl⟩

theorem cancel_atSlots (h : AllIn td) (ud : Usr) : AtSlots (RRec.canceled ud) td.tRecNum td
    ((List.range td.tRecNum).foldl (fun td i => td.cancelSlot ud i) td) := by
  refine foldl_atSlots (fun r rp hr => ?_) (fun u i hu hi => ?_) h (Nat.le_refl _)
  · unfold RRec.canceled
    split
    · exact reload_inMemory hr
    · exact hr
  · obtain ⟨hrec, hnum, hfile, hori, hadded⟩ := svcLoad_reload hi (hu i hi)
    unfold RTbl.cancelSlot RRec.canceled
    dsimp only
    by_cases hc : (u.tRec i).rAccess = some ud ∧ (u.tRec i).rStat.busy = true
    · rw [if_pos hc, if_pos hc]
      exact ⟨hnum, hfile, hori, hadded, hrec⟩
    · rw [if_neg hc, if_neg hc]
      exact ⟨rfl, rfl, rfl, rfl, (Function.update_eq_self i u.tRec).symm⟩

theorem rollback_atSlots (h : AllIn td) (ud : Usr) : AtSlots (RRec.rolledBack ud) td.tRecNum td
    ((List.range td.tRecNum).foldl (fun td i => td.rollbackSlot ud i) td) := by
  refine foldl_atSlots (fun r rp hr => ?_) (fun u i hu hi => ?_) h (Nat.le_refl _)
  · unfold RRec.rolledBack
    split
    · exact reload_inMemory hr
    · exact hr
  · obtain ⟨hrec, hnum, hfile, hori, hadded⟩ := svcLoad_reload hi (hu i hi)
    have hdiscard : (u.discard i).tRec = (u.setRec i ((u.tRec i).reload (u.file.recs i))).tRec ∧
        (u.discard i).tRecNum = u.tRecNum ∧ (u.discard i).file = u.file ∧
        (u.discard i).tRecOriUsed = u.tRecOriUsed ∧ (u.discard i).uAdded = u.uAdded := by
      unfold RTbl.discard
      dsimp only
      split
      · exact ⟨hrec, hnum, hfile, hori, hadded⟩
      · next hd =>
          rw [RRec.reload, if_neg hd]
          exact ⟨(Function.update_eq_self i u.tRec).symm, rfl, rfl, rfl, rfl⟩
    obtain ⟨hrec', hnum', hfile', hori', hadded'⟩ := hdiscard
    unfold RTbl.rollbackSlot RRec.rolledBack
    dsimp only
    by_cases hc : (u.tRec i).rAccess = some ud
    · rw [if_pos hc, if_pos hc]
      refine ⟨hnum', hfile', hori', hadded', ?_⟩
      have hself : (u.discard i).tRec i = (u.tRec i).reload (u.file.recs i) := by
        rw [hrec', setRec_self]
      change Function.update (u.discard i).tRec i _ = _
      rw [hself, hrec']
      exact Function.update_idem ..
    · rw [if_neg hc, if_neg hc]
      exact ⟨rfl, rfl, rfl, rfl, (Function.update_eq_self i u.tRec).symm⟩

theorem reload_restored (h : r.InMemory) (hd : r.rStat.dirty = true) :
    (r.reload rp).Restored rp := by
  rw [RRec.reload, if_pos hd]
  exact ⟨⟨rfl, h.2⟩, rfl, rfl, rfl, rfl⟩

theorem AtSlots.takenBack {g : RRec → RHead → RRec} {v : RTbl} (h : AtSlots g td.tRecNum td v)
    (hu : u.tRecNum = v.tRecNum ∧ u.file = v.file ∧ u.tRecOriUsed = v.tRecOriUsed ∧
      u.uAdded = Function.update v.uAdded ud 0 ∧ u.tRec = v.tRec)
    (hmine : ∀ j < td.tRecNum, who j = some ud →
      (g (td.tRec j) (td.file.recs j)).Restored (td.file.recs j))
    (hother : ∀ j < td.tRecNum, who j ≠ some ud →
      (td.tRec j).SameRecord (g (td.tRec j) (td.file.recs j))) : TakenBack td u who ud := by
  obtain ⟨hnum, hfile, hori, hadded, hrec⟩ := hu
  have hat : ∀ j < td.tRecNum, u.tRec j = g (td.tRec j) (td.file.recs j) := fun j hj => by
    rw [hrec, h.tRec j, if_pos hj]
  refine ⟨hnum.trans h.num, hfile.trans h.file, hori.trans h.ori, ?_, fun j hj hw => ?_,
    fun j hj hw => ?_⟩
  · rw [hadded, h.added]
  · rw [hat j hj]
    exact hmine j hj hw
  · rw [hat j hj]
    exact hother j hj hw

theorem Owned.cancel (h : Owned td who) (ud : Usr) : TakenBack td (td.cancel ud) who ud := by
  refine (cancel_atSlots h.allIn ud).takenBack ⟨rfl, rfl, rfl, rfl, rfl⟩ (fun j hj hw => ?_)
    fun j hj hw => ?_
  · obtain ⟨hd, ha⟩ := (h.who_iff hj).mp hw
    rw [RRec.canceled, if_pos ⟨ha, (h.busy j hj).trans hd⟩]
    exact reload_restored (h.allIn j hj) hd
  · rw [RRec.canceled, if_neg]
    · exact RRec.SameRecord.refl _
    · rintro ⟨ha, hb⟩
      exact hw ((h.who_iff hj).mpr ⟨(h.busy j hj).symm.trans hb, ha⟩)

theorem Owned.rollback (h : Owned td who) (ud : Usr) : TakenBack td (td.rollback ud) who ud := by
  refine (rollback_atSlots h.allIn ud).takenBack ?_ (fun j hj hw => ?_) fun j hj hw => ?_
  · unfold RTbl.rollback
    dsimp only
    split <;> exact ⟨rfl, rfl, rfl, rfl, rfl⟩
  · obtain ⟨hd, ha⟩ := (h.who_iff hj).mp hw
    rw [RRec.rolledBack, if_pos ha]
    obtain ⟨hmem, hhead, hused, hdirty, hbusy⟩ :=
      reload_restored (h.allIn j hj) hd
    exact ⟨⟨hmem.1, hmem.2⟩, hhead, hused, hdirty, hbusy⟩
  · rw [RRec.rolledBack]
    split
    · next ha =>
        have hd : (td.tRec j).rStat.dirty = false := by
          by_contra hd
          exact hw ((h.who_iff hj).mpr ⟨by simpa using hd, ha⟩)
        rw [RRec.reload, if_neg (by simp [hd])]
        refine ⟨fun hm => ⟨hm.1, hm.2⟩, rfl, rfl, rfl, rfl, fun hd' => ?_⟩
        rw [hd] at hd'
        cases hd'
    · exact RRec.SameRecord.refl _

/-! ### Store -/

/-- A store of `ud` has written the slots he has changed last, and no others. -/
structure Stored (td u : RTbl) (who : ℕ → Option Usr) (ud : Usr) : Prop where
  num : u.tRecNum = td.tRecNum
  mine : ∀ j < td.tRecNum, who j = some ud →
    u.tRec j = (td.tRec j).stored ∧ u.file.recs j = (td.tRec j).rHead
  others : ∀ j < td.tRecNum, who j ≠ some ud →
    u.tRec j = td.tRec j ∧ u.file.recs j = td.file.recs j
  past : ∀ j, td.tRecNum ≤ j → u.file.recs j = td.file.recs j
  ori : u.tRecOriUsed = td.tRecOriUsed + td.uAdded ud
  head : u.file.recNum = u.tRecNum ∧ u.file.recUsed = u.tRecOriUsed
  added : u.uAdded = Function.update td.uAdded ud 0

theorem Owned.stores_iff (h : Owned td who) (hj : j < td.tRecNum) :
    td.stores (some ud) j = true ↔ who j = some ud := by
  rw [h.who_iff hj, RTbl.stores]
  constructor
  · intro hs
    simp only [Bool.and_eq_true, Bool.or_eq_true, decide_eq_true_eq, Option.isNone_some,
      Bool.false_eq_true, false_or, Option.isNone_iff_eq_none] at hs
    obtain ⟨hd, ha | ha⟩ := hs
    · obtain ⟨hne, hwho⟩ := h.dirty j hj hd
      exact absurd (hwho.trans ha) hne
    · exact ⟨hd, ha.symm⟩
  · rintro ⟨hd, ha⟩
    simp [hd, ha]

theorem Owned.store (h : Owned td who) (ud : Usr) :
    Stored td (td.storeAll (some ud) td.tRecNum) who ud := by
  have hiff : ∀ j < td.tRecNum, (j < td.tRecNum ∧ td.stores (some ud) j = true) ↔ who j = some ud := by
    intro j hj
    rw [h.stores_iff hj]
    exact ⟨fun h => h.2, fun h => ⟨hj, h⟩⟩
  refine ⟨rfl, fun j hj hw => ?_, fun j hj hw => ?_, fun j hj => ?_, rfl, ⟨rfl, rfl⟩, rfl⟩
  · exact ⟨if_pos ((hiff j hj).mpr hw), if_pos ((hiff j hj).mpr hw)⟩
  · exact ⟨if_neg (mt (hiff j hj).mp hw), if_neg (mt (hiff j hj).mp hw)⟩
  · exact if_neg fun hlt => Nat.not_lt.mpr hj hlt.1

theorem stored_used (h : Owned td who) (hu : Stored td u who ud) (hj : j < td.tRecNum) :
    (u.tRec j).rStat.used = (td.tRec j).rStat.used ∧ (u.tRec j).rHead = (td.tRec j).rHead ∧
      (u.file.recs j).rStat.one = (td.file.recs j).rStat.one +
        if who j = some ud then td.delta j else 0 := by
  by_cases hw : who j = some ud
  · obtain ⟨hrec, hfile⟩ := hu.mine j hj hw
    rw [hrec, hfile, if_pos hw, RTbl.delta, one_of_used (h.head j hj)]
    exact ⟨rfl, rfl, by omega⟩
  · obtain ⟨hrec, hfile⟩ := hu.others j hj hw
    rw [hrec, hfile, if_neg hw, add_zero]
    exact ⟨rfl, rfl, rfl⟩

/-- After a store the head of the file counts the used records of the file. -/
theorem Stored.owned (h : Owned td who) (hu : Stored td u who ud) : Owned u (cleared who ud) := by
  have hnum := hu.num
  refine ⟨?_, ?_, ?_, ?_, ?_, ?_, fun x => ?_, ?_⟩
  · intro j hj
    rw [hnum] at hj
    by_cases hw : who j = some ud
    · rw [(hu.mine j hj hw).1]
      exact h.allIn j hj
    · rw [(hu.others j hj hw).1]
      exact h.allIn j hj
  · intro j hj
    rw [hnum] at hj
    obtain ⟨hused, hhead, -⟩ := stored_used h hu hj
    rw [hused, hhead]
    exact h.head j hj
  · intro j hj
    rw [hnum] at hj
    by_cases hw : who j = some ud
    · rw [(hu.mine j hj hw).1]
      rfl
    · rw [(hu.others j hj hw).1]
      exact h.busy j hj
  · intro j hj hd
    rw [hnum] at hj
    by_cases hw : who j = some ud
    · rw [(hu.mine j hj hw).1] at hd
      cases hd
    · rw [(hu.others j hj hw).1] at hd ⊢
      rw [cleared_of_ne hw]
      exact h.dirty j hj hd
  · intro j hj hd
    rw [hnum] at hj
    by_cases hw : who j = some ud
    · rw [cleared_self hw, (hu.mine j hj hw).1, (hu.mine j hj hw).2]
      exact ⟨rfl, (h.head j hj).symm⟩
    · rw [(hu.others j hj hw).1] at hd ⊢
      rw [cleared_of_ne hw, (hu.others j hj hw).2]
      exact h.clean j hj hd
  · intro j hj
    rw [hnum] at hj
    obtain ⟨hw, hf⟩ := h.past j hj
    rw [cleared_of_ne (by simp [hw]), hu.past j hj]
    exact ⟨hw, hf⟩
  · have hadded : td.uAdded = td.gain who := funext h.added
    rw [hu.added, hadded, gain_cleared hnum]
    intro j hj hw
    rw [RTbl.delta, RTbl.delta, (hu.others j hj hw).1, (hu.others j hj hw).2]
  · rw [hu.ori, h.ori, h.added, RTbl.gain, RTbl.fileUsed, RTbl.fileUsed, hnum, ← Finset.sum_add_distrib]
    exact Finset.sum_congr rfl fun j hj => ((stored_used h hu (Finset.mem_range.mp hj)).2.2).symm

end PaxosSolutions.XjPing
