import PaxosSolutions.XjPing.Arrange
import PaxosSolutions.XjPing.Sorter
import PaxosSolutions.XjPing.TableScan
import PaxosSolutions.XjPing.TableSlots
import Mathlib.Data.List.GetD

/-!
# Sorting a table

The used records are loaded and entered in an index table, the index table is sorted,
and the records are moved to the places it says. The table must be free of other
users.
-/
namespace PaxosSolutions.XjPing
open Lib

/-- The loop of `svc_sort` that collects the used records, over the next `k` slots. -/
def usedSlots (load : Loader) (pn : ℕ) : ℕ → ℕ → TblM (List ℕ)
  | 0, _ => return []
  | k + 1, i => do
      let r ← slot load i pn
      let num ← usedSlots load pn k (i + 1)
      return if r.rStat.used then i :: num else num

/-- The index table before the sort -/
def sortIndex (used : List ℕ) : List SortIndex :=
  (List.range used.length).map fun i => ⟨i, used.getD i 0⟩

/-- `qsort`, with the comparison of two entries of the index table -/
abbrev QSort := (SortIndex → SortIndex → ℤ) → List SortIndex → List SortIndex

namespace RTbl

/-- `_rdb_sort_start` -/
def sortStart (qsort : QSort) (sorter : List RSorter) (td : RTbl) (used : List ℕ) : List SortIndex :=
  qsort (fun x y => dbCompare sorter (td.tRec x.iHead).rHead.data (td.tRec y.iHead).rHead.data)
    (sortIndex used)

def setHeads (td : RTbl) (head : ℕ → RHead) : RTbl :=
  { td with tRec := fun j => { td.tRec j with rHead := head j } }

/-- The flags of a record that may have been moved. The slot that gets its user is
that of the number among the used records. -/
def markMoved (td : RTbl) (ud : Usr) (i head : ℕ) : RTbl :=
  let r := td.tRec head
  let j := r.rHead.rAbs
  let td := td.setRec j
    { td.tRec j with rStat := { (td.tRec j).rStat with update := true, busy := true } }
  let r := td.tRec head
  let td := td.setRec head
    { r with rHead := { r.rHead with rStat := { r.rHead.rStat with update := true } } }
  td.setRec i { td.tRec i with rAccess := some ud }

/-- The loop of `svc_sort` over the used records. What `i_id` of `abs` holds has not
been set. -/
def markSorted (absId : ℕ → ℕ) (ud : Usr) (used : List ℕ) (td : RTbl) : RTbl :=
  (List.range used.length).foldl
    (fun td i => if absId i = i then td else td.markMoved ud i (used.getD i 0)) td

end RTbl

/-- The used records are sorted. -/
def sortUsed (qsort : QSort) (absId : ℕ → ℕ) (ud : Usr) (sort : List RSort) (used : List ℕ) :
    TblM Unit := do
  let td ← get
  match rdbSortOpen td.tScm sort with
  | none => throw .noItem
  | some sorter => do
      faultIf (sorter.any fun s => s.sComp = .unset) .noComp
      let rel := td.sortStart qsort sorter used
      let x := rdbArrangeData (fun i => used.getD i 0) used.length
        ⟨fun j => (td.tRec j).rHead, fun i => rel.getD i ⟨0, 0⟩⟩
      modify fun td => td.setHeads x.1.head
      throwIf (!x.2) .confused
      modify fun td => td.markSorted absId ud used

/-- `svc_sort` -/
def svcSort (load : Loader) (qsort : QSort) (absId : ℕ → ℕ) (ud : Usr) (sort : List RSort) :
    TblM Unit := do
  modify RTbl.hashClear
  let td ← get
  throwIf (td.checkLock ud true) .tblBusy
  throwIf (1 < td.tUsrCnt) .tblBusy
  let used ← usedSlots load td.page td.tRecNum 0
  if used.isEmpty then pure () else sortUsed qsort absId ud sort used

/-! ### The records of a table -/

namespace RTbl

/-- The slots of the used records -/
def used (td : RTbl) : List ℕ := (List.range td.tRecNum).filter td.usedAt

/-- The used records in the order of their slots -/
def usedData (td : RTbl) : List (List UInt8) := td.used.map fun j => (td.tRec j).rHead.data

/-- The table with the records a sort has collected -/
def collected (td : RTbl) : RTbl :=
  (List.range td.tRecNum).foldl (RTbl.ensure td.page) td.hashClear

end RTbl

/-- What a slot has apart from its flags and users -/
def SameRecord (r r' : RRec) : Prop :=
  r'.rHead.data = r.rHead.data ∧ r'.rHead.rRel = r.rHead.rRel ∧ r'.rHead.rAbs = r.rHead.rAbs ∧
    r'.rStat.used = r.rStat.used

/-- After a sort the records are those of before in the order of the keys, and each
slot has its numbers. -/
structure SortedFrom (td : RTbl) (sort : List RSort) (u : RTbl) : Prop where
  perm : u.usedData.Perm td.loaded.usedData
  ordered : ∀ keys, sortItems td.tScm sort = some keys →
    u.usedData.Pairwise fun a b => (keysCompare keys a b).isLE
  numbers : ∀ j < td.tRecNum, (u.tRec j).rHead.rRel = (td.loaded.tRec j).rHead.rRel ∧
    (u.tRec j).rHead.rAbs = (td.loaded.tRec j).rHead.rAbs

/-- Whatever the sort does with equal records and with a comparison that is no
preorder, and whatever `i_id` of `abs` holds. -/
def SortsTable (td : RTbl) (ud : Usr) (sort : List RSort) : Prop :=
  ∀ (qsort : QSort) (absId : ℕ → ℕ), Sorts qsort →
    ∃ r u, perform (svcSort svcLoad qsort absId ud sort) td = .ok (r, u) ∧
      r ≠ .error .confused ∧ (r = .ok () → SortedFrom td sort u)

/-- The table is not locked, not used by others, and its columns have the keys. -/
def SortAccepted (td : RTbl) (ud : Usr) (sort : List RSort) : Prop :=
  td.checkLock ud true = false ∧ td.tUsrCnt ≤ 1 ∧
    (td.collected.used = [] ∨ (sortItems td.tScm sort).isSome)

/-- The loads of the sort lose no record and no number. -/
structure SortLoads (td : RTbl) : Prop where
  perm : td.collected.usedData.Perm td.loaded.usedData
  numbers : ∀ j < td.tRecNum,
    (td.collected.tRec j).rHead.rRel = (td.loaded.tRec j).rHead.rRel ∧
      (td.collected.tRec j).rHead.rAbs = (td.loaded.tRec j).rHead.rAbs

/-- Of any two records the first key in which they differ has near values. -/
def NearRecords (td : RTbl) (sort : List RSort) : Prop :=
  ∀ keys, sortItems td.tScm sort = some keys →
    ∀ a ∈ td.collected.usedData, ∀ b ∈ td.collected.usedData, KeysNear keys a b

variable {td u v : RTbl} {i j k l s pn : ℕ} {ud : Usr} {sort : List RSort}

theorem perform_usedSlots : perform (usedSlots svcLoad pn k i) td =
    .ok (.ok ((List.range' i k).filter (td.ensureFrom pn k i).usedAt), td.ensureFrom pn k i) := by
  induction k generalizing td i with
  | zero => rfl
  | succ k ih =>
      have hkeeps : KeepsHead ((td.ensure pn i).tRec i) ((td.ensureFrom pn (k + 1) i).tRec i) :=
        ensureFrom_keepsHead _ pn k (Nat.lt_succ_self i)
      have hused : ((td.ensure pn i).tRec i).rStat.used = (td.ensureFrom pn (k + 1) i).usedAt i :=
        hkeeps.used.symm
      rw [usedSlots, perform_bind_of_ok perform_slot_load, perform_bind_of_ok ih, List.range'_succ,
        List.filter_cons, hused]
      rfl

theorem collected_eq (td : RTbl) : td.collected = td.hashClear.ensureFrom td.page td.tRecNum 0 := by
  rw [RTbl.collected, RTbl.ensureFrom, List.range_eq_range']

theorem collected_only (td : RTbl) :
    td.collected = { td.hashClear with tRec := td.collected.tRec } := by
  rw [collected_eq]
  exact ensureFrom_only

theorem perform_collect (td : RTbl) :
    perform (usedSlots svcLoad td.page td.tRecNum 0) td.hashClear =
      .ok (.ok td.collected.used, td.collected) := by
  have hnum : td.collected.tRecNum = td.tRecNum := by rw [collected_only]; rfl
  rw [perform_usedSlots, ← collected_eq, RTbl.used, hnum, List.range_eq_range']

/-! ### The places of the records -/

variable {used : List ℕ} {rel : List SortIndex} {x : ℕ}

/-- The place `x` of the index table gets the record of the place `place rel x`. -/
def place (rel : List SortIndex) (x : ℕ) : ℕ := (rel.getD x ⟨0, 0⟩).iId

theorem used_nodup (td : RTbl) : td.used.Nodup := List.nodup_range.filter _

theorem sortIndex_iId (used : List ℕ) :
    (sortIndex used).map SortIndex.iId = List.range used.length := by
  unfold sortIndex
  rw [List.map_map]
  exact List.map_id _

theorem sortIndex_iHead (used : List ℕ) : (sortIndex used).map SortIndex.iHead = used := by
  unfold sortIndex
  rw [List.map_map]
  refine List.ext_getElem (by simp) fun i hi hi' => ?_
  simp [List.getElem?_eq_getElem hi']

theorem getD_inj (h : used.Nodup) {x y : ℕ} (hx : x < used.length) (hy : y < used.length)
    (he : used.getD x 0 = used.getD y 0) : x = y := by
  rw [List.getD_eq_getElem _ _ hx, List.getD_eq_getElem _ _ hy] at he
  exact (h.getElem_inj_iff).mp he

theorem rel_length (hp : rel.Perm (sortIndex used)) : rel.length = used.length := by
  rw [hp.length_eq, sortIndex, List.length_map, List.length_range]

theorem rel_getD (hp : rel.Perm (sortIndex used)) (hx : x < used.length) :
    rel.getD x ⟨0, 0⟩ = reordered (fun i => used.getD i 0) (place rel) x ∧
      place rel x < used.length := by
  have hx' : x < rel.length := (rel_length hp).symm ▸ hx
  have hmem : rel.getD x ⟨0, 0⟩ ∈ sortIndex used := by
    rw [List.getD_eq_getElem _ _ hx']
    exact hp.mem_iff.mp (List.getElem_mem hx')
  obtain ⟨i, hi, he⟩ := List.mem_map.mp hmem
  have hplace : place rel x = i := by rw [place, ← he]
  rw [reordered, hplace]
  exact ⟨he.symm, List.mem_range.mp hi⟩

theorem place_inj (hp : rel.Perm (sortIndex used)) {x y : ℕ} (hx : x < used.length)
    (hy : y < used.length) (he : place rel x = place rel y) : x = y := by
  have hnodup : (rel.map SortIndex.iId).Nodup := by
    rw [(hp.map SortIndex.iId).nodup_iff, sortIndex_iId]
    exact List.nodup_range
  have hlen : (rel.map SortIndex.iId).length = used.length := by
    rw [List.length_map, rel_length hp]
  have hget (z : ℕ) (hz : z < used.length) : (rel.map SortIndex.iId).getD z 0 = place rel z := by
    have hz' : z < rel.length := (rel_length hp).symm ▸ hz
    rw [List.getD_eq_getElem _ _ (hlen.symm ▸ hz), List.getElem_map, place,
      List.getD_eq_getElem _ _ hz']
  refine getD_inj hnodup (hlen.symm ▸ hx) (hlen.symm ▸ hy) ?_
  rw [hget x hx, hget y hy, he]

/-- A sort of the index table is an order of the places. -/
theorem reorder_place (hn : used.Nodup) (hp : rel.Perm (sortIndex used)) :
    Reorder used.length (fun i => used.getD i 0) (place rel) where
  lt hx := (rel_getD hp hx).2
  inj hx hy he := place_inj hp hx hy he
  absInj hx hy he := getD_inj hn hx hy he

/-! ### The flags of the records -/

/-- The records have other flags and users at most. -/
structure SameRecords (td u : RTbl) : Prop where
  num : u.tRecNum = td.tRecNum
  scm : u.tScm = td.tScm
  records : ∀ j, SameRecord (td.tRec j) (u.tRec j)

theorem SameRecord.refl (r : RRec) : SameRecord r r := ⟨rfl, rfl, rfl, rfl⟩

theorem SameRecord.trans {r r' r'' : RRec} (h : SameRecord r r') (h' : SameRecord r' r'') :
    SameRecord r r'' :=
  ⟨h'.1.trans h.1, h'.2.1.trans h.2.1, h'.2.2.1.trans h.2.2.1, h'.2.2.2.trans h.2.2.2⟩

theorem SameRecords.refl (td : RTbl) : SameRecords td td := ⟨rfl, rfl, fun _ => SameRecord.refl _⟩

theorem SameRecords.set {r : RRec} (h : SameRecords td u) (hr : SameRecord (u.tRec j) r) :
    SameRecords td (u.setRec j r) where
  num := h.num
  scm := h.scm
  records i := by
    rcases eq_or_ne i j with rfl | hij
    · rw [setRec_self]
      exact (h.records i).trans hr
    · rw [setRec_ne _ hij]
      exact h.records i

theorem markMoved_same {head : ℕ} (h : SameRecords td u) :
    SameRecords td (u.markMoved ud i head) := by
  have hslot : SameRecords td (u.setRec (u.tRec head).rHead.rAbs
      { u.tRec (u.tRec head).rHead.rAbs with
        rStat := { (u.tRec (u.tRec head).rHead.rAbs).rStat with update := true, busy := true } }) :=
    h.set ⟨rfl, rfl, rfl, rfl⟩
  refine SameRecords.set (hslot.set ?_) ?_
  · exact ⟨rfl, rfl, rfl, rfl⟩
  · exact ⟨rfl, rfl, rfl, rfl⟩

theorem markSorted_same (absId : ℕ → ℕ) (ud : Usr) (used : List ℕ) (td : RTbl) :
    SameRecords td (td.markSorted absId ud used) := by
  unfold RTbl.markSorted
  generalize List.range used.length = is
  suffices h : ∀ u, SameRecords td u → SameRecords td (is.foldl
      (fun td i => if absId i = i then td else td.markMoved ud i (used.getD i 0)) u) from
    h td (SameRecords.refl td)
  intro u h
  induction is generalizing u with
  | nil => exact h
  | cons i is ih =>
      refine ih _ ?_
      change SameRecords td (if absId i = i then u else u.markMoved ud i (used.getD i 0))
      split
      · exact h
      · exact markMoved_same h

theorem SameRecords.used_eq (h : SameRecords td u) : u.used = td.used := by
  have hused : u.usedAt = td.usedAt := funext fun j => (h.records j).2.2.2
  rw [RTbl.used, RTbl.used, h.num, hused]

theorem SameRecords.usedData (h : SameRecords td u) : u.usedData = td.usedData := by
  rw [RTbl.usedData, RTbl.usedData, h.used_eq]
  exact List.map_congr_left fun j _ => (h.records j).1

/-! ### The sort of the used records -/

/-- The records of the index table after the sort, in its order -/
def RTbl.relData (td : RTbl) (rel : List SortIndex) : List (List UInt8) :=
  rel.map fun x => (td.tRec x.iHead).rHead.data

theorem relData_perm (hp : rel.Perm (sortIndex td.used)) : (td.relData rel).Perm td.usedData := by
  have hmap (l : List SortIndex) : td.relData l =
      (l.map SortIndex.iHead).map fun j => (td.tRec j).rHead.data := by
    rw [List.map_map]
    rfl
  rw [hmap]
  have h := (hp.map SortIndex.iHead).map fun j => (td.tRec j).rHead.data
  rwa [sortIndex_iHead] at h

/-- The moves put the records in the order of the index table, and leave the numbers. -/
theorem arrange_sorted (hp : rel.Perm (sortIndex td.used)) :
    ∃ v, rdbArrangeData (fun i => td.used.getD i 0) td.used.length
        ⟨fun j => (td.tRec j).rHead, fun i => rel.getD i ⟨0, 0⟩⟩ = (v, true) ∧
      (td.setHeads v.head).usedData = td.relData rel ∧
      ∀ j, (v.head j).rRel = (td.tRec j).rHead.rRel ∧ (v.head j).rAbs = (td.tRec j).rHead.rAbs := by
  obtain ⟨v, hrun, hmoved, hother⟩ := rdbArrangeData_spec (fun j => (td.tRec j).rHead)
    (reorder_place (used_nodup td) hp) fun x hx => (rel_getD hp hx).1
  refine ⟨v, hrun, ?_, fun j => ?_⟩
  · change td.used.map (fun j => (v.head j).data) = td.relData rel
    refine List.ext_getElem (by rw [List.length_map, RTbl.relData, List.length_map, rel_length hp]) ?_
    intro x hx hx'
    rw [List.length_map] at hx
    rw [RTbl.relData, List.length_map] at hx'
    have hrel := (rel_getD hp hx).1
    rw [List.getD_eq_getElem _ _ hx'] at hrel
    have hhead := hmoved x hx
    rw [List.getD_eq_getElem _ _ hx] at hhead
    rw [List.getElem_map, hhead]
    simp only [RTbl.relData, List.getElem_map, hrel]
    rfl
  · by_cases hj : ∀ x < td.used.length, td.used.getD x 0 ≠ j
    · rw [hother j hj]
      exact ⟨rfl, rfl⟩
    · push Not at hj
      obtain ⟨x, hx, rfl⟩ := hj
      rw [hmoved x hx]
      exact ⟨rfl, rfl⟩

theorem sComp_set {iAttr : RAttr} (h : iAttr.sortable = true) (sOrder : ℤ) :
    sComp iAttr sOrder ≠ .unset := by
  unfold sComp
  cases iAttr with
  | bytes => cases h
  | _ => dsimp only; split_ifs <;> decide

theorem sorter_set {keys : List (RItem × RSort)} (hsort : ∀ k ∈ keys, k.1.iAttr.sortable = true) :
    ((keys.map sorterOf).any fun s => s.sComp = .unset) = false := by
  rw [List.any_map, List.any_eq_false]
  intro k hk
  have hset : (sorterOf k).sComp ≠ .unset := sComp_set (hsort k hk) k.2.sOrder
  simpa using hset

variable {qsort : QSort} {absId : ℕ → ℕ} {keys : List (RItem × RSort)}

/-- The used records are put in the order of the sorted index table. -/
theorem sortUsed_runs (hkeys : sortItems td.tScm sort = some keys)
    (hsort : ∀ k ∈ keys, k.1.iAttr.sortable = true) (hq : Sorts qsort) :
    ∃ w, perform (sortUsed qsort absId ud sort td.used) td = .ok (.ok (), w) ∧
      w.usedData = td.relData (td.sortStart qsort (keys.map sorterOf) td.used) ∧
      ∀ j, (w.tRec j).rHead.rRel = (td.tRec j).rHead.rRel ∧
        (w.tRec j).rHead.rAbs = (td.tRec j).rHead.rAbs := by
  have hopen : rdbSortOpen td.tScm sort = some (keys.map sorterOf) := by rw [rdbSortOpen, hkeys]; rfl
  have hp : (td.sortStart qsort (keys.map sorterOf) td.used).Perm (sortIndex td.used) := hq.perm ..
  obtain ⟨v, hrun, hdata, hnumbers⟩ := arrange_sorted hp
  have hsame := markSorted_same absId ud td.used (td.setHeads v.head)
  refine ⟨(td.setHeads v.head).markSorted absId ud td.used, ?_, hsame.usedData.trans hdata, fun j => ?_⟩
  · unfold sortUsed
    rw [perform_bind_of_ok perform_get, hopen]
    dsimp only
    rw [sorter_set hsort, hrun]
    rfl
  · have hj := hsame.records j
    exact ⟨hj.2.1.trans (hnumbers j).1, hj.2.2.1.trans (hnumbers j).2⟩

/-! ### The sort of a table -/

theorem svcSort_accepted (hlock : td.checkLock ud true = false) (husr : td.tUsrCnt ≤ 1) :
    perform (svcSort svcLoad qsort absId ud sort) td =
      perform (if td.collected.used.isEmpty then pure ()
        else sortUsed qsort absId ud sort td.collected.used) td.collected := by
  have hlock' : td.hashClear.checkLock ud true = false := hlock
  have husr' : decide (1 < td.hashClear.tUsrCnt) = false := decide_eq_false (not_lt.mpr husr)
  unfold svcSort throwIf
  rw [perform_bind_of_ok (perform_modify _), perform_bind_of_ok perform_get, hlock', husr']
  exact perform_bind_of_ok (perform_collect td)

/-- A request that is not accepted is answered with an error. -/
theorem svcSort_rejected (qsort : QSort) (absId : ℕ → ℕ) (h : ¬SortAccepted td ud sort) :
    ∃ e u, perform (svcSort svcLoad qsort absId ud sort) td = .ok (.error e, u) ∧ e ≠ .confused := by
  by_cases hlock : td.checkLock ud true = true
  · refine ⟨.tblBusy, td.hashClear, ?_, by decide⟩
    have hlock' : td.hashClear.checkLock ud true = true := hlock
    unfold svcSort throwIf
    rw [perform_bind_of_ok (perform_modify _), perform_bind_of_ok perform_get, hlock']
    rfl
  have hlock : td.checkLock ud true = false := Bool.eq_false_iff.mpr hlock
  by_cases husr : td.tUsrCnt ≤ 1
  · have hnone : sortItems td.tScm sort = none ∧ td.collected.used ≠ [] := by
      simpa [SortAccepted, hlock, husr, and_comm] using h
    have hopen : rdbSortOpen td.collected.tScm sort = none := by
      rw [collected_only]
      exact congrArg (Option.map fun keys => keys.map sorterOf) hnone.1
    refine ⟨.noItem, td.collected, ?_, by decide⟩
    rw [svcSort_accepted hlock husr, if_neg (by simpa using hnone.2)]
    unfold sortUsed
    rw [perform_bind_of_ok perform_get, hopen]
    rfl
  · refine ⟨.tblBusy, td.hashClear, ?_, by decide⟩
    have hlock' : td.hashClear.checkLock ud true = false := hlock
    have husr' : decide (1 < td.hashClear.tUsrCnt) = true := decide_eq_true (not_le.mp husr)
    unfold svcSort throwIf
    rw [perform_bind_of_ok (perform_modify _), perform_bind_of_ok perform_get, hlock', husr']
    rfl

theorem relData_nil (h : td.used = []) (hp : rel.Perm (sortIndex td.used)) :
    td.usedData = td.relData rel := by
  have hnil : td.usedData = [] := by rw [RTbl.usedData, h]; rfl
  have hperm := relData_perm hp
  rw [hnil] at hperm ⊢
  exact hperm.eq_nil.symm

/-- A sort of a table -/
theorem svcSort_runs (absId : ℕ → ℕ) (h : SortAccepted td ud sort)
    (hsort : ∀ keys, sortItems td.tScm sort = some keys → ∀ k ∈ keys, k.1.iAttr.sortable = true)
    (hq : Sorts qsort) :
    ∃ w, perform (svcSort svcLoad qsort absId ud sort) td = .ok (.ok (), w) ∧
      (∀ j, (w.tRec j).rHead.rRel = (td.collected.tRec j).rHead.rRel ∧
        (w.tRec j).rHead.rAbs = (td.collected.tRec j).rHead.rAbs) ∧
      w.usedData.Perm td.collected.usedData ∧
      ∀ keys, sortItems td.tScm sort = some keys → w.usedData = td.collected.relData
        (td.collected.sortStart qsort (keys.map sorterOf) td.collected.used) := by
  obtain ⟨hlock, husr, hkeys⟩ := h
  rw [svcSort_accepted hlock husr]
  have hp (keys : List (RItem × RSort)) :
      (td.collected.sortStart qsort (keys.map sorterOf) td.collected.used).Perm
        (sortIndex td.collected.used) := hq.perm ..
  by_cases hnil : td.collected.used = []
  · refine ⟨td.collected, by rw [hnil]; rfl, fun _ => ⟨rfl, rfl⟩, .refl _, fun keys _ => ?_⟩
    exact relData_nil hnil (hp keys)
  · rw [if_neg (by simpa using hnil)]
    obtain ⟨keys, hsome⟩ := Option.isSome_iff_exists.mp (hkeys.resolve_left hnil)
    have hscm : sortItems td.collected.tScm sort = some keys := by
      rw [collected_only]
      exact hsome
    obtain ⟨w, hrun, hdata, hnumbers⟩ := sortUsed_runs hscm (hsort keys hsome) hq
    refine ⟨w, hrun, hnumbers, ?_, fun keys' hkeys' => ?_⟩
    · rw [hdata]
      exact relData_perm (hp keys)
    · obtain rfl : keys' = keys := Option.some.inj (hkeys'.symm.trans hsome)
      exact hdata

/-- The sorted index table is in the order of the keys whatever the sort does, if the
records are near, and only then. -/
theorem sortStart_iff_near (hsort : ∀ k ∈ keys, k.1.iAttr.sortable = true) :
    (∀ qsort, Sorts qsort → (td.relData (td.sortStart qsort (keys.map sorterOf) td.used)).Pairwise
        fun a b => (keysCompare keys a b).isLE) ↔
      ∀ a ∈ td.usedData, ∀ b ∈ td.usedData, KeysNear keys a b := by
  have hdata : td.usedData = (sortIndex td.used).map fun x => (td.tRec x.iHead).rHead.data := by
    rw [RTbl.usedData]
    conv_lhs => rw [← sortIndex_iHead td.used]
    rw [List.map_map]
    rfl
  rw [hdata, List.forall_mem_map]
  simp only [List.forall_mem_map]
  rw [← sorts_iff_near hsort]
  simp only [RTbl.relData, List.pairwise_map]
  rfl

/-- A table in memory has nothing to load. -/
theorem AllIn.collected (h : AllIn td) : td.collected = td.hashClear := by
  rw [collected_eq]
  suffices hstay : ∀ k i, i + k = td.tRecNum →
      td.hashClear.ensureFrom td.page k i = td.hashClear from hstay td.tRecNum 0 (Nat.zero_add _)
  intro k
  induction k with
  | zero => exact fun _ _ => rfl
  | succ k ih =>
      intro i hi
      have hcache : (td.hashClear.tRec i).rStat.cache = true := (h i (by omega)).1
      have hensure : td.hashClear.ensure td.page i = td.hashClear := if_pos hcache
      calc td.hashClear.ensureFrom td.page (k + 1) i
        _ = (td.hashClear.ensure td.page i).ensureFrom td.page k (i + 1) := rfl
        _ = td.hashClear.ensureFrom td.page k (i + 1) := by rw [hensure]
        _ = td.hashClear := ih (i + 1) (by omega)

theorem AllIn.sortLoads (h : AllIn td) : SortLoads td := by
  have hloaded (j : ℕ) : (td.loaded.tRec j) = td.tRec j := by
    by_cases hj : j < td.tRecNum
    · exact loaded_of_inMemory (h j hj)
    · exact loaded_of_ge (Nat.not_lt.mp hj)
  have htRec : td.loaded.tRec = td.tRec := funext hloaded
  constructor
  · rw [h.collected]
    unfold RTbl.usedData RTbl.used RTbl.usedAt
    rw [htRec]
    exact .refl _
  · intro j _
    rw [h.collected, hloaded]
    exact ⟨rfl, rfl⟩

/-- The used records are a permutation of those before in the order of the keys, each
slot keeps its numbers, and the moves come to an end, if and only if the request is
rejected or its loads lose nothing and of any two used records the first key in which
they differ is no word of 32 bits or one whose values are less than `2 ^ 31` apart. -/
theorem svcSort_sorts_iff
    (hsort : ∀ keys, sortItems td.tScm sort = some keys → ∀ k ∈ keys, k.1.iAttr.sortable = true) :
    SortsTable td ud sort ↔ (SortAccepted td ud sort → SortLoads td ∧ NearRecords td sort) := by
  constructor
  · intro h hacc
    have hsorted (qsort : QSort) (hq : Sorts qsort) : ∃ w, SortedFrom td sort w ∧
        (∀ j, (w.tRec j).rHead.rRel = (td.collected.tRec j).rHead.rRel ∧
          (w.tRec j).rHead.rAbs = (td.collected.tRec j).rHead.rAbs) ∧
        w.usedData.Perm td.collected.usedData ∧
        ∀ keys, sortItems td.tScm sort = some keys → w.usedData = td.collected.relData
          (td.collected.sortStart qsort (keys.map sorterOf) td.collected.used) := by
      obtain ⟨w, hrun, hw⟩ := svcSort_runs (fun _ => 0) hacc hsort hq
      obtain ⟨r, u, hrun', _, hu⟩ := h qsort (fun _ => 0) hq
      obtain ⟨rfl, rfl⟩ := Prod.mk.inj (Except.ok.inj (hrun.symm.trans hrun'))
      exact ⟨w, hu rfl, hw⟩
    constructor
    · obtain ⟨w, hw, hnumbers, hperm, _⟩ := hsorted sortBy sortBy_sorts
      refine ⟨hperm.symm.trans hw.perm, fun j hj => ?_⟩
      have hj := hw.numbers j hj
      rwa [(hnumbers j).1, (hnumbers j).2] at hj
    · intro keys hkeys
      refine (sortStart_iff_near (hsort keys hkeys)).mp fun qsort hq => ?_
      obtain ⟨w, hw, _, _, hdata⟩ := hsorted qsort hq
      rw [← hdata keys hkeys]
      exact hw.ordered keys hkeys
  · intro h qsort absId hq
    by_cases hacc : SortAccepted td ud sort
    · obtain ⟨hloads, hnear⟩ := h hacc
      obtain ⟨w, hrun, hnumbers, hperm, hdata⟩ := svcSort_runs absId hacc hsort hq
      refine ⟨.ok (), w, hrun, by simp, fun _ => ⟨hperm.trans hloads.perm, fun keys hkeys => ?_,
        fun j hj => ?_⟩⟩
      · rw [hdata keys hkeys]
        exact (sortStart_iff_near (hsort keys hkeys)).mpr (hnear keys hkeys) qsort hq
      · rw [(hnumbers j).1, (hnumbers j).2]
        exact hloads.numbers j hj
    · obtain ⟨e, u, hrun, he⟩ := svcSort_rejected qsort absId hacc
      refine ⟨.error e, u, hrun, fun h => he (Except.error.inj h), fun h => ?_⟩
      cases h

/-- A table of two records of one `int` that is opened by one user. -/
def intTable (data1 data2 : List UInt8) : RTbl where
  tRec j :=
    let stat : RStat := { used := true, cache := true }
    { rStat := stat
      rHead := { rRel := j, rAbs := j, rStat := stat, data := if j = 0 then data1 else data2 } }
  tRecNum := 2
  tRecSize := R_HEAD_SIZE + 4
  tRecUsed := 2
  tRecOriUsed := 2
  tUnusedIndex := 0
  tUsrCnt := 1
  tUpdate := false
  tLock := none
  tScm := [⟨"n", .int, 4, 0⟩]
  tHashEqual _ := none
  uAdded _ := 0
  uCursor _ := 0
  file := ⟨fun _ => {}, 2, 2⟩

theorem intTable_allIn (data1 data2 : List UInt8) : AllIn (intTable data1 data2) :=
  fun _ _ => ⟨rfl, rfl⟩

/-- The records 2 and -1 -/
theorem svcSort_sorts_two : SortsTable (intTable [2, 0, 0, 0] [255, 255, 255, 255]) 1 [⟨"n", 1⟩] := by
  refine (svcSort_sorts_iff fun keys hkeys k hk => ?_).mpr fun _ => ⟨(intTable_allIn _ _).sortLoads, ?_⟩
  · obtain rfl := Option.some.inj hkeys
    obtain rfl := List.mem_singleton.mp hk
    rfl
  · intro keys hkeys
    obtain rfl := Option.some.inj hkeys
    rw [(intTable_allIn _ _).collected]
    decide

/-- The difference of the records `2 ^ 31 - 1` and -1 is no `int`. -/
theorem svcSort_not_sorts :
    ¬SortsTable (intTable [255, 255, 255, 127] [255, 255, 255, 255]) 1 [⟨"n", 1⟩] := by
  intro h
  obtain ⟨r, u, hrun, _, hsorted⟩ := h sortBy (fun _ => 0) sortBy_sorts
  have hresult : (perform (svcSort svcLoad sortBy (fun _ => 0) 1 [⟨"n", 1⟩])
      (intTable [255, 255, 255, 127] [255, 255, 255, 255])).map (fun x => (x.1, x.2.usedData)) =
      .ok (.ok (), [[255, 255, 255, 127], [255, 255, 255, 255]]) := by rfl
  rw [hrun] at hresult
  obtain ⟨hr, hu⟩ := Prod.mk.inj (Except.ok.inj hresult)
  have hordered := (hsorted hr).ordered _ rfl
  rw [hu] at hordered
  revert hordered
  decide

end PaxosSolutions.XjPing
