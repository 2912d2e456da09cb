import PaxosSolutions.XjPing.TableLoad

/-!
# Operations on two tables

Each operation reads and writes slots one at a time, and touches the rest of the
table apart from them. So it is enough that these few steps do the same on a
table and on the table it is mapped to.
-/
namespace PaxosSolutions.XjPing
open Lib

/-- A change of a table apart from its slots and its file. -/
structure OffSlots (g : RTbl → RTbl) : Prop where
  tRec : ∀ s, (g s).tRec = s.tRec
  tRecNum : ∀ s, (g s).tRecNum = s.tRecNum
  file : ∀ s, (g s).file = s.file
  apart : ∀ s f, g { s with tRec := f } = { g s with tRec := f }

/-- The steps that operations are made of do the same on a table and on the
table `m` maps it to. `R` is what a slot is once it has been read. -/
structure TblSim (I : RTbl → Prop) (m : RTbl → RTbl) (load load' : Loader) (R : RRec → Prop) : Prop
    where
  slots : ∀ s, m s = { s with tRec := (m s).tRec }
  flags : ∀ {r r' : RRec}, r'.rStat.cache = r.rStat.cache → r'.rStat.swap = r.rStat.swap → R r → R r'
  slot : ∀ i pn, Follows I m (slot load i pn) (slot load' i pn) R
  set : ∀ i r, R r → Follows I m (setSlot i r) (setSlot i r) fun _ => True
  off : ∀ g, OffSlots g → Follows I m (modify g : TblM Unit) (modify g) fun _ => True
  extend : Follows I m extend extend fun x => R x.2
  shrink : ∀ n, Follows I m (shrink n) (shrink n) fun _ => True
  store : ∀ n ud, Follows I m (svcStore 0 n ud) (svcStore 0 n ud) fun _ => True
  cancel : ∀ ud, Follows I m (svcCancel ud) (svcCancel ud) fun _ => True
  rollback : ∀ ud, Follows I m (sqlRollback ud) (sqlRollback ud) fun _ => True

theorem OffSlots.hashAdd (itemp : RItem) (r : RRec) (ind : ℕ) :
    OffSlots fun td => td.hashAdd itemp r ind := by
  constructor
  · intro s
    unfold RTbl.hashAdd
    split
    · split <;> rfl
    · rfl
  · intro s
    unfold RTbl.hashAdd
    split
    · split <;> rfl
    · rfl
  · intro s
    unfold RTbl.hashAdd
    split
    · split <;> rfl
    · rfl
  · intro s f
    unfold RTbl.hashAdd
    dsimp only
    cases s.tHashEqual itemp.iName with
    | none => rfl
    | some pH => dsimp only; split <;> rfl

theorem OffSlots.hashDel (itemp : RItem) (r : RRec) (ind : ℕ) :
    OffSlots fun td => td.hashDel itemp r ind := by
  constructor
  · intro s
    unfold RTbl.hashDel
    split
    · split
      · split <;> rfl
      · rfl
    · rfl
  · intro s
    unfold RTbl.hashDel
    split
    · split
      · split <;> rfl
      · rfl
    · rfl
  · intro s
    unfold RTbl.hashDel
    split
    · split
      · split <;> rfl
      · rfl
    · rfl
  · intro s f
    unfold RTbl.hashDel
    dsimp only
    cases s.tHashEqual itemp.iName with
    | none => rfl
    | some pH =>
        dsimp only
        cases hashDelElm pH (itemp.hashValue r.rHead.data) ind with
        | none => rfl
        | some pH => dsimp only; split <;> rfl

theorem OffSlots.hashClear : OffSlots RTbl.hashClear :=
  ⟨fun _ => rfl, fun _ => rfl, fun _ => rfl, fun _ _ => rfl⟩

theorem OffSlots.comp {g h : RTbl → RTbl} (hg : OffSlots g) (hh : OffSlots h) :
    OffSlots fun td => h (g td) where
  tRec s := (hh.tRec (g s)).trans (hg.tRec s)
  tRecNum s := (hh.tRecNum (g s)).trans (hg.tRecNum s)
  file s := (hh.file (g s)).trans (hg.file s)
  apart s f := by rw [hg.apart, hh.apart]

theorem OffSlots.foldl {ι : Type} {g : RTbl → ι → RTbl} (h : ∀ i, OffSlots fun td => g td i)
    (l : List ι) : OffSlots fun td => l.foldl g td := by
  induction l with
  | nil => exact ⟨fun _ => rfl, fun _ => rfl, fun _ => rfl, fun _ _ => rfl⟩
  | cons i l ih => exact (h i).comp ih

theorem OffSlots.foldlScm {g : RTbl → RItem → RTbl} (h : ∀ ip, OffSlots fun td => g td ip) :
    OffSlots fun td => td.tScm.foldl g td where
  tRec s := (OffSlots.foldl h s.tScm).tRec s
  tRecNum s := (OffSlots.foldl h s.tScm).tRecNum s
  file s := (OffSlots.foldl h s.tScm).file s
  apart s f := (OffSlots.foldl h s.tScm).apart s f

namespace TblSim
variable {I : RTbl → Prop} {m : RTbl → RTbl} {load load' : Loader} {R : RRec → Prop}
  (h : TblSim I m load load' R) {ud : Usr} {mode : RLock}
include h

theorem tRecNum (s : RTbl) : (m s).tRecNum = s.tRecNum := by rw [h.slots]

theorem tRecSize (s : RTbl) : (m s).tRecSize = s.tRecSize := by rw [h.slots]

theorem page (s : RTbl) : (m s).page = s.page := by rw [RTbl.page, RTbl.page, h.tRecSize]

theorem tScm (s : RTbl) : (m s).tScm = s.tScm := by rw [h.slots]

theorem tUnusedIndex (s : RTbl) : (m s).tUnusedIndex = s.tUnusedIndex := by rw [h.slots]

theorem tUsrCnt (s : RTbl) : (m s).tUsrCnt = s.tUsrCnt := by rw [h.slots]

theorem uCursor (s : RTbl) : (m s).uCursor = s.uCursor := by rw [h.slots]

theorem checkLock (s : RTbl) (ud : Usr) (w : Bool) : (m s).checkLock ud w = s.checkLock ud w := by
  rw [RTbl.checkLock, RTbl.checkLock, h.slots]

omit h in
theorem throwIf (b : Bool) (e : RdbErr) :
    Follows I m (XjPing.throwIf b e) (XjPing.throwIf b e) fun _ => b = false := by
  unfold XjPing.throwIf
  cases b
  · exact Follows.pure rfl
  · exact Follows.throw

omit h in
theorem faultIf (b : Bool) (f : TblFault) :
    Follows I m (XjPing.faultIf b f) (XjPing.faultIf b f) fun _ => True := by
  unfold XjPing.faultIf
  cases b
  · exact Follows.pure trivial
  · exact Follows.fault

theorem findUnused (pn k i : ℕ) :
    Follows I m (findUnused load pn k i) (findUnused load' pn k i) fun x => ∀ y, x = some y → R y.2 := by
  induction k generalizing i with
  | zero =>
      refine Follows.pure ?_
      intro y hy
      cases hy
  | succ k ih =>
      refine (h.slot i pn).bind fun r hr => ?_
      by_cases hu : r.rStat.used = true
      · rw [if_pos hu, if_pos hu]
        exact ih (i + 1)
      · rw [if_neg hu, if_neg hu]
        refine Follows.pure ?_
        intro y hy
        cases hy
        exact hr

theorem freeSlot : Follows I m (freeSlot load) (freeSlot load') fun x => R x.2 := by
  refine Follows.getBind fun s => ?_
  rw [h.page, h.tRecNum, h.tUnusedIndex]
  refine (h.findUnused _ _ _).bind fun found hfound => ?_
  cases found with
  | none => exact h.extend
  | some x => exact Follows.pure (hfound x rfl)

theorem insertRec (data : List UInt8) (i : ℕ) {r : RRec} (hr : R r) :
    Follows I m (insertRec ud mode data i r) (insertRec ud mode data i r) fun _ => True := by
  have hr' : R (r.inserted ud mode data i) := by refine h.flags ?_ ?_ hr <;> rfl
  refine (h.set i _ hr').bind fun _ _ => ?_
  refine (h.off _ (OffSlots.foldlScm fun ip => .hashAdd ip _ i)).bind fun _ _ => ?_
  exact h.off _ ⟨fun _ => rfl, fun _ => rfl, fun _ => rfl, fun _ _ => rfl⟩

omit h in
theorem findItems (tScm : List RItem) (items : List String) :
    Follows I m (findItems tScm items) (findItems tScm items) fun _ => True := by
  refine Follows.mapM fun name _ => ?_
  cases tScm.find? fun ip => ip.iName = name with
  | none =>
      cases tScm.isEmpty with
      | true => exact Follows.throw
      | false => exact Follows.fault
  | some ip => exact Follows.pure trivial

theorem checkExist (index : List RItem) (same : List UInt8 → Bool) :
    Follows I m (checkExist load index same) (checkExist load' index same) fun _ => True := by
  refine Follows.getBind fun s => ?_
  rw [h.page, h.tRecNum]
  refine Follows.forM fun i _ => ?_
  refine (h.slot i _).bind fun r _ => ?_
  exact (TblSim.throwIf _ _).weaken fun _ _ => trivial

theorem insertOne (rp : List UInt8) :
    Follows I m (insertOne load ud mode rp) (insertOne load' ud mode rp) fun _ => True :=
  h.freeSlot.bind fun x hx => h.insertRec rp x.1 hx

theorem svcInsert (items : List String) (recs : List (List UInt8)) :
    Follows I m (svcInsert load ud items mode recs) (svcInsert load' ud items mode recs)
      fun _ => True := by
  refine Follows.getBind fun s => ?_
  rw [h.checkLock, h.tScm]
  refine (TblSim.throwIf _ _).bind fun _ _ => ?_
  refine (TblSim.findItems _ _).bind fun index _ => ?_
  refine (h.checkExist _ _).bind fun _ _ => ?_
  exact Follows.forM fun rp _ => h.insertOne rp

theorem prcInsert (items : List String) (rp : List UInt8) :
    Follows I m (prcInsert load ud items mode rp) (prcInsert load' ud items mode rp)
      fun _ => True := by
  refine Follows.getBind fun s => ?_
  rw [h.checkLock, h.tScm]
  refine (TblSim.throwIf _ _).bind fun _ _ => ?_
  refine (TblSim.findItems _ _).bind fun index _ => ?_
  refine (h.checkExist _ _).bind fun _ _ => ?_
  exact h.insertOne rp

theorem deleteRec (unlink : List UInt8 → Bool) (i : ℕ) {r : RRec} (hr : R r) :
    Follows I m (deleteRec unlink ud i r) (deleteRec unlink ud i r) fun _ => True := by
  refine Follows.getBind fun s => ?_
  rw [h.tScm]
  have hcols : Follows I m (deleteCols unlink i r s.tScm) (deleteCols unlink i r s.tScm)
      fun _ => True := by
    refine Follows.forM fun ip _ => ?_
    refine (h.off _ (.hashDel ip r i)).bind fun _ _ => ?_
    exact (TblSim.throwIf _ _).weaken fun _ _ => trivial
  have hr' : R (r.deleted ud) := by refine h.flags ?_ ?_ hr <;> rfl
  refine hcols.bind fun _ _ => ?_
  refine (h.set i _ hr').bind fun _ _ => ?_
  exact h.off _ ⟨fun _ => rfl, fun _ => rfl, fun _ => rfl, fun _ _ => rfl⟩

theorem svcDelete (unlink : List UInt8 → Bool) (recs : List ℤ) :
    Follows I m (svcDelete load unlink ud recs) (svcDelete load' unlink ud recs) fun _ => True := by
  refine Follows.getBind fun s => ?_
  rw [h.checkLock]
  refine (TblSim.throwIf _ _).bind fun _ _ => ?_
  refine Follows.forM fun abs _ => ?_
  refine Follows.getBind fun s => ?_
  rw [h.page, h.tRecNum]
  refine (TblSim.throwIf _ _).bind fun _ _ => ?_
  refine (h.slot _ _).bind fun r hr => ?_
  refine (TblSim.throwIf _ _).bind fun _ _ => ?_
  refine (TblSim.throwIf _ _).bind fun _ _ => ?_
  exact h.deleteRec unlink _ hr

theorem whereLoop (wp : RHead → Bool) :
    Follows I m (whereLoop load wp) (whereLoop load' wp) fun _ => True := by
  refine Follows.getBind fun s => ?_
  rw [h.tRecSize, h.tRecNum]
  refine (Follows.mapM fun i _ => ?_).bind fun found _ => Follows.pure trivial
  exact (h.slot i _).bind fun r _ => Follows.pure trivial

theorem prcDelete (unlink : List UInt8 → Bool) (wp : RHead → Bool) :
    Follows I m (prcDelete load unlink ud wp) (prcDelete load' unlink ud wp) fun _ => True := by
  refine Follows.getBind fun s => ?_
  rw [h.checkLock]
  refine (TblSim.throwIf _ _).bind fun _ _ => ?_
  refine (h.whereLoop wp).bind fun result _ => ?_
  refine Follows.forM fun i _ => ?_
  refine Follows.getBind fun s => ?_
  rw [h.page]
  refine (h.slot i _).bind fun r hr => ?_
  by_cases hu : r.rStat.used = true
  · simp only [if_pos hu]
    exact (TblSim.throwIf _ _).bind fun _ _ => h.deleteRec unlink i hr
  · simp only [if_neg hu]
    exact Follows.pure trivial

theorem svcUpdate (recs : List (ℤ × List UInt8)) :
    Follows I m (svcUpdate load ud mode recs) (svcUpdate load' ud mode recs) fun _ => True := by
  refine (h.off _ .hashClear).bind fun _ _ => ?_
  refine Follows.getBind fun s => ?_
  rw [h.checkLock, h.page]
  refine (TblSim.throwIf _ _).bind fun _ _ => ?_
  have hcheck : Follows I m (recs.forM fun rp => updateCheck load ud rp.1)
      (recs.forM fun rp => updateCheck load' ud rp.1) fun _ => True := by
    refine Follows.forM fun rp _ => ?_
    refine Follows.getBind fun s => ?_
    rw [h.page, h.tRecNum]
    refine (TblSim.throwIf _ _).bind fun _ _ => ?_
    refine (h.slot _ _).bind fun r _ => ?_
    refine (TblSim.throwIf _ _).bind fun _ _ => ?_
    exact (TblSim.throwIf _ _).weaken fun _ _ => trivial
  refine hcheck.bind fun _ _ => ?_
  refine Follows.forM fun rp _ => ?_
  refine (h.slot _ _).bind fun r hr => ?_
  refine h.set _ _ ?_
  refine h.flags ?_ ?_ hr <;> rfl

theorem setItems (i : ℕ) (sets : List (RItem × (List UInt8 → Option (List UInt8)))) {r : RRec}
    (hr : R r) : Follows I m (setItems i sets r) (setItems i sets r) R := by
  induction sets generalizing r with
  | nil => exact Follows.pure hr
  | cons x sets ih =>
      refine (h.off _ (.hashDel x.1 r i)).bind fun _ _ => ?_
      cases x.2 r.rHead.data with
      | none => exact (h.off _ (.hashAdd x.1 r i)).bind fun _ _ => Follows.throw
      | some data =>
          have hr' : R (r.setData data) := by refine h.flags ?_ ?_ hr <;> rfl
          refine (h.set i _ hr').bind fun _ _ => ?_
          exact (h.off _ (.hashAdd x.1 _ i)).bind fun _ _ => ih hr'

theorem prcUpdate (sets : List (RItem × (List UInt8 → Option (List UInt8)))) (wp : RHead → Bool) :
    Follows I m (prcUpdate load ud mode sets wp) (prcUpdate load' ud mode sets wp)
      fun _ => True := by
  refine Follows.getBind fun s => ?_
  rw [h.checkLock]
  refine (TblSim.throwIf _ _).bind fun _ _ => ?_
  refine (h.whereLoop wp).bind fun result _ => ?_
  refine Follows.forM fun i _ => ?_
  refine Follows.getBind fun s => ?_
  rw [h.page]
  refine (h.slot i _).bind fun r hr => ?_
  by_cases hu : r.rStat.used = true
  · simp only [if_pos hu]
    refine (TblSim.throwIf _ _).bind fun _ _ => ?_
    refine (h.setItems i sets hr).bind fun r hr => ?_
    refine h.set i _ ?_
    refine h.flags ?_ ?_ hr <;> rfl
  · simp only [if_neg hu]
    exact Follows.pure trivial

theorem compressLoop (pn k i numn : ℕ) :
    Follows I m (compressLoop load pn k i numn) (compressLoop load' pn k i numn) fun _ => True := by
  induction k generalizing i numn with
  | zero => exact Follows.pure trivial
  | succ k ih =>
      refine (h.slot i pn).bind fun r hr => ?_
      have hmove : Follows I m (moveRec i numn r) (moveRec i numn r) fun _ => True := by
        unfold moveRec
        by_cases hi : i = numn
        · rw [if_pos hi]
          exact Follows.pure trivial
        · rw [if_neg hi]
          refine (h.set numn _ ?_).bind fun _ _ => h.set i _ ?_
          · refine h.flags ?_ ?_ hr <;> rfl
          · refine h.flags ?_ ?_ hr <;> rfl
      by_cases hu : r.rStat.used = true
      · rw [if_pos hu, if_pos hu]
        exact hmove.bind fun _ _ => ih (i + 1) (numn + 1)
      · rw [if_neg hu, if_neg hu]
        exact ih (i + 1) numn

theorem svcCompress : Follows I m (svcCompress load) (svcCompress load') fun _ => True := by
  refine (h.off _ .hashClear).bind fun _ _ => ?_
  refine Follows.getBind fun s => ?_
  rw [h.page, h.tRecNum, h.tUsrCnt]
  refine (TblSim.throwIf _ _).bind fun _ _ => ?_
  refine (TblSim.faultIf _ _).bind fun _ _ => ?_
  exact (h.compressLoop _ _ _ _).bind fun numn _ => h.shrink numn

theorem lockFound (i : ℕ) {r : RRec} (hr : R r) :
    Follows I m (lockFound ud mode i r) (lockFound ud mode i r) fun _ => True := by
  unfold XjPing.lockFound
  have hr' : R { r with rStat := r.rStat.setLock mode, rAccess := some ud } := by
    refine h.flags ?_ ?_ hr <;> rfl
  split
  · split
    · exact Follows.pure trivial
    · exact (h.set i _ hr').bind fun _ _ => Follows.pure trivial
  · split
    · exact Follows.pure trivial
    · exact Follows.pure trivial

theorem findLoop (check : RHead → Option Bool) (num pn k : ℕ) (got : List RHead) :
    Follows I m (findLoop load ud mode check num pn k got)
      (findLoop load' ud mode check num pn k got) fun _ => True := by
  induction k generalizing got with
  | zero => exact Follows.pure trivial
  | succ k ih =>
      have hadv : Follows I m (advance ud) (advance ud) fun _ => True :=
        h.off _ ⟨fun _ => rfl, fun _ => rfl, fun _ => rfl, fun _ _ => rfl⟩
      refine Follows.getBind fun s => ?_
      rw [h.uCursor]
      refine (h.slot _ pn).bind fun r hr => ?_
      by_cases hu : r.rStat.used = true
      · rw [if_pos hu, if_pos hu]
        cases check r.rHead with
        | none => exact Follows.pure trivial
        | some b =>
            cases b with
            | false => exact hadv.bind fun _ _ => ih got
            | true =>
                refine (h.lockFound _ hr).bind fun found _ => ?_
                cases found with
                | none => exact Follows.pure trivial
                | some r' =>
                    refine hadv.bind fun _ _ => ?_
                    dsimp only
                    split
                    · exact Follows.pure trivial
                    · exact ih _
      · rw [if_neg hu, if_neg hu]
        exact hadv.bind fun _ _ => ih got

theorem svcFind (check : RHead → Option Bool) (num : ℕ) :
    Follows I m (svcFind load ud mode check num) (svcFind load' ud mode check num)
      fun _ => True := by
  refine Follows.getBind fun s => ?_
  rw [h.checkLock, h.tRecSize, h.tRecNum, h.uCursor]
  exact (TblSim.throwIf _ _).bind fun _ _ => h.findLoop check num _ _ _

/-- Every operation but a swap-out does the same on both tables. -/
theorem tblProg (op : TblOp) (hop : op ≠ .swapOut) :
    Follows I m (tblProg load op) (tblProg load' op) fun _ => True := by
  cases op with
  | find ud mode check num => exact h.svcFind check num
  | rewind ud =>
      refine Follows.bind (h.off _ ?_) fun _ _ => Follows.pure trivial
      exact ⟨fun _ => rfl, fun _ => rfl, fun _ => rfl, fun _ _ => rfl⟩
  | insert ud items mode recs =>
      exact (h.svcInsert items recs).bind fun _ _ => Follows.pure trivial
  | insertSql ud items mode rp =>
      exact (h.prcInsert items rp).bind fun _ _ => Follows.pure trivial
  | delete unlink ud recs => exact (h.svcDelete unlink recs).bind fun _ _ => Follows.pure trivial
  | deleteSql unlink ud wp => exact (h.prcDelete unlink wp).bind fun _ _ => Follows.pure trivial
  | update ud mode recs => exact (h.svcUpdate recs).bind fun _ _ => Follows.pure trivial
  | updateSql ud mode sets wp => exact (h.prcUpdate sets wp).bind fun _ _ => Follows.pure trivial
  | cancel ud => exact (h.cancel ud).bind fun _ _ => Follows.pure trivial
  | rollback ud => exact (h.rollback ud).bind fun _ _ => Follows.pure trivial
  | store ud =>
      refine Follows.getBind fun s => ?_
      rw [h.tRecNum]
      exact (h.store _ _).bind fun _ _ => Follows.pure trivial
  | compress => exact h.svcCompress.bind fun _ _ => Follows.pure trivial
  | swapOut => exact absurd rfl hop
  | hold lock =>
      refine Follows.bind (h.off _ ?_) fun _ _ => Follows.pure trivial
      exact ⟨fun _ => rfl, fun _ => rfl, fun _ => rfl, fun _ _ => rfl⟩
  | users cnt =>
      refine Follows.bind (h.off _ ?_) fun _ _ => Follows.pure trivial
      exact ⟨fun _ => rfl, fun _ => rfl, fun _ => rfl, fun _ _ => rfl⟩

end TblSim
end PaxosSolutions.XjPing
