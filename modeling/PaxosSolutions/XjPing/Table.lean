import PaxosSolutions.Lib.Prog
import PaxosSolutions.XjPing.EqualHash
import Mathlib.Data.Int.Notation

/-!
# Tables of the record service

A table has one slot for each record of its file. A record is read from the file
when an operation first needs it, with the records behind it, and is written
back when the user who changed it commits. The number of used records and the
place where a free slot may be found are kept with the table, the number of
records a user has added with the user. The buffers of the records are one
piece of memory, which can be swapped out as a whole.
-/
namespace PaxosSolutions.XjPing
open Lib

abbrev Usr := ℕ

/-- `r_stat`, without `R_REC_FREE` and `R_REC_BUF`: the buffer is one piece. -/
structure RStat where
  insert : Bool := false
  update : Bool := false
  used : Bool := false
  busy : Bool := false
  exclusive : Bool := false
  share : Bool := false
  cache : Bool := false
  swap : Bool := false
deriving DecidableEq, Repr

/-- `R_DIRTY` -/
def RStat.dirty (r : RStat) : Bool := r.insert || r.update

/-- `R_LOCK` -/
def RStat.locked (r : RStat) : Bool := r.exclusive || r.share

/-- What `R_REC_MASK` leaves. -/
def RStat.recMask (r : RStat) : RStat := { cache := r.cache, swap := r.swap }

/-- `r_head_t` with the bytes behind it. Checksums are off, so `r_Cksum64` is 0. -/
structure RHead where
  rRel : ℕ := 0
  rAbs : ℕ := 0
  rStat : RStat := {}
  data : List UInt8 := []
deriving DecidableEq, Repr

/-- `r_rec_t` with its buffer. The users who wait for the record are a list. -/
structure RRec where
  rStat : RStat := {}
  rHead : RHead := {}
  rAccess : Option Usr := none
  rWait : List Usr := []
deriving DecidableEq, Repr

/-- The file of a table. Past its end the records read as zeros. -/
structure TblFile where
  recs : ℕ → RHead
  recNum : ℕ
  recUsed : ℤ

/-- `r_tbl_t`. There are no slots from `tRecNum` on. `u_added` and `u_cursor` of
the users are kept with the table they have open. -/
structure RTbl where
  tRec : ℕ → RRec
  tRecNum : ℕ
  tRecSize : ℕ
  tRecUsed : ℤ
  tRecOriUsed : ℤ
  tUnusedIndex : ℕ
  tUsrCnt : ℕ
  tUpdate : Bool
  tLock : Option (Usr × Bool)
  tScm : List RItem
  tHashEqual : String → Option HHead
  uAdded : Usr → ℤ
  uCursor : Usr → ℕ
  file : TblFile

/-- The errors an operation answers with. -/
inductive RdbErr where
  | tblBusy | recBusy | exist | inval | noexist | search | fileDelete | noItem | confused
deriving DecidableEq, Repr

/-- There is no slot where one is written, a record is taken from a buffer that
is swapped out, a column is looked up past the schema, a comparison is called that is
not set. A load that would lose records is a fault of the checked load only. -/
inductive TblFault where
  | noSlot | swapped | noItem | noComp | lost
deriving DecidableEq, Repr

abbrev TblM := Prog RTbl TblFault RdbErr

def R_PAGE_SIZE : ℕ := 1024 * 1024 * 2

/-- `sizeof(r_head_t)` -/
def R_HEAD_SIZE : ℕ := 32

def throwIf (b : Bool) (e : RdbErr) : TblM Unit := if b then throw e else pure ()

def faultIf (b : Bool) (f : TblFault) : TblM Unit := if b then fault f else pure ()

/-! ### Load and store -/

/-- A slot of a swapped-out buffer that is read back. -/
def RRec.swapIn (r : RRec) : RRec :=
  if r.rStat.swap then { r with rStat := { r.rStat with swap := false, cache := true } } else r

/-- A slot whose record is read from the file. -/
def RRec.load (r : RRec) (rp : RHead) : RRec where
  rStat := { r.rStat with
    used := rp.rStat.used, busy := false, insert := false, update := false, cache := true }
  rHead := rp
  rAccess := r.rAccess
  rWait := r.rWait

namespace RTbl

/-- The slots of a range, as far as there are any. -/
def range (td : RTbl) (s l : ℕ) : List ℕ := List.range' s (min (s + l) td.tRecNum - s)

/-- `xj_swap_in_td`. The buffer is one piece, so all of it is read back. -/
def swapIn (td : RTbl) : RTbl :=
  { td with tRec := fun j => if j < td.tRecNum then (td.tRec j).swapIn else td.tRec j }

/-- The swap-in at the start of `svc_load`. -/
def loadSwap (td : RTbl) (s l : ℕ) : RTbl :=
  if (td.range s l).any fun i => (td.tRec i).rStat.swap then td.swapIn else td

/-- Nothing of a range is read if all of it is cached and not dirty. -/
def fresh (td : RTbl) (s l : ℕ) : Bool :=
  (td.range s l).all fun i => (td.tRec i).rStat.cache && !(td.tRec i).rStat.dirty

def loadRange (td : RTbl) (s l : ℕ) : RTbl :=
  { td with tRec := fun j =>
      if j ∈ td.range s l then (td.tRec j).load (td.file.recs j) else td.tRec j }

/-- `svc_load` -/
def svcLoad (td : RTbl) (s l : ℕ) : RTbl :=
  let td := td.loadSwap s l
  if td.fresh s l then td else td.loadRange s l

/-- The slots that `svc_store` writes for `ud`, or for nobody. -/
def stores (td : RTbl) (ud : Option Usr) (i : ℕ) : Bool :=
  (td.tRec i).rStat.dirty &&
    (ud.isNone || (td.tRec i).rAccess.isNone || ud = (td.tRec i).rAccess)

/-- The first `i` of the next `k` that is past `e` or meets `p`. -/
def scan (p : ℕ → Bool) (e : ℕ) : ℕ → ℕ → ℕ
  | 0, i => i
  | k + 1, i => if i < e && !p i then scan p e k (i + 1) else i

/-- One `TBL_STORE`, of the slots from `s` to before `e`. -/
def storeSeg (td : RTbl) (s e : ℕ) : RTbl :=
  { td with
    tRec := fun j =>
      if s ≤ j ∧ j < e then
        { td.tRec j with
          rStat := { (td.tRec j).rStat with busy := false, insert := false, update := false } }
      else td.tRec j
    file := { td.file with
      recs := fun j => if s ≤ j ∧ j < e then (td.tRec j).rHead else td.file.recs j } }

/-- The loop of `svc_store` over runs of slots. -/
def storeLoop (ud : Option Usr) (e : ℕ) : ℕ → ℕ → RTbl → RTbl
  | 0, _, td => td
  | k + 1, i, td =>
      let s := scan (td.stores ud) e (e - i) i
      if s < e then
        let n := scan (fun j => !td.stores ud j) e (e - s) s
        storeLoop ud e k n (td.storeSeg s n)
      else td

/-- `my_head_update` -/
def headUpdate (td : RTbl) : RTbl :=
  { td with file := { td.file with recNum := td.tRecNum, recUsed := td.tRecOriUsed } }

/-- The end of `svc_store` for a user. -/
def storeAdded (td : RTbl) : Option Usr → RTbl
  | none => td
  | some ud =>
      headUpdate { td with
        tRecOriUsed := td.tRecOriUsed + td.uAdded ud
        uAdded := Function.update td.uAdded ud 0 }

end RTbl

/-- `svc_store`. The buffer of a swapped-out record is not there. -/
def svcStore (s l : ℕ) (ud : Option Usr) : TblM Unit := do
  let td ← get
  faultIf ((List.range' s l).any fun i => td.stores ud i && (td.tRec i).rStat.swap) .swapped
  modify fun td => (td.storeLoop ud (s + l) (l + 1) s).storeAdded ud

/-- `svc_switch`. The first `store` slots are copied with their records. -/
def svcSwitch (store new : ℕ) : TblM Unit := do
  let td ← get
  faultIf ((List.range store).any fun i => (td.tRec i).rStat.swap) .swapped
  modify fun td => RTbl.headUpdate { td with
    tRec := fun i =>
      if i < store then td.tRec i
      else if i < new then { rHead := { data := List.replicate (td.tRecSize - R_HEAD_SIZE) 0 } }
      else {}
    tRecNum := new }

/-! ### One slot -/

def RTbl.setRec (td : RTbl) (i : ℕ) (r : RRec) : RTbl :=
  { td with tRec := Function.update td.tRec i r }

/-- What calls `svc_load` for a record that is not cached. -/
abbrev Loader := ℕ → ℕ → TblM Unit

def svcLoad : Loader := fun s l => modify fun td => td.svcLoad s l

def cached (load : Loader) (i l : ℕ) : TblM Unit := do
  let td ← get
  if (td.tRec i).rStat.cache then pure () else load i l

/-- A slot, once its record is cached. -/
def slot (load : Loader) (i l : ℕ) : TblM RRec := do
  cached load i l
  let td ← get
  return td.tRec i

def setSlot (i : ℕ) (r : RRec) : TblM Unit := modify fun td => td.setRec i r

/-- How many records are loaded at once. -/
def RTbl.page (td : RTbl) : ℕ := R_PAGE_SIZE / td.tRecSize + 1

/-- `check_lock` -/
def RTbl.checkLock (td : RTbl) (ud : Usr) (write : Bool) : Bool :=
  td.tLock.any fun l => l.1 ≠ ud && (l.2 || write)

/-- The lock bits of a mode. -/
structure RLock where
  exclusive : Bool := false
  share : Bool := false
deriving DecidableEq, Repr

def RLock.on (mode : RLock) : Bool := mode.exclusive || mode.share

def RStat.setLock (r : RStat) (mode : RLock) : RStat :=
  { r with exclusive := mode.exclusive, share := mode.share }

/-- `hash_add` of a cached record. -/
def RTbl.hashAdd (td : RTbl) (itemp : RItem) (r : RRec) (ind : ℕ) : RTbl :=
  match td.tHashEqual itemp.iName with
  | some pH =>
      if r.rStat.used then
        let pH := hashPutElm pH (itemp.hashValue r.rHead.data) ind
        { td with tHashEqual := Function.update td.tHashEqual itemp.iName (some pH) }
      else td
  | none => td

/-- `hash_del` of a cached record. -/
def RTbl.hashDel (td : RTbl) (itemp : RItem) (r : RRec) (ind : ℕ) : RTbl :=
  match td.tHashEqual itemp.iName with
  | some pH =>
      match hashDelElm pH (itemp.hashValue r.rHead.data) ind with
      | some pH =>
          if r.rStat.used then
            { td with tHashEqual := Function.update td.tHashEqual itemp.iName (some pH) }
          else td
      | none => td
  | none => td

def RTbl.hashClear (td : RTbl) : RTbl := { td with tHashEqual := fun _ => none }

/-! ### Insert -/

/-- The search from `t_unused_index` on, over the next `k` slots. -/
def findUnused (load : Loader) (pn : ℕ) : ℕ → ℕ → TblM (Option (ℕ × RRec))
  | 0, _ => return none
  | k + 1, i => do
      let r ← slot load i pn
      if r.rStat.used then findUnused load pn k (i + 1) else return some (i, r)

/-- The new slots of a table need not be loaded. -/
def RTbl.cacheFrom (td : RTbl) (num : ℕ) : RTbl :=
  { td with tRec := fun i =>
      if num ≤ i ∧ i < num * 2 then
        { td.tRec i with rStat := { (td.tRec i).rStat with cache := true } }
      else td.tRec i }

/-- The table is made twice as large, and its first new slot is taken. -/
def extend : TblM (ℕ × RRec) := do
  let td ← get
  let num := td.tRecNum
  svcSwitch num (num * 2)
  modify fun td => td.cacheFrom num
  faultIf (num = 0) .noSlot
  let td ← get
  return (num, td.tRec num)

/-- The slot of a new record. -/
def freeSlot (load : Loader) : TblM (ℕ × RRec) := do
  let td ← get
  let found ← findUnused load td.page (td.tRecNum - td.tUnusedIndex) td.tUnusedIndex
  match found with
  | some x => return x
  | none => extend

/-- The slot `i` after an insert. -/
def RRec.inserted (r : RRec) (ud : Usr) (mode : RLock) (data : List UInt8) (i : ℕ) : RRec :=
  let stat := { r.rStat.recMask with insert := true, used := true }
  { r with
    rHead := { rRel := i, rAbs := i, rStat := stat, data := data }
    rStat := { stat with busy := true }.setLock mode
    rAccess := some ud }

/-- From the label `find` on. -/
def insertRec (ud : Usr) (mode : RLock) (data : List UInt8) (i : ℕ) (r : RRec) : TblM Unit := do
  let r := r.inserted ud mode data i
  setSlot i r
  modify fun td => td.tScm.foldl (fun td ip => td.hashAdd ip r i) td
  modify fun td => { td with
    tRecUsed := td.tRecUsed + 1
    uAdded := Function.update td.uAdded ud (td.uAdded ud + 1)
    tUnusedIndex := i + 1
    tUpdate := true }

/-- The columns of a check for records that exist. A name that is not in the
schema is looked for without end, unless the schema has no columns. -/
def findItems (tScm : List RItem) (items : List String) : TblM (List RItem) :=
  items.mapM fun name =>
    match tScm.find? fun ip => ip.iName = name with
    | some ip => pure ip
    | none => if tScm.isEmpty then throw .noItem else fault .noItem

/-- The loop that looks for a record that exists, if there are columns to check. -/
def checkExist (load : Loader) (index : List RItem) (same : List UInt8 → Bool) : TblM Unit := do
  let td ← get
  let num := if index.isEmpty then 0 else td.tRecNum
  (List.range num).forM fun i => do
    let r ← slot load i td.page
    throwIf (r.rStat.used && same r.rHead.data) .exist

def insertOne (load : Loader) (ud : Usr) (mode : RLock) (rp : List UInt8) : TblM Unit := do
  let x ← freeSlot load
  insertRec ud mode rp x.1 x.2

/-- `svc_insert`. A record exists if it has all columns of the check. -/
def svcInsert (load : Loader) (ud : Usr) (items : List String) (mode : RLock)
    (recs : List (List UInt8)) : TblM Unit := do
  let td ← get
  throwIf (td.checkLock ud true) .tblBusy
  let index ← findItems td.tScm items
  checkExist load index fun data => recs.any fun rp => index.all fun ip => ip.bytes rp = ip.bytes data
  recs.forM (insertOne load ud mode)

/-- `prc_insert`. A record exists if it has one column of the check. -/
def prcInsert (load : Loader) (ud : Usr) (items : List String) (mode : RLock)
    (rp : List UInt8) : TblM Unit := do
  let td ← get
  throwIf (td.checkLock ud true) .tblBusy
  let index ← findItems td.tScm items
  checkExist load index fun data => index.any fun ip => ip.bytes rp = ip.bytes data
  insertOne load ud mode rp

/-! ### Delete -/

/-- The columns of a record that is deleted. A column of bytes has the path of a
file behind its first four bytes. -/
def deleteCols (unlink : List UInt8 → Bool) (i : ℕ) (r : RRec) (items : List RItem) : TblM Unit :=
  items.forM fun ip => do
    modify fun td => td.hashDel ip r i
    let path := (r.rHead.data.drop (ip.iOff + 4)).take ip.iLen
    throwIf (ip.iAttr = .bytes && !unlink path) .fileDelete

/-- The slot after a delete. `svc_rec_post` answers those who wait for it. -/
def RRec.deleted (r : RRec) (ud : Usr) : RRec where
  rStat := { r.rStat with
    used := false, update := true, busy := true, exclusive := false, share := false }
  rHead := { r.rHead with rStat := {} }
  rAccess := some ud
  rWait := if r.rStat.locked then [] else r.rWait

def deleteRec (unlink : List UInt8 → Bool) (ud : Usr) (i : ℕ) (r : RRec) : TblM Unit := do
  let td ← get
  deleteCols unlink i r td.tScm
  setSlot i (r.deleted ud)
  modify fun td => { td with
    tRecUsed := td.tRecUsed - 1
    uAdded := Function.update td.uAdded ud (td.uAdded ud - 1)
    tUnusedIndex := if i < td.tUnusedIndex then i else td.tUnusedIndex
    tUpdate := true }

/-- A record is locked by another user. -/
def RRec.busyFor (r : RRec) (ud : Usr) : Bool := r.rStat.locked && r.rAccess ≠ some ud

/-- `svc_delete` -/
def svcDelete (load : Loader) (unlink : List UInt8 → Bool) (ud : Usr) (recs : List ℤ) :
    TblM Unit := do
  let td ← get
  throwIf (td.checkLock ud true) .tblBusy
  recs.forM fun abs => do
    let td ← get
    throwIf (abs < 0 || td.tRecNum ≤ abs) .inval
    let r ← slot load abs.toNat td.page
    throwIf (!r.rStat.used) .noexist
    throwIf (r.busyFor ud) .recBusy
    deleteRec unlink ud abs.toNat r

/-- The slots that `xj_join_by_hash` gives for one table: the used records its
`WHERE` accepts. -/
def whereLoop (load : Loader) (wp : RHead → Bool) : TblM (List ℕ) := do
  let td ← get
  let found ← (List.range td.tRecNum).mapM fun r => do
    let x ← slot load r (R_PAGE_SIZE / td.tRecSize)
    return if x.rStat.used && wp x.rHead then [r] else []
  return found.flatten

/-- What `prc_delete` does with one record of the result. -/
def prcDeleteRec (load : Loader) (unlink : List UInt8 → Bool) (ud : Usr) (i : ℕ) : TblM Unit := do
  let td ← get
  let r ← slot load i td.page
  if r.rStat.used then do
    throwIf (r.busyFor ud) .recBusy
    deleteRec unlink ud i r
  else pure ()

/-- `prc_delete` -/
def prcDelete (load : Loader) (unlink : List UInt8 → Bool) (ud : Usr) (wp : RHead → Bool) :
    TblM Unit := do
  let td ← get
  throwIf (td.checkLock ud true) .tblBusy
  let result ← whereLoop load wp
  result.forM (prcDeleteRec load unlink ud)

/-! ### Update -/

/-- The slot after an update. A lock that is not asked for ends. -/
def RRec.updated (r : RRec) (ud : Usr) (mode : RLock) : RRec where
  rStat := { r.rStat with update := true, busy := true }.setLock mode
  rHead := { r.rHead with rStat := { r.rHead.rStat with update := true } }
  rAccess := some ud
  rWait := if !mode.on && r.rStat.locked then [] else r.rWait

def RRec.setData (r : RRec) (data : List UInt8) : RRec :=
  { r with rHead := { r.rHead with data := data } }

/-- The checks of `svc_update`. The flags of a slot past the table are read
before the range is checked, but no record is loaded for it. -/
def updateCheck (load : Loader) (ud : Usr) (abs : ℤ) : TblM Unit := do
  let td ← get
  throwIf (abs < 0 || td.tRecNum ≤ abs) .inval
  let r ← slot load abs.toNat td.page
  throwIf (!r.rStat.used) .noexist
  throwIf (r.busyFor ud) .recBusy

/-- `svc_update`. Its second loop finds the records in the cache. -/
def svcUpdate (load : Loader) (ud : Usr) (mode : RLock) (recs : List (ℤ × List UInt8)) :
    TblM Unit := do
  modify RTbl.hashClear
  let td ← get
  throwIf (td.checkLock ud true) .tblBusy
  recs.forM fun rp => updateCheck load ud rp.1
  recs.forM fun rp => do
    let r ← slot load rp.1.toNat td.page
    setSlot rp.1.toNat ((r.setData rp.2).updated ud mode)

/-- The `SET` list of `prc_update` on one record. `sql_set_item` gives the new
bytes of the record. -/
def setItems (i : ℕ) : List (RItem × (List UInt8 → Option (List UInt8))) → RRec → TblM RRec
  | [], r => return r
  | (ip, set) :: sets, r => do
      modify fun td => td.hashDel ip r i
      match set r.rHead.data with
      | none => do
          modify fun td => td.hashAdd ip r i
          throw .inval
      | some data => do
          let r := r.setData data
          setSlot i r
          modify fun td => td.hashAdd ip r i
          setItems i sets r

/-- What `prc_update` does with one record of the result. -/
def prcUpdateRec (load : Loader) (ud : Usr) (mode : RLock)
    (sets : List (RItem × (List UInt8 → Option (List UInt8)))) (i : ℕ) : TblM Unit := do
  let td ← get
  let r ← slot load i td.page
  if r.rStat.used then do
    throwIf (r.busyFor ud) .recBusy
    let r ← setItems i sets r
    setSlot i (r.updated ud mode)
  else pure ()

/-- `prc_update` -/
def prcUpdate (load : Loader) (ud : Usr) (mode : RLock)
    (sets : List (RItem × (List UInt8 → Option (List UInt8)))) (wp : RHead → Bool) :
    TblM Unit := do
  let td ← get
  throwIf (td.checkLock ud true) .tblBusy
  let result ← whereLoop load wp
  result.forM (prcUpdateRec load ud mode sets)

/-! ### Cancel, rollback and compress -/

/-- `svc_cancel` on one slot. -/
def RTbl.cancelSlot (td : RTbl) (ud : Usr) (i : ℕ) : RTbl :=
  let r := td.tRec i
  if r.rAccess = some ud ∧ r.rStat.busy then
    let td := td.svcLoad i 1
    let used := (td.tRec i).rStat.used
    let inc : ℤ := if used then (if r.rStat.used then 0 else 1) else if r.rStat.used then -1 else 0
    { td with
      tRecUsed := td.tRecUsed + inc
      tUpdate := true
      tUnusedIndex := if inc = -1 ∧ i < td.tUnusedIndex then i else td.tUnusedIndex }
  else td

def RTbl.cancel (td : RTbl) (ud : Usr) : RTbl :=
  let td := (List.range td.tRecNum).foldl (fun td i => td.cancelSlot ud i) td
  { td with uAdded := Function.update td.uAdded ud 0 }

/-- `svc_cancel` -/
def svcCancel (ud : Usr) : TblM Unit := do
  let td ← get
  throwIf (td.checkLock ud true) .tblBusy
  modify fun td => td.cancel ud

/-- The change of a slot is thrown away. -/
def RTbl.discard (td : RTbl) (i : ℕ) : RTbl :=
  let r := td.tRec i
  if r.rStat.dirty then
    let inc : ℤ := if r.rStat.insert then -1 else if r.rStat.used then 0 else 1
    let td := td.svcLoad i 1
    { td with
      tRecUsed := td.tRecUsed + inc
      tUpdate := true
      tUnusedIndex := if r.rStat.insert ∧ i < td.tUnusedIndex then i else td.tUnusedIndex }
  else td

/-- The end of a rollback of a slot. Those who wait for it are answered if it
was locked. -/
def RRec.released (r : RRec) (locked : Bool) : RRec :=
  { r with
    rStat := r.rStat.setLock {}
    rAccess := none
    rWait := if locked then [] else r.rWait }

/-- `svc_rollback_td` on one slot. -/
def RTbl.rollbackSlot (td : RTbl) (ud : Usr) (i : ℕ) : RTbl :=
  let r := td.tRec i
  if r.rAccess = some ud then
    let td := td.discard i
    td.setRec i ((td.tRec i).released r.rStat.locked)
  else td

/-- `sql_rollback` on one table, which is `svc_rollback_td`. -/
def RTbl.rollback (td : RTbl) (ud : Usr) : RTbl :=
  let td := (List.range td.tRecNum).foldl (fun td i => td.rollbackSlot ud i) td
  let td := if td.tUpdate then td.hashClear else td
  { td with uAdded := Function.update td.uAdded ud 0 }

/-- `sql_rollback` -/
def sqlRollback (ud : Usr) : TblM Unit := modify fun td => td.rollback ud

/-- A record that is moved down to the slot `numn`. -/
def RRec.moved (r : RRec) (numn : ℕ) : RRec :=
  { r with
    rStat := { r.rStat with update := true }
    rHead := { r.rHead with
      rStat := { r.rHead.rStat with update := true }, rRel := numn, rAbs := numn } }

/-- The slot a record is moved away from. -/
def RRec.left (r : RRec) : RRec :=
  { r with rStat := { r.rStat with used := false, busy := false, insert := false, update := false } }

def moveRec (i numn : ℕ) (r : RRec) : TblM Unit :=
  if i = numn then pure () else do
    setSlot numn (r.moved numn)
    setSlot i r.left

/-- The loop of `svc_compress` over the next `k` slots. -/
def compressLoop (load : Loader) (pn : ℕ) : ℕ → ℕ → ℕ → TblM ℕ
  | 0, _, numn => return numn
  | k + 1, i, numn => do
      let r ← slot load i pn
      if r.rStat.used then do
        moveRec i numn r
        compressLoop load pn k (i + 1) (numn + 1)
      else compressLoop load pn k (i + 1) numn

/-- The table is made as small as the number of its used records. -/
def shrink (numn : ℕ) : TblM Unit := do
  let td ← get
  if numn < td.tRecNum then svcSwitch numn numn else pure ()

/-- `svc_compress` -/
def svcCompress (load : Loader) : TblM Unit := do
  modify RTbl.hashClear
  let td ← get
  throwIf (1 < td.tUsrCnt) .tblBusy
  faultIf (td.tRecNum = 0) .noSlot
  let numn ← compressLoop load td.page td.tRecNum 0 0
  shrink numn

/-! ### Find -/

/-- The cursor of a user moves on. -/
def advance (ud : Usr) : TblM Unit :=
  modify fun td => { td with uCursor := Function.update td.uCursor ud (td.uCursor ud + 1) }

/-- The lock of a record that was found, with the records found before. A record
that another user has locked ends the search. -/
def lockFound (ud : Usr) (mode : RLock) (i : ℕ) (r : RRec) : TblM (Option RRec) :=
  if mode.on then
    if r.busyFor ud then return none
    else do
      let r := { r with rStat := r.rStat.setLock mode, rAccess := some ud }
      setSlot i r
      return some r
  else if r.rStat.exclusive && r.rAccess ≠ some ud then return none
  else return some r

/-- What has been sent of the records found so far, which go out `m` at a time. -/
def sentPages (m : ℕ) (got : List RHead) : List RHead := got.take (got.length - got.length % m)

/-- The loop of `svc_find` over the next `k` slots. The search condition may fail
on a record, and then what is in the buffer is not sent. Before the answer that a record
is locked it is. -/
def findLoop (load : Loader) (ud : Usr) (mode : RLock) (check : RHead → Option Bool) (num pn : ℕ) :
    ℕ → List RHead → TblM (List RHead × Option RdbErr)
  | 0, got => return (got, none)
  | k + 1, got => do
      let td ← get
      let i := td.uCursor ud
      let r ← slot load i pn
      if r.rStat.used then
        match check r.rHead with
        | none => return (sentPages (min num pn) got, some .search)
        | some false => do
            advance ud
            findLoop load ud mode check num pn k got
        | some true => do
            let found ← lockFound ud mode i r
            match found with
            | none => return (got, some .recBusy)
            | some r => do
                advance ud
                let got := got ++ [{ r.rHead with rStat := r.rStat }]
                if num ≤ got.length then return (got, none)
                else findLoop load ud mode check num pn k got
      else do
        advance ud
        findLoop load ud mode check num pn k got

/-- `svc_find` -/
def svcFind (load : Loader) (ud : Usr) (mode : RLock) (check : RHead → Option Bool) (num : ℕ) :
    TblM (List RHead × Option RdbErr) := do
  let td ← get
  throwIf (td.checkLock ud mode.on) .tblBusy
  let pn := if td.tRecSize ≤ R_PAGE_SIZE then R_PAGE_SIZE / td.tRecSize else 1
  findLoop load ud mode check num pn (td.tRecNum - td.uCursor ud) []

/-! ### The operations of a table -/

def RTbl.swapOut (td : RTbl) : RTbl :=
  { td with
    tRec := fun j =>
      if j < td.tRecNum then
        { td.tRec j with rStat := { (td.tRec j).rStat with cache := false, swap := true } }
      else td.tRec j }

/-- `xj_swap_schedule` on one table. A buffer that is swapped out cannot be
swapped out again. -/
def swapOut : TblM Unit := do
  let td ← get
  faultIf ((List.range td.tRecNum).any fun i => (td.tRec i).rStat.swap) .swapped
  modify RTbl.swapOut

/-- What happens to a table. `svc_hold` and `svc_release` change who holds the
table, `prc_open` and `close_user` how many users have it open. -/
inductive TblOp where
  | find (ud : Usr) (mode : RLock) (check : RHead → Option Bool) (num : ℕ)
  | rewind (ud : Usr)
  | insert (ud : Usr) (items : List String) (mode : RLock) (recs : List (List UInt8))
  | insertSql (ud : Usr) (items : List String) (mode : RLock) (rp : List UInt8)
  | delete (unlink : List UInt8 → Bool) (ud : Usr) (recs : List ℤ)
  | deleteSql (unlink : List UInt8 → Bool) (ud : Usr) (wp : RHead → Bool)
  | update (ud : Usr) (mode : RLock) (recs : List (ℤ × List UInt8))
  | updateSql (ud : Usr) (mode : RLock) (sets : List (RItem × (List UInt8 → Option (List UInt8))))
      (wp : RHead → Bool)
  | cancel (ud : Usr)
  | rollback (ud : Usr)
  | store (ud : Usr)
  | compress
  | swapOut
  | hold (lock : Option (Usr × Bool))
  | users (cnt : ℕ)

/-- The program of an operation with the records it finds. `svc_flush` and
`sql_commit` store the whole table. -/
def tblProg (load : Loader) : TblOp → TblM (List RHead × Option RdbErr)
  | .find ud mode check num => svcFind load ud mode check num
  | .rewind ud => do
      modify fun td => { td with uCursor := Function.update td.uCursor ud 0 }
      return ([], none)
  | .insert ud items mode recs => do
      svcInsert load ud items mode recs
      return ([], none)
  | .insertSql ud items mode rp => do
      prcInsert load ud items mode rp
      return ([], none)
  | .delete unlink ud recs => do
      svcDelete load unlink ud recs
      return ([], none)
  | .deleteSql unlink ud wp => do
      prcDelete load unlink ud wp
      return ([], none)
  | .update ud mode recs => do
      svcUpdate load ud mode recs
      return ([], none)
  | .updateSql ud mode sets wp => do
      prcUpdate load ud mode sets wp
      return ([], none)
  | .cancel ud => do
      svcCancel ud
      return ([], none)
  | .rollback ud => do
      sqlRollback ud
      return ([], none)
  | .store ud => do
      let td ← get
      svcStore 0 td.tRecNum (some ud)
      return ([], none)
  | .compress => do
      svcCompress load
      return ([], none)
  | .swapOut => do
      swapOut
      return ([], none)
  | .hold lock => do
      modify fun td => { td with tLock := lock }
      return ([], none)
  | .users cnt => do
      modify fun td => { td with tUsrCnt := cnt }
      return ([], none)

/-- `prc_get_td`. No record of the file is loaded yet. -/
def tblOpen (file : TblFile) (tRecSize : ℕ) (tScm : List RItem) : RTbl where
  tRec _ := { rHead := { data := List.replicate (tRecSize - R_HEAD_SIZE) 0 } }
  tRecNum := file.recNum
  tRecSize := tRecSize
  tRecUsed := file.recUsed
  tRecOriUsed := file.recUsed
  tUnusedIndex := 0
  tUsrCnt := 0
  tUpdate := false
  tLock := none
  tScm := tScm
  tHashEqual _ := none
  uAdded _ := 0
  uCursor _ := 0
  file := file

abbrev TblReply := Except RdbErr (List RHead × Option RdbErr)

/-- A table answers one request after another. -/
def tblStep (load : Loader) (s : RTbl × List TblReply) (op : TblOp) :
    Except TblFault (RTbl × List TblReply) :=
  (perform (tblProg load op) s.1).map fun x => (x.2, s.2 ++ [x.1])

end PaxosSolutions.XjPing
