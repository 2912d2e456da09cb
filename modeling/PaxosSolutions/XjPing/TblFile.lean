import PaxosSolutions.Lib.FlatFile
import PaxosSolutions.Lib.Run
import PaxosSolutions.NWGadget.CksumMsg

/-!
# The file of a table

A table file has a head, the items of the schema, the tables it depends on, and its
records, each of them at an offset that its writer, its reader and the update of the head
work out on their own. Counts and sizes are an `int` each, and so are their products.
-/
namespace PaxosSolutions.XjPing.TblFile
open Lib NWGadget

/-- `sizeof(r_head_t)` -/
abbrev sizeofRHead : ℕ := 32

/-- `sizeof(r_item_t)` -/
abbrev sizeofRItem : ℕ := 184

/-- `sizeof(r_tbl_mod_t)` -/
abbrev sizeofRTblMod : ℕ := 144

/-- `sizeof(r_tbl_list_t)`: the count, four bytes that nothing is in, and one entry -/
abbrev sizeofRTblList : ℕ := 8 + sizeofRTblMod

/-- `r_item_t` -/
structure RItem where
  iName : Vector UInt8 128
  iType : Vector UInt8 32
  iInd : ℤ
  iAttr : ℤ
  iLen : ℤ
  iSize : ℤ
  iOff : ℤ
  iFlag : ℤ
deriving DecidableEq, Repr

/-- `r_tbl_mod_t`. No field of it is looked at here. -/
structure RTblMod where
  bytes : Vector UInt8 sizeofRTblMod
deriving DecidableEq, Repr

/-- A `long` in eight bytes -/
def longBytes (x : ℤ) : List UInt8 := leBytes 8 (x % 2 ^ 64).toNat

def bytesLong (bs : List UInt8) : ℤ := Int.bmod (Nat.ofDigits 256 (bs.map UInt8.toNat) : ℕ) (2 ^ 64)

/-- The memory of an item -/
def RItem.bytes (it : RItem) : List UInt8 :=
  it.iName.toList ++ (it.iType.toList ++ (intBytes it.iInd ++ (intBytes it.iAttr ++
    (intBytes it.iLen ++ (intBytes it.iSize ++ (intBytes it.iOff ++ intBytes it.iFlag))))))

/-- The item that a memory is -/
def itemOf (mem : List UInt8) : RItem where
  iName := Vector.ofFn fun i => mem.getD i 0
  iType := Vector.ofFn fun i => mem.getD (128 + i) 0
  iInd := bytesInt ((mem.drop 160).take 4)
  iAttr := bytesInt ((mem.drop 164).take 4)
  iLen := bytesInt ((mem.drop 168).take 4)
  iSize := bytesInt ((mem.drop 172).take 4)
  iOff := bytesInt ((mem.drop 176).take 4)
  iFlag := bytesInt ((mem.drop 180).take 4)

def modOf (mem : List UInt8) : RTblMod := ⟨Vector.ofFn fun i => mem.getD i 0⟩

/-- `neo_errno`: a file that is refused, and a call of the file cache that fails -/
inductive TblErr where
  | eRdbFile
  | eIo
deriving DecidableEq, Repr

/-- What a call passes of an `int` as a `uint64_t` -/
def u64 (x : ℤ) : ℕ := (x % 2 ^ 64).toNat

/-! ### The file cache as a flat file -/

/-- `FileCacheWrite`. No file has an offset that is negative as an `off_t`. -/
def FileCacheWrite (file : List UInt8) (off : ℕ) (bs : List UInt8) : Except TblErr (List UInt8) :=
  if off < 2 ^ 63 then .ok (File.write ⟨file, off⟩ bs).bytes else .error .eIo

/-- `FileCacheRead`: the bytes that there are -/
def FileCacheRead (file : List UInt8) (off len : ℕ) : Except TblErr (List UInt8) :=
  if off < 2 ^ 63 then .ok ((file.drop off).take len) else .error .eIo

/-- `FileCacheTruncate` -/
def FileCacheTruncate (file : List UInt8) (len : ℕ) : Except TblErr (List UInt8) :=
  if len < 2 ^ 63 then .ok (file.take len ++ List.replicate (len - file.length) 0) else .error .eIo

/-! ### Creating a table -/

/-- The arguments of `TBL_CREATE`: counts and sizes are an `int` each, no size is negative,
and the size of a record is an `int`. -/
structure TblArgs where
  type : ℤ
  modified : ℤ
  recNum : ℤ
  items : List RItem
  depends : List RTblMod
  typeInt : -2 ^ 31 ≤ type ∧ type < 2 ^ 31
  modifiedLong : -2 ^ 63 ≤ modified ∧ modified < 2 ^ 63
  recNumInt : -2 ^ 31 ≤ recNum ∧ recNum < 2 ^ 31
  itemNumInt : items.length < 2 ^ 31
  dependNumInt : depends.length < 2 ^ 31
  itemInts : ∀ it ∈ items, ∀ x ∈ [it.iAttr, it.iLen, it.iFlag], -2 ^ 31 ≤ x ∧ x < 2 ^ 31
  sizes : ∀ it ∈ items, 0 ≤ it.iSize
  recSizeInt : sizeofRHead + (items.map RItem.iSize).sum < 2 ^ 31

/-- `my_head_write`, and where it ends -/
def myHeadWrite (type modified recNum : ℤ) (items : List RItem) (file : List UInt8) :
    Except TblErr (List UInt8 × ℕ) := do
  let size := items.foldl (fun size it => int32 (size + it.iSize)) (sizeofRHead : ℤ)
  let file ← FileCacheWrite file 0 (intBytes type)
  let file ← FileCacheWrite file 4 (longBytes modified)
  let file ← FileCacheWrite file 12 (intBytes recNum)
  let file ← FileCacheWrite file 16 (intBytes 0)
  let file ← FileCacheWrite file 20 (intBytes size)
  return (file, 24)

/-- The offsets that `my_item_write` gives the items -/
def setOffs : ℤ → List RItem → List RItem
  | _, [] => []
  | off, it :: its => { it with iOff := off } :: setOffs (int32 (off + it.iSize)) its

/-- `my_item_write` of items that have their offsets -/
def myItemWrite (items : List RItem) (file : List UInt8) (off : ℕ) : Except TblErr (List UInt8 × ℕ) := do
  let file ← FileCacheWrite file off (intBytes items.length)
  let file ← FileCacheWrite file (off + 4) (items.flatMap RItem.bytes)
  return (file, off + 4 + items.length * sizeofRItem)

/-- `my_depend_write` -/
def myDependWrite (depends : List RTblMod) (file : List UInt8) (off : ℕ) : Except TblErr (List UInt8 × ℕ) := do
  let file ← FileCacheWrite file off (intBytes depends.length)
  if depends ≠ [] then
    let file ← FileCacheWrite file (off + 4) (depends.flatMap fun d => d.bytes.toList)
    return (file, off + 4 + depends.length * sizeofRTblMod)
  else return (file, off + 4)

/-- The items as `TBL_CREATE` leaves them -/
def TblArgs.itemsSet (T : TblArgs) : List RItem :=
  setOffs sizeofRHead (T.items.mapIdx fun i it => { it with iInd := i })

/-- `TBL_CREATE` -/
def TBL_CREATE (T : TblArgs) : Except TblErr (List UInt8) := do
  let (file, off) ← myHeadWrite T.type T.modified T.recNum T.itemsSet []
  let (file, off) ← myItemWrite T.itemsSet file off
  let (file, _) ← myDependWrite T.depends file off
  return file

/-! ### Opening a table -/

/-- `my_tbl_t` with what it uses of its `r_tbl_t` -/
structure MyTbl where
  tType : ℤ
  tModified : ℤ
  tRecNum : ℤ
  tRecUsed : ℤ
  tRecOriUsed : ℤ
  tRecSize : ℤ
  tScm : List RItem := []
  tDepend : List RTblMod := []
  mDataOff : ℤ := 0
deriving DecidableEq, Repr

/-- `my_head_read`, and where it ends -/
def myHeadRead (junk : ℕ → UInt8) (file : List UInt8) : Except TblErr (MyTbl × ℕ) :=
  let recNum := bytesInt (readTo junk file 12 4)
  let used := bytesInt (readTo junk file 16 4)
  if used > recNum then .error .eRdbFile
  else .ok ({
    tType := bytesInt (readTo junk file 0 4)
    tModified := bytesLong (readTo junk file 4 8)
    tRecNum := recNum
    tRecUsed := used
    tRecOriUsed := used
    tRecSize := bytesInt (readTo junk file 20 4) }, 24)

/-- The check of the offsets: the offset behind the items -/
def itemOffs : ℤ → List RItem → Option ℤ
  | off, [] => some off
  | off, it :: its => if it.iOff = off then itemOffs (int32 (off + it.iSize)) its else none

/-- The `file_size` of `my_item_read` -/
def fileSize (recSize recUsed itemNum : ℤ) : ℤ :=
  int32 (int32 (recSize * recUsed) + (16 + itemNum * sizeofRItem))

/-- `my_item_read`. A negative count is more memory than there is. -/
def myItemRead (junk : ℕ → UInt8) (file : List UInt8) (md : MyTbl) (off : ℕ) : Except TblErr (MyTbl × ℕ) :=
  let itemNum := bytesInt (readTo junk file off 4)
  let size := fileSize md.tRecSize md.tRecUsed itemNum
  if size > file.length ∨ size ≤ 0 then .error .eRdbFile
  else if itemNum < 0 then .error .eIo
  else
    let items := (List.range itemNum.toNat).map fun i =>
      itemOf (readTo junk file (off + 4 + i * sizeofRItem) sizeofRItem)
    if itemOffs sizeofRHead items ≠ some md.tRecSize then .error .eRdbFile
    else .ok ({ md with tScm := items }, off + 4 + itemNum.toNat * sizeofRItem)

/-- The list of tables at an offset of the file -/
def dependsAt (junk : ℕ → UInt8) (file : List UInt8) (off : ℕ) : List RTblMod :=
  (List.range (bytesInt (readTo junk file off 4)).toNat).map fun i =>
    modOf (readTo junk file (off + 4 + i * sizeofRTblMod) sizeofRTblMod)

/-- `my_depend_read` -/
def myDependRead (junk : ℕ → UInt8) (file : List UInt8) (md : MyTbl) (off : ℕ) : MyTbl :=
  { md with tDepend := dependsAt junk file off }

/-- `my_depend_off` -/
def MyTbl.dependOff (md : MyTbl) : ℤ := 28 + md.tScm.length * sizeofRItem

/-- `my_data_off` -/
def MyTbl.dataOff (md : MyTbl) : ℤ := md.dependOff + 4 + md.tDepend.length * sizeofRTblMod

/-- `TBL_OPEN`. The `m_data_off` is an `int`. -/
def TBL_OPEN (junk : ℕ → UInt8) (file : List UInt8) : Except TblErr MyTbl := do
  let (md, off) ← myHeadRead junk file
  let (md, off) ← myItemRead junk file md off
  let md := myDependRead junk file md off
  return { md with mDataOff := int32 md.dataOff }

/-! ### The head and the records of an open table -/

/-- The length to which `my_head_update` cuts the file -/
def MyTbl.updateLen (md : MyTbl) : ℤ := md.dataOff + int32 (md.tRecSize * md.tRecNum)

/-- `my_head_update`. A list of tables goes to the file as it is in memory, with the four
bytes behind its count. -/
def myHeadUpdate (pad : Vector UInt8 4) (md : MyTbl) (file : List UInt8) : Except TblErr (List UInt8) := do
  let file ← FileCacheWrite file 4 (longBytes md.tModified)
  let file ← FileCacheWrite file 12 (intBytes md.tRecNum)
  let file ← FileCacheWrite file 16 (intBytes md.tRecOriUsed)
  let file ← if md.tDepend ≠ [] then
      FileCacheWrite file (u64 md.dependOff)
        (intBytes md.tDepend.length ++ (pad.toList ++ md.tDepend.flatMap fun d => d.bytes.toList))
    else .ok file
  FileCacheTruncate file (u64 md.updateLen)

/-- Where `my_tbl_store` and `my_tbl_load` have record `s` -/
def MyTbl.recOff (md : MyTbl) (s : ℤ) : ℤ := int32 (md.mDataOff + int32 (s * md.tRecSize))

/-- `my_tbl_store`. More than the buffer has cannot be written. -/
def myTblStore (md : MyTbl) (s n : ℤ) (bufp file : List UInt8) : Except TblErr (List UInt8) :=
  let len := u64 (int32 (n * md.tRecSize))
  if len ≤ bufp.length then FileCacheWrite file (u64 (md.recOff s)) (bufp.take len) else .error .eIo

/-- `my_tbl_load`: what is put into the buffer -/
def myTblLoad (md : MyTbl) (s n : ℤ) (file : List UInt8) : Except TblErr (List UInt8) := do
  let len := int32 (n * md.tRecSize)
  if len < 0 then .error .eIo
  else
    let got ← FileCacheRead file (u64 (md.recOff s)) len.toNat
    return got ++ List.replicate (len.toNat - got.length) 0

/-! ### Calls on an open table -/

/-- A call: records are stored, the head is updated with what is set in memory, the table is
opened again. -/
inductive TblOp where
  | store (s n : ℤ) (bufp : List UInt8)
  | update (modified recOriUsed : ℤ) (pad : Vector UInt8 4)
  | reopen
deriving DecidableEq, Repr

/-- An open table and its file -/
structure OpenTbl where
  md : MyTbl
  file : List UInt8
deriving DecidableEq, Repr

def tblStep (junk : ℕ → UInt8) (st : OpenTbl) : TblOp → Except TblErr OpenTbl
  | .store s n bufp => do
      let file ← myTblStore st.md s n bufp st.file
      return { st with file := file }
  | .update modified recOriUsed pad => do
      let md := { st.md with
        tModified := modified
        tRecOriUsed := recOriUsed }
      let file ← myHeadUpdate pad md st.file
      return ⟨md, file⟩
  | .reopen => do
      let md ← TBL_OPEN junk st.file
      return { st with md := md }

/-- A table is created, opened and worked on. -/
def tblRun (junk : ℕ → UInt8) (T : TblArgs) (ops : List TblOp) : Except TblErr OpenTbl := do
  let file ← TBL_CREATE T
  let md ← TBL_OPEN junk file
  run (tblStep junk) ⟨md, file⟩ ops

end PaxosSolutions.XjPing.TblFile
