import Mathlib.Algebra.Group.Nat.Defs
import Mathlib.Data.List.Basic
import Mathlib.Logic.Function.Basic

/-!
# The equality hash of a column

The records of a table are indexed by the hash value of a column. An entry of
the hash keeps its elements in one array until the array is full. They are then
spread over a second hash, whose arrays grow.
-/
namespace PaxosSolutions.XjPing

inductive RAttr where
  | hex | int | uint | float | str | long | ulong | bytes
deriving DecidableEq, Repr

/-- `r_item_t`. The offset is counted from the end of the head of a record. -/
structure RItem where
  iName : String
  iAttr : RAttr
  iLen : ℕ
  iOff : ℕ
deriving DecidableEq, Repr

def RItem.bytes (ip : RItem) (data : List UInt8) : List UInt8 := (data.drop ip.iOff).take ip.iLen

/-- A word in the byte order of the machine, which is little-endian. What is
missing of the last one is zero. -/
def leWord (bs : List UInt8) : ℕ := bs.foldr (fun b n => b.toNat + 256 * n) 0

def sumWords : ℕ → List UInt8 → ℕ
  | 0, _ => 0
  | n + 1, bufp => leWord (bufp.take 8) + sumWords n (bufp.drop 8)

/-- `hash_value` -/
def hashValue (bufp : List UInt8) (flg : Bool) : ℕ :=
  let bufp := if flg then bufp.takeWhile (· ≠ 0) else bufp
  sumWords (bufp.length / 8 + 1) bufp % 2 ^ 64

/-- The hash value of a record, as `hash_make`, `hash_add` and `hash_del` take it. -/
def RItem.hashValue (itemp : RItem) (data : List UInt8) : ℕ :=
  XjPing.hashValue (itemp.bytes data) (itemp.iAttr = .str || itemp.iAttr = .bytes)

def HASH_SIZE_1 : ℕ := 1009

def HASH_SIZE_2 : ℕ := 101

def HASH_LENGTH : ℕ := 200

/-- `h_elm_t` -/
structure HElm where
  eInd : ℕ
  eLValue : ℕ
deriving DecidableEq, Repr

/-- An entry of the second hash. It has no array while `entSize` is 0. -/
structure HEntry2 where
  entSize : ℕ := 0
  entArray : List HElm := []

/-- `h_entry_t` of the first hash. With a second hash it has no array. -/
structure HEntry where
  entCnt : ℕ := 0
  entSize : ℕ := 0
  entArray : List HElm := []
  entHash : Option (ℕ → HEntry2) := none

/-- `h_head_t` -/
structure HHead where
  hValue : ℕ → HEntry := fun _ => {}

/-- A put in an entry of the second hash, whose array is made or made twice as
large where it has no room. -/
def HEntry2.put (pEnt2 : HEntry2) (pElm : HElm) : HEntry2 where
  entSize :=
    if pEnt2.entSize = 0 then HASH_LENGTH
    else if pEnt2.entSize ≤ pEnt2.entArray.length then pEnt2.entSize * 2
    else pEnt2.entSize
  entArray := pEnt2.entArray ++ [pElm]

def put2 (pH2 : ℕ → HEntry2) (pElm : HElm) : ℕ → HEntry2 :=
  Function.update pH2 (pElm.eLValue % HASH_SIZE_2) ((pH2 (pElm.eLValue % HASH_SIZE_2)).put pElm)

/-- The array of the first hash is there, and where it is full its elements are
moved. They are as many as one array of the second hash has room for. -/
def HEntry.prepare (pEnt : HEntry) : HEntry :=
  let pEnt :=
    if pEnt.entSize = 0 ∧ pEnt.entHash.isNone then { pEnt with entSize := HASH_LENGTH } else pEnt
  if pEnt.entSize ≤ pEnt.entCnt ∧ pEnt.entHash.isNone then
    { pEnt with
      entHash := some (pEnt.entArray.foldl put2 fun _ => {})
      entArray := []
      entSize := 0 }
  else pEnt

def HEntry.put (pEnt : HEntry) (pElm : HElm) : HEntry :=
  let pEnt := pEnt.prepare
  match pEnt.entHash with
  | some pH2 => { pEnt with entHash := some (put2 pH2 pElm), entCnt := pEnt.entCnt + 1 }
  | none => { pEnt with entArray := pEnt.entArray ++ [pElm], entCnt := pEnt.entCnt + 1 }

/-- `hash_put_elm` -/
def hashPutElm (pH : HHead) (lValue rInd : ℕ) : HHead where
  hValue := Function.update pH.hValue (lValue % HASH_SIZE_1)
    ((pH.hValue (lValue % HASH_SIZE_1)).put ⟨rInd, lValue⟩)

/-- The first element of a record is taken out of an array. -/
def delInd (rInd : ℕ) (array : List HElm) : List HElm := array.eraseP fun e => e.eInd = rInd

/-- `hash_del_elm`, `E_RDB_NOEXIST` where there is no element of the record. -/
def hashDelElm (pH : HHead) (lValue rInd : ℕ) : Option HHead :=
  let pEnt1 := pH.hValue (lValue % HASH_SIZE_1)
  match pEnt1.entHash with
  | some pH2 =>
      let pEnt2 := pH2 (lValue % HASH_SIZE_2)
      if pEnt2.entArray.any fun e => e.eInd = rInd then
        let pH2 := Function.update pH2 (lValue % HASH_SIZE_2)
          { pEnt2 with entArray := delInd rInd pEnt2.entArray }
        some ⟨Function.update pH.hValue (lValue % HASH_SIZE_1)
          { pEnt1 with entHash := some pH2, entCnt := pEnt1.entCnt - 1 }⟩
      else none
  | none =>
      if pEnt1.entArray.any fun e => e.eInd = rInd then
        some ⟨Function.update pH.hValue (lValue % HASH_SIZE_1)
          { pEnt1 with entArray := delInd rInd pEnt1.entArray, entCnt := pEnt1.entCnt - 1 }⟩
      else none

end PaxosSolutions.XjPing
