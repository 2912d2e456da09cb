import PaxosSolutions.FileCache.Pieces
import PaxosSolutions.Lib.Lru

/-!
# Segment files

The blocks of a file are kept in segment files of 64 blocks, in two levels of
numbered directories under the name of the file. Each has a file of checksums
beside it, which is made, opened and removed with it, so both are one here. Open
files are cached by path, and what is known of a file by its name. A file that is
removed stays what it was to those who have it open.
-/
namespace PaxosSolutions
open Lib

/-- `BlockCacheCtrl_t` with the bounds of its `GFdCtrl_t` and the time after which
a checksum is looked at again. -/
structure FileCacheCtrl extends BlockCacheCtrl where
  fdMax : ℕ
  bcUsecWB : ℤ

/-- `BlockCacheKey_t` -/
structure BlockCacheKey where
  kName : String
  kOffset : ℤ
deriving DecidableEq, Repr

/-- The path of a segment file. -/
structure SegPath where
  name : String
  dir0 : ℤ
  dir1 : ℤ
  base : ℤ
deriving DecidableEq, Repr

namespace BlockCacheCtrl

/-- `fc_FileSize` -/
def fileSize (c : BlockCacheCtrl) : ℤ := c.blockSize * 64

/-- `FILE_CACHE_INDEX`, with `FILE_ENTRIES` of a directory. -/
def fileCacheIndex (c : BlockCacheCtrl) (off : ℤ) : ℤ × ℤ × ℤ :=
  let off1 := toOff (toSize off / c.fileSize)
  let up := off1.tdiv 1024
  (up.tdiv 1024, up.tmod 1024, off1.tmod 1024)

/-- `FILE_CACHE_PATH` -/
def segPath (c : BlockCacheCtrl) (k : BlockCacheKey) : SegPath :=
  let i := c.fileCacheIndex k.kOffset
  ⟨k.kName, i.1, i.2.1, i.2.2⟩

/-- Where a block is in its segment file. -/
def inFile (c : BlockCacheCtrl) (k : BlockCacheKey) : ℕ := (toSize k.kOffset % c.fileSize).toNat

/-- Where the checksums of a block are in their file, in numbers of them. -/
def inCksumFile (c : BlockCacheCtrl) (k : BlockCacheKey) : ℕ :=
  c.inFile k / (c.bcSegmentSize * c.bcSegmentNum) * c.bcSegmentNum

end BlockCacheCtrl

/-! ### Files -/

/-- A segment file of `size` bytes, and its checksums. There are zeros behind the
end of both. -/
structure SegFile where
  size : ℕ
  data : ℕ → UInt8
  cksum : ℕ → UInt64
  zero : ∀ x, size ≤ x → data x = 0

namespace SegFile

def empty : SegFile := ⟨0, fun _ => 0, fun _ => 0, fun _ _ => rfl⟩

/-- `FdRead` reads as many bytes. -/
def readLen (off len : ℕ) (f : SegFile) : ℕ := min len (f.size - off)

/-- `FdWrite` of what is not empty, and `FdWriteCksum` -/
def write (off len : ℕ) (buf : ℕ → UInt8) (f : SegFile) : SegFile where
  size := if len = 0 then f.size else max f.size (off + len)
  data := fun x => if off ≤ x ∧ x < off + len then buf (x - off) else f.data x
  cksum := f.cksum
  zero := by
    intro x hx
    split at hx
    · rw [if_neg (by omega)]
      exact f.zero x hx
    · rw [if_neg (by omega)]
      exact f.zero x (by omega)

def writeCksum (n s : ℕ) (cksum : ℕ → UInt64) (f : SegFile) : SegFile :=
  { f with cksum := fun j => if n ≤ j ∧ j < n + s then cksum (j - n) else f.cksum j }

end SegFile

/-- `GFd_t`, with the file it has open. -/
structure GFd where
  fPath : SegPath
  fName : String
  fOffset : ℤ
  ino : ℕ
deriving DecidableEq, Repr

/-- `GFdMeta_t`, with the file it has open. -/
structure GFdMeta where
  fmName : String
  stSize : ℤ
  ino : ℕ
deriving DecidableEq, Repr

/-- `GFdCtrl_t`, and the files: what the paths lead to, and what the files hold. A
file `Meta` holds nothing until it is written. -/
structure GFdCtrl where
  fcCtrl : List GFd := []
  fcMeta : List GFdMeta := []
  segDir : SegPath → Option ℕ := fun _ => none
  segFile : ℕ → SegFile := fun _ => .empty
  metaDir : String → Option ℕ := fun _ => none
  metaFile : ℕ → Option ℤ := fun _ => none
  nextIno : ℕ := 0

namespace GFdCtrl

variable (c : FileCacheCtrl)

/-! ### Open files -/

/-- `_FdSet`. Without `bCreate` there must be a file. -/
def fdSet (k : BlockCacheKey) (bCreate : Bool) (d : GFdCtrl) : Option (GFd × GFdCtrl) :=
  let path := c.segPath k
  let fd (ino : ℕ) : GFd :=
    ⟨path, k.kName, toOff (toSize k.kOffset / c.fileSize * c.fileSize), ino⟩
  match d.segDir path with
  | some ino => some (fd ino, { d with fcCtrl := d.fcCtrl ++ [fd ino] })
  | none =>
      if bCreate then
        some (fd d.nextIno, { d with
          fcCtrl := d.fcCtrl ++ [fd d.nextIno]
          segDir := Function.update d.segDir path (some d.nextIno)
          segFile := Function.update d.segFile d.nextIno .empty
          nextIno := d.nextIno + 1 })
      else none

/-- The first of a full row is closed. -/
def fdRoom (d : GFdCtrl) : GFdCtrl :=
  if Lru.Room c.fdMax d.fcCtrl then d else { d with fcCtrl := d.fcCtrl.tail }

/-- `GFdCacheGet`, and `GFdCachePut` of what it got: the users of open files are
gone when the next one is got. -/
def gFdCacheGet (k : BlockCacheKey) (bCreate : Bool) (d : GFdCtrl) : Option GFd × GFdCtrl :=
  match Lru.find GFd.fPath (c.segPath k) d.fcCtrl with
  | some fd => (some fd, { d with fcCtrl := Lru.use GFd.fPath fd d.fcCtrl })
  | none =>
      match (d.fdRoom c).fdSet c k bCreate with
      | some (fd, d) => (some fd, d)
      | none => (none, d.fdRoom c)

/-- `GFdCacheTruncate` -/
def gFdCacheTruncate (name : String) (off : ℤ) (d : GFdCtrl) : GFdCtrl :=
  { d with fcCtrl := d.fcCtrl.filter fun fd => ¬ (fd.fName = name ∧ off ≤ fd.fOffset) }

/-- `GFdCacheDelete` and `GFdCachePurge` -/
def gFdCacheDelete (name : String) (d : GFdCtrl) : GFdCtrl :=
  { d with fcCtrl := d.fcCtrl.filter fun fd => fd.fName ≠ name }

/-! ### What is known of files -/

/-- `_FdMetaFlush` -/
def fdMetaFlush (m : GFdMeta) (d : GFdCtrl) : GFdCtrl :=
  { d with metaFile := Function.update d.metaFile m.ino (some m.stSize) }

/-- `_FdMetaSet` in an element that held `stale`. -/
def fdMetaSet (name : String) (stale : ℤ) (bCreate : Bool) (d : GFdCtrl) :
    Option (GFdMeta × GFdCtrl) :=
  match d.metaDir name with
  | some ino =>
      let m : GFdMeta := ⟨name, (d.metaFile ino).getD stale, ino⟩
      some (m, { d with fcMeta := d.fcMeta ++ [m] })
  | none =>
      if bCreate then
        let m : GFdMeta := ⟨name, 0, d.nextIno⟩
        some (m, { d with
          fcMeta := d.fcMeta ++ [m]
          metaDir := Function.update d.metaDir name (some d.nextIno)
          metaFile := Function.update d.metaFile d.nextIno none
          nextIno := d.nextIno + 1 })
      else none

/-- The first of a full row leaves an element with the size that it held, and is
written only if a file may be made. -/
def metaRoom (bCreate : Bool) (d : GFdCtrl) : ℤ × GFdCtrl :=
  if Lru.Room c.fdMax d.fcMeta then (0, d)
  else
    match d.fcMeta with
    | [] => (0, d)
    | m :: ms => (m.stSize, { (if bCreate then d.fdMetaFlush m else d) with fcMeta := ms })

/-- `GFdMetaGet`, and `GFdMetaPut` of what it got. -/
def gFdMetaGet (name : String) (bCreate : Bool) (d : GFdCtrl) : Option GFdMeta × GFdCtrl :=
  match Lru.find GFdMeta.fmName name d.fcMeta with
  | some m => (some m, { d with fcMeta := Lru.use GFdMeta.fmName m d.fcMeta })
  | none =>
      let r := d.metaRoom c bCreate
      match r.2.fdMetaSet name r.1 bCreate with
      | some (m, d) => (some m, d)
      | none => (none, r.2)

/-- The size that is known of a file is changed. -/
def setSize (name : String) (size : ℤ) (d : GFdCtrl) : GFdCtrl :=
  { d with fcMeta := d.fcMeta.map fun m => if m.fmName = name then { m with stSize := size } else m }

/-- `GFdMetaTruncate`: the directories and files that `GFdMetaRm` finds, which
begin with a digit. -/
def gFdMetaTruncate (name : String) (off : ℤ) (d : GFdCtrl) : GFdCtrl :=
  let i := c.fileCacheIndex off
  let base := if 0 < i.2.2 then i.2.2 - 1 else i.2.2
  { d with segDir := fun p =>
      if p.name = name ∧ (0 ≤ p.dir0 ∧ i.1 < p.dir0 ∨
          p.dir0 = i.1 ∧ 0 ≤ p.dir1 ∧ i.2.1 < p.dir1 ∨
          p.dir0 = i.1 ∧ p.dir1 = i.2.1 ∧ 0 ≤ p.base ∧ base ≤ p.base) then none
      else d.segDir p }

/-- `GFdMetaFlush` -/
def gFdMetaFlush (name : String) (d : GFdCtrl) : GFdCtrl :=
  d.fcMeta.foldl (fun d m => if m.fmName = name then d.fdMetaFlush m else d) d

/-- `GFdMetaFlushAll` -/
def gFdMetaFlushAll (d : GFdCtrl) : GFdCtrl := d.fcMeta.foldl (fun d m => d.fdMetaFlush m) d

/-- `GFdMetaPurge` -/
def gFdMetaPurge (name : String) (d : GFdCtrl) : GFdCtrl :=
  { d.gFdMetaFlush name with fcMeta := d.fcMeta.filter fun m => m.fmName ≠ name }

/-- `GFdMetaDelete`: all that is under the name is removed. -/
def gFdMetaDelete (name : String) (d : GFdCtrl) : GFdCtrl :=
  { d with
    fcMeta := d.fcMeta.filter fun m => m.fmName ≠ name
    segDir := fun p => if p.name = name then none else d.segDir p
    metaDir := Function.update d.metaDir name none }

end GFdCtrl

end PaxosSolutions
