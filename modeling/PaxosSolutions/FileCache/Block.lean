import PaxosSolutions.FileCache.Disk
import PaxosSolutions.Lib.Run
import PaxosSolutions.NWGadget.Cksum

/-!
# Cached blocks of files

A block is loaded when it is got, changed in its buffer and saved when it has to
leave, or before. Its segments have checksums of their own, which a write exchanges
for those of what it leaves behind and a read looks at. A checksum of 0 is none.
-/
namespace PaxosSolutions
open Lib NWGadget

/-- `BlockCache_t`, whose link among the changed blocks is kept in their row. -/
structure BlockCache where
  bKey : BlockCacheKey
  bTimeout : ℤ
  bDirty : Bool
  bPBuf : ℕ → UInt8
  bPValid : ℕ → ℤ
  bPCksum64 : ℕ → UInt64
  bLen : ℕ

/-- What changes of `BlockCacheCtrl_t`: the blocks in the order of their use, and
the keys of those that are linked as changed. -/
structure FileCache where
  geLnk : List BlockCache := []
  bcDirtyLnk : List BlockCacheKey := []
  bcFdCtrl : GFdCtrl := {}

/-- Where the cache stops: on a checksum that does not agree, on a request that is
too large for it, and on a piece that is not in its block. -/
inductive FCFault
  | assertCksum | assertSize | outside
deriving DecidableEq, Repr

variable (c : FileCacheCtrl)

/-- The bytes of a block, as a natural number. -/
def BlockCacheCtrl.blockLen (c : BlockCacheCtrl) : ℕ := c.bcSegmentSize * c.bcSegmentNum

/-- The checksum of a whole segment. -/
def BlockCacheCtrl.segSum (c : BlockCacheCtrl) (buf : ℕ → UInt8) (i : ℕ) : UInt64 :=
  inCksum64 (bufBytes buf (c.bcSegmentSize * i) c.bcSegmentSize) 0

/-- The number of segments of so many bytes. -/
def BlockCacheCtrl.segments (c : BlockCacheCtrl) (l : ℕ) : ℕ :=
  (l + c.bcSegmentSize - 1) / c.bcSegmentSize

/-! ### Loads and saves -/

namespace GFdCtrl

/-- `_BlockLoad` -/
def blockLoad (k : BlockCacheKey) (now : ℤ) (d : GFdCtrl) : Except FCFault (BlockCache × GFdCtrl) :=
  match d.gFdCacheGet c k false with
  | (none, d) => .ok (⟨k, 0, false, fun _ => 0, fun _ => 0, fun _ => 0, 0⟩, d)
  | (some fd, d) =>
      let f := d.segFile fd.ino
      let l := f.readLen (c.inFile k) c.blockLen
      let buf (x : ℕ) : UInt8 := if x < l then f.data (c.inFile k + x) else 0
      let s := c.segments l
      let cksum (i : ℕ) : UInt64 :=
        if c.bcBCksum ∧ i < s then f.cksum (c.inCksumFile k + i) else 0
      if ∀ i ∈ List.range s, cksum i ≠ 0 → cksum i = c.segSum buf i then
        .ok (⟨k, 0, false, buf, fun i => if cksum i ≠ 0 then now + c.bcUsecWB else 0, cksum, l⟩, d)
      else .error .assertCksum

/-- What `_BlockSave` writes. A file that may be made is got. -/
def blockStore (b : BlockCache) (d : GFdCtrl) : GFdCtrl :=
  match d.gFdCacheGet c b.bKey true with
  | (none, d) => d
  | (some fd, d) =>
      let f := (d.segFile fd.ino).write (c.inFile b.bKey) b.bLen b.bPBuf
      let f :=
        if c.bcBCksum then f.writeCksum (c.inCksumFile b.bKey) (c.segments b.bLen) b.bPCksum64 else f
      { d with segFile := Function.update d.segFile fd.ino f }

end GFdCtrl

namespace FileCache

/-- `_BlockSave` -/
def blockSave (bSave : Bool) (b : BlockCache) (s : FileCache) : BlockCache × FileCache :=
  if b.bKey ∈ s.bcDirtyLnk then
    let s := { s with bcDirtyLnk := s.bcDirtyLnk.filter (· ≠ b.bKey) }
    if b.bDirty then
      ({ b with bDirty := false },
        if bSave then { s with bcFdCtrl := s.bcFdCtrl.blockStore c b } else s)
    else (b, s)
  else (b, s)

/-- `_GElmUnset` and `_GElmFree` of a block -/
def blockDrop (bSave : Bool) (b : BlockCache) (s : FileCache) : FileCache :=
  { (s.blockSave c bSave b).2 with geLnk := Lru.without BlockCache.bKey b.bKey s.geLnk }

/-- `_BlockSave` of a block that stays. -/
def blockFlush (b : BlockCache) (s : FileCache) : FileCache :=
  let r := s.blockSave c true b
  { r.2 with geLnk := Lru.set BlockCache.bKey r.1 r.2.geLnk }

/-- The first of a full row leaves. -/
def blockRoom (s : FileCache) : FileCache :=
  if Lru.Room c.geMaxCnt s.geLnk then s
  else
    match s.geLnk with
    | [] => s
    | b :: _ => s.blockDrop c true b

/-- `BlockCacheGet`, and `BlockCachePut` of what it got. -/
def blockCacheGet (k : BlockCacheKey) (now : ℤ) (s : FileCache) :
    Except FCFault (BlockCache × FileCache) :=
  match Lru.find BlockCache.bKey k s.geLnk with
  | some b => .ok (b, { s with geLnk := Lru.use BlockCache.bKey b s.geLnk })
  | none =>
      let s := s.blockRoom c
      (s.bcFdCtrl.blockLoad c k now).map fun r =>
        (r.1, { s with geLnk := s.geLnk ++ [r.1], bcFdCtrl := r.2 })

end FileCache

/-! ### Writes and reads -/

namespace BlockCache

/-- A checksum after its segment is written. The sum of the part `[off, off + len)` is
exchanged if the part is small, else that of the segment is taken anew. `sCksum64`,
`mCksum64` and `eCksum64` are sums of such parts, before they are written. -/
def cksumUpdate (buf : ℕ → UInt8) (i off len : ℕ) (b : BlockCache) : UInt64 :=
  let cksum64 :=
    if len < c.bcSegmentSize / 2 ∧ b.bPCksum64 i ≠ 0 then inCksum64 (bufBytes b.bPBuf off len) 0
    else 0
  if cksum64 ≠ 0 then
    inCksum64SubAdd (b.bPCksum64 i) cksum64 (inCksum64 (bufBytes buf off len) 0)
  else c.segSum buf i

/-- The turn of `BlockCacheWrite` with the block. -/
def write (sOff eOff : ℕ) (pData : ℕ → UInt8) (now : ℤ) (b : BlockCache) : BlockCache :=
  let S := c.bcSegmentSize
  let r := sOff % 8
  let soffB := sOff - r
  let lenB := (eOff - sOff + r + 7) / 8 * 8
  let iS := soffB / S
  let iE := (eOff - 1) / S
  let slen := (iS + 1) * S - soffB
  let elen := eOff - iE * S
  let buf (x : ℕ) : UInt8 := if sOff ≤ x ∧ x < eOff then pData (x - sOff) else b.bPBuf x
  { b with
    bPBuf := buf
    bPCksum64 := fun i =>
      if c.bcBCksum ∧ iS ≤ i ∧ i ≤ iE then
        if iS = iE then b.cksumUpdate c buf iS soffB lenB
        else if i = iS then b.cksumUpdate c buf iS soffB slen
        else if i = iE then b.cksumUpdate c buf iE (iE * S) elen
        else c.segSum buf i
      else b.bPCksum64 i
    -- a write within one segment leaves the time as it is
    bPValid := fun i =>
      if c.bcBCksum ∧ iS ≠ iE ∧ iS ≤ i ∧ i ≤ iE then now + c.bcUsecWB else b.bPValid i
    bLen := max b.bLen eOff
    bDirty := true
    bTimeout := now + c.bcUsecWB }

/-- The turn of `BlockCacheRead` with the block. -/
def check (sOff eOff : ℕ) (now : ℤ) (b : BlockCache) : Except FCFault BlockCache :=
  let due (i : ℕ) : Bool := ¬ now < b.bPValid i ∧ b.bPCksum64 i ≠ 0
  let iS := sOff / c.bcSegmentSize
  let iE := c.segments eOff
  if c.bcBCksum then
    if ∀ i ∈ List.range' iS (iE - iS), due i → b.bPCksum64 i = c.segSum b.bPBuf i then
      .ok { b with bPValid := fun i =>
        if iS ≤ i ∧ i < iE ∧ due i then now + c.bcUsecWB else b.bPValid i }
    else .error .assertCksum
  else .ok b

/-- The block ends within it from now on. What is cut off of its last segment is not
summed. -/
def cut (l : ℕ) (b : BlockCache) : Except FCFault BlockCache :=
  let iS := l / c.bcSegmentSize
  let s := l - iS * c.bcSegmentSize
  if c.bcBCksum then
    if 0 < s then
      .ok { b with
        bLen := l
        bPCksum64 := Function.update b.bPCksum64 iS
          (inCksum64 (bufBytes b.bPBuf (c.bcSegmentSize * iS) s) 0) }
    else .error .assertCksum
  else .ok { b with bLen := l }

end BlockCache

/-- A piece is in its block. -/
def Piece.Within (p : Piece) : Prop := 0 ≤ p.sOff ∧ p.sOff < p.eOff ∧ p.eOff ≤ c.blockSize

instance (p : Piece) : Decidable (p.Within c) := inferInstanceAs (Decidable (_ ∧ _))

namespace FileCache

/-- A turn of `BlockCacheWrite` -/
def pieceWrite (name : String) (pData : ℕ → UInt8) (now : ℤ) (s : FileCache) (p : Piece) :
    Except FCFault FileCache :=
  (s.blockCacheGet c ⟨name, p.kOffset⟩ now).bind fun r =>
    if p.Within c then
      let b := r.1.write c p.sOff.toNat p.eOff.toNat (fun x => pData (p.dOff.toNat + x)) now
      .ok { r.2 with
        geLnk := Lru.set BlockCache.bKey b r.2.geLnk
        bcDirtyLnk := r.2.bcDirtyLnk.filter (· ≠ b.bKey) ++ [b.bKey] }
    else .error .outside

/-- `BlockCacheWrite` -/
def blockCacheWrite (name : String) (off len : ℤ) (pData : ℕ → UInt8) (now : ℤ) (s : FileCache) :
    Except FCFault FileCache :=
  if len ≤ c.maxSize then run (pieceWrite c name pData now) s (c.pieces off len 0)
  else .error .assertSize

/-- A turn of `BlockCacheRead`, with the bytes that are read. -/
def pieceRead (name : String) (now : ℤ) (r : FileCache × List UInt8) (p : Piece) :
    Except FCFault (FileCache × List UInt8) :=
  (r.1.blockCacheGet c ⟨name, p.kOffset⟩ now).bind fun t =>
    if p.Within c then
      (t.1.check c p.sOff.toNat p.eOff.toNat now).map fun b =>
        ({ t.2 with geLnk := Lru.set BlockCache.bKey b t.2.geLnk },
          r.2 ++ bufBytes b.bPBuf p.sOff.toNat (p.eOff.toNat - p.sOff.toNat))
    else .error .outside

/-- `BlockCacheRead` -/
def blockCacheRead (name : String) (off len now : ℤ) (s : FileCache) :
    Except FCFault (FileCache × List UInt8) :=
  if len ≤ c.maxSize then run (pieceRead c name now) (s, []) (c.pieces off len 0)
  else .error .assertSize

/-! ### Requests for files -/

/-- `_BlockLoop` of `GE_TRUNCATE` -/
def blockTruncate (name : String) (off : ℤ) (s : FileCache) (b : BlockCache) :
    Except FCFault FileCache :=
  let l := off - b.bKey.kOffset
  if b.bKey.kName ≠ name then .ok s
  else if off ≤ b.bKey.kOffset then .ok (s.blockDrop c false b)
  else if l < c.blockSize then
    (b.cut c l.toNat).map fun b => { s with geLnk := Lru.set BlockCache.bKey b s.geLnk }
  else .ok s

/-- `FileCacheTruncate` -/
def fileCacheTruncate (name : String) (off : ℤ) (s : FileCache) : Except FCFault FileCache :=
  (run (blockTruncate c name off) s s.geLnk).map fun s =>
    let d := (s.bcFdCtrl.gFdCacheTruncate name off).gFdMetaTruncate c name off
    { s with bcFdCtrl := (d.gFdMetaGet c name false).2.setSize name off }

/-- The blocks that `FileCacheFlush` goes through. They are compared without sign. -/
def flushOffsets (off size : ℤ) : List ℤ :=
  let iBS := off.tdiv c.blockSize
  (List.range (toSize (off + size - 1) / c.blockSize + 1 - iBS).toNat).map fun i : ℕ =>
    toOff (c.blockSize * (iBS + i))

/-- `FileCacheFlush` -/
def fileCacheFlush (name : String) (off size now : ℤ) (s : FileCache) : Except FCFault FileCache :=
  (run (fun s kOffset => (s.blockCacheGet c ⟨name, kOffset⟩ now).map fun r => r.2.blockFlush c r.1)
    s (flushOffsets c off size)).map fun s => { s with bcFdCtrl := s.bcFdCtrl.gFdMetaFlush name }

/-- A turn of `ThreadBlockCacheWB` -/
def blockCacheWB (now : ℤ) (s : FileCache) : FileCache :=
  match s.bcDirtyLnk.head?.bind fun k => Lru.find BlockCache.bKey k s.geLnk with
  | none => s
  | some b =>
      if b.bTimeout < now then
        let s := s.blockFlush c b
        let r := s.bcFdCtrl.gFdMetaGet c b.bKey.kName true
        { s with bcFdCtrl := (r.1.map fun m => r.2.fdMetaFlush m).getD r.2 }
      else s

/-- The blocks of a loop leave, and what is changed is saved if it is said so. -/
def blocksDrop (bSave : Bool) (p : BlockCache → Bool) (s : FileCache) : FileCache :=
  s.geLnk.foldl (fun s b => if p b then s.blockDrop c (bSave && b.bDirty) b else s) s

/-- `FileCachePurge` -/
def fileCachePurge (name : String) (s : FileCache) : FileCache :=
  let s := s.blocksDrop c true fun b => b.bKey.kName = name
  { s with bcFdCtrl := (s.bcFdCtrl.gFdCacheDelete name).gFdMetaPurge name }

/-- `FileCachePurgeAll` -/
def fileCachePurgeAll (s : FileCache) : FileCache :=
  let s := s.blocksDrop c true fun _ => true
  { s with bcFdCtrl := { s.bcFdCtrl.fcMeta.foldl (fun d m => d.fdMetaFlush m) s.bcFdCtrl with
      fcCtrl := []
      fcMeta := [] } }

/-- `FileCacheDelete` of what there is. -/
def fileCacheDelete (name : String) (s : FileCache) : FileCache :=
  if s.bcFdCtrl.metaDir name = none then s
  else
    let s := s.blocksDrop c false fun b => b.bKey.kName = name
    { s with bcFdCtrl := (s.bcFdCtrl.gFdCacheDelete name).gFdMetaDelete name }

end FileCache

end PaxosSolutions
