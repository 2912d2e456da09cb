import PaxosSolutions.Cache.BlockCache

/-!
# Segment locks of a request

A virtual volume is cut in segments, and a group of them is under one lock
object, which also has the tables of the group: its segments, and the units that
were copied on write. A request walks over its units, and a read goes on to the
parents of the volume where a unit was not copied. The locks it takes are kept
in a table, and the group of the latest is what it is recognised by.
-/
namespace PaxosSolutions

def SNAP_UNIT_SIZE : ℕ := 1024

def VV_UNIT_SIZE : ℕ := SNAP_UNIT_SIZE * 32

def VV_UNITS : ℕ := 128

def VV_LS_SIZE : ℕ := VV_UNIT_SIZE * VV_UNITS

def VV_VS_DLG_SIZE : ℕ := 16

/-- `VV_t`. Its parents, which `VV_getR` finds by `db_NameRdVV`, are given with it,
the nearest first. -/
structure VV where
  dbName : String
  vvStripes : ℕ
deriving DecidableEq, Repr

/-- `vv_vs_size` -/
def VV.vsSize (pVV : VV) : ℕ := VV_LS_SIZE * pVV.vvStripes

/-- `B2VS` -/
def b2vs (pVV : VV) (b : ℕ) : ℕ := b / pVV.vsSize

/-- `VS2DLG` -/
def vs2dlg (vs : ℕ) : ℕ := vs / VV_VS_DLG_SIZE

/-- `VSDlg_t` by the volume and the group in its name, with its `d_Own`. -/
structure VSDlg where
  vvName : String
  uDlg : ℕ
  dOwn : DlgOwn
deriving DecidableEq, Repr

def VSDlg.name (pDlg : VSDlg) : String × ℕ := (pDlg.vvName, pDlg.uDlg)

/-- `VSDlgLock_t`. `lPDlgTab` has the entries up to `l_iDlgLast`. -/
structure VSDlgLock where
  lUDlg : ℕ := 0
  lPDlg : Option VSDlg := none
  lIDlgNum : ℕ
  lPDlgTab : List (Option VSDlg) := []
deriving DecidableEq, Repr

/-- A use of `l_pDlg` for a group of a volume. -/
structure VSDUse where
  vvName : String
  uDlg : ℕ
  write : Bool
  pDlg : VSDlg
deriving DecidableEq, Repr

/-- A table of locks with what was locked, unlocked and used so far. -/
structure VSDRun where
  lock : VSDlgLock
  taken : List VSDlg := []
  released : List VSDlg := []
  used : List VSDUse := []
deriving DecidableEq, Repr

/-- An entry behind `l_pDlgTab`, and the use of a lock that was not given. -/
inductive VVFault where
  | overflow | nullDlg
deriving DecidableEq, Repr

/-- What `VLockR` and `VLockW` answer for a lock object: `d_Own` after the lock, or
nothing where it is not given; and if there is or can be allocated a segment. -/
structure VVEnv where
  vLockR : String × ℕ → Option DlgOwn
  vLockW : String × ℕ → Bool
  vsAlloc : String × ℕ → ℕ → Bool

/-- `vd_DHashCOW` of the lock objects -/
abbrev DHashCOW := String × ℕ → ℕ → Bool

/-- `VSDLockInit` -/
def vsdLockInit (pVV : VV) (length offset : ℕ) : VSDRun :=
  let uDlgStart := vs2dlg (b2vs pVV offset)
  let uDlgEnd := vs2dlg (b2vs pVV (offset + length))
  { lock := { lIDlgNum := uDlgEnd - uDlgStart + 1 } }

/-- A lock is made the latest, and stored in the table. -/
def storeDlg (uDlg : ℕ) (pVSDlg : Option VSDlg) (r : VSDRun) : Except VVFault VSDRun :=
  if r.lock.lPDlgTab.length < r.lock.lIDlgNum then
    .ok { r with
      lock := { r.lock with
        lUDlg := uDlg
        lPDlg := pVSDlg
        lPDlgTab := r.lock.lPDlgTab ++ [pVSDlg] }
      taken := r.taken ++ pVSDlg.toList }
  else .error .overflow

/-- `VSDLockR` -/
def vsdLockR (e : VVEnv) (pVV : VV) (uVS : ℕ) (r : VSDRun) : Except VVFault VSDRun :=
  let uDlg := vs2dlg uVS
  if r.lock.lPDlg.isSome ∧ r.lock.lUDlg = uDlg then .ok r
  else storeDlg uDlg ((e.vLockR (pVV.dbName, uDlg)).map fun own => ⟨pVV.dbName, uDlg, own⟩) r

/-- `VUnlock` -/
def vUnlock (pVSDlg : VSDlg) (r : VSDRun) : VSDRun := { r with released := r.released ++ [pVSDlg] }

/-- `VSDLockW` -/
def vsdLockW (e : VVEnv) (pVV : VV) (uVS : ℕ) (r : VSDRun) : Except VVFault VSDRun :=
  let uDlg := vs2dlg uVS
  let vLockW := storeDlg uDlg
    (if e.vLockW (pVV.dbName, uDlg) then some ⟨pVV.dbName, uDlg, .w⟩ else none)
  match r.lock.lPDlg with
  | none => vLockW r
  | some pVSDlg =>
      if r.lock.lUDlg = uDlg then
        if pVSDlg.dOwn = .w then .ok r
        else if pVSDlg.dOwn = .r then vLockW (vUnlock pVSDlg r)
        else vLockW r
      else vLockW r

/-- `VUnlock` of an entry of the table -/
def unlockEntry (r : VSDRun) : Option VSDlg → Except VVFault VSDRun
  | none => .error .nullDlg
  | some pVSDlg => .ok (vUnlock pVSDlg r)

/-- `VSDLockTerm` -/
def vsdLockTerm (r : VSDRun) : Except VVFault VSDRun := r.lock.lPDlgTab.foldlM unlockEntry r

/-- `l_pDlg` as it is used for a group of a volume. -/
def useLatest (write : Bool) (vvName : String) (uDlg : ℕ) (r : VSDRun) :
    Except VVFault (VSDlg × VSDRun) :=
  match r.lock.lPDlg with
  | none => .error .nullDlg
  | some pDlg => .ok (pDlg, { r with used := r.used ++ [⟨vvName, uDlg, write, pDlg⟩] })

/-- `VSDLockW` of writes, `VSDLockR` of reads -/
def vsdLock (e : VVEnv) (write : Bool) (pVV : VV) (uVS : ℕ) (r : VSDRun) :
    Except VVFault VSDRun :=
  if write then vsdLockW e pVV uVS r else vsdLockR e pVV uVS r

/-- The lock of a request at an offset, and the lock object that is then used. -/
def lockAt (e : VVEnv) (write : Bool) (pVV : VV) (offset : ℕ) (r : VSDRun) :
    Except VVFault (VSDlg × VSDRun) := do
  let r ← vsdLock e write pVV (b2vs pVV offset) r
  useLatest write pVV.dbName (vs2dlg (b2vs pVV offset)) r

/-- Where a unit is read from: the volume, the lock object in whose tables it is
looked up, and if it was copied on write. -/
structure UnitSource where
  pVV : VV
  pDlg : VSDlg
  copied : Bool
deriving DecidableEq, Repr

/-- `VVReadRequestSnapUnitFormer`, which goes on to the parents. -/
def vvReadUnit (e : VVEnv) (cow : DHashCOW) (offset snapUnit : ℕ) :
    List VV → VV → VSDRun → Except VVFault (UnitSource × VSDRun)
  | [], pVV, r => do
      let (pDlg, r) ← lockAt e false pVV offset r
      .ok (⟨pVV, pDlg, cow pDlg.name snapUnit⟩, r)
  | pVV1 :: parents, pVV, r => do
      let (pDlg, r) ← lockAt e false pVV offset r
      if cow pDlg.name snapUnit then .ok (⟨pVV, pDlg, true⟩, r)
      else vvReadUnit e cow offset snapUnit parents pVV1 r

/-- The loop of a request over its units: offsets and lengths up to `stop`. -/
def snapPieces : ℕ → ℕ → ℕ → List (ℕ × ℕ)
  | 0, _, _ => []
  | fuel + 1, off, stop =>
      if off < stop then
        let unitEnd := (off / SNAP_UNIT_SIZE + 1) * SNAP_UNIT_SIZE
        let len := if stop < unitEnd then stop - off else unitEnd - off
        (off, len) :: snapPieces fuel (off + len) stop
      else []

/-- The units of a range. Each has at least one byte. -/
def pieces (length offset : ℕ) : List (ℕ × ℕ) := snapPieces length offset (offset + length)

/-- `_VVReadRequest` on its units -/
def vvReadPieces (e : VVEnv) (cow : DHashCOW) (pVV : VV) (parents : List VV) :
    List (ℕ × ℕ) → VSDRun → Except VVFault (List (ℕ × ℕ × UnitSource) × VSDRun)
  | [], r => .ok ([], r)
  | (off, len) :: ps, r => do
      let (src, r) ← vvReadUnit e cow off (off / SNAP_UNIT_SIZE) parents pVV r
      let (srcs, r) ← vvReadPieces e cow pVV parents ps r
      .ok ((off, len, src) :: srcs, r)

/-- Reads under one table of locks, which is made for a range. -/
def vvReadLocked (e : VVEnv) (cow : DHashCOW) (pVV : VV) (parents : List VV) (length offset : ℕ)
    (ps : List (ℕ × ℕ)) : Except VVFault (List (ℕ × ℕ × UnitSource) × VSDRun) := do
  let (srcs, r) ← vvReadPieces e cow pVV parents ps (vsdLockInit pVV length offset)
  let r ← vsdLockTerm r
  .ok (srcs, r)

/-- `VVReadRequest` -/
def vvReadRequest (e : VVEnv) (cow : DHashCOW) (pVV : VV) (parents : List VV) (length offset : ℕ) :
    Except VVFault (List (ℕ × ℕ × UnitSource) × VSDRun) :=
  vvReadLocked e cow pVV parents length offset (pieces length offset)

/-- The tables of copied units, the locks of a write, and the tables of locks of
the reads it makes. `failed` is set where no segment is to be had. -/
structure VVWriteRun where
  cow : DHashCOW
  run : VSDRun
  copies : List VSDRun := []
  failed : Bool := false

/-- Whether a write leaves a part of its unit as it was. -/
def leavesPart (off len : ℕ) : Bool :=
  0 < off % SNAP_UNIT_SIZE ∨
    off + len < SNAP_UNIT_SIZE * (off / SNAP_UNIT_SIZE) + SNAP_UNIT_SIZE

/-- `DHashPut` -/
def DHashCOW.put (cow : DHashCOW) (n : String × ℕ) (snapUnit : ℕ) : DHashCOW :=
  fun m u => if m = n ∧ u = snapUnit then true else cow m u

/-- `VVWriteRequestSnapUnit`, as far as locks go -/
def vvWriteUnit (e : VVEnv) (pVV : VV) (parents : List VV) (off len : ℕ) (w : VVWriteRun) :
    Except VVFault VVWriteRun := do
  let snapUnit := off / SNAP_UNIT_SIZE
  let (pDlg, r) ← lockAt e true pVV off w.run
  if e.vsAlloc pDlg.name (b2vs pVV off) = false then .ok { w with run := r, failed := true }
  else
    match parents with
    | [] => .ok { w with run := r }
    | pVV1 :: parents =>
        if w.cow pDlg.name snapUnit then .ok { w with run := r }
        else
          let cow := w.cow.put pDlg.name snapUnit
          if leavesPart off len then do
            let (_, c) ← vvReadRequest e cow pVV1 parents SNAP_UNIT_SIZE (SNAP_UNIT_SIZE * snapUnit)
            .ok { w with cow := cow, run := r, copies := w.copies ++ [c] }
          else .ok { w with cow := cow, run := r }

/-- The loop of `VVWriteRequest`, which ends where a unit fails. -/
def vvWritePieces (e : VVEnv) (pVV : VV) (parents : List VV) :
    List (ℕ × ℕ) → VVWriteRun → Except VVFault VVWriteRun
  | [], w => .ok w
  | (off, len) :: ps, w => do
      let w ← vvWriteUnit e pVV parents off len w
      if w.failed then .ok w else vvWritePieces e pVV parents ps w

/-- `VVWriteRequest`, up to the locks it had and those of the reads it made. -/
def vvWriteRequest (e : VVEnv) (cow : DHashCOW) (pVV : VV) (parents : List VV)
    (length offset : ℕ) : Except VVFault (List VSDRun) := do
  let w ← vvWritePieces e pVV parents (pieces length offset) ⟨cow, vsdLockInit pVV length offset, [], false⟩
  let r ← vsdLockTerm w.run
  .ok (r :: w.copies)

/-! ### Requests -/

/-- The block cache of a volume, where it is used: the size of the blocks, and
which of them `BCReadIO` need not ask for. -/
structure VVCache where
  blockSize : ℕ
  cached : ℕ → Bool

/-- What `BCReadIO` asks for. -/
def VVCache.readReqs (c : VVCache) (length offset : ℕ) : List (ℕ × ℕ) :=
  ((bcBlocks c.blockSize offset length).filter fun i => !c.cached i).map
    fun i => (i * c.blockSize, c.blockSize)

/-- What `BCWriteIO` asks for. -/
def VVCache.writeReqs (c : VVCache) (length offset : ℕ) : List (ℕ × ℕ) :=
  ((bcBlocks c.blockSize offset length).filter (bcBothEnds c.blockSize offset length)).map
    fun i => (i * c.blockSize, c.blockSize)

/-- The units of requests, one after the other. -/
def reqPieces (reqs : List (ℕ × ℕ)) : List (ℕ × ℕ) := reqs.flatMap fun rq => pieces rq.2 rq.1

/-- Requests to fill blocks of the cache, under one table of locks. -/
def vvReadReqs (e : VVEnv) (cow : DHashCOW) (pVV : VV) (parents : List VV) (length offset : ℕ)
    (reqs : List (ℕ × ℕ)) : Except VVFault (List VSDRun) :=
  if reqs = [] then .ok []
  else (vvReadLocked e cow pVV parents length offset (reqPieces reqs)).map fun x => [x.2]

/-- `VVRead`: the tables of locks it had. -/
def vvRead (e : VVEnv) (cow : DHashCOW) (cache : Option VVCache) (pVV : VV) (parents : List VV)
    (length offset : ℕ) : Except VVFault (List VSDRun) :=
  match cache with
  | some c => vvReadReqs e cow pVV parents length offset (c.readReqs length offset)
  | none => (vvReadRequest e cow pVV parents length offset).map fun x => [x.2]

/-- `VVWrite`: the tables of locks it had. -/
def vvWrite (e : VVEnv) (cow : DHashCOW) (cache : Option VVCache) (pVV : VV) (parents : List VV)
    (length offset : ℕ) : Except VVFault (List VSDRun) :=
  match cache with
  | some c => do
      let rs ← vvReadReqs e cow pVV parents length offset (c.writeReqs length offset)
      let ws ← vvWriteRequest e cow pVV parents length offset
      .ok (rs ++ ws)
  | none => vvWriteRequest e cow pVV parents length offset

inductive VVReq where
  | read (length offset : ℕ)
  | write (length offset : ℕ)
deriving DecidableEq, Repr

/-- The tables of locks of a request -/
def vvRequest (e : VVEnv) (cow : DHashCOW) (cache : Option VVCache) (pVV : VV) (parents : List VV) :
    VVReq → Except VVFault (List VSDRun)
  | .read length offset => vvRead e cow cache pVV parents length offset
  | .write length offset => vvWrite e cow cache pVV parents length offset

/-- A use of the lock object of the group, in write mode where it is for a write. -/
def VSDUse.Right (u : VSDUse) : Prop :=
  u.pDlg.vvName = u.vvName ∧ u.pDlg.uDlg = u.uDlg ∧ (u.write = true → u.pDlg.dOwn = .w)

/-- What a table of locks must be at the end: each use was right, the entries are
within the table, and each lock that was taken was released once. -/
structure VSDRun.Right (r : VSDRun) : Prop where
  used : ∀ u ∈ r.used, u.Right
  room : r.lock.lPDlgTab.length ≤ r.lock.lIDlgNum
  released : r.released.Perm r.taken

end PaxosSolutions
