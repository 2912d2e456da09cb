import PaxosSolutions.VV.Stripes
import PaxosSolutions.NWGadget.DHashKeys

/-!
# Copy on write

A volume with a parent has the units of its own that were written, and the others are the
parent's. Which units are its own is in a table of the database. The node that has the lock
of a group of segments has them in a hash, and those it added in an array, which goes to the
database when the lock is given up.
-/
namespace PaxosSolutions.Cow
open Lib

/-- What a `VSDlg_t` has on a node: the groups of segments, each with `LS_DEFINED`, the units
that are the volume's own, and the array of those that were added. -/
structure VSDlgTabs where
  vdHashListVS : List (ℕ × Bool) := []
  vdDHashCOW : NWGadget.DHash Unit Unit := .init 1013 200 1009 .u64
  vdPCOW : List ℕ := []
  vdSCOW : ℕ := 0

/-- Who has the lock of a group: some nodes to read, or one node to write. -/
inductive VSLock where
  | free
  | r (ns : List ℕ)
  | w (n : ℕ)
deriving DecidableEq, Repr

def VSLock.owners : VSLock → List ℕ
  | .free => []
  | .r ns => ns
  | .w n => [n]

/-- A lock after a node gave it up. -/
def VSLock.without (l : VSLock) (n : ℕ) : VSLock :=
  match l with
  | .free => .free
  | .r ns => if ns.filter (· ≠ n) = [] then .free else .r (ns.filter (· ≠ n))
  | .w m => if m = n then .free else .w m

/-- The nodes, the tables of the database for the volume, and the bytes of its segments. `vol`
is what was written to it, over what it had. `ret` is what the latest write returned. -/
structure CowState where
  lock : ℕ → VSLock := fun _ => .free
  tabs : ℕ → ℕ → VSDlgTabs := fun _ _ => {}
  cow : List ℕ
  wrTbl : List ℕ
  heap : ℕ := 1
  segs : ℕ × ℕ × ℕ → UInt8
  vol : ℕ → UInt8
  ret : ℤ := 0

/-- What fails in a call: `DBPutHashCOW` of a group on a node, `VS_alloc` and `DBAllocVS` of a
group of segments, the read of a unit of the parent; and what is in the buffer then. -/
structure CowEnv where
  putHashCOW : ℕ → ℕ → Bool := fun _ _ => true
  vsAlloc : ℕ → Bool := fun _ => true
  dbAllocVS : ℕ → Bool := fun _ => true
  readParent : ℕ → Bool := fun _ => true
  pBUFF : ℕ → UInt8 := fun _ => 0

/-- The array is too short, and a write goes to segments that were not allocated. -/
inductive CowFault where
  | overflow | noSegment
deriving DecidableEq, Repr

/-- `DLG2SU` -/
def dlg2su (pVV : VV) (uDlg : ℕ) : ℕ := uDlg * (VV_VS_DLG_SIZE * pVV.vsSize) / SNAP_UNIT_SIZE

/-- The group that a unit is in. -/
def unitDlg (pVV : VV) (u : ℕ) : ℕ := vs2dlg (b2vs pVV (u * SNAP_UNIT_SIZE))

def unitKey (u : ℕ) : NWGadget.HashKey Unit := ⟨0, UInt64.ofNat u, [], ()⟩

/-- A row of `WrTBL` in `DBSetHashVS` -/
def setHashVS (l : List (ℕ × Bool)) (vs : ℕ) : List (ℕ × Bool) :=
  if l.any (·.1 = vs) then l.map fun p => if p.1 = vs then (vs, true) else p else l ++ [(vs, true)]

/-- The loop of `DBSetHashCOW`. The items are got at `heap` and behind. -/
def setHashCOW : ℕ → List ℕ → NWGadget.DHash Unit Unit → NWGadget.DHash Unit Unit
  | _, [], d => d
  | heap, u :: us, d => setHashCOW (heap + 1) us (d.put (some heap) (unitKey u) ()).2

namespace VSDlgTabs

/-- `_VSDlgAddCOW` -/
def addCOW (pDlg : VSDlgTabs) (iCOW : ℕ) : Except CowFault VSDlgTabs :=
  let sCOW :=
    if pDlg.vdSCOW = 0 then 1
    else if pDlg.vdPCOW.length = pDlg.vdSCOW then pDlg.vdSCOW * 2
    else pDlg.vdSCOW
  if pDlg.vdPCOW.length < sCOW then
    .ok { pDlg with
      vdPCOW := pDlg.vdPCOW ++ [iCOW]
      vdSCOW := sCOW }
  else .error .overflow

/-- What `_VSDlgTerm` leaves, if `_VSDlgPutCOW` is done. -/
def term (pDlg : VSDlgTabs) (put : Bool) : VSDlgTabs :=
  { vdHashListVS := []
    vdDHashCOW := pDlg.vdDHashCOW.clear
    vdPCOW := if put then [] else pDlg.vdPCOW
    vdSCOW := if pDlg.vdPCOW ≠ [] ∧ put then 0 else pDlg.vdSCOW }

end VSDlgTabs

namespace CowState

def setTabs (s : CowState) (uDlg n : ℕ) (pDlg : VSDlgTabs) : CowState :=
  { s with tabs := Function.update s.tabs uDlg (Function.update (s.tabs uDlg) n pDlg) }

def setLock (s : CowState) (uDlg : ℕ) (l : VSLock) : CowState :=
  { s with lock := Function.update s.lock uDlg l }

/-! ### Locks -/

/-- `_VSDlgInit` -/
def vsDlgInit (pVV : VV) (uDlg n : ℕ) (s : CowState) : CowState :=
  let pDlg := s.tabs uDlg n
  let vss := s.wrTbl.filter fun vs =>
    uDlg * VV_VS_DLG_SIZE ≤ vs ∧ vs < uDlg * VV_VS_DLG_SIZE + VV_VS_DLG_SIZE
  let us := s.cow.filter fun u => dlg2su pVV uDlg ≤ u ∧ u < dlg2su pVV uDlg + dlg2su pVV 1
  { s.setTabs uDlg n { pDlg with
      vdHashListVS := vss.foldl setHashVS pDlg.vdHashListVS
      vdDHashCOW := setHashCOW s.heap us pDlg.vdDHashCOW } with
    heap := s.heap + us.length }

/-- `_VSDlgTerm`, which does not look at what `_VSDlgPutCOW` returns. -/
def vsDlgTerm (env : CowEnv) (uDlg n : ℕ) (s : CowState) : CowState :=
  let pDlg := s.tabs uDlg n
  { s.setTabs uDlg n (pDlg.term (env.putHashCOW uDlg n)) with
    cow := if env.putHashCOW uDlg n then s.cow ++ pDlg.vdPCOW else s.cow }

/-- A node gives the lock of a group up. -/
def giveUp (env : CowEnv) (uDlg n : ℕ) (s : CowState) : CowState :=
  (s.vsDlgTerm env uDlg n).setLock uDlg ((s.lock uDlg).without n)

/-- `VLockW`: the other nodes give the lock up, and a node that had it to read does, too. -/
def vLockW (pVV : VV) (env : CowEnv) (uDlg n : ℕ) (s : CowState) : CowState :=
  if s.lock uDlg = .w n then s
  else (((s.lock uDlg).owners.foldl (fun s m => s.giveUp env uDlg m) s).vsDlgInit pVV uDlg n).setLock
    uDlg (.w n)

/-- `VLockR` -/
def vLockR (pVV : VV) (env : CowEnv) (uDlg n : ℕ) (s : CowState) : CowState :=
  if n ∈ (s.lock uDlg).owners then s
  else
    match s.lock uDlg with
    | .free => (s.vsDlgInit pVV uDlg n).setLock uDlg (.r [n])
    | .r ns => (s.vsDlgInit pVV uDlg n).setLock uDlg (.r (n :: ns))
    | .w m => ((s.giveUp env uDlg m).vsDlgInit pVV uDlg n).setLock uDlg (.r [n])

/-! ### Writes -/

/-- The part of `VVWriteRequestSnapUnit` that allocates segments. -/
def allocVS (env : CowEnv) (n uVS : ℕ) (s : CowState) : Bool × CowState :=
  let pDlg := s.tabs (vs2dlg uVS) n
  if pDlg.vdHashListVS.any (·.1 = uVS) then (true, s)
  else if env.vsAlloc uVS = false then (false, s)
  else
    let s' := s.setTabs (vs2dlg uVS) n { pDlg with
      vdHashListVS := pDlg.vdHashListVS ++ [(uVS, env.dbAllocVS uVS)] }
    if env.dbAllocVS uVS then (true, { s' with wrTbl := s.wrTbl ++ [uVS] }) else (false, s')

/-- The part that marks a unit, and whether it did. -/
def markUnit (uDlg n snapUnit : ℕ) (s : CowState) : Except CowFault (Bool × CowState) :=
  let pDlg := s.tabs uDlg n
  let r := pDlg.vdDHashCOW.get (unitKey snapUnit)
  if r.1.isSome then .ok (false, s.setTabs uDlg n { pDlg with vdDHashCOW := r.2 })
  else
    ({ pDlg with vdDHashCOW := (r.2.put (some s.heap) (unitKey snapUnit) ()).2 }.addCOW snapUnit).map
      fun pDlg => (true, { s.setTabs uDlg n pDlg with heap := s.heap + 1 })

end CowState

/-- A piece of a unit is written, and not all of it. -/
def partOfUnit (p : ℕ × ℕ) : Bool :=
  0 < p.1 % SNAP_UNIT_SIZE || p.1 + p.2 < SNAP_UNIT_SIZE * (p.1 / SNAP_UNIT_SIZE) + SNAP_UNIT_SIZE

/-- A unit as the parent has it, with the bytes of a piece over it -/
def mergedUnit (parent : ℕ → UInt8) (env : CowEnv) (p : ℕ × ℕ) (pBuff : List UInt8) : List UInt8 :=
  (List.range' (SNAP_UNIT_SIZE * (p.1 / SNAP_UNIT_SIZE)) SNAP_UNIT_SIZE).map fun b =>
    if p.1 ≤ b ∧ b < p.1 + p.2 then pBuff.getD (b - p.1) 0
    else if env.readParent (p.1 / SNAP_UNIT_SIZE) then parent b
    else env.pBUFF b

/-- The requests of a write that wait for `VVKickReqIO`. -/
abbrev CowIo := List (SegmentReq × List UInt8)

/-- `VVWriteRequestSnapUnit`: whether it is done, and the requests with the one for the piece. -/
def vvWriteRequestSnapUnit (pVV : VV) (parent : ℕ → UInt8) (env : CowEnv) (n : ℕ) (p : ℕ × ℕ)
    (pBuff : List UInt8) (s : CowState) (pIo : CowIo) : Except CowFault (Bool × CowState × CowIo) :=
  let uVS := b2vs pVV p.1
  let r := (s.vLockW pVV env (vs2dlg uVS) n).allocVS env n uVS
  if r.1 = false then .ok (false, r.2, pIo)
  else
    (r.2.markUnit (vs2dlg uVS) n (p.1 / SNAP_UNIT_SIZE)).map fun m =>
      if m.1 && partOfUnit p then
        (true, m.2, pIo ++ [(writeSnapUnit pVV true 0 p.1 p.2, mergedUnit parent env p pBuff)])
      else (true, m.2, pIo ++ [(writeSnapUnit pVV false 0 p.1 p.2, pBuff)])

/-- The loop of `VVWriteRequest` -/
def writeUnits (pVV : VV) (parent : ℕ → UInt8) (env : CowEnv) (n offset : ℕ) (pBuff : List UInt8) :
    List (ℕ × ℕ) → CowState → CowIo → Except CowFault (Bool × CowState × CowIo)
  | [], s, pIo => .ok (true, s, pIo)
  | p :: ps, s, pIo =>
      (vvWriteRequestSnapUnit pVV parent env n p ((pBuff.drop (p.1 - offset)).take p.2) s pIo).bind
        fun r =>
          if r.1 then writeUnits pVV parent env n offset pBuff ps r.2.1 r.2.2
          else .ok r

/-- The bytes of a request go to its segment. -/
def storeReq (rq : SegmentReq) (data : List UInt8) (segs : ℕ × ℕ × ℕ → UInt8) : ℕ × ℕ × ℕ → UInt8 :=
  fun q =>
    if q.1 = rq.vs.vsVS ∧ q.2.1 = rq.vs.vsSI ∧ rq.reqIo.off ≤ q.2.2 ∧ q.2.2 < rq.reqIo.off + rq.reqIo.len then
      data.getD (q.2.2 - rq.reqIo.off) 0
    else segs q

/-- `VVKickReqIO` -/
def vvKickReqIo (n : ℕ) : CowIo → CowState → Except CowFault CowState
  | [], s => .ok s
  | (rq, data) :: pIo, s =>
      if (rq.vs.vsVS, true) ∈ (s.tabs (vs2dlg rq.vs.vsVS) n).vdHashListVS then
        vvKickReqIo n pIo { s with segs := storeReq rq data s.segs }
      else .error .noSegment

/-- `VVWriteRequest` -/
def vvWriteRequest (pVV : VV) (parent : ℕ → UInt8) (env : CowEnv) (n offset : ℕ) (pBuff : List UInt8)
    (s : CowState) : Except CowFault CowState :=
  (writeUnits pVV parent env n offset pBuff (pieces pBuff.length offset) s []).bind fun r =>
    if r.1 then
      (vvKickReqIo n r.2.2 r.2.1).map fun s =>
        { s with
          vol := fun b =>
            if offset ≤ b ∧ b < offset + pBuff.length then pBuff.getD (b - offset) 0 else s.vol b
          ret := 0 }
    else .ok { r.2.1 with ret := -1 }

/-! ### Runs -/

/-- Writes of a node, and locks that change hands -/
inductive CowOp where
  | write (n offset : ℕ) (pBuff : List UInt8) (env : CowEnv)
  | lockR (uDlg n : ℕ) (env : CowEnv)
  | giveUp (uDlg n : ℕ) (env : CowEnv)

def cowStep (pVV : VV) (parent : ℕ → UInt8) (s : CowState) : CowOp → Except CowFault CowState
  | .write n offset pBuff env => vvWriteRequest pVV parent env n offset pBuff s
  | .lockR uDlg n env => .ok { s.vLockR pVV env uDlg n with ret := 0 }
  | .giveUp uDlg n env =>
      if n ∈ (s.lock uDlg).owners then .ok { s.giveUp env uDlg n with ret := 0 }
      else .ok { s with ret := 0 }

/-! ### What is to hold -/

namespace CowState

/-- A unit is in the table of the database, or in the array of a node that has the lock. -/
def Recorded (pVV : VV) (s : CowState) (u : ℕ) : Prop :=
  u ∈ s.cow ∨ ∃ m ∈ (s.lock (unitDlg pVV u)).owners, u ∈ (s.tabs (unitDlg pVV u) m).vdPCOW

instance (pVV : VV) (s : CowState) (u : ℕ) : Decidable (s.Recorded pVV u) := by
  unfold Recorded
  infer_instance

/-- A volume that no node has a lock of. Its own units are in its segments, and the others
are those of the parent. -/
structure Fresh (pVV : VV) (parent : ℕ → UInt8) (s : CowState) : Prop where
  stripes : 1 ≤ pVV.vvStripes
  lock : ∀ uDlg, s.lock uDlg = .free
  tabs : ∀ uDlg n, s.tabs uDlg n = {}
  heap : s.heap = 1
  small : ∀ u ∈ s.cow, u < 2 ^ 64
  groups : ∀ u ∈ s.cow, b2vs pVV (u * SNAP_UNIT_SIZE) ∈ s.wrTbl
  own : ∀ b, b / SNAP_UNIT_SIZE ∈ s.cow → s.segs (stripePlace pVV b) = s.vol b
  others : ∀ b, b / SNAP_UNIT_SIZE ∉ s.cow → s.vol b = parent b

/-- A node with the lock finds a unit in its hash if and only if it is in the table of the
database, or once in the array of the node. Such a unit is whole in the segments of the
volume. A node without the lock has nothing that did not go to the database. -/
structure Right (pVV : VV) (s : CowState) : Prop where
  found : ∀ uDlg, ∀ n ∈ (s.lock uDlg).owners, ∀ u < 2 ^ 64, unitDlg pVV u = uDlg →
    (((s.tabs uDlg n).vdDHashCOW.get (unitKey u)).1.isSome = true ↔
      u ∈ s.cow ∨ (s.tabs uDlg n).vdPCOW.count u = 1)
  whole : ∀ b, s.Recorded pVV (b / SNAP_UNIT_SIZE) →
    b2vs pVV b ∈ s.wrTbl ∧ s.segs (stripePlace pVV b) = s.vol b
  given : ∀ uDlg n, n ∉ (s.lock uDlg).owners → (s.tabs uDlg n).vdPCOW = []

/-- No unit that was recorded is lost, and a write that fails records none and has no
segments more. -/
structure Kept (pVV : VV) (s t : CowState) : Prop where
  recorded : ∀ u, s.Recorded pVV u → t.Recorded pVV u
  failed : t.ret < 0 → (∀ u, t.Recorded pVV u → s.Recorded pVV u) ∧ t.wrTbl = s.wrTbl ∧
    ∀ uDlg, ∀ n ∈ (t.lock uDlg).owners, ∀ vs ∈ (t.tabs uDlg n).vdHashListVS, vs.1 ∈ t.wrTbl

/-- The run goes through, to a state that is right, and each step of it keeps what it has to. -/
def Meets (pVV : VV) (parent : ℕ → UInt8) (s : CowState) (ops : List CowOp) : Prop :=
  (∃ t, run (cowStep pVV parent) s ops = .ok t ∧ t.Right pVV) ∧
    ∀ js op ks t u, ops = js ++ op :: ks → run (cowStep pVV parent) s js = .ok t →
      cowStep pVV parent t op = .ok u → t.Kept pVV u

end CowState

/-! ### Steps that do what they are to do -/

/-- The nodes that give up the lock of a group for a node get what they added to the database. -/
def HandedOver (s : CowState) (env : CowEnv) (uDlg n : ℕ) : Prop :=
  ∀ m ∈ (s.lock uDlg).owners, m ≠ n → (s.tabs uDlg m).vdPCOW = [] ∨ env.putHashCOW uDlg m = true

instance (s : CowState) (env : CowEnv) (uDlg n : ℕ) : Decidable (HandedOver s env uDlg n) := by
  unfold HandedOver
  infer_instance

/-- The pieces of a write, where `clean` says that those before are of units that are recorded,
in segments that are there. `VS_alloc` may fail only then, and the write ends. -/
def PiecesSafe (pVV : VV) (s : CowState) (env : CowEnv) (n : ℕ) : Bool → List (ℕ × ℕ) → Prop
  | _, [] => True
  | clean, p :: ps =>
      HandedOver s env (vs2dlg (b2vs pVV p.1)) n ∧
        if b2vs pVV p.1 ∉ s.wrTbl ∧ env.vsAlloc (b2vs pVV p.1) = false then clean = true
        else
          (b2vs pVV p.1 ∈ s.wrTbl ∨ env.dbAllocVS (b2vs pVV p.1) = true) ∧
            (s.Recorded pVV (p.1 / SNAP_UNIT_SIZE) ∨ partOfUnit p = false ∨
              env.readParent (p.1 / SNAP_UNIT_SIZE) = true) ∧
            PiecesSafe pVV s env n (clean && decide (b2vs pVV p.1 ∈ s.wrTbl) &&
              decide (s.Recorded pVV (p.1 / SNAP_UNIT_SIZE))) ps

instance decidablePiecesSafe (pVV : VV) (s : CowState) (env : CowEnv) (n : ℕ) (clean : Bool)
    (ps : List (ℕ × ℕ)) : Decidable (PiecesSafe pVV s env n clean ps) :=
  match ps with
  | [] => .isTrue trivial
  | p :: ps =>
      have := decidablePiecesSafe pVV s env n (clean && decide (b2vs pVV p.1 ∈ s.wrTbl) &&
        decide (s.Recorded pVV (p.1 / SNAP_UNIT_SIZE))) ps
      inferInstanceAs (Decidable (_ ∧ ite _ _ _))

/-- What is to go to the database does, segments are allocated, and the parent is read, where
a write or a lock needs it. Offsets are those of `off_t`. -/
def CowSafe (pVV : VV) (s : CowState) : CowOp → Prop
  | .write n offset pBuff env =>
      offset + pBuff.length ≤ 2 ^ 63 ∧ PiecesSafe pVV s env n true (pieces pBuff.length offset)
  | .lockR uDlg n env => HandedOver s env uDlg n
  | .giveUp uDlg n env => (s.tabs uDlg n).vdPCOW = [] ∨ env.putHashCOW uDlg n = true

instance (pVV : VV) (s : CowState) (op : CowOp) : Decidable (CowSafe pVV s op) := by
  cases op <;> unfold CowSafe <;> infer_instance

end PaxosSolutions.Cow
