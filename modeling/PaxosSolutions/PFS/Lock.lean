import PaxosSolutions.Lib.Run
import PaxosSolutions.NWGadget.Seq
import PaxosSolutions.Session.Data

/-!
# Locks of the file service

Sessions hold and await locks by name. A hold is a joint that is linked to the
session's adaptor and to the lock; a lock that no joint and no waiting session
is linked to is freed by the garbage callback of the last joint. Every joint is
put at the head of both its lists, so one list of the joints, the latest first,
has all of them. Locks and joints are named by the addresses they were
allocated at, and no address is used twice.
-/
namespace PaxosSolutions
open Lib NWGadget

def ENOENT : ℤ := 2

/-- What `HoldHashCmp` compares of a client id. -/
structure Process where
  iAddr : UInt32 := 0
  iPid : ℕ := 0
deriving DecidableEq, Repr

def SessionId.process (s : SessionId) : Process := ⟨s.iAddr, s.iPid⟩

/-- The session `iNo` of a process. -/
def sessionOf (iPid : ℕ) (iNo : ℤ) : SessionId := { iPid := iPid, iNo := iNo }

/-- `HoldHashCode`, in the `PRIMARY_11` buckets of `l_HoldHash`. -/
def holdHashCode (p : Process) : ℕ := (p.iAddr.toNat + p.iPid) % 2 ^ 32 % 11

/-- `PFSJointType_t`, without the joints of paths and queues. -/
inductive PFSJointType where
  | eventLock | lockWriteHold | lockReadHold | eventLockRecall
deriving DecidableEq, Repr

/-- `PFSJoint_t` at its address. `j_pArg` is the address of the lock. -/
structure PFSJoint where
  jId : ℕ
  jType : PFSJointType
  jAdaptor : SessionId
  jPArg : ℕ
deriving DecidableEq, Repr

/-- Linked in `l_AdaptorHold` and `a_LockHold`, not in `l_AdaptorEvent` and `a_Events`. -/
def PFSJoint.hold (j : PFSJoint) : Bool :=
  j.jType = .lockWriteHold ∨ j.jType = .lockReadHold

/-- An adaptor in the list `l_AdaptorWait` of the lock `a_pLockWait`. -/
structure LockWait where
  session : SessionId
  aPLockWait : ℕ
  aLockRead : Bool
deriving DecidableEq, Repr

/-- `PFSLock_t`. An item of `l_HoldHash` is keyed by the client id of the
session that holds, and has the address of the joint. -/
structure PFSLock where
  lName : String
  lCnt : ℤ := 0
  lVer : UInt32 := 0
  lEventSeq : UInt32 := 0
  lHoldHash : List (SessionId × ℕ) := []
deriving DecidableEq, Repr

/-- What the service sends or does besides: replies, events and the file that a
broken session leaves locked. -/
inductive PFSOut where
  | lockRpl (s : SessionId) (lVer : UInt32) (busy : Bool)
  | unlockRpl (s : SessionId) (hError : ℤ)
  | unlockSuperRpl (s : SessionId) (hError : ℤ)
  | eventLockRpl (s : SessionId) (hError : ℤ)
  | enoent (s : SessionId)
  | event (s : SessionId) (lName : String) (lVer lEventSeq : UInt32)
  | deleted (lName : String)
deriving DecidableEq, Repr

/-- `CNTRL`, as far as locks go, with the memory. `waits` is in the order of
the waiting. -/
structure PFS where
  lock : ℕ → Option PFSLock := fun _ => none
  cLock : String → Option ℕ := fun _ => none
  joints : List PFSJoint := []
  waits : List LockWait := []
  adaptors : List SessionId := []
  next : ℕ := 0
  out : List PFSOut := []

/-- A use of memory that is freed, the failed `ASSERT`s, and a missing adaptor. -/
inductive PFSFault where
  | useAfterFree | assertCnt | assertAdaptor | assertLock | nullAdaptor
deriving DecidableEq, Repr

namespace PFS

def joint (i : ℕ) (s : PFS) : Except PFSFault PFSJoint :=
  match s.joints.find? fun j => j.jId = i with
  | none => .error .useAfterFree
  | some j => .ok j

def lockAt (a : ℕ) (s : PFS) : Except PFSFault PFSLock :=
  match s.lock a with
  | none => .error .useAfterFree
  | some l => .ok l

def setLock (a : ℕ) (l : PFSLock) (s : PFS) : PFS :=
  { s with lock := Function.update s.lock a (some l) }

def send (o : PFSOut) (s : PFS) : PFS := { s with out := s.out ++ [o] }

/-- `l_AdaptorHold` -/
def holds (a : ℕ) (s : PFS) : List PFSJoint := s.joints.filter fun j => j.hold ∧ j.jPArg = a

/-- `l_AdaptorEvent` -/
def events (a : ℕ) (s : PFS) : List PFSJoint := s.joints.filter fun j => !j.hold ∧ j.jPArg = a

/-- `l_AdaptorWait` -/
def waiting (a : ℕ) (s : PFS) : List LockWait := s.waits.filter fun w => w.aPLockWait = a

/-- `DHashListGet` on `c_Lock`, and `LOCK_ALLOC` if it finds nothing. -/
def lockAlloc (name : String) (s : PFS) : ℕ × PFS :=
  match s.cLock name with
  | some a => (a, s)
  | none =>
      (s.next, { s.setLock s.next { lName := name } with
        cLock := Function.update s.cLock name (some s.next), next := s.next + 1 })

end PFS

/-- `HashGet( &l_HoldHash )`: the items of a bucket are compared in the order
they were put. The accept object of a session that is closed may be gone, and
its items' keys with it. -/
def holdHashGet (adaptors : List SessionId) (p : Process) :
    List (SessionId × ℕ) → Except PFSFault (Option (SessionId × ℕ))
  | [] => .ok none
  | e :: es =>
      if holdHashCode e.1.process ≠ holdHashCode p then holdHashGet adaptors p es
      else if e.1 ∉ adaptors then .error .useAfterFree
      else if e.1.process = p then .ok (some e)
      else holdHashGet adaptors p es

/-- `pfsLockGarbage`: whether the lock was freed. -/
def pfsLockGarbage (a : ℕ) (s : PFS) : Except PFSFault (Bool × PFS) := do
  let l ← s.lockAt a
  if s.waiting a = [] ∧ s.holds a = [] ∧ s.events a = [] then
    if l.lCnt ≠ 0 then .error .assertCnt
    else
      .ok (true, { s with
        lock := Function.update s.lock a none
        cLock := Function.update s.cLock l.lName none })
  else .ok (false, s)

/-- The loop of `PFSLockNotify` over `l_AdaptorEvent`. -/
def pfsLockEvents (adaptors : List SessionId) (who : SessionId) (l : PFSLock) :
    List PFSJoint → Except PFSFault (List PFSOut)
  | [] => .ok []
  | j :: js =>
      if who.process = j.jAdaptor.process then pfsLockEvents adaptors who l js
      else if l.lCnt = 0 then .error .assertCnt
      else do
        let found ←
          if j.jType = .eventLockRecall then holdHashGet adaptors j.jAdaptor.process l.lHoldHash
          else .ok (some (j.jAdaptor, j.jId))
        let out ← pfsLockEvents adaptors who l js
        if found = none then .ok out
        else .ok (.event j.jAdaptor l.lName l.lVer l.lEventSeq :: out)

/-- `PFSLockNotify` -/
def pfsLockNotify (who : SessionId) (a : ℕ) (s : PFS) : Except PFSFault PFS := do
  let l ← s.lockAt a
  let l := { l with lEventSeq := seqInc l.lEventSeq }
  let out ← pfsLockEvents s.adaptors who l (s.events a)
  .ok { s.setLock a l with out := s.out ++ out }

/-- The lock `l` at `a` is given to a session: the count, the joint, the item
of `l_HoldHash` and the reply. -/
def pfsLockReply (who : SessionId) (bRead : Bool) (a : ℕ) (l : PFSLock) (s : PFS) : PFS :=
  let lCnt := if bRead then l.lCnt + 1 else l.lCnt - 1
  let lVer := if bRead ∧ lCnt ≠ 1 then l.lVer else seqInc l.lVer
  let jType := if bRead then .lockReadHold else .lockWriteHold
  { s with
    lock := Function.update s.lock a
      (some { l with lCnt := lCnt, lVer := lVer, lHoldHash := l.lHoldHash ++ [(who, s.next)] })
    joints := ⟨s.next, jType, who, a⟩ :: s.joints
    next := s.next + 1
    out := s.out ++ [.lockRpl who lVer false] }

/-- The loop of `pfsUnlock` that wakes the waiting: all readers, or a writer. -/
def pfsWake (a : ℕ) : List LockWait → PFS → Except PFSFault PFS
  | [], s => .ok s
  | w :: ws, s => do
      let l ← s.lockAt a
      if w.aLockRead = false ∧ l.lCnt ≠ 0 then pfsWake a ws s
      else
        let s := pfsLockReply w.session w.aLockRead a l
          { s with waits := s.waits.filter fun v => v.session ≠ w.session }
        if w.aLockRead = false then .ok s else pfsWake a ws s

/-- `pfsUnlock` once the joint is freed and the lock is not. -/
def pfsUnlocked (a : ℕ) (s : PFS) : Except PFSFault PFS := do
  let l ← s.lockAt a
  if l.lCnt ≠ 0 then .ok s
  else
    let s ← pfsWake a (s.waiting a) s
    match s.waiting a with
    | [] => .ok s
    | w :: _ => pfsLockNotify w.session a s

/-- `pfsUnlock` of the joint at `i`. The item that is removed is the first
under the process `p`. -/
def pfsUnlock (p : Process) (i : ℕ) (bAbort : Bool) (s : PFS) : Except PFSFault PFS := do
  let j ← s.joint i
  let l ← s.lockAt j.jPArg
  if l.lCnt = 0 then .error .assertCnt
  else
    let e ← holdHashGet s.adaptors p l.lHoldHash
    let s := if bAbort ∧ l.lCnt < 0 then s.send (.deleted l.lName) else s
    let s := s.setLock j.jPArg { l with
      lCnt := if 0 < l.lCnt then l.lCnt - 1 else l.lCnt + 1
      lHoldHash := e.elim l.lHoldHash l.lHoldHash.erase }
    let (freed, s) ← pfsLockGarbage j.jPArg { s with joints := s.joints.filter fun k => k.jId ≠ i }
    if freed then .ok s else pfsUnlocked j.jPArg s

/-- `PFSLockS` from the list `l_AdaptorWait` on, if the session waits for nothing yet. -/
def pfsLockWait (who : SessionId) (bRead bEmptyWait : Bool) (a : ℕ) (s : PFS) :
    Except PFSFault PFS :=
  if s.waits.any fun w => w.session = who then .ok s
  else
    let s := { s with waits := s.waits ++ [⟨who, a, bRead⟩] }
    if bEmptyWait then pfsLockNotify who a s else .ok s

/-- `PFSLockS` -/
def pfsLockS (who : SessionId) (name : String) (bRead : Bool) (s : PFS) : Except PFSFault PFS :=
  if who ∉ s.adaptors then .error .assertAdaptor
  else do
    let (a, s) := s.lockAlloc name
    let l ← s.lockAt a
    let bEmptyWait := (s.waiting a).isEmpty
    if s.holds a = [] ∨ (bEmptyWait ∧ bRead ∧ 0 < l.lCnt) then .ok (pfsLockReply who bRead a l s)
    else
      match ← holdHashGet s.adaptors who.process l.lHoldHash with
      | none => pfsLockWait who bRead bEmptyWait a s
      | some e => do
          let s ← pfsUnlock who.process e.2 false s
          let l ← s.lockAt a
          if (bRead ∧ 0 ≤ l.lCnt) ∨ (bRead = false ∧ l.lCnt = 0) then
            .ok (pfsLockReply who bRead a l s)
          else pfsLockWait who bRead bEmptyWait a s

/-- `PFSTryLockS` of a request that is accepted -/
def pfsTryLockS (who : SessionId) (name : String) (bRead bTry : Bool) (s : PFS) :
    Except PFSFault PFS :=
  match bTry, s.cLock name with
  | true, some a => do
      let l ← s.lockAt a
      if (bRead ∧ 0 ≤ l.lCnt) ∨ (bRead = false ∧ l.lCnt = 0) then pfsLockS who name bRead s
      else .ok (s.send (.lockRpl who l.lVer true))
  | _, _ => pfsLockS who name bRead s

/-- `PFSUnlockS`: the first joint in `a_LockHold` that is of the lock. -/
def pfsUnlockS (who : SessionId) (name : String) (s : PFS) : Except PFSFault PFS :=
  if who ∉ s.adaptors then .error .nullAdaptor
  else
    match (s.cLock name).bind fun a => (s.holds a).find? fun j => j.jAdaptor = who with
    | none => .ok (s.send (.unlockRpl who (-1)))
    | some j => do
        let s ← pfsUnlock who.process j.jId false s
        .ok (s.send (.unlockRpl who 0))

/-- `PFSUnlockSuperS` for the client `lId` -/
def pfsUnlockSuperS (who : SessionId) (name : String) (lId : SessionId) (s : PFS) :
    Except PFSFault PFS :=
  match s.cLock name with
  | none => .ok (s.send (.unlockSuperRpl who (-1)))
  | some a => do
      let l ← s.lockAt a
      match ← holdHashGet s.adaptors lId.process l.lHoldHash with
      | none => .ok (s.send (.unlockSuperRpl who (-1)))
      | some e => do
          let s ← pfsUnlock lId.process e.2 false s
          .ok (s.send (.unlockSuperRpl who 0))

/-- `JOINT_FREE` of an event's joint -/
def pfsEventFree (i : ℕ) (s : PFS) : Except PFSFault PFS := do
  let j ← s.joint i
  let (_, s) ← pfsLockGarbage j.jPArg { s with joints := s.joints.filter fun k => k.jId ≠ i }
  .ok s

/-- `PFSEventLockS` for the client `elId`, of which `bBound` says that it has an
accept object. -/
def pfsEventLockS (who elId : SessionId) (name : String) (elSet elBRecall bBound : Bool) (s : PFS) :
    Except PFSFault PFS :=
  if elId ∉ s.adaptors then if bBound then .error .nullAdaptor else .ok (s.send (.enoent who))
  else if elSet then
    let (a, s) := s.lockAlloc name
    let jType := if elBRecall then .eventLockRecall else .eventLock
    .ok ({ s with joints := ⟨s.next, jType, elId, a⟩ :: s.joints, next := s.next + 1 }.send
      (.eventLockRpl who 0))
  else
    match s.cLock name with
    | none => .error .assertLock
    | some a =>
        match (s.events a).find? fun j => j.jAdaptor = elId with
        | none => .ok (s.send (.eventLockRpl who (-1)))
        | some j => do
            let s ← pfsEventFree j.jId s
            .ok (s.send (.eventLockRpl who 0))

/-- The loop of `PFSAdaptorClose` over the joints in `a_LockHold`. -/
def pfsUnlockAll (p : Process) (bAbort : Bool) : List ℕ → PFS → Except PFSFault PFS
  | [], s => .ok s
  | i :: is, s => do
      let s ← pfsUnlock p i bAbort s
      pfsUnlockAll p bAbort is s

/-- The loop of `PFSAdaptorClose` over the joints in `a_Events`. -/
def pfsEventFreeAll : List ℕ → PFS → Except PFSFault PFS
  | [], s => .ok s
  | i :: is, s => do
      let s ← pfsEventFree i s
      pfsEventFreeAll is s

/-- `PFSAdaptorClose`. The session waits no more, so nothing it holds is added
while the loop goes from the last of `a_LockHold` to the first. -/
def pfsAdaptorClose (who : SessionId) (bAbort : Bool) (s : PFS) : Except PFSFault PFS :=
  if who ∉ s.adaptors then .ok s
  else do
    let s := { s with waits := s.waits.filter fun w => w.session ≠ who }
    let held := s.joints.filter fun j => j.hold ∧ j.jAdaptor = who
    let s ← pfsUnlockAll who.process bAbort (held.reverse.map (·.jId)) s
    let aEvents := s.joints.filter fun j => !j.hold ∧ j.jAdaptor = who
    let s ← pfsEventFreeAll (aEvents.map (·.jId)) s
    .ok { s with adaptors := s.adaptors.erase who }

/-- `PFSAdaptorOpen`: an adaptor that is there already is kept. -/
def pfsAdaptorOpen (who : SessionId) (s : PFS) : PFS :=
  if who ∈ s.adaptors then s else { s with adaptors := who :: s.adaptors }

/-- The requests that act on locks, as they are executed. -/
inductive PFSOp where
  | open (who : SessionId)
  | lock (who : SessionId) (name : String) (bRead bTry : Bool)
  | unlock (who : SessionId) (name : String)
  | unlockSuper (who : SessionId) (name : String) (lId : SessionId)
  | eventLock (who elId : SessionId) (name : String) (elSet elBRecall bBound : Bool)
  | close (who : SessionId) (bAbort : Bool)

def pfsStep (s : PFS) : PFSOp → Except PFSFault PFS
  | .open who => .ok (pfsAdaptorOpen who s)
  | .lock who name bRead bTry => pfsTryLockS who name bRead bTry s
  | .unlock who name => pfsUnlockS who name s
  | .unlockSuper who name lId => pfsUnlockSuperS who name lId s
  | .eventLock who elId name elSet elBRecall bBound =>
      pfsEventLockS who elId name elSet elBRecall bBound s
  | .close who bAbort => pfsAdaptorClose who bAbort s

end PaxosSolutions
