import PaxosSolutions.PFS.Queue
import PaxosSolutions.PFS.Path

/-!
# The file service

The requests as `PFSAccepted` dispatches them, over the locks, the queues and
the paths, and the closing of a session, which has to do with all of them. An
event is asked for in the name of a client, whose accept object is taken and put
back meanwhile.
-/
namespace PaxosSolutions
open Lib NWGadget

/-! ### Requests on files -/

/-- The end of a request that changed the entry `pName` of a directory, or did not. -/
def pfsEntryS (who : SessionId) (pName : List Char) (edMode : PFSDirEntryMode)
    (bChanged bError : Bool) (s : PFSPaths) : Except PathFault PFSPaths := do
  let s ← if bChanged then pfsUpdateDir pName edMode s else .ok s
  .ok (s.send (.rpl who bError))

/-- `PFSTruncateS`. `ret` is what `FileCacheTruncate` returns. -/
def pfsTruncateS (who : SessionId) (tName : List Char) (ret : ℤ) :
    PFSPaths → Except PathFault PFSPaths :=
  pfsEntryS who (rootOmitted tName) .update (ret = 0) (ret ≠ 0)

/-- `PFSConcatS`. `ret` is what the last `FileCacheRead` or `FileCacheAppend` returns. -/
def pfsConcatS (who : SessionId) (cTo : List Char) (ret : ℤ) :
    PFSPaths → Except PathFault PFSPaths :=
  pfsEntryS who (rootOmitted cTo) .update (0 ≤ ret) (ret < 0)

/-- `PFSCopyS`, with what `FileCacheDelete` and `FileCacheCreate` return and
the last of `FileCacheRead` and `FileCacheWrite`. -/
def pfsCopyS (who : SessionId) (cTo : List Char) (retDelete retCreate ret : ℤ) (s : PFSPaths) :
    Except PathFault PFSPaths := do
  let pTo := rootOmitted cTo
  let s ← if retDelete = 0 then pfsUpdateDir pTo .delete s else .ok s
  let s ← if retCreate = 0 then pfsUpdateDir pTo .create s else .ok s
  .ok (s.send (.rpl who (retCreate < 0 ∨ ret < 0)))

/-- `pfsMkdir` and `pfsRmdir` from the changed directory on, and the reply. -/
def pfsDirS (who : SessionId) (pName : List Char) (edMode : PFSDirEntryMode) (ret : ℤ)
    (s : PFSPaths) : Except PathFault PFSPaths := do
  let s ←
    if ret = 0 then pfsUpdateDirAt (rootOmitted (dirname pName)) edMode (basename pName) s
    else .ok s
  .ok (s.send (.rpl who (ret ≠ 0)))

/-- `PFSMKdirS`. `ret` is what `mkdir -p` returns. -/
def pfsMKdirS (who : SessionId) (mName : List Char) (ret : ℤ) :
    PFSPaths → Except PathFault PFSPaths := pfsDirS who mName .create ret

/-- `PFSRmdirS`. `ret` is 0 if `rmdir` leaves no entry. -/
def pfsRmdirS (who : SessionId) (rName : List Char) (ret : ℤ) :
    PFSPaths → Except PathFault PFSPaths := pfsDirS who rName .delete ret

/-! ### The service -/

/-- `CNTRL`. `e_Cnt` of a client's accept object is 0 if the client has none. -/
structure PFSService (M : Type) where
  locks : PFS := {}
  queues : PFSQueues M := {}
  paths : PFSPaths := {}
  eCnt : SessionId → ℤ := fun _ => 0

/-- What stops the service: a fault of its parts, the `ASSERT`s on `e_Cnt` and
on the data of a request, and the command that `PFSAccepted` does not know. -/
inductive ServiceFault where
  | lock (e : PFSFault)
  | queue (e : QueueFault)
  | path (e : PathFault)
  | assertECnt | assertData | abort
deriving DecidableEq, Repr

variable {M : Type}

namespace PFSService

def onLocks (f : PFS → Except PFSFault PFS) (s : PFSService M) :
    Except ServiceFault (PFSService M) :=
  match f s.locks with
  | .ok t => .ok { s with locks := t }
  | .error e => .error (.lock e)

def onQueues (f : PFSQueues M → Except QueueFault (PFSQueues M)) (s : PFSService M) :
    Except ServiceFault (PFSService M) :=
  match f s.queues with
  | .ok t => .ok { s with queues := t }
  | .error e => .error (.queue e)

def onPaths (f : PFSPaths → Except PathFault PFSPaths) (s : PFSService M) :
    Except ServiceFault (PFSService M) :=
  match f s.paths with
  | .ok t => .ok { s with paths := t }
  | .error e => .error (.path e)

/-- `PaxosAcceptGet` of an accept object that is there. -/
def acceptGet (who : SessionId) (s : PFSService M) : PFSService M :=
  { s with eCnt := Function.update s.eCnt who (s.eCnt who + 1) }

/-- `PaxosAcceptPut` -/
def acceptPut (who : SessionId) (s : PFSService M) : Except ServiceFault (PFSService M) :=
  if s.eCnt who - 1 < 0 then .error .assertECnt
  else .ok { s with eCnt := Function.update s.eCnt who (s.eCnt who - 1) }

end PFSService

/-- `PFSEventDirS` and its like for the client `id`: they put back the accept
object of `put`. -/
def pfsEventS (id put : SessionId) (f : Bool → PFSService M → Except ServiceFault (PFSService M))
    (s : PFSService M) : Except ServiceFault (PFSService M) :=
  if s.eCnt id ≤ 0 then f false s
  else do
    let s ← f true (s.acceptGet id)
    s.acceptPut put

/-- The data that an `OUTOFBAND` request left: too short, a message, a write,
or another command. -/
inductive OutOfBandData (M : Type) where
  | short
  | post (name : String) (m : M)
  | write (wName : List Char) (bEphemeral : Bool) (ret retCreate retAgain : ℤ)
  | other

/-- The requests of a session, with what the file cache returns. -/
inductive ServiceRequest (M : Type) where
  | write (wName : List Char) (bEphemeral : Bool) (ret retCreate retAgain : ℤ)
  | create (cName : List Char) (bEphemeral : Bool) (ret : ℤ)
  | delete (dName : List Char) (ret : ℤ)
  | truncate (tName : List Char) (ret : ℤ)
  | copy (cTo : List Char) (retDelete retCreate ret : ℤ)
  | concat (cTo : List Char) (ret : ℤ)
  | lock (name : String) (bRead bTry : Bool)
  | unlock (name : String)
  | unlockSuper (name : String) (lId : SessionId)
  | outOfBand (pData : Option (OutOfBandData M))
  | eventDir (edId : SessionId) (edName : List Char) (edSet : Bool)
  | eventLock (elId : SessionId) (name : String) (elSet elBRecall : Bool)
  | mkdir (mName : List Char) (ret : ℤ)
  | rmdir (rName : List Char) (ret : ℤ)
  | post (name : String) (m : M)
  | peek (name : String)
  | peekAck (name : String)
  | eventQueue (eqId : SessionId) (name : String) (eqSet : Bool)
  | other

/-- `PFSOutOfBandReq` -/
def pfsOutOfBandReq (bad : M → Bool) (who : SessionId) (s : PFSService M) :
    Option (OutOfBandData M) → Except ServiceFault (PFSService M)
  | none => .error .assertData
  | some .short => s.onPaths fun p => .ok (p.send (.rpl who true))
  | some (.post name m) => s.onQueues (pfsPostS bad who name m)
  | some (.write wName bEphemeral ret retCreate retAgain) =>
      s.onPaths (pfsWriteS who wName bEphemeral ret retCreate retAgain)
  | some .other => s.onPaths fun p => .ok (p.send (.rpl who false))

/-- `PFSAccepted` -/
def pfsAccepted (bad : M → Bool) (who : SessionId) (s : PFSService M) :
    ServiceRequest M → Except ServiceFault (PFSService M)
  | .write wName bEphemeral ret retCreate retAgain =>
      s.onPaths (pfsWriteS who wName bEphemeral ret retCreate retAgain)
  | .create cName bEphemeral ret => s.onPaths (pfsCreateS who cName bEphemeral ret)
  | .delete dName ret => s.onPaths (pfsDeleteS who dName ret)
  | .truncate tName ret => s.onPaths (pfsTruncateS who tName ret)
  | .copy cTo retDelete retCreate ret => s.onPaths (pfsCopyS who cTo retDelete retCreate ret)
  | .concat cTo ret => s.onPaths (pfsConcatS who cTo ret)
  | .lock name bRead bTry => s.onLocks (pfsTryLockS who name bRead bTry)
  | .unlock name => s.onLocks (pfsUnlockS who name)
  | .unlockSuper name lId => s.onLocks (pfsUnlockSuperS who name lId)
  | .outOfBand pData => pfsOutOfBandReq bad who s pData
  | .eventDir edId edName edSet =>
      pfsEventS edId edId (fun bBound t => t.onPaths (pfsEventDirS who edId edName edSet bBound)) s
  | .eventLock elId name elSet elBRecall =>
      pfsEventS elId elId
        (fun bBound t => t.onLocks (pfsEventLockS who elId name elSet elBRecall bBound)) s
  | .mkdir mName ret => s.onPaths (pfsMKdirS who mName ret)
  | .rmdir rName ret => s.onPaths (pfsRmdirS who rName ret)
  | .post name m => s.onQueues (pfsPostS bad who name m)
  | .peek name => s.onQueues (pfsPeekS bad who name)
  | .peekAck name => s.onQueues (pfsPeekAckS bad who name)
  | .eventQueue eqId name eqSet =>
      -- the accept object that is put back is not the one that was taken
      pfsEventS eqId who (fun bBound t => t.onQueues (pfsEventQueueS who eqId name eqSet bBound)) s
  | .other => .error .abort

/-- `PFSAdaptorClose`. The joints in `a_Events` are of locks, queues and paths,
which have nothing to do with each other. -/
def pfsServiceClose (bad : M → Bool) (who : SessionId) (bAbort : Bool) (ret : List Char → ℤ)
    (s : PFSService M) : Except ServiceFault (PFSService M) := do
  let s ← s.onQueues (pfsQueueClose bad who)
  let s ← s.onLocks (pfsAdaptorClose who bAbort)
  s.onPaths (pfsPathClose who ret)

/-- `ThreadExecute` around a request: it has the session's accept object meanwhile. -/
def executeAccepted (bad : M → Bool) (who : SessionId) (r : ServiceRequest M) (s : PFSService M) :
    Except ServiceFault (PFSService M) := do
  let s ← pfsAccepted bad who (s.acceptGet who) r
  s.acceptPut who

/-- What the session layer has the service do, and the accept objects it takes
and puts back besides. -/
inductive ServiceOp (M : Type) where
  | open (who : SessionId)
  | accepted (who : SessionId) (r : ServiceRequest M)
  | close (who : SessionId) (bAbort : Bool) (ret : List Char → ℤ)
  | acceptGet (who : SessionId)
  | acceptPut (who : SessionId)

def serviceStep (bad : M → Bool) (s : PFSService M) :
    ServiceOp M → Except ServiceFault (PFSService M)
  | .open who => do
      let s ← s.onQueues fun q => queueStep bad q (.open who)
      let s ← s.onLocks fun l => pfsStep l (.open who)
      s.onPaths fun p => pathStep p (.open who)
  | .accepted who r => executeAccepted bad who r s
  | .close who bAbort ret => pfsServiceClose bad who bAbort ret s
  | .acceptGet who => .ok (s.acceptGet who)
  | .acceptPut who => s.acceptPut who

end PaxosSolutions
