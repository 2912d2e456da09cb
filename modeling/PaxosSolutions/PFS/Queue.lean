import PaxosSolutions.PFS.Lock

/-!
# Message queues of the file service

A session posts messages to a queue, and sessions that peek wait in it. The
first message is sent to the first that waits, and `q_Peek` says that it was;
its acknowledgement takes the message off and lets the next one have the next
message. A queue that no message, session or event is linked to is freed.
-/
namespace PaxosSolutions
open Lib NWGadget

def EPIPE : ℤ := 32

def QUEUE_POST_MAX : ℤ := 100

/-- `PFSQueue_t` under its name. `q_AdaptorMsg` has the posted requests. -/
structure PFSQueue (M : Type) where
  qPeek : Bool := false
  qCntMsg : ℤ := 0
  qMsg : List M := []
  qEventSeq : UInt32 := 0

/-- An adaptor in the list `q_AdaptorWait` of the queue `a_pQueueWait`. -/
structure QueueWait where
  session : SessionId
  qName : String
deriving DecidableEq

/-- A joint of `q_AdaptorEvent` and `a_Events`. -/
structure QueueJoint where
  jAdaptor : SessionId
  qName : String
deriving DecidableEq

/-- What the service sends or does besides: it links and destroys messages and
closes sessions. -/
inductive QueueOut (M : Type) where
  | postRpl (s : SessionId) (hError : ℤ)
  | peekRpl (s : SessionId) (qName : String) (m : M)
  | peekAckRpl (s : SessionId) (hError : ℤ)
  | eventQueueRpl (s : SessionId) (hError : ℤ)
  | event (s : SessionId) (qName : String) (eqPostWait : Bool) (eqId : SessionId)
      (eqEventSeq : UInt32)
  | linked (qName : String) (m : M)
  | destroyed (s : SessionId) (qName : String) (m : M)
  | closed (s : SessionId)

/-- `CNTRL`, as far as queues go. `waits` is in the order of the waiting, and
`joints` has the latest first. -/
structure PFSQueues (M : Type) where
  queue : String → Option (PFSQueue M) := fun _ => none
  waits : List QueueWait := []
  joints : List QueueJoint := []
  adaptors : List SessionId := []
  out : List (QueueOut M) := []

/-- A missing queue, adaptor or message, the failed `ASSERT`s, and an adaptor
that is linked to a second list. -/
inductive QueueFault where
  | nullQueue | nullAdaptor | nullMsg | assertMsg | assertCksum | assertPeek | assertQueue
  | relinked
deriving DecidableEq, Repr

variable {M : Type}

namespace PFSQueues

def queueAt (name : String) (s : PFSQueues M) : Except QueueFault (PFSQueue M) :=
  match s.queue name with
  | none => .error .nullQueue
  | some q => .ok q

def setQueue (name : String) (q : PFSQueue M) (s : PFSQueues M) : PFSQueues M :=
  { s with queue := Function.update s.queue name (some q) }

def send (o : QueueOut M) (s : PFSQueues M) : PFSQueues M := { s with out := s.out ++ [o] }

/-- `q_AdaptorWait` -/
def waiting (name : String) (s : PFSQueues M) : List QueueWait :=
  s.waits.filter fun w => w.qName = name

/-- `q_AdaptorEvent` -/
def events (name : String) (s : PFSQueues M) : List QueueJoint :=
  s.joints.filter fun j => j.qName = name

/-- `DHashListGet` on `c_Queue`, and `QUEUE_ALLOC` if it finds nothing. -/
def queueAlloc (name : String) (s : PFSQueues M) : PFSQueues M :=
  match s.queue name with
  | some _ => s
  | none => s.setQueue name {}

end PFSQueues

def queueGarbage (name : String) (s : PFSQueues M) : Except QueueFault (PFSQueues M) := do
  let q ← s.queueAt name
  if q.qMsg = [] ∧ s.waiting name = [] ∧ s.events name = [] then
    .ok { s with queue := Function.update s.queue name none }
  else .ok s

/-- `pfsPeekReply`. `bad` says of a request that `c_bCksum` is set and its
checksum is wrong. -/
def pfsPeekReply (bad : M → Bool) (who : SessionId) (name : String) (s : PFSQueues M) :
    Except QueueFault (PFSQueues M) := do
  let q ← s.queueAt name
  match q.qMsg with
  | [] => .error .assertMsg
  | m :: _ =>
      if bad m then .error .assertCksum
      else .ok ((s.setQueue name { q with qPeek := true }).send (.peekRpl who name m))

/-- The end of `PFSPostS` and of `PFSPeekS`: the events of the queue. -/
def pfsQueueNotify (who : SessionId) (name : String) (eqPostWait : Bool) (s : PFSQueues M) :
    Except QueueFault (PFSQueues M) := do
  let q ← s.queueAt name
  let qEventSeq := seqInc q.qEventSeq
  let out := ((s.events name).filter fun j => j.jAdaptor.process ≠ who.process).map
    fun j => .event j.jAdaptor name eqPostWait who qEventSeq
  .ok { s.setQueue name { q with qEventSeq := qEventSeq } with out := s.out ++ out }

/-- `PFSPostS` -/
def pfsPostS (bad : M → Bool) (who : SessionId) (name : String) (m : M) (s : PFSQueues M) :
    Except QueueFault (PFSQueues M) := do
  let s := s.queueAlloc name
  let q ← s.queueAt name
  if QUEUE_POST_MAX < q.qCntMsg then .ok (s.send (.postRpl who EPIPE))
  else
    let s := (s.setQueue name { q with
      qMsg := q.qMsg ++ [m]
      qCntMsg := q.qCntMsg + 1 }).send (.linked name m)
    let s ←
      match q.qPeek, s.waiting name with
      | false, w :: _ => pfsPeekReply bad w.session name s
      | _, _ => .ok s
    pfsQueueNotify who name false (s.send (.postRpl who 0))

/-- `PFSPeekS`: the reply goes to the session itself, whoever waits before it. -/
def pfsPeekS (bad : M → Bool) (who : SessionId) (name : String) (s : PFSQueues M) :
    Except QueueFault (PFSQueues M) :=
  if who ∉ s.adaptors then .error .nullAdaptor
  else if s.waits.any fun w => w.session = who then .error .relinked
  else do
    let s := s.queueAlloc name
    let s := { s with waits := s.waits ++ [⟨who, name⟩] }
    let q ← s.queueAt name
    let s ← if q.qPeek = false ∧ 0 < q.qCntMsg then pfsPeekReply bad who name s else .ok s
    let s ← pfsQueueNotify who name true s
    queueGarbage name s

/-- The message of `pfsPeekAck` that is taken off, if one is. -/
def pfsPeekRemove (who : SessionId) (name : String) (bRemove : Bool) (s : PFSQueues M) :
    Except QueueFault (PFSQueues M) := do
  let q ← s.queueAt name
  match bRemove, q.qMsg with
  | false, _ => .ok s
  | true, [] => .error .nullMsg
  | true, m :: ms =>
      .ok ((s.setQueue name { q with qMsg := ms, qCntMsg := q.qCntMsg - 1 }).send
        (.destroyed who name m))

/-- The end of `pfsPeekAck`: the next one has the next message. -/
def pfsPeekKick (bad : M → Bool) (name : String) (s : PFSQueues M) :
    Except QueueFault (PFSQueues M) := do
  let q ← s.queueAt name
  match q.qMsg, s.waiting name with
  | _ :: _, w :: _ => pfsPeekReply bad w.session name s
  | _, _ => queueGarbage name s

/-- `pfsPeekAck`: the queue is the one the session waits in. -/
def pfsPeekAck (bad : M → Bool) (who : SessionId) (bRemove : Bool) (s : PFSQueues M) :
    Except QueueFault (PFSQueues M) :=
  match s.waits.find? fun w => w.session = who with
  | none => .error .nullQueue
  | some w => do
      let s := { s with waits := s.waits.filter fun v => v.session ≠ who }
      let s ← pfsPeekRemove who w.qName bRemove s
      let q ← s.queueAt w.qName
      if q.qPeek = false then .error .assertPeek
      else pfsPeekKick bad w.qName (s.setQueue w.qName { q with qPeek := false })

/-- `PFSPeekAckS`: the name says nothing but that the queue is there. -/
def pfsPeekAckS (bad : M → Bool) (who : SessionId) (name : String) (s : PFSQueues M) :
    Except QueueFault (PFSQueues M) :=
  match s.queue name with
  | none => .ok (s.send (.peekAckRpl who ENOENT))
  | some _ =>
      if who ∉ s.adaptors then .error .nullAdaptor
      else do
        let s ← pfsPeekAck bad who true s
        .ok (s.send (.peekAckRpl who 0))

/-- `JOINT_FREE` of a queue's joint -/
def pfsQueueEventFree (j : QueueJoint) (s : PFSQueues M) : Except QueueFault (PFSQueues M) :=
  queueGarbage j.qName { s with joints := s.joints.erase j }

/-- `PFSEventQueueS` for the client `eqId`, of which `bBound` says that it has an
accept object. -/
def pfsEventQueueS (who eqId : SessionId) (name : String) (eqSet bBound : Bool)
    (s : PFSQueues M) : Except QueueFault (PFSQueues M) :=
  if eqId ∉ s.adaptors then
    if bBound then .error .nullAdaptor else .ok (s.send (.eventQueueRpl who ENOENT))
  else if eqSet then
    let s := s.queueAlloc name
    .ok ({ s with joints := ⟨eqId, name⟩ :: s.joints }.send (.eventQueueRpl who 0))
  else
    match s.queue name with
    | none => .error .assertQueue
    | some _ =>
        if ⟨eqId, name⟩ ∈ s.joints then do
          let s ← pfsQueueEventFree ⟨eqId, name⟩ s
          .ok (s.send (.eventQueueRpl who 0))
        else .ok (s.send (.eventQueueRpl who (-1)))

/-- The loop of `PFSAdaptorClose` over the joints in `a_Events`. -/
def pfsQueueEventFreeAll : List QueueJoint → PFSQueues M → Except QueueFault (PFSQueues M)
  | [], s => .ok s
  | j :: js, s => do
      let s ← pfsQueueEventFree j s
      pfsQueueEventFreeAll js s

/-- `PFSAdaptorClose`, as far as queues go. -/
def pfsQueueClose (bad : M → Bool) (who : SessionId) (s : PFSQueues M) :
    Except QueueFault (PFSQueues M) :=
  if who ∉ s.adaptors then .ok s
  else do
    let s := s.send (.closed who)
    let s ← if s.waits.any fun w => w.session = who then pfsPeekAck bad who false s else .ok s
    let s ← pfsQueueEventFreeAll (s.joints.filter fun j => j.jAdaptor = who) s
    .ok { s with adaptors := s.adaptors.erase who }

/-- The requests that act on queues, as they are executed. -/
inductive QueueOp (M : Type) where
  | open (who : SessionId)
  | post (who : SessionId) (name : String) (m : M)
  | peek (who : SessionId) (name : String)
  | peekAck (who : SessionId) (name : String)
  | eventQueue (who eqId : SessionId) (name : String) (eqSet bBound : Bool)
  | close (who : SessionId)

def queueStep (bad : M → Bool) (s : PFSQueues M) : QueueOp M → Except QueueFault (PFSQueues M)
  | .open who =>
      .ok (if who ∈ s.adaptors then s else { s with adaptors := who :: s.adaptors })
  | .post who name m => pfsPostS bad who name m s
  | .peek who name => pfsPeekS bad who name s
  | .peekAck who name => pfsPeekAckS bad who name s
  | .eventQueue who eqId name eqSet bBound => pfsEventQueueS who eqId name eqSet bBound s
  | .close who => pfsQueueClose bad who s

end PaxosSolutions
