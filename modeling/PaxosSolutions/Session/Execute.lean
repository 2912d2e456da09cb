import PaxosSolutions.Lib.Run
import PaxosSolutions.Session.Accept

/-!
# The executor and the workers of an acceptor

`ThreadExecute` takes the decided commands one after the other. Workers take
the requests that arrive on connections, propose commands and serve reads. Each
step below runs under one lock, so that the others can come between any two;
a call of the application is one step with the replies it makes.
-/
namespace PaxosSolutions
open Lib NWGadget

/-- What the application does to an accept object it has opened. -/
inductive AppAct where
  | replyByMsg (s : SessionId) (m : NWGadget.Msg)
  | eventRaise (s : SessionId) (bytes : List UInt8)
deriving DecidableEq, Repr

/-- `c_IF`. `isRead` are the commands that `if_fRequest` answers itself and
`fRead` the answer; `head` and `rpl` are heads in memory. -/
structure AcceptorIF (σ : Type) where
  isRead : ℕ → Bool
  fSessionOpen : PaxosSessionHead → σ → σ × ℤ
  fAccepted : PaxosSessionHead → σ → σ × List AppAct
  fSessionClose : PaxosSessionHead → σ → σ × List AppAct × ℤ
  fRead : PaxosSessionHead → σ → NWGadget.Msg
  head : PaxosAccept.EventHead
  rpl : PaxosCmd → ℤ → NWGadget.Msg

/-- The waits, the failed `ASSERT`s, the `ABORT()` of the default case and the
use of a `NULL` accept object. -/
inductive ExecuteFault where
  | accept (e : AcceptFault)
  | get (e : GElmFault)
  | startWait | assertAccept | assertRet | assertOpened | abort | null | assertClosing
deriving DecidableEq, Repr

/-- The thread goes on when another one has done something. -/
def ExecuteFault.waits : ExecuteFault → Bool
  | .accept .wait | .get .wait | .startWait => true
  | _ => false

/-- Where `ThreadExecute` is with `pPSH`. In the `switch` it is known whether
`pAccept` is not `NULL`. -/
inductive ExecuteAt where
  | recv
  | isAccepted (pPSH : PaxosSessionHead)
  | seqWait (pPSH : PaxosSessionHead)
  | acceptedStart (pPSH : PaxosSessionHead)
  | switch (pPSH : PaxosSessionHead) (pAccept : Bool)
  | acceptedEnd (pPSH : PaxosSessionHead)
deriving DecidableEq, Repr

/-- Where `ThreadWorker` is with `pH`. `closing` has the saved `Opened`. -/
inductive WorkerAt where
  | got | accepted | opening | closing (saved : PaxosAcceptOpen) | reading | done
deriving DecidableEq, Repr

structure Worker where
  pH : PaxosSessionHead
  stage : WorkerAt := .got
deriving DecidableEq, Repr

def Worker.session (w : Worker) : SessionId := w.pH.hId.toSessionId

/-- A message that goes to a client, and whether it has the command of a read. -/
structure SessionRpl where
  session : SessionId
  iSeq : UInt32
  read : Bool
deriving DecidableEq, Repr

/-- `PaxosAcceptor_t`: `conns` are the sessions of the bound connections, `tags`
those the application has opened, `calls` the messages it was called with, and
`seq` counts the decided commands that are done. -/
structure PaxosAcceptor (σ : Type) where
  app : σ
  cAccept : AcceptCtrl := { geMaxCnt := 20000 }
  conns : List SessionId := []
  workers : List Worker := []
  tags : List SessionId := []
  stage : ExecuteAt := .recv
  seq : ℕ := 0
  calls : List PaxosSessionHead := []
  sent : List SessionRpl := []

section
variable {σ : Type} (f : AcceptorIF σ) (log : List PaxosSessionHead)

namespace PaxosAcceptor
variable (s : SessionId) (r : PaxosAcceptor σ)

def accept : Option PaxosAccept := r.cAccept.val s

def update (g : PaxosAccept → PaxosAccept) : PaxosAcceptor σ :=
  { r with cAccept := r.cAccept.change s g }

def goto (stage : ExecuteAt) : PaxosAcceptor σ := { r with stage := stage }

/-- One more command is done. -/
def count : PaxosAcceptor σ := { r with seq := r.seq + 1 }

/-- The application has been called with `m`. -/
def call (app : σ) (m : PaxosSessionHead) : PaxosAcceptor σ :=
  { r with app := app, calls := r.calls ++ [m] }

def tag : PaxosAcceptor σ := { r with tags := s :: r.tags }

def untag : PaxosAcceptor σ := { r with tags := r.tags.filter (· ≠ s) }

def get (i : PaxosClientId) (bCreate : Bool) : Except ExecuteFault (PaxosAcceptor σ) :=
  match paxosAcceptGet i bCreate r.cAccept with
  | .error e => .error (.get e)
  | .ok c => .ok { r with cAccept := c }

def put : Except ExecuteFault (PaxosAcceptor σ) :=
  match paxosAcceptPut s r.cAccept with
  | .error e => .error (.get e)
  | .ok c => .ok { r with cAccept := c }

/-- A message goes out under the number of the last started command. -/
def send (read : Bool) : PaxosAcceptor σ :=
  match r.accept s with
  | none => r
  | some a => { r with sent := r.sent ++ [⟨s, a.aId.iSeq, read⟩] }

/-- `PaxosAcceptReplyByMsg`, and `PaxosAcceptReplyReadByMsg` if not `aMaster`. -/
def reply (aMaster : Bool) (m : NWGadget.Msg) : PaxosAcceptor σ :=
  (r.update s (·.reply aMaster m)).send s !aMaster

/-- A duplicate lets the reply that is kept go out again. It is a read's if
`a_Master` is not set. -/
def isAccepted (h : PaxosSessionHead) : Except ExecuteFault (PaxosAcceptor σ × ℤ) :=
  match r.accept h.hId.toSessionId with
  | none => .error (.get .freed)
  | some a =>
      match a.isAccepted h with
      | .error e => .error (.accept e)
      | .ok (b, n) =>
          let r := r.update h.hId.toSessionId fun _ => b
          .ok (if n = 1 then r.send h.hId.toSessionId !b.aAccepted.aMaster else r, n)

/-- The tags of open sessions are what the application finds accept objects by. -/
def act : AppAct → Except ExecuteFault (PaxosAcceptor σ)
  | .replyByMsg s m => .ok (if s ∈ r.tags then r.reply s true m else r)
  | .eventRaise s bytes =>
      match if s ∈ r.tags then r.accept s else none with
      | none => .ok r
      | some a =>
          match a.eventRaise f.head bytes with
          | .error e => .error (.accept e)
          | .ok b =>
              let r := r.update s fun _ => b
              .ok (if a.aEvents.eSend then r.send s false else r)

def acts : List AppAct → PaxosAcceptor σ → Except ExecuteFault (PaxosAcceptor σ)
  | [], r => .ok r
  | x :: xs, r => (r.act f x).bind (acts xs)

end PaxosAcceptor

/-! ### ThreadExecute -/

variable (pPSH : PaxosSessionHead) (r : PaxosAcceptor σ)

/-- `PaxosRecvFromPaxos` and `PaxosAcceptGet`. -/
def executeRecv : Except ExecuteFault (PaxosAcceptor σ) :=
  match log[r.seq]? with
  | none => .ok r
  | some pPSH =>
      match r.get pPSH.hId (pPSH.hCmd = .sessionOpen) with
      | .error e => .error e
      | .ok t =>
          .ok (t.goto (if (t.accept pPSH.hId.toSessionId).isSome then
            if pPSH.hCmd = .sessionAbort then .switch pPSH true else .isAccepted pPSH
            else .switch pPSH false))

/-- `PaxosAcceptPut` and `next`. -/
def executeNext : Except ExecuteFault (PaxosAcceptor σ) :=
  match r.put pPSH.hId.toSessionId with
  | .error e => .error e
  | .ok t => .ok (t.goto .recv)

def executeIsAccepted : Except ExecuteFault (PaxosAcceptor σ) :=
  match r.isAccepted pPSH with
  | .error e => .error e
  | .ok (t, n) => if n = 0 then .ok (t.goto (.seqWait pPSH)) else executeNext pPSH t.count

/-- Where the session is not that far `ERR_SESSION_NOT_FOUND` is sent. -/
def executeSeqWait : Except ExecuteFault (PaxosAcceptor σ) :=
  match r.accept pPSH.hId.toSessionId with
  | none => .error (.get .freed)
  | some a =>
      if 0 < cmp32 pPSH.hId.iSeqWait a.aAccepted.aEnd then executeNext pPSH r.count
      else .ok (r.goto (.acceptedStart pPSH))

def executeStart : Except ExecuteFault (PaxosAcceptor σ) :=
  match r.accept pPSH.hId.toSessionId with
  | none => .error (.get .freed)
  | some a =>
      if a.waits pPSH then .error .startWait
      else .ok ((r.update pPSH.hId.toSessionId (·.acceptedSeq pPSH)).goto (.switch pPSH true))

/-- `case PAXOS_SESSION_OPEN` -/
def executeOpen : Except ExecuteFault (PaxosAcceptor σ) :=
  let s := pPSH.hId.toSessionId
  let (app, ret) := f.fSessionOpen pPSH r.app
  let r := r.call app pPSH
  let r := if ret = 0 then (r.update s fun a => { a with aOpened := .opened }).tag s else r
  let r := r.reply s true (f.rpl .sessionOpen ret)
  if ret = 0 then .ok r else .error .assertRet

/-- The application is called for an open session only. -/
def sessionClose : Except ExecuteFault (PaxosAcceptor σ × ℤ) :=
  let s := pPSH.hId.toSessionId
  match r.accept s with
  | none => .error (.get .freed)
  | some a =>
      if a.aOpened = .binded then .ok (r, -1)
      else
        let (app, xs, ret) := f.fSessionClose pPSH r.app
        match (r.call app pPSH).acts f xs with
        | .error e => .error e
        | .ok t => .ok (t.untag s, ret)

/-- `case PAXOS_SESSION_CLOSE` and `case PAXOS_SESSION_ABORT` -/
def executeClose : Except ExecuteFault (PaxosAcceptor σ) :=
  let s := pPSH.hId.toSessionId
  match sessionClose f pPSH r with
  | .error e => .error e
  | .ok (t, ret) =>
      let t := if pPSH.hCmd = .sessionClose then t.reply s true (f.rpl .sessionClose ret) else t
      (t.update s fun a => { a with aOpened := .binded }).put s

/-- `case PAXOS_SESSION_EVENT` -/
def executeEvent : Except ExecuteFault (PaxosAcceptor σ) :=
  let s := pPSH.hId.toSessionId
  match r.accept s with
  | none => .error (.get .freed)
  | some a =>
      let t := r.update s (·.eventGet f.head)
      .ok (if 0 < a.aEvents.eCnt then t.send s false else t)

/-- `default` -/
def executeDefault : Except ExecuteFault (PaxosAcceptor σ) :=
  match r.accept pPSH.hId.toSessionId with
  | none => .error (.get .freed)
  | some a =>
      if a.aOpened = .binded then .error .assertOpened
      else
        let (app, xs) := f.fAccepted pPSH r.app
        (r.call app pPSH).acts f xs

/-- The `switch`, with `pAccept` as it is behind it. Without an accept object
the log lines of `EVENT` and `CHANGE_MEMBER` read from `NULL`. `CHANGE_MEMBER`
answers with `PaxosAcceptSend`, which leaves `a_Reply` as it is. -/
def executeCase (pAccept : Bool) : Except ExecuteFault (PaxosAcceptor σ × Bool) :=
  match pPSH.hCmd with
  | .sessionOpen =>
      if pAccept then (executeOpen f pPSH r).map fun t => (t, true) else .error .assertAccept
  | .sessionClose | .sessionAbort =>
      if pAccept then (executeClose f pPSH r).map fun t => (t, false) else .ok (r, false)
  | .sessionEvent =>
      if pAccept then (executeEvent f pPSH r).map fun t => (t, true) else .error .null
  | .changeMember =>
      if pAccept then .ok (r.send pPSH.hId.toSessionId false, true) else .error .null
  | .app _ =>
      if pAccept then (executeDefault f pPSH r).map fun t => (t, true) else .error .abort

def executeSwitch (pAccept : Bool) : Except ExecuteFault (PaxosAcceptor σ) :=
  match executeCase f pPSH r pAccept with
  | .error e => .error e
  | .ok (t, pAccept) => .ok (t.count.goto (if pAccept then .acceptedEnd pPSH else .recv))

def executeEnd : Except ExecuteFault (PaxosAcceptor σ) :=
  match r.accept pPSH.hId.toSessionId with
  | none => .error (.get .freed)
  | some a =>
      match a.acceptedEnd pPSH.hId with
      | .error e => .error (.accept e)
      | .ok b => executeNext pPSH (r.update pPSH.hId.toSessionId fun _ => b)

/-- The next step of `ThreadExecute`. -/
def threadExecute : Except ExecuteFault (PaxosAcceptor σ) :=
  match r.stage with
  | .recv => executeRecv log r
  | .isAccepted pPSH => executeIsAccepted pPSH r
  | .seqWait pPSH => executeSeqWait pPSH r
  | .acceptedStart pPSH => executeStart pPSH r
  | .switch pPSH pAccept => executeSwitch f pPSH r pAccept
  | .acceptedEnd pPSH => executeEnd pPSH r

/-! ### ThreadWorker -/

variable (w : Worker)

/-- The worker goes on to `stage`. -/
def PaxosAcceptor.turn (stage : WorkerAt) : PaxosAcceptor σ :=
  { r with workers := r.workers.erase w ++ [{ w with stage := stage }] }

def workerIsAccepted : Except ExecuteFault (PaxosAcceptor σ) :=
  match r.isAccepted w.pH with
  | .error e => .error e
  | .ok (t, n) => .ok (t.turn w (if n = 0 then .accepted else .done))

/-- The `switch` on a request that is no duplicate. `a` is its accept object. -/
def workerRequest (a : PaxosAccept) : Except ExecuteFault (PaxosAcceptor σ) :=
  match w.pH.hCmd with
  | .sessionClose =>
      if a.aOpened = .binded ∨ a.aOpened = .closing then .ok (r.turn w .done)
      else
        .ok ((r.update w.session fun a => { a with aOpened := .closing }).turn w (.closing a.aOpened))
  | .sessionOpen =>
      if a.aOpened = .closing then .error .assertClosing
      else if a.aOpened = .binded then
        .ok ((r.update w.session fun a => { a with aOpened := .opening }).turn w .opening)
      else .ok (r.turn w .done)
  | .app c =>
      if f.isRead c = false then .ok (r.turn w .done)
      else if a.waits w.pH then .error .startWait
      else .ok ((r.update w.session (·.acceptedSeq w.pH)).turn w .reading)
  | .sessionEvent | .changeMember | .sessionAbort => .ok (r.turn w .done)

/-- After `PaxosRequest`, which has failed if `ret`. -/
def workerReset (o saved : PaxosAcceptOpen) (ret : Bool) : PaxosAcceptor σ :=
  let r := if ret then
    r.update w.session fun a => if a.aOpened = o then { a with aOpened := saved } else a else r
  r.turn w .done

/-- The next step of a worker. -/
def threadWorker (ret : Bool) : Except ExecuteFault (PaxosAcceptor σ) :=
  match w.stage with
  | .got => workerIsAccepted r w
  | .accepted =>
      match r.accept w.session with
      | none => .error (.get .freed)
      | some a => workerRequest f r w a
  | .opening => .ok (workerReset r w .opening .binded ret)
  | .closing saved => .ok (workerReset r w .closing saved ret)
  | .reading => .ok ((r.reply w.session false (f.fRead w.pH r.app)).turn w .done)
  | .done =>
      match r.put w.session with
      | .error e => .error e
      | .ok t => .ok { t with workers := t.workers.erase w }

/-! ### An acceptor -/

inductive AcceptorAct where
  | execute
  | bind (i : PaxosClientId)
  | disconnect (s : SessionId)
  | arrive (pH : PaxosSessionHead)
  | work (w : Worker) (ret : Bool)
deriving DecidableEq, Repr

/-- A step of one of the threads of an acceptor. -/
def acceptorAct (r : PaxosAcceptor σ) : AcceptorAct → Except ExecuteFault (PaxosAcceptor σ)
  | .execute => threadExecute f log r
  | .bind i =>
      match r.get i true with
      | .error e => .error e
      | .ok t => .ok { t with conns := i.toSessionId :: t.conns }
  | .disconnect s =>
      if s ∈ r.conns then
        match r.put s with
        | .error e => .error e
        | .ok t => .ok { t with conns := t.conns.erase s }
      else .ok r
  | .arrive pH =>
      match r.get pH.hId true with
      | .error e => .error e
      | .ok t => .ok { t with workers := t.workers ++ [{ pH := pH }] }
  | .work w ret => if w ∈ r.workers then threadWorker f r w ret else .ok r

end

end PaxosSolutions
