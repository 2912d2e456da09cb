import PaxosSolutions.Paxos.Exec

/-!
# Catch-up

A replica that is behind asks one peer at a time for decided slots, at most
`PAXOS_FIRE_MAX` in one request. The peer that serves them holds back its
accepts until the other is through or the time it was given is over.
-/
namespace PaxosSolutions
open NWGadget Lib.Handler

/-- `CatchupFire` -/
def catchupFire (e : Env) : PaxosM Unit := do
  let p ← read
  let seq := if p.pIssuedLast ≠ 0 then p.pIssuedSeq + 1 else p.pNextDecide
  if 0 ≤ cmp32 seq p.pCatchupNextDecide then
    modify fun p => { p with pIssuedLast := 0 }
  else do
    let cnt := min (cmp32 p.pCatchupNextDecide seq) paxosFireMax
    let seqTo := seq + UInt32.ofInt cnt - 1
    let start := if p.pIssuedLast = 0 then e.time + 2 * p.dtD / 10 ^ 6 else p.pIssuedLast
    modify fun p =>
      { p.setServer p.pCatchupServer fun s => { s with sIssuedTime := e.now } with
        pIssuedLast := start + p.dtL * cnt / 10 ^ 6
        pIssuedSeq := seqTo }
    paxosSend p.pCatchupServer (.catchupReq
      { cSeqFrom := seq, cSeqTo := seqTo, cRecvLastDT := p.dtD + p.dtL + p.dtL * cnt })

/-- `CatchupRequest`: a request under way is kept unless it is late or the new
one goes further. -/
def catchupRequest (j : ℕ) (nextDecide : UInt32) (e : Env) : PaxosM Unit := do
  let p ← read
  let aim (p : Paxos) := { p with pCatchupServer := j, pCatchupNextDecide := nextDecide }
  if p.pCatchupStop then pure ()
  else if (p.pServer j).sConnected = false then pure ()
  else if p.pIssuedLast ≠ 0 then
    if p.pIssuedLast < e.time then do
      modify fun p => { aim p with pIssuedLast := 0 }
      catchupFire e
    else if 0 < cmp32 nextDecide p.pCatchupNextDecide then do
      modify aim
      when ((p.pServer j).sIssuedTime = 0) (catchupFire e)
    else pure ()
  else do
    modify aim
    catchupFire e

/-- `CatchupInstanceRpl`: without a page the reply says that it is gone. -/
def catchupInstanceRpl (j : ℕ) (pMulti : Option Multi) (seq : UInt32) : PaxosM Bool := do
  let p ← read
  match pMulti with
  | some m => do
      let s := m.slots (toK seq)
      if s.pMode ≠ .decided then pure false
      else if s.cMetaCmdRnd.IsEmpty then pure false
      else do
        paxosSend j (.catchupRpl
          { cTrue := true, cMyNextDecide := p.pNextDecide, cSeq := seq,
            cPaxosI := s.toInstance, cMetaCmd := s.cMetaCmdRnd })
        pure true
  | none => do
      paxosSend j (.catchupRpl { cTrue := false, cSeq := seq })
      pure true

/-- The loop of `server_receive_catchup_req`, run at least once. It stops at
the latest one past `SeqTo`, which bounds its turns. -/
def catchupReqLoop (fr : ℕ) (seqTo : UInt32) : ℕ → UInt32 → Bool → PaxosM Bool
  | 0, _, found => pure found
  | n + 1, seq, found => do
      let p ← read
      let pMulti := getPage p.toReplica (toPage seq)
      let ret ← catchupInstanceRpl fr pMulti seq
      when (ret = false) do
        let _ ← catchupInstanceRpl fr none seq
      let found := found || (ret && pMulti.isSome)
      if cmp32 (seq + 1) seqTo ≤ 0 then catchupReqLoop fr seqTo n (seq + 1) found
      else pure found

/-- `server_receive_catchup_req` -/
def recvCatchupReq (fr : ℕ) (m : MsgCatchupReq) (e : Env) : PaxosM Unit := do
  let found ← catchupReqLoop fr m.cSeqTo ((m.cSeqTo - m.cSeqFrom).toNat + 1) m.cSeqFrom false
  when (found = true) do
    modify fun p =>
      { p with
        pCatchupRecvServer := fr
        pCatchupRecvLast := max p.pCatchupRecvLast (addUsec e.now m.cRecvLastDT) }

/-- The slot takes over a decision. -/
def Slot.decide (v : Value) (c : MetaCmd) (me : ℕ) (mark : Flags → Flags) (s : Slot) : Slot :=
  { s with
    pMode := .decided
    pRndValue := { v with vFrom := me, vFlags := mark v.vFlags }
    cMetaCmdRnd := c }

/-- The end of a catch-up tells every peer that was asked. -/
def catchupFinish : PaxosM Unit := do
  modify fun p => { p with pIssuedLast := 0 }
  let p ← read
  each (fun j => do
    let p ← read
    if (p.pServer j).sIssuedTime = 0 then pure ()
    else do
      modify (Paxos.setServer j fun s => { s with sIssuedTime := 0 })
      paxosSend j .catchupEnd) (List.range p.pMax)

/-- The decision of a reply for an open slot of the page is taken over. A
refused one is true. -/
def learnCatchupRpl (m : MsgCatchupRpl) (e : Env) : PaxosM Bool := do
  let p ← read
  let k := toK m.cSeq
  if p.page = toPage m.cSeq ∧ (p.slot k).pMode ≠ .decided then do
    if ← paxosValidate .catchup (p.seq k) m.cPaxosI.pRndValue m.cMetaCmd e then pure true
    else do
      modSlot k (Slot.decide m.cPaxosI.pRndValue m.cMetaCmd p.pMyId
        fun f => { f with catchup := true })
      exec k e
      pure false
  else pure false

/-- The part of `server_receive_catchup_rpl` after the check of `c_True`. -/
def takeCatchupRpl (m : MsgCatchupRpl) (e : Env) : PaxosM Unit := do
  if ← learnCatchupRpl m e then pure ()
  else do
    let p ← read
    if 0 ≤ cmp32 m.cSeq (p.pCatchupNextDecide - 1) then catchupFinish
    else when (p.pIssuedLast ≠ 0 ∧ cmp32 m.cSeq p.pIssuedSeq = 0) (catchupFire e)

/-- `server_receive_catchup_rpl`: a page that is gone stops the replica unless
another peer is asked too or the slot is executed by now. -/
def recvCatchupRpl (fr : ℕ) (m : MsgCatchupRpl) (e : Env) : PaxosM Unit := do
  let p ← read
  if m.cTrue then takeCatchupRpl m e
  else if ∃ j ∈ List.range p.pMaximum, j ≠ fr ∧ (p.pServer j).sIssuedTime ≠ 0 then pure ()
  else if cmp32 p.pNextDecide m.cSeq ≤ 0 then do
    emit (.notify .catchup .notGetPage m.cSeq 0 p.pElection.eEpoch .empty p.pMyId)
    fail .abortCatchup
  else takeCatchupRpl m e

/-- `release_suppressed_accept` -/
def releaseSuppressedAccept : PaxosM Unit := do
  modify fun p => { p with pCatchupRecvLast := 0 }
  each (fun k => do
    let p ← read
    let s := p.slot k
    when (s.pMode ≠ .decided ∧ s.pSuppressed) do
      modSlot k fun s => { s with pSuppressed := false }
      paxosSend s.pRndBallot.rId (.accept
        { aPage := p.page, aK := k, aRound := s.pRndBallot, aValue := s.pRndValue,
          aMetaCmd := s.cMetaCmdRnd })) allK

/-- `server_receive_catchup_end` -/
def recvCatchupEnd (fr : ℕ) : PaxosM Unit := do
  let p ← read
  when (fr = p.pCatchupRecvServer) releaseSuppressedAccept

end PaxosSolutions
