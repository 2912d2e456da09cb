import PaxosSolutions.Paxos.Leader

/-!
# The agent

A replica answers a collection that is not behind its round with its page, it
stores a proposal under the same test and accepts it, and it learns decisions.
-/
namespace PaxosSolutions
open NWGadget Lib.Handler

/-- The entry of a slot in `MSG_LAST`: of the leader's report and its own the
stronger one. -/
def lastSlot (me : ℕ) (s : Slot) (c : MsgPaxos) : MsgPaxos :=
  if c.mMode = .decided then {}
  else if s.pMode = .decided then { mMode := .decided, mValue := s.pRndValue }
  else if s.pMode ≠ .none ∧ (c.mMode = .none ∨ cmpRound c.mRound s.pRndBallot ≤ 0) then
    { mMode := .proposed
      mRound := s.pRndBallot
      mValue :=
        if s.cMetaCmdRnd.IsEmpty then s.pRndValue else { s.pRndValue with vFrom := me } }
  else c

/-- `RecvCollect` for a leader on an earlier page. -/
def recvCollectBehind (j : ℕ) (m : MsgCollect) : PaxosM Unit := do
  let p ← read
  match getPage p.toReplica m.cPage with
  | none => pure ()
  | some mu => do
      each (fun k : K => do
        require ((mu.slots k).pMode = .decided) .collectDecided
        let _ ← catchupInstanceRpl j (some mu) (toSeq mu.pPage k)) allK
      paxosSend j (.last
        { lRound := m.cCurRnd, lNextDecide := p.pNextDecide, lPage := mu.pPage,
          lPaxos := fun k => { mMode := .decided, mValue := (mu.slots k).pRndValue } })

/-- `RecvCollect` for a leader on a later page. -/
def recvCollectAhead (j : ℕ) (m : MsgCollect) (e : Env) : PaxosM Unit := do
  let p ← read
  when (cmp32 m.cBackPage p.page ≤ 0) do
    modify fun p => { p with pIssuedLast := 0 }
    catchupRequest j m.cNextDecide e
  paxosSend j (.last
    { lRound := m.cCurRnd, lNextDecide := p.pNextDecide, lPage := p.page, lPaxos := fun _ => {} })

/-- `RecvCollect` for a leader on the same page. -/
def recvCollectSame (j : ℕ) (m : MsgCollect) (e : Env) : PaxosM Unit := do
  let p ← read
  each (fun k => do
    let p ← read
    let s := p.slot k
    if (m.cPaxos k).mMode = .decided then
      when (s.pMode ≠ .decided) (catchupRequest j m.cNextDecide e)
    else when (s.pMode = .decided) do
      require (¬ s.cMetaCmdRnd.IsEmpty) .collectCommand
      let _ ← catchupInstanceRpl j (some p.pMulti) (p.seq k)) allK
  paxosSend j (.last
    { lRound := m.cCurRnd, lNextDecide := p.pNextDecide, lPage := p.page,
      lPaxos := fun k => lastSlot p.pMyId (p.slot k) (m.cPaxos k) })

/-- `RecvCollect` -/
def recvCollect (j : ℕ) (m : MsgCollect) (e : Env) : PaxosM Unit := do
  let p ← read
  if cmpRound p.curRnd m.cCurRnd ≤ 0 then do
    modMulti fun mu => { mu with lCurRnd := m.cCurRnd }
    if cmp32 m.cPage p.page < 0 then recvCollectBehind j m
    else if 0 < cmp32 m.cPage p.page then recvCollectAhead j m e
    else recvCollectSame j m e
  else paxosSend j (.oldRound { oRound := m.cCurRnd, oCommit := p.curRnd })

/-- What a proposal leaves in its slot. -/
def Slot.store (m : MsgBegin) (me : ℕ) (s : Slot) : Slot :=
  { s with
    pMode := if s.pMode = .none then .wait else s.pMode
    cMetaCmdRnd := m.bMetaCmd
    pRndBallot := m.bCurRnd
    pRndValue := { m.bValue with vFrom := me } }

/-- The end of `RecvBegin`: an accept is sent or held back. -/
def answerBegin (m : MsgBegin) (e : Env) : PaxosM Unit := do
  let p ← read
  let s := p.slot m.bK
  if p.pbPageSuppress ∨ (p.pCatchupRecvLast ≠ 0 ∧ e.now < p.pCatchupRecvLast) then
    modSlot m.bK fun s => { s with pSuppressed := true }
  else
    paxosSend m.bTo (.accept
      { aPage := p.page, aK := m.bK, aRound := s.pRndBallot, aValue := s.pRndValue,
        aMetaCmd := s.cMetaCmdRnd })

/-- `RecvBegin` -/
def recvBegin (fr : ℕ) (m : MsgBegin) (e : Env) : PaxosM Unit := do
  let p ← read
  if p.pbSuppressAccept then pure ()
  else if 0 ≤ cmpRound m.bCurRnd p.curRnd then
    if cmp32 p.page m.bPage < 0 then
      when (cmp32 m.bBackPage p.page ≤ 0) (catchupRequest fr m.bNextDecide e)
    else if 0 < cmp32 p.page m.bPage then pure ()
    else if (p.slot m.bK).pMode = .decided then pure ()
    else do
      require (¬ m.bMetaCmd.IsEmpty) .beginCommand
      if ← paxosValidate .begin (p.seq m.bK) m.bValue m.bMetaCmd e then
        paxosSend m.bTo .testNewRound
      else do
        modSlot m.bK (Slot.store m p.pMyId)
        emit (.accepted p.page m.bK m.bCurRnd { m.bValue with vFrom := p.pMyId } m.bMetaCmd)
        answerBegin m e
  else paxosSend m.bTo (.oldRound { oRound := m.bCurRnd, oCommit := p.curRnd })

/-- `RecvSuccess` -/
def recvSuccess (fr : ℕ) (m : MsgSuccess) (e : Env) : PaxosM Unit := do
  let p ← read
  let s := p.slot m.sK
  require (¬ m.sMetaCmd.IsEmpty) .successCommand
  if cmp32 p.page m.sPage < 0 then
    when (cmp32 m.sBackPage p.page ≤ 0) (catchupRequest fr m.sNextDecide e)
  else if 0 < cmp32 p.page m.sPage then pure ()
  else if s.pMode = .decided then pure ()
  else do
    if ← (if m.sValue.IsSame s.pRndValue then pure false
      else paxosValidate .success (p.seq m.sK) m.sValue m.sMetaCmd e) then pure ()
    else do
      modSlot m.sK (Slot.decide m.sValue m.sMetaCmd p.pMyId fun f => { f with normal := true })
      exec m.sK e

end PaxosSolutions
