import PaxosSolutions.Paxos.Catchup

/-!
# The leader

`NewRound` takes the next round and collects, `GatherLast` adopts the
proposals that are reported, `BeginCast` proposes and `GatherAccept` decides.
The command of an adopted value may be with another server: that one is asked
to cast it in the leader's place.
-/
namespace PaxosSolutions
open NWGadget Lib.Handler

/-- The slot begins with the initial proposal of this server. -/
def Slot.propose (epoch : UInt32) (mode : StepMode) (s : Slot) : Slot :=
  { s with
    pMode := mode
    pRndValue := { s.pInitValue with vEpoch := epoch }
    cMetaCmdRnd := s.cMetaCmdInit }

/-- What `NewRound` does to a slot: an initial value waits with the weakest
ballot. -/
def Slot.newRound (me : ℕ) (epoch : UInt32) (s : Slot) : Slot :=
  if s.pMode = .none ∧ s.pInitValue.IsDefined then
    { s.propose epoch .wait with pRndBallot := ⟨me, 0⟩ }
  else s

/-- What `NewRound` does to the page. -/
def Multi.newRound (me max : ℕ) (epoch : UInt32) (m : Multi) : Multi :=
  { m with
    lCurRnd := ⟨me, seqInc m.lCurRnd.rSeq⟩
    slots := fun k => (m.slots k).newRound me epoch
    lMode := if me < max ∧ max = 1 then .beginCast else .gatherLast
    lRndInfQuo := if me < max then quorumAdd (quorumInit max) me else quorumInit max }

/-- The entry of a slot in `MSG_COLLECT`. -/
def collectSlot (s : Slot) : MsgPaxos :=
  match s.pMode with
  | .decided => { mMode := .decided, mValue := s.pRndValue }
  | .none => {}
  | _ => { mMode := .proposed, mValue := s.pRndValue, mRound := s.pRndBallot }

def msgCollect (p : Paxos) : MsgCollect :=
  { cCurRnd := p.curRnd, cNextDecide := p.pNextDecide, cBackPage := p.pBackPage,
    cPage := p.page, cNextK := p.pMulti.pNextK, cPaxos := fun k => collectSlot (p.slot k) }

/-- `NewRound`. Nothing is sent before its assertions, so they come first. -/
def newRound (e : Env) : PaxosM Unit := do
  let p ← read
  if p.aMode ≠ .none then pure ()
  else do
    require (∀ k, (p.slot k).pMode = .none → (p.slot k).pInitValue.IsDefined →
      ¬ (p.slot k).cMetaCmdInit.IsEmpty) .initCommand
    modMulti (Multi.newRound p.pMyId p.pMax p.pElection.eEpoch)
    modify fun p => { p with pNewRoundLast := e.time + p.dtNewRound }
    let p ← read
    each (fun j => paxosSend j (.collect (msgCollect p))) (others p.toReplica p.pMax)

/-- `AMode = MODE_NONE; NewRound( pPaxos );` -/
def restartRound (e : Env) : PaxosM Unit := do
  modMulti fun m => { m with lMode := .none }
  newRound e

/-- `SendBeginCast` to server `j`: own acceptance is at once unless it is held
back or the cast is for another leader. -/
def sendBeginTo (k : K) (bTo : ℕ) (curRnd : Round) (j : ℕ) : PaxosM Unit := do
  let p ← read
  let s := p.slot k
  if p.pMyId = bTo ∧ j = p.pMyId ∧ p.AcceptsOwn then do
    modSlot k fun s =>
      { s with pRndBallot := curRnd, pRndAccQuo := quorumAdd s.pRndAccQuo p.pMyId }
    emit (.accepted p.page k curRnd s.pRndValue s.cMetaCmdRnd)
  else
    paxosSend j (.begin
      { bTo := bTo, bBackPage := p.pBackPage, bNextDecide := p.pNextDecide, bPage := p.page,
        bNextK := p.pMulti.pNextK, bK := k, bCurRnd := curRnd,
        bValue := { s.pRndValue with vFrom := p.pMyId }, bMetaCmd := s.cMetaCmdRnd })

/-- `SendBeginCast` -/
def sendBeginCast (k : K) (bTo : ℕ) (curRnd : Round) : PaxosM Unit := do
  let p ← read
  require (¬ (p.slot k).cMetaCmdRnd.IsEmpty) .castCommand
  each (sendBeginTo k bTo curRnd) (List.range p.pMax)

/-- The sending part of `BeginCast`: who has the command casts. -/
def castOrRedirect (k : K) : PaxosM Unit := do
  let p ← read
  let s := p.slot k
  if s.pRndValue.vFrom ≠ p.pMyId then
    paxosSend s.pRndValue.vFrom (.beginRedirect
      { bTo := p.pMyId, bPage := p.page, bK := k, bCurRnd := p.curRnd, bValue := s.pRndValue })
  else sendBeginCast k p.pMyId p.curRnd

/-- The slot is decided on its own value. -/
def Slot.win (s : Slot) : Slot :=
  { s with
    pMode := .decided
    pRndValue := { s.pRndValue with vFlags := { s.pRndValue.vFlags with normal := true } } }

/-- `BeginCast`. With one core server its own cast is the majority. -/
def beginCast (k : K) (e : Env) : PaxosM Unit := do
  let p ← read
  if (p.slot k).pMode ≠ .beginCast then pure ()
  else do
    castOrRedirect k
    modSlot k fun s =>
      { s with pMode := .gatherAccept, pDeadline := addUsec e.now p.dtSuccess }
    when (p.pMax = 1) do
      emit (.accepted p.page k p.curRnd (p.slot k).pRndValue (p.slot k).cMetaCmdRnd)
      modSlot k Slot.win
      exec k e

/-- `Continue` -/
def continueAt (k : K) : PaxosM Bool := do
  let p ← read
  if ¬ p.IsMyRnd ∨ (p.slot k).pMode ≠ .none then pure false
  else do
    require (¬ (p.slot k).cMetaCmdInit.IsEmpty) .initCommand
    modSlot k (Slot.propose p.pElection.eEpoch .beginCast)
    pure true

/-- What a reported proposal does to a slot: one at least as strong is taken
over, without its command. -/
def Slot.adopt (m : MsgPaxos) (s : Slot) : Slot :=
  if m.mMode = .proposed ∧ s.pMode ≠ .decided ∧ cmpRound s.pRndBallot m.mRound ≤ 0 ∧
      m.mValue.IsDefined then
    { s with
      pRndValue :=
        if s.pMode = .none ∨ s.pRndValue.vServer ≠ m.mValue.vServer then m.mValue
        else s.pRndValue
      pRndBallot := m.mRound
      pMode := .wait }
  else s

/-- With a majority of replies the round is won and every open slot is to be
cast. -/
def Multi.win (m : Multi) : Multi :=
  { m with
    pNextK := allK.foldl (fun n k => if (m.slots k).pMode ≠ .none then k + 1 else n) m.pNextK
    slots := fun k =>
      if (m.slots k).pMode ≠ .none ∧ (m.slots k).pMode ≠ .decided then
        { m.slots k with pMode := .beginCast }
      else m.slots k
    lMode := .beginCast }

/-- The entry of a slot in `MSG_LAST`: a decision is asked for, a proposal may
be adopted. -/
def gatherSlot (fr : ℕ) (m : MsgLast) (e : Env) (k : K) : PaxosM Unit := do
  let p ← read
  when ((m.lPaxos k).mMode = .decided ∧ (p.slot k).pMode ≠ .decided) do
    catchupRequest fr m.lNextDecide e
  modSlot k (Slot.adopt (m.lPaxos k))

/-- `GatherLast` -/
def gatherLast (fr : ℕ) (m : MsgLast) (e : Env) : PaxosM Unit := do
  let p ← read
  if p.aMode ≠ .gatherLast then pure ()
  else if cmpRound m.lRound p.curRnd ≠ 0 then pure ()
  else do
    modMulti fun mu => { mu with lRndInfQuo := quorumAdd mu.lRndInfQuo fr }
    when (cmp32 m.lPage p.page = 0) (each (gatherSlot fr m e) allK)
    let p ← read
    when (quorumMajority p.infQuo) do
      modify fun p => { p with pElection := { p.pElection with eNewRndStart := false } }
      modMulti Multi.win
      each (fun k => beginCast k e) allK

/-- `BeginCastRedirect` -/
def beginCastRedirect (m : MsgBegin) (e : Env) : PaxosM Unit := do
  let p ← read
  require (p.page = m.bPage) .redirectPage
  let s := p.slot m.bK
  let ret ← paxosValidate .redirect (p.seq m.bK) s.pRndValue s.cMetaCmdRnd e
  require (ret = false) .redirectValidate
  sendBeginCast m.bK m.bTo m.bCurRnd

/-- `SendSuccess`, for a slot that is decided. -/
def sendSuccess (k : K) : PaxosM Unit := do
  let p ← read
  let s := p.slot k
  if s.pMode ≠ .decided then pure ()
  else do
    require (¬ s.cMetaCmdRnd.IsEmpty) .sendSuccessCommand
    each (fun j => paxosSend j (.success
      { sBackPage := p.pBackPage, sNextDecide := p.pNextDecide, sPage := p.page,
        sNextK := p.pMulti.pNextK, sK := k, sValue := s.pRndValue,
        sMetaCmd := s.cMetaCmdRnd })) (others p.toReplica p.pMaximum)

/-- The end of `GatherAccept`: the accept counts, and a majority with the
leader decides. -/
def countAccept (fr : ℕ) (k : K) (e : Env) : PaxosM Unit := do
  modSlot k fun s => { s with pRndAccQuo := quorumAdd s.pRndAccQuo fr }
  let p ← read
  let q := (p.slot k).pRndAccQuo
  when (p.pMyId ∈ q.qMember ∧ quorumMajority q) do
    modSlot k fun s => { s with pMode := .decided }
    require ((p.slot k).pRndValue.vFrom = p.pMyId) .acceptFrom
    sendSuccess k
    modSlot k fun s =>
      { s with
        pRndValue := { s.pRndValue with vFlags := { s.pRndValue.vFlags with normal := true } } }
    exec k e

/-- `GatherAccept`: a leader without the command takes it from the accept. -/
def gatherAccept (fr : ℕ) (m : MsgAccept) (e : Env) : PaxosM Unit := do
  let p ← read
  let s := p.slot m.aK
  if cmpRound p.curRnd m.aRound ≠ 0 ∨ cmp32 p.page m.aPage ≠ 0 ∨ s.pMode ≠ .gatherAccept then
    pure ()
  else if s.cMetaCmdRnd.IsEmpty then do
    if ← paxosValidate .accept (p.seq m.aK) m.aValue m.aMetaCmd e then pure ()
    else do
      modSlot m.aK fun s =>
        { s with cMetaCmdRnd := m.aMetaCmd, pRndValue := { s.pRndValue with vFrom := p.pMyId } }
      countAccept fr m.aK e
  else countAccept fr m.aK e

/-- `GatherOldRound` -/
def gatherOldRound (m : MsgOldRound) : PaxosM Unit := do
  let p ← read
  if 0 ≤ cmpRound p.curRnd m.oCommit then pure ()
  else modMulti fun mu => { mu with lCurRnd := m.oCommit, lMode := .none }

end PaxosSolutions
