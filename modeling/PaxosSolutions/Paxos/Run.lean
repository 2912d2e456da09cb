import PaxosSolutions.Paxos.Agent
import PaxosSolutions.Paxos.Election

/-!
# Requests, the detector and the dispatcher

`handle` is one step of a replica: a message, a request, a turn of the
detector or a turn of the heartbeat. A request that has to wait ends its step
and is tried again in a later one.
-/
namespace PaxosSolutions
open NWGadget Lib.Handler

/-- The answers of `GetSlot`. -/
inductive SlotAnswer where
  | slot (k : K) | wait | rejected

/-- `GetSlot`, up to the point where it waits. -/
def getSlot (e : Env) : PaxosM SlotAnswer := do
  let p ← read
  if p.IsMyRnd then
    if p.page = toPage p.pNextDecide then
      match allK.find? fun k => toK p.pNextDecide ≤ k ∧ (p.slot k).pMode = .none with
      | some k => pure (.slot k)
      | none => pure .wait
    else pure .wait
  else if p.pElection.eNewRndStart then do
    when (p.aMode ≠ .gatherLast) (restartRound e)
    pure .wait
  else pure .rejected

/-- `InitCommand` -/
def initCommand (k : K) (c : MetaCmd) (flag : Flags) : PaxosM Unit := do
  let p ← read
  modSlot k fun s =>
    { s with
      pInitValue :=
        { vFlags := { flag with defined := true }, vServer := p.pMyId, vFrom := p.pMyId }
      cMetaCmdInit := c }
  emit (.initCommand (p.seq k) c)

/-- `_PaxosRequest` once it has a slot. -/
def requestSlot (k : K) (c : MetaCmd) (flag : Flags) (e : Env) : PaxosM Unit := do
  let p ← read
  if ← (if flag.validate then
      paxosValidate .request (p.seq k)
        { vFlags := flag, vServer := p.pMyId, vEpoch := p.pElection.eEpoch, vFrom := p.pMyId } c e
    else pure false) then emit (.reply .rejected)
  else do
    initCommand k c flag
    if ← continueAt k then do
      beginCast k e
      emit (.reply .ok)
    else emit (.reply .rejected)

/-- `PaxosRequest` with `_PaxosRequest` -/
def paxosRequest (cmd : List UInt8) (validate : Bool) (e : Env) : PaxosM Unit := do
  let p ← read
  if p.pActive = false then emit (.reply .notActive)
  else if p.pElection.eIamMaster then do
    match ← getSlot e with
    | .rejected => emit (.reply .rejected)
    | .wait => pure ()
    | .slot k =>
        if h : cmd.length ≤ paxosCommandSize then
          requestSlot k ⟨cmd, h⟩ { validate := validate } e
        else emit (.reply .rejected)
  else emit (.reply .imNotMaster)

/-- `CheckRndSuccessAndNewRound` -/
def checkRndSuccessAndNewRound (e : Env) : PaxosM Unit := do
  let p ← read
  if p.pElection.eIamMaster = false then pure ()
  else if p.IsMyRnd then
    when (∃ k, (p.slot k).pDeadline ≠ 0 ∧ (p.slot k).pDeadline < e.now ∧
      (p.slot k).pMode ≠ .decided) (restartRound e)
  else when (p.aMode ≠ .gatherLast ∨ p.pNewRoundLast < e.time) (restartRound e)

/-- `PaxosDetector` -/
def paxosDetector (e : Env) : PaxosM Unit := do
  checkRndSuccessAndNewRound e
  let p ← read
  when (p.pIssuedLast ≠ 0 ∧ p.pIssuedLast < e.time) do
    modify fun p =>
      { p with
        pIssuedLast := 0
        pServer := fun j =>
          if j < p.pMax then { p.pServer j with sIssuedTime := 0 } else p.pServer j }
  let p ← read
  when (p.pCatchupRecvLast ≠ 0 ∧ p.pCatchupRecvLast < e.now) releaseSuppressedAccept

/-- What happens to a replica. -/
inductive Input where
  | recv (fr : ℕ) (m : Msg)
  | request (cmd : List UInt8) (validate : Bool)
  | detector
  | heartbeat

/-- The `dispatch` table -/
def receive (fr : ℕ) (m : Msg) (e : Env) : PaxosM Unit :=
  match m with
  | .alive m => recvAlive fr m e
  | .catchupReq m => recvCatchupReq fr m e
  | .catchupRpl m => recvCatchupRpl fr m e
  | .catchupEnd => recvCatchupEnd fr
  | .collect m => recvCollect fr m e
  | .last m => gatherLast fr m e
  | .oldRound m => gatherOldRound m
  | .begin m => recvBegin fr m e
  | .beginRedirect m => beginCastRedirect m e
  | .accept m => gatherAccept fr m e
  | .success m => recvSuccess fr m e
  | .testNewRound => restartRound e

def handle (i : Input) (e : Env) : PaxosM Unit :=
  match i with
  | .recv fr m => receive fr m e
  | .request cmd validate => paxosRequest cmd validate e
  | .detector => paxosDetector e
  | .heartbeat => heartbeat e

/-- `PaxosStartMode_t` -/
inductive StartMode where
  | noSeq | seq | wait
deriving DecidableEq, Repr

/-- `PaxosInitUsec`, with the peers in `active` known by their addresses. -/
def paxosInit (id core extension : ℕ) (active : ℕ → Bool) (unitUsec : ℤ) (e : Env) : Paxos where
  pMyId := id
  pMax := core
  pMaximum := core + extension
  pElection :=
    { eBirth := e.now, eLeader := -1, eElected := if core = 1 then id else -1,
      eIamMaster := core = 1 }
  pServer j := { sActive := active j }
  pUnitUsec := max unitUsec 20000
  pGaps := Hash.init 11 UInt32.toNat
  pMulti :=
    { lRndInfQuo := quorumInit core, slots := fun _ => { pRndAccQuo := quorumInit core } }

/-- `PaxosStart` -/
def paxosStart (mode : StartMode) (nextDecide : UInt32) (p : Paxos) : Paxos :=
  match mode with
  | .noSeq => { p with pActive := true }
  | .wait => { p with pActive := true, pbSuppressAccept := true }
  | .seq =>
      { p with
        pActive := true
        pNextDecide := nextDecide
        pMulti :=
          { p.pMulti with
            pPage := toPage nextDecide
            pNextK := toK nextDecide
            pSuccessCount := toK nextDecide } }

end PaxosSolutions
