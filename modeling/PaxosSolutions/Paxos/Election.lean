import PaxosSolutions.Paxos.Catchup

/-!
# Heartbeats and the election

Peers tell each other their vote, epoch and positions. Who hears from a
majority votes for the connected server of the oldest birth, and the server
that a majority votes for is the master.
-/
namespace PaxosSolutions
open NWGadget Lib.Handler

/-- `Con_t` -/
inductive Con where
  | disDis | disCon | conCon | conDis
deriving DecidableEq

/-- `CheckConnection`: a peer is connected while it has echoed a recent time. -/
def checkConnection (j : ℕ) (e : Env) : PaxosM Con := do
  let p ← read
  let s := p.pServer j
  if e.now < addUsec s.sToken p.dtCon then
    if s.sConnected = false then do
      modify (Paxos.setServer j fun s => { s with sConnected := true, sAutonomicLast := 0 })
      pure .disCon
    else pure .conCon
  else if s.sConnected then do
    modify (Paxos.setServer j fun s => { s with sConnected := false })
    pure .conDis
  else pure .disDis

/-- The votes for server `i`, its own and those of the connected peers. -/
def votes (p : Paxos) (i : ℕ) : ℕ :=
  ((List.range p.pMax).filter fun j =>
    if j = p.pMyId then p.pElection.eLeader = i
    else (p.pServer j).sConnected ∧ (p.pServer j).sLeader = i).length

def modElection (f : Election → Election) : PaxosM Unit :=
  modify fun p => { p with pElection := f p.pElection }

/-- `ElectLeader` -/
def electLeader (j : ℕ) (e : Env) : PaxosM Unit := do
  let p ← read
  match (List.range p.pMax).find? fun i => p.pMax / 2 + 1 ≤ votes p i with
  | some w => do
      modElection fun x => { x with eElected := w }
      when (w = p.pMyId ∧ p.pElection.eIamMaster = false) do
        modElection fun x =>
          { x with eEpoch := seqInc x.eEpoch, eIamMaster := true, eNewRndStart := true }
        emit (.election .imMaster p.pMyId (seqInc p.pElection.eEpoch) j)
      when (w ≠ p.pMyId ∧ p.pElection.eIamMaster = true) do
        modElection fun x => { x with eIamMaster := false, eNewRndStart := false }
        emit (.election .imNotMaster w p.pElection.eEpoch j)
      let p ← read
      emit (.election .masterElected w p.pElection.eEpoch j)
  | none => do
      when (0 ≤ p.pElection.eElected) do
        emit (.election .masterCanceled p.pElection.eElected p.pElection.eEpoch j)
      modElection fun x => { x with eElected := -1 }
      when (p.pElection.eIamMaster = true) do
        modElection fun x =>
          { x with eBirth := e.now, eIamMaster := false, eNewRndStart := false }
        emit (.election .imNotMaster (-1) p.pElection.eEpoch j)

/-- The candidate of the oldest birth so far with that birth, and how many
servers are heard. -/
def ballot (p : Paxos) : Option (ℕ × ℤ) × ℕ :=
  (List.range p.pMax).foldl (fun (best, n) i =>
    if i = p.pMyId ∨ (p.pServer i).sConnected then
      let t := if i = p.pMyId then p.pElection.eBirth else (p.pServer i).sElection
      (if best.all fun b => t < b.2 then some (i, t) else best, n + 1)
    else (best, n)) (none, 0)

/-- `MyVote` -/
def myVote : PaxosM Bool := do
  let p ← read
  let b := ballot p
  let leader : ℤ :=
    if b.2 < p.pMax / 2 + 1 then -1 else (b.1.map fun x => (x.1 : ℤ)).getD (-1)
  modify fun p =>
    { p.setServer p.pMyId fun s =>
        { s with sLeader := leader, sEpoch := p.pElection.eEpoch, sElection := p.pElection.eBirth }
      with pElection := { p.pElection with eLeader := leader } }
  pure (p.pElection.eLeader ≠ leader)

/-- `SendAlive` -/
def sendAlive (j : ℕ) (e : Env) : PaxosM Unit := do
  let p ← read
  paxosSend j (.alive
    { aElection := p.pElection.eBirth, aLeader := p.pElection.eLeader,
      aEpoch := p.pElection.eEpoch, aYourTime := (p.pServer j).sYourTime, aMyTime := e.now,
      aCatchup := !p.pCatchupStop, aBackPage := p.pBackPage, aNextDecide := p.pNextDecide })

/-- `set_leader` -/
def setLeader (j : ℕ) (e : Env) : PaxosM Unit := do
  let p ← read
  if p.pMax = 1 ∨ p.pMax ≤ j then pure ()
  else do
    let changed ← myVote
    when (changed = true) (each (fun i => sendAlive i e) (others p.toReplica p.pMax))
    electLeader j e

/-- A peer is looked for that still has the page of `NextDecide`. -/
def findCatchup (e : Env) : List ℕ → PaxosM Bool
  | [] => pure false
  | j :: js => do
      let con ← checkConnection j e
      let p ← read
      if (con = .disCon ∨ con = .conCon) ∧
          cmp32 (p.pServer j).sBackPage (toPage p.pNextDecide) ≤ 0 then pure true
      else findCatchup e js

/-- The catch-up test of `server_receive_alive` for the peer `j`. -/
def aliveCatchup (j : ℕ) (m : MsgAlive) (e : Env) : PaxosM Unit := do
  let p ← read
  when (m.aCatchup = true ∧ e.locked = false ∧ cmp32 p.pNextDecide m.aNextDecide < 0) do
    if cmp32 m.aBackPage (toPage p.pNextDecide) ≤ 0 then catchupRequest j m.aNextDecide e
    else do
      let found ← findCatchup e (others p.toReplica p.pMax)
      if found then pure ()
      else do
        emit (.notify .catchup .notGetPage p.page 0 p.pElection.eEpoch .empty p.pMyId)
        fail .abortAlive

/-- `server_receive_alive`. The loop over the peers under page suppression
leaves `pserver` at the last of them, and the rest speaks of that one. -/
def recvAlive (fr : ℕ) (m : MsgAlive) (e : Env) : PaxosM Unit := do
  let p ← read
  let s := p.pServer fr
  if s.sActive = false then pure ()
  else do
    let core := decide (p.pMyId < p.pMax ∧ fr < p.pMax)
    let newer := decide (0 < cmp32 m.aEpoch p.pElection.eEpoch)
    let changed :=
      newer || if core then decide (s.sLeader ≠ m.aLeader ∨ s.sElection ≠ m.aElection)
        else e.changed
    modify fun p =>
      { p.setServer fr fun s =>
          { s with
            sElection := m.aElection, sLeader := m.aLeader, sEpoch := m.aEpoch,
            sYourTime := m.aMyTime, sBackPage := m.aBackPage, sNextDecide := m.aNextDecide,
            sToken := m.aYourTime }
        with
        pElection :=
          { p.pElection with eEpoch := if newer then m.aEpoch else p.pElection.eEpoch } }
    let p ← read
    let j := if p.pbPageSuppress then
      ((others p.toReplica p.pMaximum).getLast?).getD fr else fr
    when (p.pbPageSuppress = true ∧ cmp32 p.pBackPage (toPage (slowest p)) < 0) do
      modify fun p => { p with pbPageSuppress := false }
      releaseSuppressedAccept
    let con ← checkConnection j e
    match con with
    | .disCon | .conDis => when (core = true) (setLeader j e)
    | .conCon => do
        let p ← read
        when (p.pMyId < p.pMax ∧ (changed ∨ p.pElection.eLeader < 0)) (setLeader j e)
        aliveCatchup j m e
    | .disDis => pure ()

/-- One turn of `ThreadHeartbeat` -/
def heartbeat (e : Env) : PaxosM Unit := do
  let p ← read
  each (fun j => do
    let con ← checkConnection j e
    match con with
    | .disCon => setLeader j e
    | .conDis => do
        setLeader j e
        let p ← read
        when ((p.pServer j).sIssuedTime ≠ 0) do
          modify fun p =>
            { p.setServer j fun s => { s with sIssuedTime := 0 } with pIssuedLast := 0 }
    | .conCon | .disDis => pure ()) (others p.toReplica p.pMaximum)
  each (fun j => sendAlive j e) (others p.toReplica p.pMaximum)
  when (p.pMax = 1) (modElection fun x => { x with eIamMaster := true })

end PaxosSolutions
