import PaxosSolutions.Paxos.Data
import Mathlib.Data.List.DropRight

/-!
# Execution and pages

Decided commands are executed in the order of their sequence numbers; one that
comes early waits in the gap table. A page whose ten slots are through is put
on the list of retained pages, the newest first, and the next page begins.
-/
namespace PaxosSolutions
open NWGadget Lib.Handler

/-- The position that this server and every connected peer have reached. -/
def slowest (p : Paxos) : UInt32 :=
  (others p.toReplica p.pMaximum).foldl (fun nextDecide j =>
    if (p.pServer j).sConnected ∧ 0 < cmp32 nextDecide (p.pServer j).sNextDecide then
      (p.pServer j).sNextDecide
    else nextDecide) p.pNextDecide

/-- Expired autonomic marks are cleared up to the first that is not. -/
def autonomicScan (t : ℤ) : List ℕ → (ℕ → Server) → Bool × (ℕ → Server)
  | [], sv => (true, sv)
  | j :: js, sv =>
      if (sv j).sAutonomicLast < t then
        autonomicScan t js (Function.update sv j { sv j with sAutonomicLast := 0 })
      else (false, sv)

/-- The pages before that of the slowest position leave the list. -/
def removePages (p : Paxos) : Paxos :=
  let backPage := toPage (slowest p)
  let lnk := p.pMultiLnk.rdropWhile fun m => 0 < cmp32 backPage m.pPage
  { p with
    pbPageSuppress := p.pbPageSuppress || decide (paxosPageMaxLen ≤ cmp32 p.page backPage)
    pMultiLnk := lnk
    pBackPage := (lnk.getLast?.map (·.pPage)).getD p.page }

/-- `PutPage` -/
def putPage (e : Env) (p : Paxos) : Paxos :=
  let scan := autonomicScan e.time (others p.toReplica p.pMaximum) p.pServer
  let p := { p with pMultiLnk := p.pMulti :: p.pMultiLnk, pServer := scan.2 }
  let p := if scan.1 then removePages p else p
  p.onReplica (Replica.setMulti fun m => { m with slots := fun _ => {} })

/-- `GetPage` -/
def getPage (p : Replica) (page : UInt32) : Option Multi :=
  if page = p.page then some p.pMulti else p.pMultiLnk.find? fun m => m.pPage = page

/-- The head of the page moves on. -/
def Multi.next (max : ℕ) (m : Multi) : Multi :=
  { m with
    slots := fun k => { m.slots k with pRndAccQuo := quorumInit max }
    pPage := m.pPage + 1
    pNextK := 0
    pSuccessCount := 0 }

/-- `UpdatePage` -/
def updatePage (e : Env) : PaxosM Unit := do
  let p ← read
  if p.pMulti.pSuccessCount < paxosMax then pure ()
  else do
    modify (putPage e)
    modMulti (Multi.next p.pMax)

/-- `Execute` -/
def execute (seq : UInt32) (d : Value) (c : MetaCmd) : PaxosM Unit := do
  let p ← read
  emit (.execute seq d c)
  if d.vFlags.noop then
    emit (.notify (paxosMode d) .noop seq d.vServer d.vEpoch c p.pMyId)
  else
    emit (.outbound
      { eSeq := seq, eValidate := d.vFlags.validate, eBackSeq := toSeq p.pBackPage 0,
        eNotify := .accepted } c)

/-- The loop over the gaps that `NextDecide` reaches. Each turn removes one, so
as many turns as there are gaps are enough. -/
def execGaps : ℕ → PaxosM Unit
  | 0 => pure ()
  | n + 1 => do
      let p ← read
      match p.pGaps.getItem p.pNextDecide with
      | none => pure ()
      | some (_, g) => do
          execute p.pNextDecide g.gDecision g.gMetaCmd
          modReplica fun r =>
            { r with
              pNextDecide := r.pNextDecide + 1
              pGaps := r.pGaps.removeItem r.pNextDecide }
          execGaps n

/-- The slot is next: it is executed, and the gaps after it. -/
def execNext (k : K) : PaxosM Unit := do
  let p ← read
  modReplica fun r =>
    { r with pNextDecide := r.pNextDecide + 1, pbSuppressAccept := false }
  execute (p.seq k) (p.slot k).pRndValue (p.slot k).cMetaCmdRnd
  execGaps p.pGaps.hCount

/-- The slot is early: its decision is kept as a gap. -/
def execLater (k : K) : PaxosM Unit :=
  modReplica fun r =>
    { r with
      pGaps := r.pGaps.put (r.seq k) ⟨r.seq k, (r.slot k).pRndValue, (r.slot k).cMetaCmdRnd⟩ }

/-- `ExecUp` -/
def execUp (k : K) : PaxosM Bool := do
  modMulti fun m => { m with pNextK := max m.pNextK (k + 1) }
  let p ← read
  let s := p.slot k
  if cmp32 (p.seq k) p.pNextDecide < 0 then pure false
  else do
    when (s.pInitValue.IsDefined ∧ s.pInitValue.vServer ≠ s.pRndValue.vServer) do
      emit (.notify (paxosMode s.pInitValue) .rejected (p.seq k) s.pInitValue.vServer
        s.pInitValue.vEpoch s.cMetaCmdInit p.pMyId)
    (if cmp32 (p.seq k) p.pNextDecide = 0 then execNext k else execLater k)
    modMulti fun m => { m with pSuccessCount := m.pSuccessCount + 1 }
    pure true

/-- `Exec` -/
def exec (k : K) (e : Env) : PaxosM Unit := do
  let p ← read
  require (¬ (p.slot k).cMetaCmdRnd.IsEmpty) .execCommand
  when (p.pIssuedLast ≠ 0 ∧ 0 ≤ cmp32 (toSeq p.page p.pMulti.pNextK) p.pCatchupNextDecide) do
    modify fun p => { p with pIssuedLast := 0, pCatchupNextDecide := p.pIssuedSeq + 1 }
  let done ← execUp k
  when (done = true) (updatePage e)

end PaxosSolutions
