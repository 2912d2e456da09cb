import PaxosSolutions.Lib.Handler
import PaxosSolutions.NWGadget.Seq
import PaxosSolutions.NWGadget.Hash
import Mathlib.Data.Finset.Card

/-!
# Data of a Paxos replica

Rounds, values, commands, quorums, slots and pages as `Paxos.h` declares
them, the messages and the record of one server. An instance and its two
commands, kept in two arrays of a page, are one `Slot` here. Member masks are
finite sets of server ids, times are integers in nanoseconds (`time(0)` is the
quotient in seconds) and zero is the zero `timespec`. Load figures, peer
addresses and test switches are left out.
-/
namespace PaxosSolutions
open NWGadget

abbrev paxosCommandSize : ℕ := 1300
abbrev paxosMax : ℕ := 10
abbrev paxosFireMax : ℤ := 20
abbrev paxosPageMaxLen : ℤ := 1000

/-- A slot index `k` of a page. -/
abbrev K := Fin paxosMax

instance : LawfulBEq K := inferInstance

/-- `for( k = 0; k < PAXOS_MAX; k++ )` -/
abbrev allK : List K := List.finRange paxosMax

/-- `TO_SEQ( page, k )` -/
def toSeq (page : UInt32) (k : ℕ) : UInt32 := page * 10 + k.toUInt32

/-- `TO_PAGE( seq )` -/
def toPage (seq : UInt32) : UInt32 := seq / 10

/-- `TO_K( seq )` -/
def toK (seq : UInt32) : K := ⟨seq.toNat % 10, Nat.mod_lt _ (by decide)⟩

/-- `Round_t` -/
structure Round where
  rId : ℕ := 0
  rSeq : UInt32 := 0
deriving DecidableEq, Repr

/-- `CMP_ROUND( px, py )`: on equal non-zero numbers the smaller id is the
stronger one. -/
@[irreducible] def cmpRound (px py : Round) : ℤ :=
  let ret := seqCmp px.rSeq py.rSeq
  if ret = 0 then
    if px.rSeq ≠ 0 then
      if px.rId < py.rId then 1 else if py.rId < px.rId then -1 else 0
    else 0
  else ret

/-- The bits of `v_Flags`. -/
structure Flags where
  defined : Bool := false
  noop : Bool := false
  normal : Bool := false
  recover : Bool := false
  catchup : Bool := false
  validate : Bool := false
deriving DecidableEq, Repr

/-- `value_t`: `vServer` proposed it, `vFrom` holds its command. -/
structure Value where
  vFlags : Flags := {}
  vServer : ℕ := 0
  vEpoch : UInt32 := 0
  vFrom : ℕ := 0
deriving DecidableEq, Repr

/-- `isDefined( pV )` -/
def Value.IsDefined (v : Value) : Prop := v.vFlags.defined = true

instance (v : Value) : Decidable v.IsDefined := inferInstanceAs (Decidable (_ = true))

/-- `isSameValue( pA, pB )`: identity of values is identity of the proposer. -/
def Value.IsSame (a b : Value) : Prop := a.IsDefined ∧ b.IsDefined ∧ a.vServer = b.vServer

instance (a b : Value) : Decidable (a.IsSame b) := inferInstanceAs (Decidable (_ ∧ _))

/-- `MetaCmd_t`: at most `PAXOS_COMMAND_SIZE` bytes. -/
structure MetaCmd where
  cOpaque : List UInt8 := []
  cLen_le : cOpaque.length ≤ paxosCommandSize := by decide
deriving DecidableEq, Repr

theorem MetaCmd.nil_le : ([] : List UInt8).length ≤ paxosCommandSize := Nat.zero_le _

/-- A `MetaCmd_t` that `memset` cleared. -/
def MetaCmd.empty : MetaCmd := ⟨[], nil_le⟩

/-- `isEmpty( pC )` -/
def MetaCmd.IsEmpty (c : MetaCmd) : Prop := c.cOpaque = []

instance (c : MetaCmd) : Decidable c.IsEmpty := inferInstanceAs (Decidable (_ = []))

/-- `Quorum_t`: the counter counts the members. -/
structure Quorum where
  qTotal : ℕ := 0
  qCount : ℕ := 0
  qMember : Finset ℕ := ∅
  count_eq : qCount = qMember.card := by rfl

theorem quorum_count_empty : 0 = (∅ : Finset ℕ).card := rfl

def quorumInit (total : ℕ) : Quorum := ⟨total, 0, ∅, quorum_count_empty⟩

/-- `quorum_add`: nothing happens for a member. -/
def quorumAdd (q : Quorum) (j : ℕ) : Quorum :=
  if h : j ∈ q.qMember then q
  else ⟨q.qTotal, q.qCount + 1, insert j q.qMember, by
    rw [Finset.card_insert_of_notMem h, q.count_eq]⟩

def quorumMajority (q : Quorum) : Prop := q.qTotal / 2 + 1 ≤ q.qCount

instance (q : Quorum) : Decidable (quorumMajority q) := inferInstanceAs (Decidable (_ ≤ _))

@[simp] theorem quorumInit_member (n : ℕ) : (quorumInit n).qMember = ∅ := rfl
@[simp] theorem quorumInit_total (n : ℕ) : (quorumInit n).qTotal = n := rfl

@[simp] theorem quorumAdd_member (q : Quorum) (j : ℕ) :
    (quorumAdd q j).qMember = insert j q.qMember := by
  unfold quorumAdd
  split
  · next h => exact (Finset.insert_eq_self.mpr h).symm
  · rfl

theorem quorumAdd_of_mem {q : Quorum} {j : ℕ} (h : j ∈ q.qMember) : quorumAdd q j = q := dif_pos h

@[simp] theorem quorumAdd_total (q : Quorum) (j : ℕ) : (quorumAdd q j).qTotal = q.qTotal := by
  unfold quorumAdd
  split <;> rfl

/-- `PaxosStepMode_t` -/
inductive StepMode where
  | none | collect | gatherLast | wait | beginCast | gatherAccept | decided
deriving DecidableEq, Repr

/-- `PaxosInstance_t` -/
structure Instance where
  pDeadline : ℤ := 0
  pMode : StepMode := .none
  pInitValue : Value := {}
  pRndValue : Value := {}
  pRndBallot : Round := {}
  pRndAccQuo : Quorum := quorumInit 0
  pSuppressed : Bool := false

/-- `m_aPaxos[k]` with `m_aMetaCmd[k]`. -/
structure Slot extends Instance where
  cMetaCmdInit : MetaCmd := .empty
  cMetaCmdRnd : MetaCmd := .empty

/-- `PaxosMulti_t`: one page and the state of the leader. -/
structure Multi where
  pPage : UInt32 := 0
  pNextK : ℕ := 0
  pSuccessCount : ℕ := 0
  slots : K → Slot := fun _ => {}
  lMode : StepMode := .none
  lCurRnd : Round := {}
  lRndInfQuo : Quorum := quorumInit 0

/-- `Server_t`: what is known of a peer. -/
structure Server where
  sActive : Bool := false
  sConnected : Bool := false
  sLeader : ℤ := 0
  sEpoch : UInt32 := 0
  sElection : ℤ := 0
  sYourTime : ℤ := 0
  sToken : ℤ := 0
  sIssuedTime : ℤ := 0
  sBackPage : UInt32 := 0
  sNextDecide : UInt32 := 0
  sAutonomicLast : ℤ := 0

/-- `p_Election` -/
structure Election where
  eIamMaster : Bool := false
  eNewRndStart : Bool := false
  eBirth : ℤ := 0
  eEpoch : UInt32 := 0
  eElected : ℤ := 0
  eLeader : ℤ := 0

/-- `Gap_t`: a decision waiting for the ones before it. -/
structure Gap where
  gSeq : UInt32
  gDecision : Value
  gMetaCmd : MetaCmd
deriving DecidableEq, Repr

/-- The part of `Paxos_t` that the protocol itself is about. -/
structure Replica where
  pMyId : ℕ
  pMax : ℕ
  pMulti : Multi := {}
  pMultiLnk : List Multi := []
  pNextDecide : UInt32 := 0
  pGaps : Hash UInt32 Gap
  pbSuppressAccept : Bool := false

/-- `Paxos_t` -/
structure Paxos extends Replica where
  pActive : Bool := false
  pElection : Election := {}
  pMaximum : ℕ
  pServer : ℕ → Server := fun _ => {}
  pBackPage : UInt32 := 0
  pUnitUsec : ℤ := 0
  pNewRoundLast : ℤ := 0
  pCatchupNextDecide : UInt32 := 0
  pCatchupServer : ℕ := 0
  pCatchupRecvLast : ℤ := 0
  pCatchupRecvServer : ℕ := 0
  pIssuedLast : ℤ := 0
  pIssuedSeq : UInt32 := 0
  pCatchupStop : Bool := false
  pbPageSuppress : Bool := false

/-- `PaxosNotify_t` -/
inductive NotifyCode where
  | ok | noop | notActive | imNotMaster | imMaster | masterElected | masterCanceled
  | rejected | accepted | notGetPage | recover | validate
deriving DecidableEq, Repr

/-- `PaxosMode_t` -/
inductive NotifyMode where
  | normal | request | begin | redirect | accept | success | recover | catchup
deriving DecidableEq, Repr

/-- `PAXOS_MODE( pV )` -/
def paxosMode (v : Value) : NotifyMode := if v.vFlags.catchup then .catchup else .normal

/-- `PaxosExecute_t` -/
structure ExecuteHead where
  eSeq : UInt32
  eValidate : Bool
  eBackSeq : UInt32
  eNotify : NotifyCode
deriving DecidableEq, Repr

/-- `msg_paxos_mode_t` -/
inductive MsgMode where
  | none | decided | proposed
deriving DecidableEq, Repr

/-- `msg_paxos_t` -/
structure MsgPaxos where
  mMode : MsgMode := .none
  mRound : Round := {}
  mValue : Value := {}
deriving DecidableEq, Repr

structure MsgCollect where
  cCurRnd : Round
  cNextDecide : UInt32
  cBackPage : UInt32
  cPage : UInt32
  cNextK : ℕ
  cPaxos : K → MsgPaxos

structure MsgLast where
  lRound : Round
  lNextDecide : UInt32
  lPage : UInt32
  lPaxos : K → MsgPaxos

structure MsgOldRound where
  oRound : Round
  oCommit : Round

/-- `msg_begin_t`, also the body of a redirect; `bTo` collects the accepts. -/
structure MsgBegin where
  bTo : ℕ
  bNextDecide : UInt32 := 0
  bBackPage : UInt32 := 0
  bPage : UInt32
  bNextK : ℕ := 0
  bK : K
  bCurRnd : Round
  bValue : Value
  bMetaCmd : MetaCmd := .empty

structure MsgAccept where
  aPage : UInt32
  aK : K
  aRound : Round
  aValue : Value
  aMetaCmd : MetaCmd

structure MsgSuccess where
  sBackPage : UInt32
  sNextDecide : UInt32
  sPage : UInt32
  sNextK : ℕ
  sK : K
  sValue : Value
  sMetaCmd : MetaCmd

structure MsgCatchupReq where
  cSeqFrom : UInt32
  cSeqTo : UInt32
  cRecvLastDT : ℤ

structure MsgCatchupRpl where
  cTrue : Bool
  cMyNextDecide : UInt32 := 0
  cSeq : UInt32
  cPaxosI : Instance := {}
  cMetaCmd : MetaCmd := .empty

structure MsgAlive where
  aElection : ℤ
  aLeader : ℤ
  aEpoch : UInt32
  aYourTime : ℤ
  aMyTime : ℤ
  aCatchup : Bool
  aBackPage : UInt32
  aNextDecide : UInt32

/-- The messages between replicas. -/
inductive Msg where
  | alive (m : MsgAlive)
  | catchupReq (m : MsgCatchupReq)
  | catchupRpl (m : MsgCatchupRpl)
  | catchupEnd
  | collect (m : MsgCollect)
  | last (m : MsgLast)
  | oldRound (m : MsgOldRound)
  | begin (m : MsgBegin)
  | beginRedirect (m : MsgBegin)
  | accept (m : MsgAccept)
  | success (m : MsgSuccess)
  | testNewRound

/-- What a replica puts out: messages, callbacks, posts to the outbound queue,
and marks of the calls that properties speak of. `accepted` marks the point
where an acceptor stores a round and a value in a slot. -/
inductive Out where
  | send (dst : ℕ) (m : Msg)
  | execute (seq : UInt32) (d : Value) (c : MetaCmd)
  | outbound (h : ExecuteHead) (c : MetaCmd)
  | notify (mode : NotifyMode) (code : NotifyCode) (seq : UInt32) (server : ℕ)
      (epoch : UInt32) (c : MetaCmd) (fr : ℕ)
  | election (code : NotifyCode) (leader : ℤ) (epoch : UInt32) (fr : ℕ)
  | initCommand (seq : UInt32) (c : MetaCmd)
  | accepted (page : UInt32) (k : K) (r : Round) (v : Value) (c : MetaCmd)
  | reply (code : NotifyCode)

/-- The `ASSERT`s and `ABORT`s by their places. -/
inductive Fault where
  | initCommand | castCommand | redirectPage | redirectValidate | acceptFrom
  | collectDecided | collectCommand | beginCommand | sendSuccessCommand
  | successCommand | execCommand
  | abortAlive | abortCatchup
deriving DecidableEq, Repr

/-- What a step reads from outside: the clock, the answer of `fNotify` to
`PAXOS_VALIDATE` (true is an error), whether `p_Lock` is held by another
thread, and the value of an uninitialised flag of `server_receive_alive`. -/
structure Env where
  now : ℤ := 0
  refuse : Bool := false
  locked : Bool := false
  changed : Bool := false

/-- `time(0)` -/
def Env.time (e : Env) : ℤ := e.now / 10 ^ 9

/-- `TimespecAddUsec` -/
def addUsec (t usec : ℤ) : ℤ := t + usec * 1000

abbrev PaxosM := Lib.Handler Paxos Out Fault

namespace Replica

def page (p : Replica) : UInt32 := p.pMulti.pPage
def slot (p : Replica) (k : K) : Slot := p.pMulti.slots k
def curRnd (p : Replica) : Round := p.pMulti.lCurRnd
def aMode (p : Replica) : StepMode := p.pMulti.lMode
def infQuo (p : Replica) : Quorum := p.pMulti.lRndInfQuo

/-- `Seq( k )` -/
def seq (p : Replica) (k : ℕ) : UInt32 := toSeq p.page k

/-- `isMyRnd` -/
def IsMyRnd (p : Replica) : Prop := p.aMode = .beginCast ∧ p.curRnd.rId = p.pMyId

instance (p : Replica) : Decidable p.IsMyRnd := inferInstanceAs (Decidable (_ ∧ _))

def setMulti (f : Multi → Multi) (p : Replica) : Replica := { p with pMulti := f p.pMulti }

def setSlot (k : K) (f : Slot → Slot) (p : Replica) : Replica :=
  p.setMulti fun m => { m with slots := Function.update m.slots k (f (m.slots k)) }

theorem slot_setSlot (p : Replica) (k k' : K) (f : Slot → Slot) :
    (p.setSlot k f).slot k' = if k' = k then f (p.slot k) else p.slot k' := by
  unfold setSlot setMulti slot
  exact Function.update_apply ..

@[simp] theorem slot_setSlot_self (p : Replica) (k : K) (f : Slot → Slot) :
    (p.setSlot k f).slot k = f (p.slot k) := by
  rw [slot_setSlot, if_pos rfl]

theorem slot_setSlot_of_ne {k k' : K} (h : k' ≠ k) (p : Replica) (f : Slot → Slot) :
    (p.setSlot k f).slot k' = p.slot k' := by
  rw [slot_setSlot, if_neg h]

@[simp] theorem setSlot_setSlot (p : Replica) (k : K) (f g : Slot → Slot) :
    (p.setSlot k f).setSlot k g = p.setSlot k fun s => g (f s) := by
  simp [setSlot, setMulti]

theorem setSlot_congr {p : Replica} {k : K} {f g : Slot → Slot} (h : f (p.slot k) = g (p.slot k)) :
    p.setSlot k f = p.setSlot k g := by
  have h' : f (p.pMulti.slots k) = g (p.pMulti.slots k) := h
  simp only [setSlot, setMulti, h']

end Replica

namespace Paxos

/-- Neither page suppression nor a catch-up in progress holds back its own
acceptance. -/
def AcceptsOwn (p : Paxos) : Prop := p.pbPageSuppress = false ∧ p.pCatchupRecvLast = 0

instance (p : Paxos) : Decidable p.AcceptsOwn := inferInstanceAs (Decidable (_ ∧ _))

/-- A change of the protocol part alone. -/
def onReplica (f : Replica → Replica) (p : Paxos) : Paxos := { p with toReplica := f p.toReplica }

@[simp] theorem onReplica_toReplica (f : Replica → Replica) (p : Paxos) :
    (p.onReplica f).toReplica = f p.toReplica := rfl

def setServer (j : ℕ) (f : Server → Server) (p : Paxos) : Paxos :=
  { p with pServer := Function.update p.pServer j (f (p.pServer j)) }

def dtL (p : Paxos) : ℤ := 10 * p.pUnitUsec
def dtD (p : Paxos) : ℤ := p.pUnitUsec
def dtCon (p : Paxos) : ℤ := 2 * p.dtD + 2 * p.pUnitUsec
def dtNewRound (p : Paxos) : ℤ := 2 * p.dtD + 2 * p.pMax * p.dtL + p.dtL
def dtSuccess (p : Paxos) : ℤ := 3 * p.dtL + 2 * p.pMax * p.dtL + 2 * p.dtD

end Paxos

open Lib.Handler

/-- `for( j = 0; j < n; j++ )` without the server itself. -/
def others (p : Replica) (n : ℕ) : List ℕ := (List.range n).filter (· ≠ p.pMyId)

def modReplica (f : Replica → Replica) : PaxosM Unit := modify (Paxos.onReplica f)
def modMulti (f : Multi → Multi) : PaxosM Unit := modReplica (Replica.setMulti f)
def modSlot (k : K) (f : Slot → Slot) : PaxosM Unit := modReplica (Replica.setSlot k f)

/-- `PaxosSend`: an inactive peer gets nothing. -/
def paxosSend (j : ℕ) (m : Msg) : PaxosM Unit := do
  let p ← read
  when ((p.pServer j).sActive = true) (emit (.send j m))

/-- `PaxosValidate`: true is an error. -/
def paxosValidate (mode : NotifyMode) (seq : UInt32) (v : Value) (c : MetaCmd) (e : Env) :
    PaxosM Bool := do
  let p ← read
  if v.vFlags.validate = false then pure false
  else if v.vFrom = p.pMyId ∧ mode ≠ .recover ∧ mode ≠ .request then pure false
  else do
    emit (.notify mode .validate seq v.vServer v.vEpoch c v.vFrom)
    pure e.refuse

end PaxosSolutions
