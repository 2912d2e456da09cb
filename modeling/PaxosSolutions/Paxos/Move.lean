import PaxosSolutions.Paxos.Run

/-!
# Moves

What a step of a replica does to the protocol part of its state is a row of
moves. A move says what it puts out, and which state of the replica and which
input it comes from. Properties of runs are proved move by move.
-/
namespace PaxosSolutions
open NWGadget

/-- Messages that carry nothing of the protocol state. -/
def Msg.Quiet : Msg → Prop
  | .alive _ | .catchupReq _ | .catchupEnd | .testNewRound => True
  | .catchupRpl m => m.cTrue = false ∧ m.cMetaCmd.IsEmpty
  | _ => False

def Out.Quiet : Out → Prop
  | .send _ m => m.Quiet
  | .notify _ code _ _ _ _ _ => code ≠ .rejected
  | .reply code => code ≠ .ok
  | .outbound _ _ | .election _ _ _ _ => True
  | .execute _ _ _ | .initCommand _ _ | .accepted _ _ _ _ _ => False

/-- A reply from a decided slot of the current page or of a retained one. -/
def IsReply (p : Replica) (m : MsgCatchupRpl) : Prop :=
  m.cTrue = true ∧ ∃ mu, (mu = p.pMulti ∨ mu ∈ p.pMultiLnk) ∧
    (mu.pPage = toPage m.cSeq ∨ ∃ k : K, m.cSeq = toSeq mu.pPage k) ∧
    (mu.slots (toK m.cSeq)).pMode = .decided ∧ ¬ m.cMetaCmd.IsEmpty ∧
    m.cPaxosI = (mu.slots (toK m.cSeq)).toInstance ∧
    m.cMetaCmd = (mu.slots (toK m.cSeq)).cMetaCmdRnd

/-- A collection of the round that was just begun. -/
def IsCollect (p : Replica) (m : MsgCollect) : Prop :=
  m.cCurRnd = p.curRnd ∧ m.cPage = p.page ∧ m.cPaxos = fun k => collectSlot (p.slot k)

/-- The answer to a collection, by the page it is about. -/
def IsLast (p : Replica) (c : MsgCollect) (m : MsgLast) : Prop :=
  m.lRound = c.cCurRnd ∧ m.lNextDecide = p.pNextDecide ∧
    ((cmp32 c.cPage p.page < 0 ∧ ∃ mu, getPage p c.cPage = some mu ∧ m.lPage = mu.pPage ∧
        (∀ k, (mu.slots k).pMode = .decided) ∧
        m.lPaxos = fun k => { mMode := .decided, mValue := (mu.slots k).pRndValue }) ∨
      (0 < cmp32 c.cPage p.page ∧ m.lPage = p.page ∧ m.lPaxos = fun _ => {}) ∨
      (c.cPage = p.page ∧ m.lPage = p.page ∧
        m.lPaxos = fun k => lastSlot p.pMyId (p.slot k) (c.cPaxos k)))

/-- A proposal of slot `k` for the leader `bTo` in round `r`. -/
def IsBegin (p : Replica) (k : K) (bTo : ℕ) (r : Round) (m : MsgBegin) : Prop :=
  m.bTo = bTo ∧ m.bPage = p.page ∧ m.bK = k ∧ m.bCurRnd = r ∧
    m.bValue = { (p.slot k).pRndValue with vFrom := p.pMyId } ∧
    m.bMetaCmd = (p.slot k).cMetaCmdRnd

/-- The mark of the own acceptance of slot `k` in round `r`. -/
def ownMark (p : Replica) (k : K) (r : Round) : Out :=
  .accepted p.page k r (p.slot k).pRndValue (p.slot k).cMetaCmdRnd

/-- What `SendBeginCast` puts out. -/
def IsCast (p : Replica) (k : K) (bTo : ℕ) (r : Round) (own : Bool) (o : Out) : Prop :=
  (∃ j m, o = .send j (.begin m) ∧ j < p.pMax ∧ IsBegin p k bTo r m) ∨
    (own = true ∧ o = ownMark p k r)

/-- The request to the server that holds the command. -/
def IsRedirect (p : Replica) (k : K) (o : Out) : Prop :=
  ∃ m, o = .send (p.slot k).pRndValue.vFrom (.beginRedirect m) ∧ m.bTo = p.pMyId ∧
    m.bPage = p.page ∧ m.bK = k ∧ m.bCurRnd = p.curRnd ∧ m.bValue = (p.slot k).pRndValue

/-- What `BeginCast` puts out for slot `k`. -/
def IsBeginCast (p : Replica) (k : K) (own : Bool) (o : Out) : Prop :=
  if (p.slot k).pRndValue.vFrom = p.pMyId then
    ¬ (p.slot k).cMetaCmdRnd.IsEmpty ∧ IsCast p k p.pMyId p.curRnd own o
  else IsRedirect p k o

def IsSuccess (p : Replica) (k : K) (o : Out) : Prop :=
  ∃ j m, o = .send j (.success m) ∧ m.sPage = p.page ∧ m.sK = k ∧
    m.sValue = (p.slot k).pRndValue ∧ m.sMetaCmd = (p.slot k).cMetaCmdRnd

def IsAccept (p : Replica) (k : K) (m : MsgAccept) : Prop :=
  m.aPage = p.page ∧ m.aK = k ∧ m.aRound = (p.slot k).pRndBallot ∧
    m.aValue = (p.slot k).pRndValue ∧ m.aMetaCmd = (p.slot k).cMetaCmdRnd

/-- The own acceptance of round `r`. -/
def Slot.vote (me : ℕ) (r : Round) (s : Slot) : Slot :=
  { s with pRndBallot := r, pRndAccQuo := quorumAdd s.pRndAccQuo me }

/-- `BeginCast` on its slot, with the own acceptance if it is not held back. -/
def Slot.cast (me : ℕ) (r : Round) (deadline : ℤ) (own : Bool) (s : Slot) : Slot :=
  { if own then s.vote me r else s with pMode := .gatherAccept, pDeadline := deadline }

/-- What `GatherLast` takes over before it counts the replies. -/
def Multi.gather (fr : ℕ) (l : MsgLast) (m : Multi) : Multi :=
  { m with
    lRndInfQuo := quorumAdd m.lRndInfQuo fr
    slots := fun k => if l.lPage = m.pPage then (m.slots k).adopt (l.lPaxos k) else m.slots k }

/-- The slots that the winner of a round begins. -/
def Slot.Open (s : Slot) : Prop := s.pMode ≠ .none ∧ s.pMode ≠ .decided

instance (s : Slot) : Decidable s.Open := inferInstanceAs (Decidable (_ ∧ _))

/-- `GatherLast` with its casts: all open slots of `ks` are cast, the others
were not reached. -/
def Multi.winCast (me : ℕ) (deadline : ℤ) (own : Bool) (ks : List K) (m : Multi) : Multi :=
  { m.win with
    slots := fun k =>
      let s := m.slots k
      if s.Open then
        if k ∈ ks then s.cast me m.lCurRnd deadline (own ∧ s.pRndValue.vFrom = me)
        else { s with pMode := .wait }
      else s }

/-- `InitCommand` and `Continue` on a slot. -/
def Slot.init (me : ℕ) (flag : Flags) (c : MetaCmd) (s : Slot) : Slot :=
  { s with
    pInitValue := { vFlags := { flag with defined := true }, vServer := me, vFrom := me }
    cMetaCmdInit := c }

/-- A normal run of `Exec` between two states of the protocol part. -/
def Execs (k : K) (p : Replica) (o : List Out) (p' : Replica) : Prop :=
  ∃ (s : Paxos) (e : Env), s.toReplica = p ∧ (exec k e s).val = .ok () ∧
    (exec k e s).out = o ∧ (exec k e s).st.toReplica = p'

/-- The inputs that begin a round. -/
def StartsRound (p : Paxos) (i : Input) (e : Env) : Prop :=
  match i with
  | .recv _ .testNewRound => True
  | .recv _ _ => False
  | .request _ _ =>
      p.pActive = true ∧ p.pElection.eIamMaster = true ∧ ¬ p.IsMyRnd ∧
        p.pElection.eNewRndStart = true ∧ p.aMode ≠ .gatherLast
  | .detector =>
      p.pElection.eIamMaster = true ∧
        if p.IsMyRnd then ∃ k, (p.slot k).pDeadline ≠ 0 ∧ (p.slot k).pDeadline < e.now ∧
          (p.slot k).pMode ≠ .decided
        else p.aMode ≠ .gatherLast ∨ p.pNewRoundLast < e.time
  | .heartbeat => False

/-- The inputs that cast proposals of an own round. -/
def Casts (i : Input) : Prop := (∃ fr m, i = .recv fr (.last m)) ∨ ∃ c v, i = .request c v

/-- The moves of a step from `ρ` on input `i`. -/
inductive Move (ρ : Paxos) (i : Input) (e : Env) : Replica → List Out → Replica → Prop
  | quiet {p : Replica} {o : Out} (h : o.Quiet) : Move ρ i e p [o] p
  | tellOld {p : Replica} {j : ℕ} {m : MsgOldRound} (h : m.oCommit = p.curRnd) :
      Move ρ i e p [.send j (.oldRound m)] p
  | tellDecided {p : Replica} {j : ℕ} {m : MsgCatchupRpl} (h : IsReply p m) :
      Move ρ i e p [.send j (.catchupRpl m)] p
  | newRound {p p' : Replica} {n : UInt32} {o : List Out} (hi : StartsRound ρ i e)
      (hp : p = ρ.toReplica)
      (hc : ∀ k, (p.slot k).pMode = .none → (p.slot k).pInitValue.IsDefined →
        ¬ (p.slot k).cMetaCmdInit.IsEmpty)
      (hp' : p' = p.setMulti (Multi.newRound p.pMyId p.pMax n))
      (ho : ∀ x ∈ o, ∃ j m, x = .send j (.collect m) ∧ j ≠ p.pMyId ∧ j < p.pMax ∧
        IsCollect p' m) :
      Move ρ i e p o p'
  | old {p : Replica} {fr : ℕ} {m : MsgOldRound} (hi : i = .recv fr (.oldRound m))
      (hp : p = ρ.toReplica) (h : cmpRound p.curRnd m.oCommit < 0) :
      Move ρ i e p [] (p.setMulti fun mu => { mu with lCurRnd := m.oCommit, lMode := .none })
  | promise {p : Replica} {fr : ℕ} {m : MsgCollect} (hi : i = .recv fr (.collect m))
      (hp : p = ρ.toReplica) (h : cmpRound p.curRnd m.cCurRnd ≤ 0) :
      Move ρ i e p [] (p.setMulti fun mu => { mu with lCurRnd := m.cCurRnd })
  | tellLast {p : Replica} {fr : ℕ} {m : MsgCollect} {l : MsgLast}
      (hi : i = .recv fr (.collect m)) (h : cmpRound ρ.curRnd m.cCurRnd ≤ 0)
      (hp : p = ρ.setMulti fun mu => { mu with lCurRnd := m.cCurRnd }) (hl : IsLast p m l) :
      Move ρ i e p [.send fr (.last l)] p
  | gather {p : Replica} {fr : ℕ} {m : MsgLast} (hi : i = .recv fr (.last m))
      (hp : p = ρ.toReplica) (ha : p.aMode = .gatherLast) (hr : cmpRound m.lRound p.curRnd = 0) :
      Move ρ i e p [] (p.setMulti (Multi.gather fr m))
  | win {p : Replica} {fr : ℕ} {m : MsgLast} {d : ℤ} {own : Bool} {ks : List K} {o : List Out}
      (hi : i = .recv fr (.last m)) (hp : p = ρ.setMulti (Multi.gather fr m))
      (ha : p.aMode = .gatherLast) (hr : cmpRound m.lRound p.curRnd = 0)
      (hq : quorumMajority p.infQuo) (hown : own = true ↔ ρ.AcceptsOwn ∧ p.pMyId < p.pMax)
      (ho : ∀ x ∈ o, ∃ k ∈ ks, (p.slot k).Open ∧ IsBeginCast p k own x)
      (ho' : ∀ k ∈ ks, (p.slot k).Open → (p.slot k).pRndValue.vFrom = p.pMyId → own = true →
        ownMark p k p.curRnd ∈ o) :
      Move ρ i e p o (p.setMulti (Multi.winCast p.pMyId d own ks))
  | recast {p : Replica} {fr : ℕ} {m : MsgBegin} {w : Bool} {o : List Out}
      (hi : i = .recv fr (.beginRedirect m)) (hp : p = ρ.toReplica) (hpage : p.page = m.bPage)
      (hc : ¬ (p.slot m.bK).cMetaCmdRnd.IsEmpty) (hown : w = true → m.bTo = p.pMyId)
      (ho : ∀ x ∈ o, IsCast p m.bK m.bTo m.bCurRnd w x)
      (ho' : w = true → ownMark p m.bK m.bCurRnd ∈ o) :
      Move ρ i e p o
        (p.setSlot m.bK fun s => if w then s.vote p.pMyId m.bCurRnd else s)
  | takeCmd {p : Replica} {fr : ℕ} {m : MsgAccept} (hi : i = .recv fr (.accept m))
      (hp : p = ρ.toReplica) (hr : cmpRound p.curRnd m.aRound = 0) (hpage : p.page = m.aPage)
      (hm : (p.slot m.aK).pMode = .gatherAccept) (hc : (p.slot m.aK).cMetaCmdRnd.IsEmpty) :
      Move ρ i e p [] (p.setSlot m.aK fun s =>
        { s with cMetaCmdRnd := m.aMetaCmd, pRndValue := { s.pRndValue with vFrom := p.pMyId } })
  | addAcc {p : Replica} {fr : ℕ} {m : MsgAccept} (hi : i = .recv fr (.accept m))
      (hr : cmpRound p.curRnd m.aRound = 0) (hpage : p.page = m.aPage)
      (hm : (p.slot m.aK).pMode = .gatherAccept) :
      Move ρ i e p [] (p.setSlot m.aK fun s =>
        { s with pRndAccQuo := quorumAdd s.pRndAccQuo fr })
  | decide {p p' : Replica} {fr : ℕ} {m : MsgAccept} {o o' : List Out}
      (hi : i = .recv fr (.accept m)) (hr : cmpRound p.curRnd m.aRound = 0)
      (hpage : p.page = m.aPage) (hm : (p.slot m.aK).pMode = .gatherAccept)
      (hme : p.pMyId ∈ (p.slot m.aK).pRndAccQuo.qMember)
      (hq : quorumMajority (p.slot m.aK).pRndAccQuo)
      (hf : (p.slot m.aK).pRndValue.vFrom = p.pMyId)
      (hc : ¬ (p.slot m.aK).cMetaCmdRnd.IsEmpty) (ho : ∀ x ∈ o, IsSuccess p m.aK x)
      (he : Execs m.aK (p.setSlot m.aK Slot.win) o' p') :
      Move ρ i e p (o ++ o') p'
  | learn {p p' : Replica} {fr : ℕ} {k : K} {v : Value} {c : MetaCmd} {mark : Flags → Flags}
      {o : List Out}
      (hi : (∃ m, i = .recv fr (.success m) ∧ p.page = m.sPage ∧ k = m.sK ∧ v = m.sValue ∧
          c = m.sMetaCmd ∧ mark = fun f => { f with normal := true }) ∨
        ∃ m, i = .recv fr (.catchupRpl m) ∧ p.page = toPage m.cSeq ∧ k = toK m.cSeq ∧
          v = m.cPaxosI.pRndValue ∧ c = m.cMetaCmd ∧ mark = fun f => { f with catchup := true })
      (hp : p = ρ.toReplica) (hm : (p.slot k).pMode ≠ .decided) (hc : ¬ c.IsEmpty)
      (he : Execs k (p.setSlot k (Slot.decide v c p.pMyId mark)) o p') :
      Move ρ i e p o p'
  | store {p : Replica} {fr : ℕ} {m : MsgBegin} {held : Bool} {o : List Out}
      (hi : i = .recv fr (.begin m)) (hp : p = ρ.toReplica) (hs : p.pbSuppressAccept = false)
      (hr : 0 ≤ cmpRound m.bCurRnd p.curRnd) (hpage : p.page = m.bPage)
      (hm : (p.slot m.bK).pMode ≠ .decided) (hc : ¬ m.bMetaCmd.IsEmpty)
      (ho : ∀ x ∈ o, held = false ∧ ∃ a, x = .send m.bTo (.accept a) ∧
        IsAccept (p.setSlot m.bK (Slot.store m p.pMyId)) m.bK a) :
      Move ρ i e p
        (.accepted p.page m.bK m.bCurRnd { m.bValue with vFrom := p.pMyId } m.bMetaCmd :: o)
        (p.setSlot m.bK fun s =>
          { s.store m p.pMyId with pSuppressed := s.pSuppressed || held })
  | release {p : Replica} {k : K} {o : List Out} (hs : (p.slot k).pSuppressed = true)
      (hm : (p.slot k).pMode ≠ .decided)
      (ho : ∀ x ∈ o, ∃ j a, x = .send j (.accept a) ∧ IsAccept p k a) :
      Move ρ i e p o (p.setSlot k fun s => { s with pSuppressed := false })
  | request {p q : Replica} {cmd : List UInt8} {validate : Bool} {k : K} {c : MetaCmd}
      {epoch : UInt32} {d : ℤ} {w : Bool} {o : List Out} (hi : i = .request cmd validate)
      (hp : p = ρ.toReplica) (hcmd : c.cOpaque = cmd) (hN : p.pMax ≠ 1) (hmy : p.IsMyRnd)
      (hpage : p.page = toPage p.pNextDecide) (hk : toK p.pNextDecide ≤ k)
      (hm : (p.slot k).pMode = .none) (hc : ¬ c.IsEmpty)
      (hown : w = true ↔ ρ.AcceptsOwn ∧ p.pMyId < p.pMax)
      (hq : q = p.setSlot k fun s =>
        (s.init p.pMyId { validate := validate } c).propose epoch .beginCast)
      (ho : ∀ x ∈ o, IsBeginCast q k w x) (ho' : w = true → ownMark q k p.curRnd ∈ o) :
      Move ρ i e p (.initCommand (p.seq k) c :: o)
        (q.setSlot k (Slot.cast p.pMyId p.curRnd d w))
  | requestFail {p : Replica} {k : K} {c : MetaCmd} {validate : Bool}
      (hi : i = .request c.cOpaque validate) (hc : c.IsEmpty) :
      Move ρ i e p [.initCommand (p.seq k) c] p
  | replyOk {p : Replica} {cmd : List UInt8} {validate : Bool} (hi : i = .request cmd validate)
      (hc : cmd ≠ []) : Move ρ i e p [.reply .ok] p
  | winSole {p : Replica} {fr : ℕ} {m : MsgLast} (hi : i = .recv fr (.last m))
      (hN : p.pMax = 1) (ha : p.aMode = .gatherLast) :
      Move ρ i e p [] (p.setMulti Multi.win)
  | requestSole {p : Replica} {cmd : List UInt8} {validate : Bool} {k : K} {c : MetaCmd}
      {epoch : UInt32} (hi : i = .request cmd validate) (hp : p = ρ.toReplica)
      (hcmd : c.cOpaque = cmd) (hN : p.pMax = 1) (hmy : p.IsMyRnd)
      (hpage : p.page = toPage p.pNextDecide) (hk : toK p.pNextDecide ≤ k)
      (hm : (p.slot k).pMode = .none) (hc : ¬ c.IsEmpty) :
      Move ρ i e p [.initCommand (p.seq k) c]
        (p.setSlot k fun s =>
          (s.init p.pMyId { validate := validate } c).propose epoch .beginCast)
  | sole {p p' : Replica} {k : K} {d : ℤ} {w : Bool} {o o' : List Out} (hi : Casts i)
      (hN : p.pMax = 1)
      (hm : (p.slot k).pMode = .beginCast) (ha : p.aMode = .beginCast)
      (hc : ¬ (p.slot k).cMetaCmdRnd.IsEmpty) (ho : ∀ x ∈ o, IsBeginCast p k w x)
      (he : Execs k (p.setSlot k fun s =>
        (s.cast p.pMyId p.curRnd d (w ∧ s.pRndValue.vFrom = p.pMyId)).win) o' p') :
      Move ρ i e p (o ++ ownMark p k p.curRnd :: o') p'
  | soleFail {p : Replica} {k : K} {w : Bool} {o : List Out} (hi : Casts i) (hN : p.pMax = 1)
      (hm : (p.slot k).pMode = .beginCast) (hc : (p.slot k).cMetaCmdRnd.IsEmpty)
      (ho : ∀ x ∈ o, IsBeginCast p k w x ∨ x = ownMark p k p.curRnd) : Move ρ i e p o p

abbrev Moves (ρ : Paxos) (i : Input) (e : Env) : Replica → List Out → Replica → Prop :=
  Lib.Runs (Move ρ i e)

end PaxosSolutions
