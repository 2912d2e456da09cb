import PaxosSolutions.Session.Data
import PaxosSolutions.NWGadget.Seq

/-!
# What is done to an accept object

The duplicate test, the numbers of started and ended requests, the pending
replies and the raised events. Each function runs under the object's lock.
What is written into the head of a reply as it is sent is left out.
-/
namespace PaxosSolutions
open NWGadget

/-- The failed `ASSERT`s, and the wait of the duplicate test for an open
session to be closed. -/
inductive AcceptFault where
  | wait | assertStart | assertEnd | assertCnt
deriving DecidableEq, Repr

namespace PaxosAccept

/-- What `_PaxosAcceptIsAccepted` takes for the reuse of an accept object. -/
def reuses (h : PaxosSessionHead) (a : PaxosAccept) : Bool :=
  h.hCmd = .sessionOpen ∧ a.aAccepted.aCmd ≠ none ∧ a.aAccepted.aCmd ≠ some .sessionOpen

/-- The reset before a reuse: the counts of replies and events, not the
messages themselves. -/
def reuse (a : PaxosAccept) : PaxosAccept :=
  { a with
    aOpened := .binded
    aAccepted := {}
    aRpls := { a.aRpls with rCnt := 0, rHold := false }
    aEvents := { a.aEvents with eCnt := 0, eOmitted := 0, eSend := false } }

/-- `_PaxosAcceptIsAccepted` from the first comparison on. -/
def isReplied (h : PaxosSessionHead) (a : PaxosAccept) : Except AcceptFault ℤ :=
  if cmp32 h.hId.iSeq a.aAccepted.aReply < 0 then .ok (-1)
  else if a.aAccepted.aReply = h.hId.iSeq then
    if a.aAccepted.aCmd = some h.hCmd then .ok 1
    else if 0 < cmp32 a.aAccepted.aStart h.hId.iSeq then .ok (-2)
    else .error .assertStart
  else if a.aAccepted.aStart = h.hId.iSeq ∧ a.aAccepted.aCmd = some h.hCmd then .ok (-3)
  else .ok 0

/-- `_PaxosAcceptIsAccepted` -/
def isAccepted (h : PaxosSessionHead) (a : PaxosAccept) : Except AcceptFault (PaxosAccept × ℤ) :=
  if a.reuses h then
    if a.aOpened ≠ .binded then .error .wait
    else (isReplied h a.reuse).map fun n => (a.reuse, n)
  else (isReplied h a).map fun n => (a, n)

/-- Whether `PaxosAcceptedStart` has to wait. -/
def waits (h : PaxosSessionHead) (a : PaxosAccept) : Bool :=
  h.hCmd ≠ .sessionOpen ∧ 0 < cmp32 h.hId.iSeqWait a.aAccepted.aEnd

/-- `ACCEPTED_SEQ` -/
def acceptedSeq (h : PaxosSessionHead) (a : PaxosAccept) : PaxosAccept :=
  { a with
    aId := { a.aId with iSeq := h.hId.iSeq }
    aAccepted := { a.aAccepted with aStart := h.hId.iSeq, aCmd := some h.hCmd } }

/-- `PaxosAcceptedEnd` -/
def acceptedEnd (i : PaxosClientId) (a : PaxosAccept) : Except AcceptFault PaxosAccept :=
  if i.iSeq = a.aAccepted.aStart then
    .ok { a with aAccepted := { a.aAccepted with aEnd := i.iSeq } }
  else .error .assertEnd

/-! ### Replies -/

/-- `_PaxosAcceptFreeReply` -/
def freeReply (a : PaxosAccept) : PaxosAccept :=
  { a with aRpls := { a.aRpls with rCnt := 0, rMsg := [] } }

/-- `PaxosAcceptHold` -/
def hold (a : PaxosAccept) : PaxosAccept :=
  { a.freeReply with aRpls := { a.freeReply.aRpls with rHold := true } }

/-- `PaxosAcceptRelease` -/
def release (a : PaxosAccept) : PaxosAccept := { a with aRpls := { a.aRpls with rHold := false } }

/-- `_PaxosAcceptReplyByMsg` of a message: the replies before it go, unless
they are held. -/
def replyByMsg (m : NWGadget.Msg) (a : PaxosAccept) : PaxosAccept :=
  let r := if a.aRpls.rHold then a.aRpls else a.freeReply.aRpls
  { a with
    aAccepted := { a.aAccepted with aReply := a.aAccepted.aStart }
    aRpls := { r with rCnt := r.rCnt + 1, rMsg := r.rMsg ++ [m] } }

/-- `PaxosAcceptReplyByMsg`, and `PaxosAcceptReplyReadByMsg` if not `aMaster`. -/
def reply (aMaster : Bool) (m : NWGadget.Msg) (a : PaxosAccept) : PaxosAccept :=
  { a with aAccepted := { a.aAccepted with aMaster := aMaster } }.replyByMsg m

/-! ### Events -/

/-- `EVENT_MAX` -/
def eventMax : ℤ := 200

/-- A piece that has the memory it is in. -/
def mine (bytes : List UInt8) : MsgVec := { vVoid := bytes, vLen := bytes.length }

/-- The head that `SESSION_MSGINIT` makes of an event's reply, in memory:
`h_EventCnt`, `h_EventOmitted` and `h_Len`. -/
abbrev EventHead := ℤ → ℤ → ℕ → List UInt8

variable (head : EventHead)

/-- `PaxosAcceptEventRaise` of a message in memory. -/
def eventRaise (bytes : List UInt8) (a : PaxosAccept) : Except AcceptFault PaxosAccept :=
  let m := a.aEvents.ePRaised.getD { mSize := 2 }
  if a.aEvents.eSend = false then
    if a.aEvents.eCnt < eventMax then
      .ok { a with aEvents := { a.aEvents with
        eCnt := a.aEvents.eCnt + 1, ePRaised := some (m.add (mine bytes)) } }
    else .ok { a with aEvents := { a.aEvents with
        eOmitted := a.aEvents.eOmitted + 1, ePRaised := some m } }
  else if a.aEvents.eCnt ≠ 0 then .error .assertCnt
  else
    let m := (m.add (mine (head 1 a.aEvents.eOmitted (headSize + bytes.length)))).add (mine bytes)
    .ok { a.replyByMsg m with aEvents := { a.aEvents with ePRaised := none, eSend := false } }

/-- `PaxosAcceptEventGet`: without a raised event it leaves word to send the next one. -/
def eventGet (a : PaxosAccept) : PaxosAccept :=
  if 0 < a.aEvents.eCnt then
    let m := a.aEvents.ePRaised.getD { mSize := 2 }
    let m := m.insert (mine (head a.aEvents.eCnt a.aEvents.eOmitted (headSize + m.totalLen)))
    { a.replyByMsg m with
      aEvents := { a.aEvents with eCnt := 0, eOmitted := 0, ePRaised := none } }
  else { a with aEvents := { a.aEvents with eSend := true } }

end PaxosAccept

end PaxosSolutions
