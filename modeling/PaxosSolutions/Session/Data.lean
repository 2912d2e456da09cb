import PaxosSolutions.Paxos.Data
import PaxosSolutions.NWGadget.GElm
import PaxosSolutions.NWGadget.Msg

/-!
# Data of the session layer

Client ids, commands and message heads as `PaxosSession.h` declares them. A
message is its head: what follows it is the application's.
-/
namespace PaxosSolutions

/-- `h_Cmd`. The commands `ThreadExecute` knows; it hands every other one,
whatever its number, to the application. -/
inductive PaxosCmd where
  | sessionOpen | sessionClose | sessionAbort | sessionEvent | changeMember
  | app (code : ℕ)
deriving DecidableEq, Repr

/-- What `HashSessionCompare` compares of a `PaxosClientId_t`. -/
structure SessionId where
  iAddr : UInt32 := 0
  iPid : ℕ := 0
  iNo : ℤ := 0
  iTime : ℤ := 0
  iReuse : UInt32 := 0
deriving DecidableEq, Repr

/-- `PaxosClientId_t` -/
structure PaxosClientId extends SessionId where
  iSeq : UInt32 := 0
  iTry : UInt32 := 0
  iSeqWait : UInt32 := 0
deriving DecidableEq, Repr

/-- `sizeof( PaxosSessionHead_t )` -/
def headSize : ℕ := 120

/-- `PaxosSessionHead_t` -/
structure PaxosSessionHead where
  hCmd : PaxosCmd
  hId : PaxosClientId
  hLen : ℕ := headSize
deriving DecidableEq, Repr

/-! ### The accept object -/

/-- `PaxosAcceptOpen_t` -/
inductive PaxosAcceptOpen where
  | binded | opening | opened | closing
deriving DecidableEq, Repr

/-- `a_pFd` names a connection. -/
abbrev Fd := ℕ

/-- `a_Accepted`. `a_Cmd` is -1 before the first command. -/
structure Accepted where
  aStart : UInt32 := 0
  aEnd : UInt32 := 0
  aReply : UInt32 := 0
  aMaster : Bool := false
  aCmd : Option PaxosCmd := none
deriving DecidableEq, Repr

/-- `a_Rpls` -/
structure Rpls where
  rCnt : ℤ := 0
  rHold : Bool := false
  rMsg : List NWGadget.Msg := []
deriving DecidableEq, Repr

/-- `a_Events` -/
structure Events where
  eCnt : ℤ := 0
  eOmitted : ℤ := 0
  eSend : Bool := false
  ePRaised : Option NWGadget.Msg := none
deriving DecidableEq, Repr

/-- `PaxosAccept_t`, without the times that only a timer reads. -/
structure PaxosAccept where
  aPFd : Option Fd := none
  aId : PaxosClientId := {}
  aOpened : PaxosAcceptOpen := .binded
  aAccepted : Accepted := {}
  aRpls : Rpls := {}
  aEvents : Events := {}
deriving DecidableEq, Repr

/-- `_AcceptUnset`: an accept object of an open session stays. -/
def acceptUnset (a : PaxosAccept) : Option PaxosAccept :=
  if a.aOpened = .binded then
    some { a with
      aRpls := { a.aRpls with rMsg := [] }, aEvents := { a.aEvents with ePRaised := none } }
  else none

/-- `_AcceptAlloc`, `_AcceptUnset` and `_AcceptSet` for a client. -/
def acceptFn (i : PaxosClientId) : NWGadget.GElmFn PaxosAccept where
  alloc := { aId := i }
  unset := fun a => (acceptUnset a).map fun a => { a with aId := i }

/-- `c_Accept` -/
abbrev AcceptCtrl := NWGadget.GElmCtrl SessionId PaxosAccept

/-- `PaxosAcceptGet` -/
def paxosAcceptGet (i : PaxosClientId) (bCreate : Bool) (c : AcceptCtrl) :
    Except NWGadget.GElmFault AcceptCtrl :=
  c.get (acceptFn i) i.toSessionId bCreate

/-- `PaxosAcceptPut` -/
def paxosAcceptPut (s : SessionId) (c : AcceptCtrl) : Except NWGadget.GElmFault AcceptCtrl :=
  c.put (acceptFn {}) s

end PaxosSolutions
