import PaxosSolutions.Lib.Run
import PaxosSolutions.Session.Accept

/-!
# Snapshots of the accept objects

A snapshot has the accept objects one after the other, each as it is in memory,
with the messages its lists point to behind it. The writer goes along the
lists, the reader counts to `r_Cnt` and looks at `e_Cnt`.
-/
namespace PaxosSolutions
open Lib NWGadget

/-- A `PaxosAccept_t` as it is in memory. Of the pointer `e_pRaised` it is kept
whether it is `NULL`. -/
structure AcceptImage where
  aId : PaxosClientId
  aOpened : PaxosAcceptOpen
  aAccepted : Accepted
  rCnt : ℤ
  rHold : Bool
  eCnt : ℤ
  eOmitted : ℤ
  eSend : Bool
  raised : Bool
deriving DecidableEq, Repr

/-- What one `IOMarshal` writes, and what `IOMarshalEnd` writes. -/
inductive Frame where
  | tag (t : ℤ)
  | accept (a : AcceptImage)
  | msg (mSize mN : ℕ)
  | vec (mine disabled : Bool) (vSize vStart vLen : ℕ)
  | bytes (b : List UInt8)
  | stop
deriving DecidableEq, Repr

def snapAccept : ℤ := 1

/-- `ABORT()` at a tag that is none, a frame of another kind than the one that
is read, and a pointer taken over from the writer's memory. -/
inductive SnapFault where
  | abort | stream | pointer
deriving DecidableEq, Repr

namespace PaxosAccept

def image (a : PaxosAccept) : AcceptImage where
  aId := a.aId
  aOpened := a.aOpened
  aAccepted := a.aAccepted
  rCnt := a.aRpls.rCnt
  rHold := a.aRpls.rHold
  eCnt := a.aEvents.eCnt
  eOmitted := a.aEvents.eOmitted
  eSend := a.aEvents.eSend
  raised := a.aEvents.ePRaised.isSome

end PaxosAccept

/-! ### Writing -/

def vecMarshal (v : MsgVec) : List Frame :=
  [.vec v.mine v.disabled v.vVoid.length v.vStart v.vLen, .bytes v.vVoid]

def msgMarshal (m : NWGadget.Msg) : List Frame :=
  .msg m.mSize m.mAVec.length :: m.mAVec.flatMap vecMarshal

section Snapshot
variable {τ : Type} (adaptorMarshal : τ → List Frame)
  (adaptorUnmarshal : List Frame → Except SnapFault (τ × List Frame))

/-- One turn of `_PaxosAcceptorMarshal`. `t` is the application's adaptor. -/
def acceptMarshal (t : τ) (a : PaxosAccept) : List Frame :=
  .tag snapAccept :: .accept a.image :: (a.aRpls.rMsg.flatMap msgMarshal ++
    (a.aEvents.ePRaised.elim [] msgMarshal ++ if a.aOpened = .binded then [] else adaptorMarshal t))

/-- The accept objects that are written. -/
def marshalled (c : AcceptCtrl) : List (GElm SessionId PaxosAccept) :=
  c.geLnk.filter fun e => e.val.aAccepted.aCmd ≠ some .sessionClose

/-- `_PaxosAcceptorMarshal` -/
def acceptorMarshal (tags : SessionId → τ) (c : AcceptCtrl) : List Frame :=
  (marshalled c).flatMap fun e => acceptMarshal adaptorMarshal (tags e.eKey) e.val

/-! ### Reading -/

def vecsUnmarshal : ℕ → NWGadget.Msg → List Frame → Except SnapFault (NWGadget.Msg × List Frame)
  | 0, m, fs => .ok (m, fs)
  | n + 1, m, .vec _ disabled vSize vStart vLen :: .bytes b :: fs =>
      if b.length = vSize then
        vecsUnmarshal n (m.add ⟨true, disabled, b, vStart, vLen⟩) fs
      else .error .stream
  | _ + 1, _, _ => .error .stream

def msgUnmarshal : List Frame → Except SnapFault (NWGadget.Msg × List Frame)
  | .msg mSize mN :: fs => vecsUnmarshal mN { mSize := mSize } fs
  | _ => .error .stream

def msgsUnmarshal : ℕ → List Frame → Except SnapFault (List NWGadget.Msg × List Frame)
  | 0, fs => .ok ([], fs)
  | n + 1, fs => do
      let (m, fs) ← msgUnmarshal fs
      let (ms, fs) ← msgsUnmarshal n fs
      .ok (m :: ms, fs)

def raisedUnmarshal (a : AcceptImage) (fs : List Frame) :
    Except SnapFault (Option NWGadget.Msg × List Frame) :=
  if 0 < a.eCnt then (msgUnmarshal fs).map fun r => (some r.1, r.2)
  else if a.raised then .error .pointer
  else .ok (none, fs)

/-- The object that the reader makes of an image and its messages. -/
def AcceptImage.restore (a : AcceptImage) (rMsg : List NWGadget.Msg)
    (ePRaised : Option NWGadget.Msg) : PaxosAccept where
  aPFd := none
  aId := a.aId
  aOpened := a.aOpened
  aAccepted := a.aAccepted
  aRpls := ⟨a.rCnt, a.rHold, rMsg⟩
  aEvents := ⟨a.eCnt, a.eOmitted, a.eSend, ePRaised⟩

/-- What the reader has made so far: the objects and the adaptors. -/
structure Unmarshalled (τ : Type) where
  cAccept : AcceptCtrl := { geMaxCnt := 20000 }
  tags : List (SessionId × τ) := []

/-- `PaxosAcceptorUnmarshal` behind the tag. The reference it gets it keeps. -/
def acceptUnmarshal (u : Unmarshalled τ) :
    List Frame → Except SnapFault (Unmarshalled τ × List Frame)
  | .accept a :: fs =>
      match paxosAcceptGet a.aId true u.cAccept with
      | .error _ => .error .abort
      | .ok c => do
          let (ms, fs) ← msgsUnmarshal a.rCnt.toNat fs
          let (e, fs) ← raisedUnmarshal a fs
          let c := c.change a.aId.toSessionId fun _ => a.restore ms e
          if a.aOpened = .binded then .ok ({ u with cAccept := c }, fs)
          else do
            let (t, fs) ← adaptorUnmarshal fs
            .ok (⟨c, u.tags ++ [(a.aId.toSessionId, t)]⟩, fs)
  | _ => .error .stream

/-- `PaxosAcceptorUnmarshal`, for at most `n` tags. -/
def acceptorUnmarshal : ℕ → Unmarshalled τ → List Frame →
    Except SnapFault (Unmarshalled τ × List Frame)
  | _, u, .stop :: fs => .ok (u, .stop :: fs)
  | n + 1, u, .tag t :: fs =>
      if t = snapAccept then do
        let (u, fs) ← acceptUnmarshal adaptorUnmarshal u fs
        acceptorUnmarshal n u fs
      else .error .abort
  | _, _, _ => .error .abort

end Snapshot

end PaxosSolutions
