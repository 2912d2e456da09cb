import PaxosSolutions.Lib.Log
import PaxosSolutions.Lib.Run
import PaxosSolutions.NWGadget.Seq

/-!
# Delegations

A `PFSDlg_t` is a lock of the file service that a client keeps after its use,
and lends to holders of its own. A call runs under `d_Mtx`, also while it waits
for the reply of a lock request, and gives the mutex up only in `CndWait`. So a
step is what a call does until it returns or waits, and a call that waits may
be woken at any time. What the session, the service and the callbacks answer is
an input of the step.
-/
namespace PaxosSolutions
open Lib NWGadget

/-- `d_Own`: 0, `PFS_DLG_R` or `PFS_DLG_W`. -/
inductive DlgOwn where
  | none | r | w
deriving DecidableEq, Repr

/-- What `_PFSLockR` and `_PFSLockW` give, `ebusy` if `l_bTry` is set. -/
inductive DlgLockRpl where
  | granted (lVer : UInt32)
  | ebusy
  | error
deriving DecidableEq, Repr

/-- What a step meets: `PaxosSessionGetErr`, the reply to a lock request, the
results of `d_fInit` and `d_fTerm`, and whether `PFSUnlockSuper` gets to the
service. -/
structure DlgEnv where
  err : ℤ := 0
  lock : DlgLockRpl := .error
  fInit : ℤ := 0
  fTerm : ℤ := 0
  unlockSuper : Bool := true
deriving DecidableEq, Repr

/-- What happens to a delegation: holds of a holder, calls of `d_fInit` that
succeed, calls of `d_fTerm`, and the release of the lock in the service. -/
inductive DlgEvent (H : Type) where
  | granted (h : H) (own : DlgOwn)
  | released (h : H)
  | inited
  | termed
  | unlocked
deriving DecidableEq, Repr

/-- A call in `CndWait` with the `VerOld` it read. `counted` is not set where
it waits for the recalls to end. -/
inductive DlgBlocked (H : Type) where
  | holdR (h : H) (verOld : UInt32) (counted : Bool)
  | holdW (h : H) (verOld : UInt32) (counted : Bool)
  | return (h : H)
  | dlgRecall
deriving DecidableEq, Repr

/-- `PFSDlg_t`. `d_Hold` has an item for each hold, under its holder. -/
structure PFSDlg (H : Type) where
  dOwn : DlgOwn := .none
  dOwnOld : DlgOwn := .none
  dVer : UInt32 := 0
  dErr : ℤ := 0
  dHold : List H := []
  dWait : ℕ := 0
  dWaitRecall : ℕ := 0
  dFInit : Bool := true
  dFTerm : Bool := true
deriving DecidableEq, Repr

/-- A delegation with the calls that wait, the holds of the session in the lock
table of the service, and what happened. -/
structure DlgSys (H : Type) extends PFSDlg H where
  blocked : List (DlgBlocked H) := []
  held : List (DlgOwn × UInt32) := []
  log : List (DlgEvent H) := []
deriving DecidableEq, Repr

namespace DlgSys
variable {H : Type}

def note (x : DlgEvent H) (s : DlgSys H) : DlgSys H := { s with log := s.log ++ [x] }

def cndWait (b : DlgBlocked H) (s : DlgSys H) : DlgSys H := { s with blocked := s.blocked ++ [b] }

/-- `PFSUnlock` at the service: the first hold of the session is freed. -/
def unlock (s : DlgSys H) : DlgSys H :=
  match s.held with
  | [] => s
  | _ :: held => { s with held := held }.note .unlocked

/-- The call of `d_fTerm`, if there is one. -/
def term (s : DlgSys H) : DlgSys H := if s.dFTerm then s.note .termed else s

/-- `HashPut` to `d_Hold`, and the return of the hold. -/
def grant (h : H) (own : DlgOwn) (s : DlgSys H) : DlgSys H :=
  { s with dHold := h :: s.dHold }.note (.granted h own)

/-- `_PFSDlgHoldR` and `_PFSDlgHoldW` once the lock is granted. -/
def locked (own : DlgOwn) (h : H) (ver verOld : UInt32) (e : DlgEnv) (s : DlgSys H) : DlgSys H :=
  let s := { s with held := (own, ver) :: s.held }
  if seqCmp ver verOld ≤ 0 then { s.unlock with dOwn := .none }
  else
    let s := { s with dOwnOld := s.dOwn, dOwn := own, dVer := ver }
    if s.dFInit = false then s.grant h own
    else if e.fInit < 0 then { s.unlock with dOwn := .none }
    else (s.note .inited).grant h own

/-- The session is in error: the delegation is lost. -/
def lose (s : DlgSys H) : DlgSys H :=
  { if s.dOwn = .none then s else s.term with dOwn := .none, dVer := 0 }

/-- `_PFSDlgReturn` and `_PFSDlgRecall` after their loops. `PFSUnlockSuper` is
also refused where the session has no hold. -/
def giveBack (e : DlgEnv) (s : DlgSys H) : DlgSys H :=
  if s.dOwn = .none then s
  else if s.dFTerm ∧ e.fTerm ≠ 0 then s.term
  else if e.unlockSuper = false ∨ s.held = [] then s.term
  else { s.term.unlock with dOwn := .none, dVer := 0 }

@[simp] theorem term_held (s : DlgSys H) : s.term.held = s.held := by
  unfold term
  split <;> rfl

@[simp] theorem term_dHold (s : DlgSys H) : s.term.dHold = s.dHold := by
  unfold term
  split <;> rfl

@[simp] theorem unlock_dHold (s : DlgSys H) : s.unlock.dHold = s.dHold := by
  unfold unlock
  split <;> rfl

theorem unlock_of_held {s : DlgSys H} {x : DlgOwn × UInt32} (h : s.held = [x]) :
    s.unlock = { s with held := [] }.note .unlocked := by
  unfold unlock
  split
  · rename_i hnil
    rw [hnil] at h
    cases h
  · rename_i hcons
    rw [hcons] at h
    cases h
    rfl

variable [DecidableEq H]

/-- `_PFSDlgHoldR` from `again` -/
def holdRAgain (h : H) (verOld : UInt32) (e : DlgEnv) (s : DlgSys H) : DlgSys H :=
  if s.dWaitRecall ≠ 0 then s.cndWait (.holdR h verOld false)
  else
    match s.dOwn with
    | .r => { s with dOwnOld := s.dOwn }.grant h .r
    | .w =>
        if h ∉ s.dHold ∧ s.dHold.length = 1 then
          { s with dWait := s.dWait + 1 }.cndWait (.holdR h verOld true)
        else { s with dOwnOld := s.dOwn }.grant h .r
    | .none =>
        match e.lock with
        | .granted ver => s.locked .r h ver verOld e
        | _ => s

/-- `_PFSDlgHoldW` from `again`. From `PFS_DLG_R` the lock is given up before
it is asked for again. -/
def holdWAgain (h : H) (verOld : UInt32) (e : DlgEnv) (s : DlgSys H) : DlgSys H :=
  if s.dWaitRecall ≠ 0 then s.cndWait (.holdW h verOld false)
  else
    match s.dOwn with
    | .w =>
        if 0 < s.dHold.length ∧ h ∉ s.dHold then
          { s with dWait := s.dWait + 1 }.cndWait (.holdW h verOld true)
        else { s with dOwnOld := s.dOwn }.grant h .w
    | .r =>
        if 1 < s.dHold.length ∨ (s.dHold.length = 1 ∧ h ∉ s.dHold) then
          { s with dWait := s.dWait + 1 }.cndWait (.holdW h verOld true)
        else if s.dFTerm ∧ e.fTerm < 0 then s.term
        else
          match e.lock with
          | .granted ver => s.term.unlock.locked .w h ver verOld e
          | _ => s.term.unlock
    | .none =>
        match e.lock with
        | .granted ver => s.locked .w h ver verOld e
        | _ => s

/-- `_PFSDlgHoldR`, plain, `Try` and `By` -/
def holdR (h : H) (e : DlgEnv) (s : DlgSys H) : DlgSys H :=
  let s := { s with dErr := e.err }
  if e.err ≠ 0 then s.lose else s.holdRAgain h s.dVer e

/-- `_PFSDlgHoldW`, plain, `Try` and `By` -/
def holdW (h : H) (e : DlgEnv) (s : DlgSys H) : DlgSys H :=
  let s := { s with dErr := e.err }
  if e.err ≠ 0 then s.lose else s.holdWAgain h s.dVer e

/-- `_PFSDlgRelease` -/
def release (h : H) (s : DlgSys H) : DlgSys H :=
  if h ∈ s.dHold then { s with dHold := s.dHold.erase h }.note (.released h) else s

/-- The loop of `_PFSDlgReturn`, and what follows it -/
def returnAgain (h : H) (e : DlgEnv) (s : DlgSys H) : DlgSys H :=
  if 0 < s.dHold.length ∧ ¬ (s.dHold.length = 1 ∧ h ∈ s.dHold) then
    { s with dWait := s.dWait + 1 }.cndWait (.return h)
  else s.giveBack e

/-- The loop of `_PFSDlgRecall`, and what follows it -/
def recallAgain (e : DlgEnv) (s : DlgSys H) : DlgSys H :=
  if 0 < s.dHold.length then { s with dWaitRecall := s.dWaitRecall + 1 }.cndWait .dlgRecall
  else s.giveBack e

/-- `PFSDlgRecall` -/
def dlgRecall (elVer : UInt32) (e : DlgEnv) (s : DlgSys H) : DlgSys H :=
  if s.dOwn ≠ .none ∧ seqCmp s.dVer elVer = 0 then s.recallAgain e else s

/-- A call returns from `CndWait`. -/
def wake (b : DlgBlocked H) (e : DlgEnv) (s : DlgSys H) : DlgSys H :=
  match b with
  | .holdR h verOld true => { s with dWait := s.dWait - 1 }.holdRAgain h verOld e
  | .holdR h verOld false => s.holdRAgain h verOld e
  | .holdW h verOld true => { s with dWait := s.dWait - 1 }.holdWAgain h verOld e
  | .holdW h verOld false => s.holdWAgain h verOld e
  | .return h => { s with dWait := s.dWait - 1 }.returnAgain h e
  | .dlgRecall => { s with dWaitRecall := s.dWaitRecall - 1 }.recallAgain e

end DlgSys

/-- `PFSDlgInit`, with or without `d_fInit` and `d_fTerm`. -/
def pfsDlgInit (H : Type) (fInit fTerm : Bool) : DlgSys H := { dFInit := fInit, dFTerm := fTerm }

/-- The calls, and the return from `CndWait` of a call that waits. -/
inductive DlgAct (H : Type) where
  | holdR (h : H)
  | holdW (h : H)
  | release (h : H)
  | return (h : H)
  | dlgRecall (elVer : UInt32)
  | wake (b : DlgBlocked H)
deriving DecidableEq, Repr

/-- A step of a delegation. Only a call that waits is woken. -/
def dlgStep {H : Type} [DecidableEq H] (s : DlgSys H) (a : DlgAct H × DlgEnv) :
    Except Unit (DlgSys H) :=
  match a.1 with
  | .holdR h => .ok (s.holdR h a.2)
  | .holdW h => .ok (s.holdW h a.2)
  | .release h => .ok (s.release h)
  | .return h => .ok (s.returnAgain h a.2)
  | .dlgRecall elVer => .ok (s.dlgRecall elVer a.2)
  | .wake b =>
      if b ∈ s.blocked then .ok ({ s with blocked := s.blocked.erase b }.wake b a.2)
      else .error ()

end PaxosSolutions
