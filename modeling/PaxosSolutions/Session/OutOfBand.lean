import PaxosSolutions.Lib.Run
import PaxosSolutions.Session.Data
import Mathlib.Logic.Function.Basic

/-!
# Out-of-band data

Messages too large for a Paxos command are pushed beside it and kept by the
acceptor until every replica has them: in memory up to a limit, in a file
beyond. `o_Lnk` is the list of the entries; `o_Hash` finds one by its id and
no two entries share one, so the list is all that is kept here.
-/
namespace PaxosSolutions
open NWGadget

/-- What `AcceptorHashOutOfBandCompare` compares. -/
structure OutOfBandId extends SessionId where
  iSeq : UInt32 := 0
  iTry : UInt32 := 0
deriving DecidableEq, Repr

def PaxosClientId.outOfBand (i : PaxosClientId) : OutOfBandId :=
  { i.toSessionId with iSeq := i.iSeq, iTry := i.iTry }

/-- `OUTOFBAND_PATH`: the file name leaves `i_Reuse` out. -/
def OutOfBandId.path (i : OutOfBandId) : OutOfBandId := { i with iReuse := 0 }

/-- `AcceptorOutOfBand_t` -/
structure OutOfBand where
  oId : OutOfBandId
  oPData : Option PaxosSessionHead := none
  oLast : ℤ := 0
  oBValidate : Bool := false
  oSeq : UInt32 := 0
  oBSaved : Bool := false
deriving DecidableEq

/-- `c_OutOfBand` with the files the adaptor saves to. `retain` is the time an
entry is left alone after its last push. -/
structure OutOfBandCtrl where
  oLnk : List OutOfBand := []
  oCnt : ℤ := 0
  oMemLimit : ℤ
  oMemUsed : ℤ := 0
  retain : ℤ := 0
  files : OutOfBandId → Option PaxosSessionHead := fun _ => none

/-- A failed `ASSERT` on the memory in use and the `ABORT` of the validation. -/
inductive OutOfBandFault where
  | assertMem | abortValidate
deriving DecidableEq, Repr

/-- `HashGet( &o_Hash )` -/
def OutOfBandCtrl.get (c : OutOfBandCtrl) (i : OutOfBandId) : Option OutOfBand :=
  c.oLnk.find? fun x => x.oId = i

/-- A change of the entry `i`. -/
def OutOfBandCtrl.set (c : OutOfBandCtrl) (i : OutOfBandId) (f : OutOfBand → OutOfBand) :
    OutOfBandCtrl :=
  { c with oLnk := c.oLnk.map fun x => if x.oId = i then f x else x }

/-- `OUTOFBAND_ALLOC` and the entry's two links. -/
def OutOfBandCtrl.alloc (c : OutOfBandCtrl) (i : OutOfBandId) : OutOfBandCtrl :=
  { c with oLnk := c.oLnk ++ [{ oId := i }], oCnt := c.oCnt + 1 }

/-- `if_fOutOfBandSave` and `if_fOutOfBandRemove` -/
def OutOfBandCtrl.saveFile (c : OutOfBandCtrl) (i : OutOfBandId) (h : Option PaxosSessionHead) :
    OutOfBandCtrl :=
  { c with files := Function.update c.files i.path h }

/-- The entry leaves memory, to a file unless it has one. -/
def OutOfBandCtrl.evict (c : OutOfBandCtrl) (x : OutOfBand) (h : PaxosSessionHead) :
    OutOfBandCtrl :=
  let c := if x.oBSaved then c else c.saveFile x.oId (some h)
  { c.set x.oId fun y => { y with oBSaved := true, oPData := none } with
    oMemUsed := c.oMemUsed - h.hLen }

/-- The loop of `_AcceptorOutOfBandCache`: the oldest entries make room for
`len` bytes of the entry `i`. -/
def outOfBandMakeRoom (len : ℤ) (i : OutOfBandId) : List OutOfBand → OutOfBandCtrl → OutOfBandCtrl
  | [], c => c
  | x :: xs, c =>
      if c.oMemUsed + len < c.oMemLimit then c
      else if x.oId = i then outOfBandMakeRoom len i xs c
      else
        match x.oPData with
        | none => outOfBandMakeRoom len i xs c
        | some h => outOfBandMakeRoom len i xs (c.evict x h)

/-- `_AcceptorOutOfBandCache` on the entry `i`, which holds `h` by now. -/
def outOfBandCache (i : OutOfBandId) (h : PaxosSessionHead) (c : OutOfBandCtrl) :
    Except OutOfBandFault OutOfBandCtrl :=
  let c := outOfBandMakeRoom h.hLen i c.oLnk c
  let c := { c with oMemUsed := c.oMemUsed + h.hLen }
  if c.oMemUsed < c.oMemLimit then .ok c else .error .assertMem

/-- The stand-in for a message that does not fit into memory: its head. -/
def PaxosSessionHead.fit (limit : ℤ) (m : PaxosSessionHead) : PaxosSessionHead :=
  if limit ≤ m.hLen then { m with hLen := headSize } else m

/-- `_PaxosAcceptorOutOfBandPush` at time `now` -/
def outOfBandPush (m : PaxosSessionHead) (now : ℤ) (c : OutOfBandCtrl) :
    Except OutOfBandFault OutOfBandCtrl :=
  let m := m.fit c.oMemLimit
  let i := m.hId.outOfBand
  let c :=
    match c.get i with
    | none => c.alloc i
    | some x =>
        if x.oBSaved then (c.saveFile i none).set i fun x => { x with oBSaved := false } else c
  outOfBandCache i m
    (c.set i fun x => { x with oPData := some m, oLast := now + c.retain })

/-- `_PaxosAcceptorOutOfBandGet`: what is not in memory is loaded. -/
def outOfBandGet (i : OutOfBandId) (c : OutOfBandCtrl) : Except OutOfBandFault OutOfBandCtrl :=
  match c.get i with
  | some x =>
      match x.oPData, c.files i.path with
      | some _, _ | none, none => .ok c
      | none, some h => outOfBandCache i h (c.set i fun x => { x with oPData := some h })
  | none =>
      match c.files i.path with
      | none => .ok c
      | some h => outOfBandCache i h ((c.alloc i).set i fun x => { x with oPData := some h })

/-- `_OutOfBandRemove` -/
def outOfBandRemove (x : OutOfBand) (c : OutOfBandCtrl) : OutOfBandCtrl :=
  let c := if x.oBSaved then c.saveFile x.oId none else c
  { c with
    oLnk := c.oLnk.filter fun y => y.oId ≠ x.oId
    oCnt := c.oCnt - 1
    oMemUsed := c.oMemUsed - (x.oPData.elim 0 fun h => (h.hLen : ℤ)) }

/-- The search for the place of `x` from the end of `o_Lnk`, on the list read
backwards. It passes over entries that are not validated and gives up after
more than `PAXOS_MAX` validated ones. At the head of the list `x` goes first. -/
def outOfBandPlace (x : OutOfBand) : ℕ → List OutOfBand → Except OutOfBandFault (List OutOfBand)
  | cnt, [] => if paxosMax < cnt then .error .abortValidate else .ok [x]
  | cnt, p :: ps =>
      if p.oBValidate = false then (outOfBandPlace x cnt ps).map (p :: ·)
      else if paxosMax < cnt then .error .abortValidate
      else if cmp32 p.oSeq x.oSeq < 0 then .ok (x :: p :: ps)
      else (outOfBandPlace x (cnt + 1) ps).map (p :: ·)

/-- The second half of `PaxosAcceptorOutOfBandValidate`: the entry moves to the
place of its number. -/
def outOfBandMove (seq : UInt32) (x : OutOfBand) (c : OutOfBandCtrl) :
    Except OutOfBandFault OutOfBandCtrl :=
  if x.oBValidate = true ∧ x.oSeq = seq then .ok c
  else
    let x' := { x with oBValidate := true, oSeq := seq }
    (outOfBandPlace x' 0 (c.oLnk.filter fun y => y.oId ≠ x.oId).reverse).map fun l =>
      { c with oLnk := l.reverse }

/-- `PaxosAcceptorOutOfBandValidate` up to the pull: an entry that is not here
is pulled from its server, without the lock. -/
def outOfBandValidate (seq : UInt32) (i : OutOfBandId) (c : OutOfBandCtrl) :
    Except OutOfBandFault OutOfBandCtrl :=
  match c.get i with
  | none => .ok c
  | some x => outOfBandMove seq x c

/-- The rest of it when the pull brought `m`. -/
def outOfBandPulled (seq : UInt32) (m : PaxosSessionHead) (now : ℤ) (c : OutOfBandCtrl) :
    Except OutOfBandFault OutOfBandCtrl :=
  (outOfBandPush m now c).bind (outOfBandValidate seq m.hId.outOfBand)

/-- The garbage collection in `ThreadExecute`, over the entries as they are. -/
def outOfBandCollect (now : ℤ) (backSeq : UInt32) : List OutOfBand → OutOfBandCtrl → OutOfBandCtrl
  | [], c => c
  | x :: xs, c =>
      if now < x.oLast then c
      else if x.oBValidate = false then outOfBandCollect now backSeq xs c
      else if 0 ≤ cmp32 x.oSeq backSeq then c
      else outOfBandCollect now backSeq xs (outOfBandRemove x c)

/-- The garbage of a session that `ThreadExecute` closes. -/
def outOfBandPurge (s : SessionId) : List OutOfBand → OutOfBandCtrl → OutOfBandCtrl
  | [], c => c
  | x :: xs, c =>
      if x.oBValidate = false ∧ s = x.oId.toSessionId then
        outOfBandPurge s xs (outOfBandRemove x c)
      else outOfBandPurge s xs c

/-- What the acceptor does under `o_Mtx`. A snapshot gets every entry it writes
and pushes every one it reads. -/
inductive OutOfBandOp where
  | push (m : PaxosSessionHead) (now : ℤ)
  | get (i : OutOfBandId)
  | validate (seq : UInt32) (i : OutOfBandId)
  | pulled (seq : UInt32) (m : PaxosSessionHead) (now : ℤ)
  | collect (now : ℤ) (backSeq : UInt32)
  | purge (s : SessionId)

def outOfBandStep (c : OutOfBandCtrl) : OutOfBandOp → Except OutOfBandFault OutOfBandCtrl
  | .push m now => outOfBandPush m now c
  | .get i => outOfBandGet i c
  | .validate seq i => outOfBandValidate seq i c
  | .pulled seq m now => outOfBandPulled seq m now c
  | .collect now backSeq => .ok (outOfBandCollect now backSeq c.oLnk c)
  | .purge s => .ok (outOfBandPurge s c.oLnk c)

end PaxosSolutions
