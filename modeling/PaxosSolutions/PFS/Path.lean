import PaxosSolutions.PFS.Lock

/-!
# Paths of the file service

A path has the sessions that made the file as an ephemeral one, by their number
`p_RefCnt`, and the sessions that wait for events of the directory. It is found
by name and goes away with the last session of the one kind or of the other. The
file is removed when the last session closes that recorded it.
-/
namespace PaxosSolutions
open Lib NWGadget

/-- `RootOmitted` -/
def rootOmitted : List Char → List Char
  | [] => []
  | ['/'] => ['.']
  | '/' :: cs => rootOmitted cs
  | '.' :: '/' :: cs => rootOmitted cs
  | cs => cs

/-- A path without what is behind its last component, in reverse. -/
def pathReverse (pName : List Char) : List Char := pName.reverse.dropWhile (· = '/')

/-- `dirname` of the C library -/
def dirname (pName : List Char) : List Char :=
  if pName = [] then ['.']
  else if pathReverse pName = [] then ['/']
  else
    let pDir := (pathReverse pName).dropWhile (· ≠ '/')
    if pDir = [] then ['.']
    else if pDir.dropWhile (· = '/') = [] then ['/']
    else (pDir.dropWhile (· = '/')).reverse

/-- `basename` of the C library -/
def basename (pName : List Char) : List Char :=
  if pName = [] then ['.']
  else if pathReverse pName = [] then ['/']
  else ((pathReverse pName).takeWhile (· ≠ '/')).reverse

/-- `PFSPath_t` at its address. `pEphemeral` is the flag `FILE_EPHEMERAL`. -/
structure PFSPath where
  pName : List Char
  pRefCnt : ℤ := 0
  pEphemeral : Bool := false
  pEventSeq : UInt32 := 0

/-- A joint of `p_AdaptorEvent` and `a_Events`. `j_pArg` is the path's address. -/
structure PathJoint where
  jAdaptor : SessionId
  jPArg : ℕ
deriving DecidableEq

/-- An item of `a_Ephemeral` of the session's adaptor. -/
structure Ephemeral where
  session : SessionId
  eName : List Char
deriving DecidableEq

inductive PFSDirEntryMode where
  | create | delete | update
deriving DecidableEq, Repr

/-- What the service sends or does besides: it copies a file to its backup and
removes it from the cache. -/
inductive PathOut where
  | rpl (s : SessionId) (hError : Bool)
  | eventDirRpl (s : SessionId) (hError : ℤ)
  | event (s : SessionId) (edMode : PFSDirEntryMode) (edName edEntry : List Char)
      (edEventSeq : UInt32)
  | backup (pName : List Char)
  | removed (pName : List Char)
deriving DecidableEq

/-- `CNTRL`, as far as paths go, with the memory. `ephemerals` is in the order
of the recording, and `joints` has the latest first. -/
structure PFSPaths where
  path : ℕ → Option PFSPath := fun _ => none
  cPath : List Char → Option ℕ := fun _ => none
  joints : List PathJoint := []
  ephemerals : List Ephemeral := []
  adaptors : List SessionId := []
  next : ℕ := 0
  out : List PathOut := []

inductive PathFault where
  | useAfterFree | assertPath | nullAdaptor
deriving DecidableEq, Repr

namespace PFSPaths

def pathAt (a : ℕ) (s : PFSPaths) : Except PathFault PFSPath :=
  match s.path a with
  | none => .error .useAfterFree
  | some p => .ok p

def setPath (a : ℕ) (p : PFSPath) (s : PFSPaths) : PFSPaths :=
  { s with path := Function.update s.path a (some p) }

def send (o : PathOut) (s : PFSPaths) : PFSPaths := { s with out := s.out ++ [o] }

/-- `p_AdaptorEvent` -/
def events (a : ℕ) (s : PFSPaths) : List PathJoint := s.joints.filter fun j => j.jPArg = a

/-- `PATH_GET` -/
def pathGet (pName : List Char) (s : PFSPaths) : Option ℕ := s.cPath (rootOmitted pName)

/-- `PATH_GET`, and `PATH_ALLOC` if it finds nothing. -/
def pathAlloc (pName : List Char) (s : PFSPaths) : ℕ × PFSPaths :=
  match s.pathGet pName with
  | some a => (a, s)
  | none =>
      (s.next, { s.setPath s.next { pName := rootOmitted pName } with
        cPath := Function.update s.cPath (rootOmitted pName) (some s.next), next := s.next + 1 })

/-- `PATH_FREE` -/
def pathFree (pName : List Char) (s : PFSPaths) : PFSPaths :=
  match s.pathGet pName with
  | none => s
  | some a => { s with
      path := Function.update s.path a none
      cPath := Function.update s.cPath (rootOmitted pName) none }

end PFSPaths

/-- `pfsPathGarbage` -/
def pfsPathGarbage (a : ℕ) (s : PFSPaths) : Except PathFault PFSPaths := do
  let p ← s.pathAt a
  if s.events a = [] then .ok (s.pathFree p.pName) else .ok s

/-- `pfsUpdateDir`: the events of the directory that `pName` is in. -/
def pfsUpdateDir (pName : List Char) (edMode : PFSDirEntryMode) (s : PFSPaths) :
    Except PathFault PFSPaths :=
  match s.pathGet (dirname pName) with
  | none => .ok s
  | some a => do
      let p ← s.pathAt a
      let pEventSeq := seqInc p.pEventSeq
      let out := (s.events a).map fun j =>
        .event j.jAdaptor edMode (dirname pName) (basename pName) pEventSeq
      .ok { s.setPath a { p with pEventSeq := pEventSeq } with out := s.out ++ out }

/-- `_pfsUpdateDir`: the events of a directory. -/
def pfsUpdateDirAt (pDirName : List Char) (edMode : PFSDirEntryMode) (pEntry : List Char)
    (s : PFSPaths) : Except PathFault PFSPaths :=
  match s.pathGet pDirName with
  | none => .ok s
  | some a => do
      let p ← s.pathAt a
      let pEventSeq := seqInc p.pEventSeq
      let out := (s.events a).map fun j => .event j.jAdaptor edMode pDirName pEntry pEventSeq
      .ok { s.setPath a { p with pEventSeq := pEventSeq } with out := s.out ++ out }

/-- `PFSEphemeral` -/
def pfsEphemeral (who : SessionId) (pName : List Char) (s : PFSPaths) :
    Except PathFault PFSPaths :=
  if who ∉ s.adaptors then .error .nullAdaptor
  else if ⟨who, rootOmitted pName⟩ ∈ s.ephemerals then .ok s
  else do
    let s : PFSPaths := { s with ephemerals := s.ephemerals ++ [⟨who, rootOmitted pName⟩] }
    let (a, s) := s.pathAlloc pName
    let p ← s.pathAt a
    .ok (s.setPath a { p with pRefCnt := p.pRefCnt + 1, pEphemeral := true })

/-- `PFSCreateS`. `ret` is what `FileCacheCreate` returns. -/
def pfsCreateS (who : SessionId) (cName : List Char) (bEphemeral : Bool) (ret : ℤ)
    (s : PFSPaths) : Except PathFault PFSPaths := do
  let pName := rootOmitted cName
  let s ← if bEphemeral then pfsEphemeral who pName s else .ok s
  let s ← if ret = 0 then pfsUpdateDir pName .create s else .ok s
  .ok (s.send (.rpl who (ret ≠ 0)))

/-- `PFSWriteS`, and `PFSDataApply` but for the reply, with what `FileCacheWrite`
returns first, `FileCacheCreate`, and `FileCacheWrite` after it. -/
def pfsWriteS (who : SessionId) (wName : List Char) (bEphemeral : Bool)
    (ret retCreate retAgain : ℤ) (s : PFSPaths) : Except PathFault PFSPaths := do
  let pName := rootOmitted wName
  let s ← if bEphemeral then pfsEphemeral who pName s else .ok s
  let s ← if ret < 0 ∧ 0 ≤ retCreate then pfsUpdateDir pName .create s else .ok s
  let ret := if 0 ≤ ret then ret else if 0 ≤ retCreate then retAgain else retCreate
  let s ← if 0 < ret then pfsUpdateDir pName .update s else .ok s
  .ok (s.send (.rpl who (ret < 0)))

/-- `PFSDeleteS`. `ret` is what `FileCacheDelete` returns. -/
def pfsDeleteS (who : SessionId) (dName : List Char) (ret : ℤ) (s : PFSPaths) :
    Except PathFault PFSPaths := do
  let s ← if ret = 0 then pfsUpdateDir (rootOmitted dName) .delete s else .ok s
  .ok (s.send (.rpl who (ret ≠ 0)))

/-- `JOINT_FREE` of a path's joint -/
def pfsPathEventFree (j : PathJoint) (s : PFSPaths) : Except PathFault PFSPaths :=
  pfsPathGarbage j.jPArg { s with joints := s.joints.erase j }

/-- `PFSEventDirS` for the client `edId`, of which `bBound` says that it has an
accept object. -/
def pfsEventDirS (who edId : SessionId) (edName : List Char) (edSet bBound : Bool)
    (s : PFSPaths) : Except PathFault PFSPaths :=
  if edId ∉ s.adaptors then
    if bBound then .error .nullAdaptor else .ok (s.send (.eventDirRpl who ENOENT))
  else if edSet then
    let (a, s) := s.pathAlloc edName
    .ok ({ s with joints := ⟨edId, a⟩ :: s.joints }.send (.eventDirRpl who 0))
  else
    match s.pathGet edName with
    | none => .error .assertPath
    | some a => do
        let s ← if ⟨edId, a⟩ ∈ s.joints then pfsPathEventFree ⟨edId, a⟩ s else .ok s
        .ok (s.send (.eventDirRpl who 0))

/-- The file of the path at `a` that no session records any more. `ret` is what
`FileCacheDelete` returns. -/
def pfsEphemeralRemove (a : ℕ) (ret : ℤ) (s : PFSPaths) : Except PathFault PFSPaths := do
  let p ← s.pathAt a
  let s := (s.send (.backup p.pName)).send (.removed p.pName)
  let s ← if ret = 0 then pfsUpdateDir p.pName .delete s else .ok s
  .ok (s.pathFree p.pName)

/-- The loop of `PFSAdaptorClose` over `a_Ephemeral`. -/
def pfsEphemeralClose (who : SessionId) (ret : List Char → ℤ) :
    List (List Char) → PFSPaths → Except PathFault PFSPaths
  | [], s => .ok s
  | n :: ns, s =>
      match s.pathGet n with
      | none => .error .assertPath
      | some a => do
          let p ← s.pathAt a
          let s := s.setPath a { p with pRefCnt := p.pRefCnt - 1 }
          let s ← if p.pRefCnt - 1 = 0 then pfsEphemeralRemove a (ret p.pName) s else .ok s
          pfsEphemeralClose who ret ns { s with
            ephemerals := s.ephemerals.erase ⟨who, rootOmitted n⟩ }

/-- The loop of `PFSAdaptorClose` over the joints in `a_Events`. -/
def pfsPathEventFreeAll : List PathJoint → PFSPaths → Except PathFault PFSPaths
  | [], s => .ok s
  | j :: js, s => do
      let s ← pfsPathEventFree j s
      pfsPathEventFreeAll js s

/-- `PFSAdaptorClose`, as far as paths go. -/
def pfsPathClose (who : SessionId) (ret : List Char → ℤ) (s : PFSPaths) :
    Except PathFault PFSPaths :=
  if who ∉ s.adaptors then .ok s
  else do
    let s ← pfsEphemeralClose who ret
      ((s.ephemerals.filter fun e => e.session = who).map (·.eName)) s
    let s ← pfsPathEventFreeAll (s.joints.filter fun j => j.jAdaptor = who) s
    .ok { s with adaptors := s.adaptors.erase who }

/-- The requests that act on paths, as they are executed, with what the file
cache returns. -/
inductive PathOp where
  | open (who : SessionId)
  | create (who : SessionId) (cName : List Char) (bEphemeral : Bool) (ret : ℤ)
  | write (who : SessionId) (wName : List Char) (bEphemeral : Bool) (ret retCreate retAgain : ℤ)
  | delete (who : SessionId) (dName : List Char) (ret : ℤ)
  | eventDir (who edId : SessionId) (edName : List Char) (edSet bBound : Bool)
  | close (who : SessionId) (ret : List Char → ℤ)

def pathStep (s : PFSPaths) : PathOp → Except PathFault PFSPaths
  | .open who =>
      .ok (if who ∈ s.adaptors then s else { s with adaptors := who :: s.adaptors })
  | .create who cName bEphemeral ret => pfsCreateS who cName bEphemeral ret s
  | .write who wName bEphemeral ret retCreate retAgain =>
      pfsWriteS who wName bEphemeral ret retCreate retAgain s
  | .delete who dName ret => pfsDeleteS who dName ret s
  | .eventDir who edId edName edSet bBound => pfsEventDirS who edId edName edSet bBound s
  | .close who ret => pfsPathClose who ret s

end PaxosSolutions
