import PaxosSolutions.NWGadget.BTreeCursor
import PaxosSolutions.NWGadget.Hash

/-!
# The timer

`Timer_t` with `TIMER_BTREE`. An event that was set is in a B-tree, which orders it
by its timeout, and in a hash table under its address. The thread of the timer waits
for the first timeout and moves what is due to the queue of the performer, which
frees an event when it was performed. All of this is under one mutex, so that a step
lasts from one wait of a thread to the next. The times of a clock are far from the
ends of `int64_t`; memory is never short, and an address is given again only after
it was freed. A count of the calls of `TimerSet` tells the events apart.
-/
namespace PaxosSolutions.NWGadget

/-- `struct timespec` -/
structure Timespec where
  tvSec : ℤ
  tvNsec : ℤ
  deriving DecidableEq, Inhabited

/-- `TIMESPECCOMPARE` -/
def timespecCompare (A B : Timespec) : ℤ :=
  if A.tvSec = B.tvSec then (if A.tvNsec = B.tvNsec then 0 else A.tvNsec - B.tvNsec)
  else A.tvSec - B.tvSec

/-- `TIMEOUT( Now, MS, Timeout )` -/
def timespecTimeout (Now : Timespec) (MS : ℤ) : Timespec :=
  let w := Now.tvSec * 1000000000 + Now.tvNsec
  let w := w + MS * 1000000
  ⟨w.tdiv 1000000000, w - w.tdiv 1000000000 * 1000000000⟩

/-- `TEMode_t` -/
inductive TEMode where
  | timer | head | performer
  deriving DecidableEq

abbrev TEAddr := ℕ

/-- `TimerEvent_t` -/
structure TimerEvent where
  eMode : TEMode := .timer
  eMS : ℤ := 0
  eFEvent : ℕ := 0
  ePArg : ℕ := 0
  eRegistered : Timespec := default
  eFired : Timespec := default
  eExec : Timespec := default
  eTimeout : Timespec := default

/-- Where `TimerThread` is: not yet running, in `CndWait`, or in `CndTimedWait` for the
event that was first. -/
inductive TimerWait where
  | start
  | wait
  | timedWait (pEvent : TEAddr)
  deriving DecidableEq

/-- `Timer_t`, its memory, its threads, and what has happened to the events so far. -/
structure Timer where
  tOnOff : Bool := false
  tTimeout : Timespec := default
  tExecs : List TEAddr := []
  tBTree : BTree TEAddr
  tHash : Hash TEAddr TEAddr
  mem : TEAddr → TimerEvent := fun _ => {}
  live : List TEAddr := []
  timerThread : TimerWait := .start
  signalled : Bool := false
  performer : Option TEAddr := none
  calls : ℕ := 0
  call : TEAddr → ℕ := fun _ => 0
  cancelled : List ℕ := []
  posted : List ℕ := []
  performed : List ℕ := []

/-- `TimerEventCompare` -/
def timerEventCompare (mem : TEAddr → TimerEvent) (pA pB : TEAddr) : ℤ :=
  timespecCompare (mem pA).eTimeout (mem pB).eTimeout

/-- `TimerInit`, with nothing else in memory. -/
def TimerInit (bTreeN : ℕ) : Timer :=
  { tBTree := BTreeInit bTreeN (timerEventCompare fun _ => {})
    tHash := Hash.init 101 fun p => p % 0x100000000 }

/-- `HashGet` -/
def HashGet (h : Hash TEAddr TEAddr) (p : TEAddr) : TEAddr := (h.getItem p).elim 0 Prod.snd

/-- `HashRemove` -/
def HashRemove (h : Hash TEAddr TEAddr) (p : TEAddr) : Hash TEAddr TEAddr :=
  match h.getItem p with
  | none => h
  | some _ => h.removeItem p

namespace Timer

/-- A store to an event. -/
def write (s : Timer) (p : TEAddr) (f : TimerEvent → TimerEvent) : Timer :=
  { s with mem := Function.update s.mem p (f (s.mem p)) }

/-- The tree, whose comparator reads the memory. -/
def tree (s : Timer) : BTree TEAddr := { s.tBTree with bCompare := timerEventCompare s.mem }

/-- `CndSignal`, which only a thread that waits sees. -/
def signal (s : Timer) : Timer :=
  { s with signalled := s.signalled || decide (s.timerThread ≠ .start) }

/-- `TimerEventAlloc` at the address that was given. -/
def timerEventAlloc (s : Timer) (p : TEAddr) (ms : ℤ) (fEvent pArg : ℕ) : Timer :=
  { s.write p fun e => { e with eFEvent := fEvent, ePArg := pArg, eMS := ms } with
    live := p :: s.live
    call := Function.update s.call p s.calls
    calls := s.calls + 1 }

/-- The event gets its times. -/
def register (s : Timer) (p : TEAddr) (now : Timespec) : Timer :=
  s.write p fun e => { e with eRegistered := now, eTimeout := timespecTimeout now e.eMS }

/-- The event is in the tree, and gets into the hash table. -/
def enter (s : Timer) (p : TEAddr) (t : BTree TEAddr) : Timer :=
  { s.write p fun e => { e with eMode := .timer } with
    tBTree := t
    tHash := s.tHash.put p p }

/-- `TimerAdd` -/
def timerAdd (s : Timer) (p : TEAddr) (now : Timespec) : Option Timer := do
  let s := s.register p now
  let t ← BTInsert p s.tree
  let s := s.enter p t
  if s.tOnOff = false ∨ timespecCompare (s.mem p).eTimeout s.tTimeout < 0 then some s.signal
  else some s

/-- `TimerSet` -/
def timerSet (s : Timer) (p : TEAddr) (now : Timespec) (ms : ℤ) (fEvent pArg : ℕ) :
    Option Timer :=
  (s.timerEventAlloc p ms fEvent pArg).timerAdd p now

/-- The event is out of the tree, and of the hash table. -/
def leave (s : Timer) (p : TEAddr) (t : BTree TEAddr) : Timer :=
  { s with tBTree := t, tHash := HashRemove s.tHash p }

/-- `TimerEventFree` of an event that is cancelled. -/
def drop (s : Timer) (p : TEAddr) : Timer :=
  { s with live := s.live.erase p, cancelled := s.call p :: s.cancelled }

/-- `_TimerCancel`, which is all of `TimerCancel` but the mutex: the timer, and the
argument of the event that was cancelled. -/
def timerCancel (s : Timer) (p : TEAddr) : Option (Timer × ℕ) :=
  if HashGet s.tHash p ≠ 0 then
    if (s.mem p).eMode = .timer ∨ (s.mem p).eMode = .head then do
      let (t, _) ← BTDelete s.tree p
      let s := s.leave p t
      let pArg := (s.mem p).ePArg
      let s := if (s.mem p).eMode = .head then s.signal else s
      some (s.drop p, pArg)
    else some (s, 0)
  else some (s, 0)

/-- The top of the loop of `TimerThread`, up to the next wait. -/
def headWait (s : Timer) : Option Timer := do
  let (cur, found) ← BTCHead s.tree BTCursorOpen
  if found then
    let p := cur.cKey
    let s := { s with tOnOff := true, tTimeout := (s.mem p).eTimeout }
    let s := s.write p fun e => { e with eMode := .head }
    some { s with timerThread := .timedWait p, signalled := false }
  else some { s with tOnOff := false, timerThread := .wait, signalled := false }

/-- The event goes to the performer. -/
def post (s : Timer) (p : TEAddr) (now : Timespec) : Timer :=
  { s.write p fun e => { e with eFired := now, eMode := .performer } with
    tExecs := s.tExecs ++ [p]
    posted := s.posted ++ [s.call p] }

/-- The loop of `TimerThread` over what is due. It has as many turns as there are events. -/
def postDue (now : Timespec) : ℕ → Timer → Option Timer
  | 0, _ => none
  | fuel + 1, s => do
      let (cur, found) ← BTCHead s.tree BTCursorOpen
      if found then
        let p := cur.cKey
        if timespecCompare (s.mem p).eTimeout now < 0 then do
          let t ← BTCDelete (cur.cPage.getD 0) cur.cZIndex s.tree
          postDue now fuel ((s.leave p t).post p now)
        else some s
      else some s

/-- `TimerThread` from one wait to the next: it starts, is woken, or has waited until
the timeout of the event it looked at. -/
def turn (s : Timer) (timedOut : Option Timespec) : Option Timer :=
  match s.timerThread, timedOut with
  | .timedWait _, some now => do
      let s ← s.postDue now (s.tHash.hCount + 1)
      s.headWait
  | .timedWait pEvent, none =>
      if HashGet s.tHash pEvent ≠ 0 then
        (s.write pEvent fun e => { e with eMode := .timer }).headWait
      else s.headWait
  | _, _ => s.headWait

/-- `TimerPerformerThread` takes an event. -/
def take (s : Timer) (now : Timespec) : Timer :=
  match s.tExecs with
  | [] => s
  | p :: rest =>
      { s.write p fun e => { e with eExec := now } with
        tExecs := rest
        performer := some p
        performed := s.performed ++ [s.call p] }

/-- `TimerPerformerThread` frees the event that it has performed. -/
def release (s : Timer) : Timer :=
  match s.performer with
  | none => s
  | some p => { s with performer := none, live := s.live.erase p }

end Timer

/-- What happens at a timer. -/
inductive TimerOp where
  | set (p : TEAddr) (now : Timespec) (ms : ℤ) (fEvent pArg : ℕ)
  | cancel (p : TEAddr)
  | turn (timedOut : Option Timespec)
  | take (now : Timespec)
  | release

namespace Timer

def step (s : Timer) : TimerOp → Option Timer
  | .set p now ms fEvent pArg => s.timerSet p now ms fEvent pArg
  | .cancel p => (s.timerCancel p).map Prod.fst
  | .turn timedOut => s.turn timedOut
  | .take now => some (s.take now)
  | .release => some s.release

/-- What the memory and the scheduler let happen: an address that is in use is not
given again, only `CndTimedWait` times out, and the performer takes one event at a
time. -/
def Can (s : Timer) : TimerOp → Prop
  | .set p _ _ _ _ => p ≠ 0 ∧ p ∉ s.live
  | .cancel _ => True
  | .turn none => True
  | .turn (some _) => ∃ p, s.timerThread = .timedWait p
  | .take _ => s.performer = none
  | .release => True

/-- The events of `t_BTree`, the first one first. -/
def inTree (s : Timer) : List TEAddr := s.tBTree.inOrder

/-- The events of `t_Hash`. -/
def inHash (s : Timer) : List TEAddr := s.tHash.items.map Prod.snd

end Timer

end PaxosSolutions.NWGadget
