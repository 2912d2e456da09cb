import PaxosSolutions.XjPing.SwapRun
import PaxosSolutions.XjPing.Table
import PaxosSolutions.NWGadget.Cksum

/-!
# Tables that are swapped out

The records of a table lie in buffers, each with the slots from one marked `R_REC_FREE` up
to the next. A buffer goes to the swap file as a whole: its first slot keeps the handle, and
all of its slots are marked. It is read back when a record of it is loaded.
-/
namespace PaxosSolutions.XjPing
open Lib

/-- What `r_head` is: the address of a record, with the record, a handle of the swap file,
or an address in a buffer that was given back. -/
inductive RecBuf where
  | record (bytes : List UInt8)
  | handle (hp : ℕ)
  | gone
deriving DecidableEq, Repr

def RecBuf.there : RecBuf → Bool
  | .record _ => true
  | _ => false

def RecBuf.data : RecBuf → List UInt8
  | .record bytes => bytes
  | _ => []

/-- `r_rec_t`, with how often its buffer was swapped out since it was swapped in. -/
structure SwapRec where
  rStat : RStat := {}
  recFree : Bool := false
  recBuf : Bool := true
  rHead : RecBuf
  outs : ℕ := 0

/-- `r_tbl_t`. `recs` are the records that `TBL_LOAD` reads. -/
structure SwapTbl where
  tRec : ℕ → SwapRec
  tRecNum : ℕ
  tRecSize : ℕ
  recs : ℕ → List UInt8

/-- A record as the caller of `svc_load` finds it. -/
structure RecView where
  bytes : List UInt8
  used : Bool
  dirty : Bool
deriving DecidableEq, Repr

def SwapRec.view (r : SwapRec) : RecView := ⟨r.rHead.data, r.rStat.used, r.rStat.dirty⟩

/-- The open tables in their order, the swap file, and the records that were accessed, each
by its table and its number. -/
structure SwapSvc where
  tbls : ℕ → SwapTbl
  tblNum : ℕ
  swap : SwapState := swapInitial
  seen : List ((ℕ × ℕ) × RecView) := []

/-- A buffer is read at an address where there is none, the swap file fails, a slot is used
that is not there, a checksum is wrong, a loop does not end. -/
inductive SwapTdFault where
  | wild | swap (e : SwapFault) | noSlot | cksum | loop
deriving DecidableEq, Repr

/-- `r_head->r_stat & R_USED` -/
def headUsed (rp : List UInt8) : Bool := (rp.getD 16 0).toNat.testBit 2

/-- The record has no checksum, or it is right. -/
def cksumOk (rp : List UInt8) : Bool :=
  NWGadget.leWord ((rp.drop 24).take 8) == 0 || NWGadget.inCksum64 rp 0 == 0

/-- `xj_swap_find_free` -/
def xjSwapFindFree (td : SwapTbl) (s : ℕ) : Option ℕ :=
  (List.range' s (td.tRecNum - s)).find? fun i => (td.tRec i).recFree

namespace SwapTbl

/-- The slot behind the buffer that slot `s` is the first of. -/
def groupEnd (td : SwapTbl) (s : ℕ) : ℕ := (xjSwapFindFree td (s + 1)).getD td.tRecNum

/-- The bytes of the slots from `s` up to `e`, which lie one behind the other. -/
def buffer (td : SwapTbl) (s e : ℕ) : Option (List UInt8) :=
  if (List.range' s (e - s)).all fun i => (td.tRec i).rHead.there then
    some ((List.range' s (e - s)).flatMap fun i => (td.tRec i).rHead.data)
  else none

def view (td : SwapTbl) (i : ℕ) : RecView := (td.tRec i).view

/-- What `TBL_LOAD` leaves of a record. -/
def fileView (td : SwapTbl) (i : ℕ) : RecView := ⟨td.recs i, headUsed (td.recs i), false⟩

end SwapTbl

namespace SwapSvc

def setTd (svc : SwapSvc) (t : ℕ) (td : SwapTbl) : SwapSvc :=
  { svc with tbls := Function.update svc.tbls t td }

end SwapSvc

/-! ### Out -/

def SwapRec.swapOut (r : SwapRec) (first : Bool) (h : ℕ) : SwapRec :=
  { r with
    rStat := { r.rStat with cache := false, swap := true }
    recBuf := false
    rHead := if first then .handle h else .gone
    outs := r.outs + 1 }

def SwapTbl.outGroup (td : SwapTbl) (s ee h : ℕ) : SwapTbl :=
  { td with tRec := fun i =>
      if s ≤ i ∧ i < ee then (td.tRec i).swapOut (i == s) h else td.tRec i }

/-- One turn of the loop of `xj_swap_schedule` over the buffers of a table. -/
def swapOutGroup (t s ee : ℕ) (svc : SwapSvc) : Except SwapTdFault SwapSvc :=
  match (svc.tbls t).buffer s ee with
  | none => .error .wild
  | some addrp => ((xjSwapOut svc.swap.fd addrp).mapError .swap).map fun r =>
      { svc.setTd t ((svc.tbls t).outGroup s ee r.1) with
        swap := { svc.swap with fd := r.2, live := (r.1, addrp) :: svc.swap.live } }

/-- The loop of `xj_swap_schedule` over the buffers of a table, from slot `s` on. -/
def scheduleTd (t : ℕ) : ℕ → ℕ → SwapSvc → Except SwapTdFault SwapSvc
  | 0, _, _ => .error .loop
  | fuel + 1, s, svc =>
      let e := xjSwapFindFree (svc.tbls t) (s + 1)
      (swapOutGroup t s (e.getD (svc.tbls t).tRecNum) svc).bind fun svc =>
        match e with
        | none => .ok svc
        | some e => scheduleTd t fuel e svc

def scheduleTds : List ℕ → SwapSvc → Except SwapTdFault SwapSvc
  | [], svc => .ok svc
  | t :: ts, svc =>
      match xjSwapFindFree (svc.tbls t) 0 with
      | none => scheduleTds ts svc
      | some s => (scheduleTd t ((svc.tbls t).tRecNum + 1) s svc).bind (scheduleTds ts)

/-- `xj_swap_schedule`: all open tables but `mytd`. -/
def xjSwapSchedule (mytd : ℕ) (svc : SwapSvc) : Except SwapTdFault SwapSvc :=
  scheduleTds ((List.range svc.tblNum).filter (· ≠ mytd)) svc

/-! ### In -/

def SwapRec.swapIn (r : SwapRec) (buffp : List UInt8) : SwapRec :=
  { r with
    rStat := { r.rStat with swap := false, cache := true }
    recBuf := true
    rHead := .record buffp
    outs := 0 }

namespace SwapTbl

/-- Record `j` of a buffer -/
def part (td : SwapTbl) (buffp : List UInt8) (j : ℕ) : List UInt8 :=
  (buffp.drop (j * td.tRecSize)).take td.tRecSize

def inGroup (td : SwapTbl) (i n : ℕ) (buffp : List UInt8) : SwapTbl :=
  { td with tRec := fun k =>
      if i ≤ k ∧ k < i + n then (td.tRec k).swapIn (td.part buffp (k - i)) else td.tRec k }

/-- The `assert` on the records that are read back. -/
def cksums (td : SwapTbl) (i n : ℕ) (buffp : List UInt8) : Bool :=
  (List.range n).all fun j => !(td.tRec (i + j)).rStat.used || cksumOk (td.part buffp j)

/-- The search for the first slot of a buffer, down from `s`. -/
def freeBack (td : SwapTbl) : ℕ → Option ℕ
  | 0 => if (td.tRec 0).recFree then some 0 else none
  | s + 1 => if (td.tRec (s + 1)).recFree then some (s + 1) else td.freeBack s

end SwapTbl

/-- The loop of `xj_swap_in_td` from slot `i` to slot `e`. If `xj_swap_in` fails, it ends. -/
def swapInLoop (t e : ℕ) : ℕ → ℕ → SwapSvc → Except SwapTdFault (SwapSvc × Bool)
  | 0, _, _ => .error .loop
  | fuel + 1, i, svc =>
      let td := svc.tbls t
      if e < i then .ok (svc, true)
      else if (td.tRec i).recFree && (td.tRec i).rStat.swap then
        match (td.tRec i).rHead with
        | .handle hp =>
            (xjSwapIn svc.swap.fd hp).toOption.elim (.ok (svc, false)) fun r =>
              let n := r.1.2.toNat / td.tRecSize
              if td.tRecNum < i + n then .error .noSlot
              else if td.cksums i n r.1.1 = false then .error .cksum
              else swapInLoop t e fuel (i + n) { svc.setTd t (td.inGroup i n r.1.1) with
                swap := {
                  fd := r.2
                  live := svc.swap.live.filter (·.1 ≠ hp)
                  got := ((svc.swap.live.lookup hp).getD [], r.1) :: svc.swap.got } }
        | _ => .error .wild
      else swapInLoop t e fuel (i + 1) svc

/-- `xj_swap_in_td` -/
def xjSwapInTd (t s e : ℕ) (svc : SwapSvc) : Except SwapTdFault (SwapSvc × Bool) :=
  match (svc.tbls t).freeBack s with
  | none => .error .noSlot
  | some s => swapInLoop t e ((svc.tbls t).tRecNum + 1) s svc

/-- The swap-in of `svc_load`, which does not look at what `xj_swap_in_td` returns. -/
def swapInRange (t e : ℕ) : List ℕ → SwapSvc → Except SwapTdFault SwapSvc
  | [], svc => .ok svc
  | i :: is, svc =>
      if ((svc.tbls t).tRec i).rStat.swap then
        (xjSwapInTd t i e svc).bind fun r => swapInRange t e is r.1
      else swapInRange t e is svc

/-! ### Load -/

def SwapRec.load (r : SwapRec) (rp : List UInt8) : SwapRec :=
  { r with
    rStat := { r.rStat with
      used := headUsed rp
      busy := false
      insert := false
      update := false
      cache := true }
    rHead := .record rp }

namespace SwapTbl

/-- The slots that `svc_load` is asked for, as far as there are any. -/
def asked (td : SwapTbl) (s l : ℕ) : List ℕ := List.range' s (min (s + l) td.tRecNum - s)

/-- The end of the part of a buffer that one `TBL_LOAD` reads. -/
def loadEnd (td : SwapTbl) (s stop : ℕ) : ℕ :=
  ((List.range' (s + 1) (stop - (s + 1))).find? fun i => (td.tRec i).recFree).getD stop

def loadSlots (td : SwapTbl) (s e : ℕ) : SwapTbl :=
  { td with tRec := fun i => if s ≤ i ∧ i < e then (td.tRec i).load (td.recs i) else td.tRec i }

end SwapTbl

/-- The loop of `svc_load` that reads the file. -/
def loadLoop (t stop : ℕ) : ℕ → ℕ → SwapSvc → Except SwapTdFault SwapSvc
  | 0, _, _ => .error .loop
  | fuel + 1, s, svc =>
      let td := svc.tbls t
      let i := td.loadEnd s stop
      if (td.buffer s i).isNone then .error .wild
      else
        let svc := svc.setTd t (td.loadSlots s i)
        if i < stop then loadLoop t stop fuel i svc else .ok svc

/-- `svc_load` -/
def SwapSvc.svcLoad (t s l : ℕ) (svc : SwapSvc) : Except SwapTdFault SwapSvc :=
  let range := (svc.tbls t).asked s l
  let stop := min (s + l) (svc.tbls t).tRecNum
  (swapInRange t (stop - 1) range svc).bind fun svc =>
    let td := svc.tbls t
    if range.all fun i => (td.tRec i).rStat.cache && !(td.tRec i).rStat.dirty then .ok svc
    else loadLoop t stop (td.tRecNum + 1) s svc

/-- `svc_load`, and then its records are looked at. -/
def SwapSvc.access (t s l : ℕ) (svc : SwapSvc) : Except SwapTdFault SwapSvc :=
  (svc.svcLoad t s l).bind fun svc =>
    let td := svc.tbls t
    if (td.asked s l).all fun i => (td.tRec i).rHead.there then
      .ok { svc with seen := (td.asked s l).map (fun i => ((t, i), td.view i)) ++ svc.seen }
    else .error .wild

/-! ### Runs -/

inductive SwapSvcOp where
  | schedule (mytd : ℕ)
  | access (t s l : ℕ)
deriving DecidableEq, Repr

def swapSvcStep (svc : SwapSvc) : SwapSvcOp → Except SwapTdFault SwapSvc
  | .schedule mytd => xjSwapSchedule mytd svc
  | .access t s l => svc.access t s l

/-- Tables with their buffers in memory: the first slot begins one, and no slot is marked as
swapped out. -/
structure SwapSvc.Fresh (svc : SwapSvc) : Prop where
  size : ∀ t, R_HEAD_SIZE ≤ (svc.tbls t).tRecSize
  first : ∀ t, 0 < (svc.tbls t).tRecNum → ((svc.tbls t).tRec 0).recFree = true
  there : ∀ t, ∀ i < (svc.tbls t).tRecNum, ((svc.tbls t).tRec i).rHead.there = true ∧
    ((svc.tbls t).tRec i).rHead.data.length = (svc.tbls t).tRecSize
  swap : ∀ t, ∀ i < (svc.tbls t).tRecNum, ((svc.tbls t).tRec i).rStat.swap = false ∧
    ((svc.tbls t).tRec i).outs = 0
  recs : ∀ t i, ((svc.tbls t).recs i).length = (svc.tbls t).tRecSize
  file : svc.swap = swapInitial
  seen : svc.seen = []

/-- What a record is: what is in memory, or what the file has if it was not loaded yet. -/
def SwapTbl.want (td : SwapTbl) (i : ℕ) : RecView :=
  if (td.tRec i).rStat.cache then td.view i else td.fileView i

/-- Every record that was accessed is as it was at the start, and no buffer was swapped out
again before it was swapped in. -/
def SwapSvc.Transparent (start svc : SwapSvc) : Prop :=
  (∀ x ∈ svc.seen, x.2 = (start.tbls x.1.1).want x.1.2) ∧
    ∀ t, ∀ i < (svc.tbls t).tRecNum, ((svc.tbls t).tRec i).outs ≤ 1

/-! ### Steps that do what they are to do -/

/-- What is swapped out of a table from slot `s` on. -/
def SwapTbl.outCalls (td : SwapTbl) : ℕ → ℕ → List SwapOp
  | 0, _ => []
  | fuel + 1, s =>
      .swapOut ((td.buffer s (td.groupEnd s)).getD []) ::
        match xjSwapFindFree td (s + 1) with
        | none => []
        | some e => td.outCalls fuel e

/-- What `xj_swap_schedule` swaps out. -/
def SwapSvc.outCalls (svc : SwapSvc) (ts : List ℕ) : List SwapOp :=
  ts.flatMap fun t => ((xjSwapFindFree (svc.tbls t) 0).map
    ((svc.tbls t).outCalls ((svc.tbls t).tRecNum + 1))).getD []

/-- What is swapped in of a table between two slots. -/
def SwapTbl.inCalls (td : SwapTbl) (b stop : ℕ) : List SwapOp :=
  (List.range' b (stop - b)).filterMap fun i =>
    if (td.tRec i).recFree && (td.tRec i).rStat.swap then
      match (td.tRec i).rHead with
      | .handle hp => some (.swapIn hp)
      | _ => none
    else none

/-- What `svc_load` swaps in: the buffers from that of the first swapped-out slot on. -/
def SwapTbl.loadCalls (td : SwapTbl) (s l : ℕ) : List SwapOp :=
  match (td.asked s l).find? fun i => (td.tRec i).rStat.swap with
  | none => []
  | some i => td.inCalls ((td.freeBack i).getD i) (min (s + l) td.tRecNum)

/-- The calls of the swap file are ones that it can take. -/
abbrev SwapUsable (s : SwapState) (is : List SwapOp) : Prop :=
  Along swapStep (fun s i => SwapCall s i ∧ SwapSafe s i) s is

/-- The tables to be swapped out are all in memory and were all loaded, with right
checksums. No dirty record is loaded again, and what is loaded is as in the file. The swap
file is used as it can be. -/
def SwapSvcSafe (svc : SwapSvc) : SwapSvcOp → Prop
  | .schedule mytd =>
      (∀ t ∈ (List.range svc.tblNum).filter (· ≠ mytd), ∀ i < (svc.tbls t).tRecNum,
        ((svc.tbls t).tRec i).rStat.cache = true ∧ ((svc.tbls t).tRec i).rStat.swap = false ∧
          (((svc.tbls t).tRec i).rStat.used = true →
            cksumOk ((svc.tbls t).tRec i).rHead.data = true)) ∧
      SwapUsable svc.swap (svc.outCalls ((List.range svc.tblNum).filter (· ≠ mytd)))
  | .access t s l =>
      (∀ i ∈ (svc.tbls t).asked s l, ((svc.tbls t).tRec i).rStat.dirty = false) ∧
      ((∃ i ∈ (svc.tbls t).asked s l, ((svc.tbls t).tRec i).rStat.cache = false ∧
          ((svc.tbls t).tRec i).rStat.swap = false) →
        ∀ i ∈ (svc.tbls t).asked s l, ((svc.tbls t).tRec i).rStat.cache = true →
          (svc.tbls t).view i = (svc.tbls t).fileView i) ∧
      SwapUsable svc.swap ((svc.tbls t).loadCalls s l)

instance (svc : SwapSvc) (op : SwapSvcOp) : Decidable (SwapSvcSafe svc op) := by
  cases op <;> unfold SwapSvcSafe <;> infer_instance

end PaxosSolutions.XjPing
