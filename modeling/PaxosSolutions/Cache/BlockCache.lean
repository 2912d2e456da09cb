import PaxosSolutions.Lib.Run
import PaxosSolutions.NWGadget.Cksum
import PaxosSolutions.PFS.Delegation

/-!
# The block cache of clients

A client keeps blocks of files in buffers, each under a delegation of its own.
A read asks the backing store for the blocks whose delegation is new, a write
for the blocks at its ends, and the caller writes through. Requests are taken
one after another: a delegation that is asked for is first recalled from the
clients that have it.
-/
namespace PaxosSolutions
open Lib NWGadget

/-- `C_BCtrl_t`. `bcUsec` is how long a checksum is not looked at again. -/
structure BCtrl where
  bcBlockSize : ℕ
  bcBCksum : Bool
  bcUsec : ℕ

/-- `C_Block_t` with the `d_Own` of its delegation and the flags
`C_BLOCK_ACTIVE`, `C_BLOCK_CKSUMED` and `C_BLOCK_DO_CKSUM`. -/
structure CBlock where
  dOwn : DlgOwn := .none
  active : Bool := false
  cksumed : Bool := false
  doCksum : Bool := false
  bPBuf : ℕ → UInt8 := fun _ => 0
  bValid : ℕ := 0
  bCksum64 : UInt64 := 0

/-- `BC_Req_t`; `rqBlock` is the block in whose buffer the data goes. -/
structure BCReq (N : Type) where
  rqOffset : ℕ
  rqSize : ℕ
  rqBlock : N × ℕ

/-- The failed `ASSERT`s of the cache. -/
inductive BCFault where
  | assertActive | assertCksum | assertRange
deriving DecidableEq, Repr

/-- The caches of the clients `C` over the files `N`, and the backing store. A
block is named by its file and its number. -/
structure BCSys (C N : Type) where
  block : C → N × ℕ → CBlock
  store : N → ℕ → UInt8

namespace CBlock

/-- The bytes of the buffer from `off` on. -/
def bytes (b : CBlock) (off len : ℕ) : List UInt8 := (List.range len).map fun j => b.bPBuf (off + j)

/-- `_BCInit`, called where the delegation becomes `own` -/
def bcInit (own : DlgOwn) (b : CBlock) : CBlock :=
  { b with
    dOwn := own
    active := false
    cksumed := false
    doCksum := false
    bValid := 0
    bCksum64 := 0 }

/-- `_BCTerm`, called where the delegation is given back -/
def bcTerm (b : CBlock) : CBlock :=
  { b with
    dOwn := .none
    active := false
    cksumed := false
    doCksum := false
    bCksum64 := 0 }

/-- The delegation is given back if there is one. -/
def giveBack (b : CBlock) : CBlock := if b.dOwn = .none then b else b.bcTerm

/-- The flag of a block that is asked for -/
def asked (b : CBlock) : CBlock := { b with doCksum := true }

/-- `b_Cksum64` is taken anew. -/
def sumUp (bc : BCtrl) (now : ℕ) (b : CBlock) : CBlock :=
  { b with
    bCksum64 := inCksum64 (b.bytes 0 bc.bcBlockSize) 0
    bValid := now + bc.bcUsec
    doCksum := false
    cksumed := true }

def copyIn (off len : ℕ) (pData : ℕ → UInt8) (b : CBlock) : CBlock :=
  { b with bPBuf := fun j => if off ≤ j ∧ j < off + len then pData (j - off) else b.bPBuf j }

end CBlock

namespace BCSys
variable {C N : Type} [DecidableEq C] [DecidableEq N]

def setBlock (c : C) (k : N × ℕ) (b : CBlock) (s : BCSys C N) : BCSys C N :=
  { s with block := Function.update s.block c (Function.update (s.block c) k b) }

/-- The block `k` of the clients that have it in a way `p` is recalled. -/
def recallAll (p : C → DlgOwn → Bool) (k : N × ℕ) (s : BCSys C N) : BCSys C N :=
  { s with
    block := fun c l =>
      if l = k ∧ p c (s.block c l).dOwn then (s.block c l).bcTerm else s.block c l }

/-- `DlgCacheLockR`: whether `_BCInit` was called. -/
def lockR (c : C) (k : N × ℕ) (s : BCSys C N) : Bool × BCSys C N :=
  if (s.block c k).dOwn ≠ .none then (false, s)
  else
    let s := s.recallAll (fun d own => d ≠ c ∧ own = .w) k
    (true, s.setBlock c k ((s.block c k).bcInit .r))

/-- `DlgCacheLockW` -/
def lockW (c : C) (k : N × ℕ) (s : BCSys C N) : BCSys C N :=
  if (s.block c k).dOwn = .w then s
  else
    let s := s.recallAll (fun d own => d ≠ c ∧ own ≠ .none) k
    s.setBlock c k ((s.block c k).bcInit .w)

/-- A block request is filled from the backing store. -/
def fill (c : C) (s : BCSys C N) (rq : BCReq N) : BCSys C N :=
  s.setBlock c rq.rqBlock ((s.block c rq.rqBlock).copyIn 0 rq.rqSize fun j =>
    s.store rq.rqBlock.1 (rq.rqOffset + j))

/-- The caller writes the range to the backing store. -/
def writeStore (name : N) (offset size : ℕ) (pData : ℕ → UInt8) (s : BCSys C N) : BCSys C N :=
  { s with
    store := Function.update s.store name fun o =>
      if offset ≤ o ∧ o < offset + size then pData (o - offset) else s.store name o }

end BCSys

section
variable {C N : Type} [DecidableEq C] [DecidableEq N]

/-- `off` of the block `i`: where the range begins in it. -/
def bcOff (bs offset i : ℕ) : ℕ := if i * bs < offset then offset - i * bs else 0

/-- `len` of the block `i`: how much of the range is in it. -/
def bcLen (bs offset size i : ℕ) : ℕ :=
  if i * bs + bs < offset + size then bs - bcOff bs offset i
  else offset + size - i * bs - bcOff bs offset i

/-- The blocks from `iS` to `iE` -/
def bcBlocks (bs offset size : ℕ) : List ℕ :=
  List.range' (offset / bs) ((offset + size - 1) / bs - offset / bs + 1)

/-- The loop of `BCReadIO` -/
def bcReadIo (bc : BCtrl) (c : C) (name : N) :
    List ℕ → BCSys C N → Except BCFault (List (BCReq N) × BCSys C N)
  | [], s => .ok ([], s)
  | i :: is, s =>
      let (bIo, s) := s.lockR c (name, i)
      if bIo = false then bcReadIo bc c name is s
      else if (s.block c (name, i)).active then .error .assertActive
      else do
        let (reqs, s) ← bcReadIo bc c name is (s.setBlock c (name, i) (s.block c (name, i)).asked)
        .ok (⟨i * bc.bcBlockSize, bc.bcBlockSize, (name, i)⟩ :: reqs, s)

/-- What `BCReadDone` does with the checksum of a block. -/
def bcCheck (bc : BCtrl) (now : ℕ) (b : CBlock) : Except BCFault CBlock :=
  if bc.bcBCksum = false then .ok b
  else
    let again := b.cksumed ∧ b.bCksum64 ≠ 0 ∧ b.bValid < now
    if again ∧ b.bCksum64 ≠ inCksum64 (b.bytes 0 bc.bcBlockSize) 0 then .error .assertCksum
    else
      let b := if again then { b with bValid := now + bc.bcUsec } else b
      .ok (if b.doCksum then { b.sumUp bc now with active := true } else b)

/-- The loop of `BCReadDone`: what is copied to `pData`. -/
def bcReadDone (bc : BCtrl) (c : C) (name : N) (offset size now : ℕ) :
    List ℕ → BCSys C N → Except BCFault (List UInt8 × BCSys C N)
  | [], s => .ok ([], s)
  | i :: is, s => do
      let off := bcOff bc.bcBlockSize offset i
      let len := bcLen bc.bcBlockSize offset size i
      let b ← bcCheck bc now (s.block c (name, i))
      if ¬ (off < bc.bcBlockSize ∧ 0 < len ∧ len ≤ bc.bcBlockSize) then .error .assertRange
      else
        let (pData, s) ← bcReadDone bc c name offset size now is (s.setBlock c (name, i) b)
        .ok (b.bytes off len ++ pData, s)

/-- Whether `BCWriteIO` asks for the block `i`: the first where the range does
not begin with it, and the last, if it is another, where the range does not end
with it. -/
def bcBothEnds (bs offset size i : ℕ) : Bool :=
  let iS := offset / bs
  let iE := (offset + size - 1) / bs
  (i = iS ∧ offset % bs ≠ 0) ∨ (i = iE ∧ iS ≠ iE ∧ (offset + size) % bs ≠ 0)

/-- The loop of `BCWriteIO` -/
def bcWriteIo (bc : BCtrl) (c : C) (name : N) (offset size : ℕ) :
    List ℕ → BCSys C N → List (BCReq N) × BCSys C N
  | [], s => ([], s)
  | i :: is, s =>
      let s := s.lockW c (name, i)
      if bcBothEnds bc.bcBlockSize offset size i then
        let (reqs, s) := bcWriteIo bc c name offset size is
          (s.setBlock c (name, i) (s.block c (name, i)).asked)
        (⟨i * bc.bcBlockSize, bc.bcBlockSize, (name, i)⟩ :: reqs, s)
      else bcWriteIo bc c name offset size is s

/-- What `BCWriteDone` does with a block. The checksum is corrected by that of
the words that change. -/
def bcCopy (bc : BCtrl) (off len now : ℕ) (pData : ℕ → UInt8) (b : CBlock) : CBlock :=
  let b := if b.doCksum then b.sumUp bc now else b
  let r := off % 8
  let b' := { b.copyIn off len pData with active := true }
  if bc.bcBCksum = false then b'
  else if b.bCksum64 ≠ 0 ∧ b.cksumed then
    { b' with
      bCksum64 := inCksum64SubAdd b.bCksum64 (inCksum64 (b.bytes (off - r) (len + r)) 0)
        (inCksum64 (b'.bytes (off - r) (len + r)) 0)
      bValid := now + bc.bcUsec
      cksumed := true }
  else
    { b' with
      bCksum64 := inCksum64 (b'.bytes 0 bc.bcBlockSize) 0
      bValid := now + bc.bcUsec
      cksumed := true }

/-- The loop of `BCWriteDone`, with `pData` at `p`. -/
def bcWriteDone (bc : BCtrl) (c : C) (name : N) (offset size now : ℕ) (pData : ℕ → UInt8) :
    List ℕ → ℕ → BCSys C N → Except BCFault (BCSys C N)
  | [], _, s => .ok s
  | i :: is, p, s =>
      let off := bcOff bc.bcBlockSize offset i
      let len := bcLen bc.bcBlockSize offset size i
      if ¬ (off < bc.bcBlockSize ∧ 0 < len ∧ len ≤ bc.bcBlockSize) then .error .assertRange
      else
        let b := bcCopy bc off len now (fun j => pData (p + j)) (s.block c (name, i))
        bcWriteDone bc c name offset size now pData is (p + len) (s.setBlock c (name, i) b)

/-- A read: `BCReadIO`, the block requests and `BCReadDone`. -/
def bcRead (bc : BCtrl) (c : C) (name : N) (offset size now : ℕ) (s : BCSys C N) :
    Except BCFault (List UInt8 × BCSys C N) := do
  let is := bcBlocks bc.bcBlockSize offset size
  let (reqs, s) ← bcReadIo bc c name is s
  bcReadDone bc c name offset size now is (reqs.foldl (BCSys.fill c) s)

/-- A write: `BCWriteIO`, the block requests, `BCWriteDone`, and the write to
the backing store. -/
def bcWrite (bc : BCtrl) (c : C) (name : N) (offset size now : ℕ) (pData : ℕ → UInt8)
    (s : BCSys C N) : Except BCFault (BCSys C N) := do
  let is := bcBlocks bc.bcBlockSize offset size
  let (reqs, s) := bcWriteIo bc c name offset size is s
  let s ← bcWriteDone bc c name offset size now pData is 0 (reqs.foldl (BCSys.fill c) s)
  .ok (s.writeStore name offset size pData)

/-- The requests, and what the delegation cache does besides: a block is
recalled, or put in a new buffer, or in the buffer of a block that leaves the
cache. -/
inductive BCOp (C N : Type) where
  | read (c : C) (name : N) (offset size now : ℕ)
  | write (c : C) (name : N) (offset size now : ℕ) (pData : ℕ → UInt8)
  | dlgRecall (c : C) (k : N × ℕ)
  | alloc (c : C) (k : N × ℕ)
  | reuse (c : C) (k l : N × ℕ)

def bcStep (bc : BCtrl) (s : BCSys C N) : BCOp C N → Except BCFault (BCSys C N)
  | .read c name offset size now => (bcRead bc c name offset size now s).map Prod.snd
  | .write c name offset size now pData => bcWrite bc c name offset size now pData s
  | .dlgRecall c k => .ok (s.setBlock c k (s.block c k).giveBack)
  | .alloc c k => .ok (if (s.block c k).dOwn = .none then s.setBlock c k {} else s)
  | .reuse c k l =>
      .ok (if (s.block c k).dOwn = .none then
        (s.setBlock c k (s.block c l).giveBack).setBlock c l (s.block c l).giveBack
      else s)

end

/-- No client has a block. -/
def bcStart {C N : Type} (store : N → ℕ → UInt8) : BCSys C N := ⟨fun _ _ => {}, store⟩

end PaxosSolutions
