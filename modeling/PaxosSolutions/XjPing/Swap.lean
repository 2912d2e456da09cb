import PaxosSolutions.Lib.File
import PaxosSolutions.Lib.Run
import Mathlib.Data.Nat.Bitwise

/-!
# The swap file of the table service

Records that are swapped out are kept in a file of segments. A segment has a
head with the offset of the segment before it and its own length, which is
negative when the segment is free. A head of length 0 ends the file. The first
free segment with room for another head is split, a segment that is read back
is joined with its free neighbours.
-/
namespace PaxosSolutions.XjPing
open Lib

/-- `xj_swap_head_t` -/
structure XjSwapHead where
  pPrev : ℤ := 0
  pLen : ℤ := 0
deriving DecidableEq, Repr

def XjSwapHead.bytes (head : XjSwapHead) : List UInt8 := intBytes head.pPrev ++ intBytes head.pLen

def XjSwapHead.ofBytes (bs : List UInt8) : XjSwapHead where
  pPrev := bytesInt (bs.take 4)
  pLen := bytesInt ((bs.drop 4).take 4)

/-- `lseek` fails, `neo_malloc` fails, there is no file of the number, a search
never ends, and a handle nothing was swapped out under. -/
inductive SwapFault where
  | lseek | noMem | noFile | loop | dead
deriving DecidableEq, Repr

/-- `SET_SEQ` -/
def setSeq (hp : ℕ) (seq : ℤ) : ℕ := hp ||| (seq % 2 ^ 32).toNat

/-- `GET_POOL` -/
def getPool (hp : ℕ) : ℕ := hp >>> 28 &&& 0xf

/-- `GET_SEQ` -/
def getSeq (hp : ℕ) : ℕ := hp &&& 0xfffff

/-- A read of a head. What the file does not have stays in `head`. -/
def readHead (fd : File) (head : XjSwapHead) : XjSwapHead × File :=
  let (bs, fd) := fd.read 8
  (.ofBytes (bs ++ head.bytes.drop bs.length), fd)

def seekOr (fd : Option File) : Except SwapFault File := fd.elim (.error .lseek) .ok

/-- `xj_swap_init` -/
def xjSwapInit : File := ({} : File).write ({} : XjSwapHead).bytes

/-- The `while` of `xj_swap_out`. Its `lseek`s are not checked. -/
def outLoop : ℕ → List UInt8 → ℤ → XjSwapHead → File → Except SwapFault (ℕ × File)
  | 0, _, _, _, _ => .error .loop
  | fuel + 1, addrp, seq, head, fd =>
      let size : ℤ := addrp.length
      let (head, fd) := readHead fd head
      if head.pLen = 0 then
        let fd := ((fd.seekCur (-8)).getD fd).write { head with pLen := size : XjSwapHead }.bytes
        let fd := (fd.write addrp).write (XjSwapHead.bytes ⟨seq, 0⟩)
        .ok (setSeq 0 seq, fd)
      else if 0 < head.pLen then
        outLoop fuel addrp (int32 (seq + head.pLen + 8)) head ((fd.seekCur head.pLen).getD fd)
      else
        let res := -head.pLen
        if res < size + 2 * 8 then
          outLoop fuel addrp (int32 (seq + res + 8)) head ((fd.seekCur res).getD fd)
        else
          let fd := ((fd.seekCur (-8)).getD fd).write { head with pLen := size : XjSwapHead }.bytes
          let fd := (fd.write addrp).write (XjSwapHead.bytes ⟨seq, -((res - size) - 8)⟩)
          .ok (setSeq 0 seq, fd)

/-- `xj_swap_out`. A head takes 8 bytes, so the file has fewer heads than bytes. -/
def xjSwapOut (fd : File) (addrp : List UInt8) : Except SwapFault (ℕ × File) := do
  let fd ← seekOr (fd.seekSet 0)
  outLoop (fd.bytes.length + 1) addrp 0 {} fd

/-- The join with the segment before, in `xj_swap_in`. -/
def prevConcat (fd : File) (seq : ℤ) (head headw : XjSwapHead) :
    Except SwapFault (ℤ × XjSwapHead × XjSwapHead × File) :=
  if seq = 0 then .ok (seq, head, headw, fd)
  else do
    let fd ← seekOr (fd.seekSet head.pPrev)
    let (headw, fd) := readHead fd headw
    if headw.pLen < 0 then
      .ok (head.pPrev, { head with pLen := int32 (head.pLen - 8 + headw.pLen) }, headw, fd)
    else .ok (seq, head, headw, fd)

/-- The join with the segment behind, in `xj_swap_in`, and the link back to it. -/
def nextConcat (fd : File) (seq nextSeq : ℤ) (head headw : XjSwapHead) :
    Except SwapFault (XjSwapHead × File) := do
  let fd ← seekOr (fd.seekSet nextSeq)
  let (headw, fd) := readHead fd headw
  let (head, headw, fd) ←
    if headw.pLen < 0 then do
      let fd' ← seekOr (fd.seekCur (-headw.pLen))
      let (headw', fd') := readHead fd' headw
      pure ({ head with pLen := int32 (head.pLen - 8 + headw.pLen) }, headw', fd')
    else pure (head, headw, fd)
  pure (head, ((fd.seekCur (-8)).getD fd).write { headw with pPrev := seq : XjSwapHead }.bytes)

/-- `xj_swap_in` -/
def xjSwapIn (fd : File) (hp : ℕ) : Except SwapFault ((List UInt8 × ℤ) × File) :=
  if getPool hp ≠ 0 then .error .noFile
  else do
    let seq : ℤ := getSeq hp
    let fd ← seekOr (fd.seekSet seq)
    let (head, fd) := readHead fd {}
    if head.pLen < 0 then .error .noMem
    else do
      let (addrp, fd) := fd.read head.pLen.toNat
      let lenp := head.pLen
      let nextSeq := int32 (seq + 8 + head.pLen)
      let (seq, head, headw, fd) ← prevConcat fd seq { head with pLen := -head.pLen } {}
      let (head, fd) ← nextConcat fd seq nextSeq head headw
      pure ((addrp, lenp), ((fd.seekSet seq).getD fd).write head.bytes)

/-! ### Runs -/

/-- The file, the live handles with what was swapped out under them, and for
each handle that was swapped in the bytes before, the bytes after and `*lenp`. -/
structure SwapState where
  fd : File
  live : List (ℕ × List UInt8) := []
  got : List (List UInt8 × List UInt8 × ℤ) := []

inductive SwapOp where
  | swapOut (addrp : List UInt8)
  | swapIn (hp : ℕ)

def swapStep (s : SwapState) : SwapOp → Except SwapFault SwapState
  | .swapOut addrp => (xjSwapOut s.fd addrp).map fun r =>
      { s with fd := r.2, live := (r.1, addrp) :: s.live }
  | .swapIn hp =>
      match s.live.lookup hp with
      | none => .error .dead
      | some bytes => (xjSwapIn s.fd hp).map fun r =>
          { fd := r.2, live := s.live.filter (·.1 ≠ hp), got := (bytes, r.1) :: s.got }

def swapInitial : SwapState := { fd := xjSwapInit }

/-- The heads of a row of segments that ends with the terminator, with their offsets. -/
def heads : ℕ → ℕ → List UInt8 → Option (List (ℕ × XjSwapHead))
  | 0, _, _ => none
  | fuel + 1, off, bs =>
      if bs.length < 8 then none
      else
        let head := XjSwapHead.ofBytes bs
        let len := head.pLen.natAbs
        if head.pLen = 0 then if bs.length = 8 then some [(off, head)] else none
        else (heads fuel (off + 8 + len) (bs.drop (8 + len))).map ((off, head) :: ·)

/-- The segments of the file, if they tile it. -/
def SwapState.segments (s : SwapState) : Option (List (ℕ × XjSwapHead)) :=
  heads (s.fd.bytes.length + 1) 0 s.fd.bytes

/-- Each head has the offset of the one before, the first has `prev`. -/
def PrevLinked : ℕ → List (ℕ × XjSwapHead) → Prop
  | _, [] => True
  | prev, (off, head) :: hs => head.pPrev = prev ∧ PrevLinked off hs

instance decidablePrevLinked (prev : ℕ) (hs : List (ℕ × XjSwapHead)) :
    Decidable (PrevLinked prev hs) :=
  match hs with
  | [] => .isTrue trivial
  | (off, head) :: hs =>
      have := decidablePrevLinked off hs
      inferInstanceAs (Decidable (head.pPrev = prev ∧ PrevLinked off hs))

/-- The segments of the file tile it up to the terminator, are linked back, no two
free ones are neighbours, the used ones are those of the live handles, which do not
overlap, and what was swapped in is what was swapped out. -/
def SwapIntegrity (s : SwapState) : Prop :=
  ∃ hs, s.segments = some hs ∧ PrevLinked 0 hs ∧
    hs.IsChain (fun a b => ¬(a.2.pLen < 0 ∧ b.2.pLen < 0)) ∧
    ((hs.filter (0 < ·.2.pLen)).map fun p => (p.1, p.2.pLen)).Perm
      (s.live.map fun l => (l.1, (l.2.length : ℤ))) ∧
    s.live.Pairwise (fun a b => a.1 + 8 + a.2.length ≤ b.1 ∨ b.1 + 8 + b.2.length ≤ a.1) ∧
    ∀ g ∈ s.got, g.2 = (g.1, (g.1.length : ℤ))

/-- Something is swapped out and the file stays in the range of `int`, or a live
handle is swapped in. -/
def SwapCall (s : SwapState) : SwapOp → Prop
  | .swapOut addrp => 0 < addrp.length ∧ s.fd.bytes.length + (8 + addrp.length) < 2 ^ 31
  | .swapIn hp => (s.live.lookup hp).isSome

/-- No free segment takes what is swapped out. What is swapped in lies below the
mask of `GET_SEQ`, and the segment before it is used or the first. -/
def SwapSafe (s : SwapState) : SwapOp → Prop
  | .swapOut addrp => ∀ p ∈ s.segments.getD [],
      ¬(p.2.pLen < 0 ∧ (addrp.length : ℤ) + 2 * 8 ≤ -p.2.pLen)
  | .swapIn hp => hp < 2 ^ 20 ∧ ∀ p ∈ s.segments.getD [],
      p.2.pLen < 0 → (p.1 : ℤ) + 8 - p.2.pLen = hp → p.1 = 0

instance (s : SwapState) (i : SwapOp) : Decidable (SwapCall s i) := by
  cases i <;> unfold SwapCall <;> infer_instance

instance (s : SwapState) (i : SwapOp) : Decidable (SwapSafe s i) := by
  cases i <;> unfold SwapSafe <;> infer_instance

end PaxosSolutions.XjPing
