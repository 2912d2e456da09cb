import Mathlib.Data.List.Basic

/-!
# Messages in pieces

A `Msg_t` is a vector of pieces that are sent one after the other.
-/
namespace PaxosSolutions.NWGadget

/-- `MsgVec_t`, with `v_pStart` as its distance from `v_pVoid`. -/
structure MsgVec where
  mine : Bool := true
  disabled : Bool := false
  vVoid : List UInt8 := []
  vStart : ℕ := 0
  vLen : ℕ := 0
deriving DecidableEq, Repr

/-- `Msg_t`: `m_N` is the length of the list. -/
structure Msg where
  mSize : ℕ
  mAVec : List MsgVec := []
deriving DecidableEq, Repr

namespace Msg

/-- `MsgAdd`: a full vector doubles. -/
def add (v : MsgVec) (m : Msg) : Msg :=
  { mSize := if m.mSize ≤ m.mAVec.length then m.mSize * 2 else m.mSize, mAVec := m.mAVec ++ [v] }

/-- `MsgInsert` -/
def insert (v : MsgVec) (m : Msg) : Msg :=
  { mSize := if m.mSize ≤ m.mAVec.length then m.mSize * 2 else m.mSize, mAVec := v :: m.mAVec }

/-- `MsgTotalLen` -/
def totalLen (m : Msg) : ℕ :=
  m.mAVec.foldl (fun n v => if v.disabled then n else n + v.vLen) 0

end Msg

end PaxosSolutions.NWGadget
