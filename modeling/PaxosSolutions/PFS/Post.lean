import PaxosSolutions.NWGadget.CksumMsg
import PaxosSolutions.PFS.Stored

/-!
# Posting in band and out of band

`PFSPost` sends a message that fits into a command as it is, and pushes a longer one to
the acceptors first. Every message that gets into a queue checks, but an answer to the
longer one is not looked at.
-/
namespace PaxosSolutions
open Lib NWGadget

def PATH_NAME_MAX : ℕ := 512

def PAXOS_COMMAND_SIZE : ℕ := 1300

def PAXOS_SESSION_OB_PUSH : ℤ := 9

def PFS_OUTOFBAND : ℤ := 2 ^ 16 + 8

def PFS_POST_MSG : ℤ := 2 ^ 16 + 21

def EINVAL : ℤ := 22

/-! ### Messages as they are sent -/

/-- An `int` in memory. -/
def leInt (x : ℤ) : List UInt8 := leBytes 4 (x % 2 ^ 32).toNat

/-- `PaxosSessionHead_t`. What stands behind `h_Master` is zero in every message here. -/
structure WireHead where
  hCksum64 : UInt64 := 0
  hCmd : ℤ
  hLen : ℤ
  hId : Vector UInt8 48 := Vector.replicate 48 0
  hError : ℤ := 0
  hCode : ℤ
  hFrom : ℤ := 0
  hMaster : ℤ := -1

namespace WireHead

/-- The fields between the checksum and `h_From`. -/
def front (h : WireHead) : List UInt8 :=
  leInt h.hCmd ++ (leInt h.hLen ++ (h.hId.toList ++ (leInt h.hError ++ leInt h.hCode)))

/-- The fields behind `h_From`. -/
def back (h : WireHead) : List UInt8 := leInt h.hMaster ++ List.replicate 40 0

def bytes (h : WireHead) : List UInt8 :=
  leBytes 8 h.hCksum64.toNat ++ (h.front ++ (leInt h.hFrom ++ h.back))

/-- `SESSION_MSGINIT`: a length is stored in an `int`. -/
def sessionMsgInit (cmd code : ℤ) (len : ℕ) : WireHead where
  hCmd := cmd
  hCode := code
  hLen := Int.bmod len (2 ^ 32)

/-- `SET_HEAD` and the checksum, in the loop of `PaxosSessionMsgCksum64`, for the vectors
from one that is `VEC_HEAD` up to the next. `rest` stands behind the head in the first. -/
def sessionCksum64 (sId : Vector UInt8 48) (rest : List UInt8) (vs : List (List UInt8))
    (h : WireHead) : WireHead :=
  let h := { h with
    hCksum64 := 0
    hId := sId }
  { h with hCksum64 := msgCksum64 ((h.bytes ++ rest) :: vs) 0 }

end WireHead

/-- `PFSHead_t`. Its last four bytes are never set. -/
structure PFSHead where
  hHead : WireHead
  hError : ℤ := 0
  pad : Vector UInt8 4

/-- What stands behind `h_Head` in it. -/
def PFSHead.rest (h : PFSHead) : List UInt8 := leInt h.hError ++ h.pad.toList

def PFSHead.bytes (h : PFSHead) : List UInt8 := h.hHead.bytes ++ h.rest

/-- As the session layer sends it, with nothing behind. -/
def PFSHead.sent (sId : Vector UInt8 48) (h : PFSHead) : PFSHead :=
  { h with hHead := h.hHead.sessionCksum64 sId h.rest [] }

def strncpy (n : ℕ) (src : String) : List UInt8 :=
  let bs := src.toUTF8.toList.take n
  bs ++ List.replicate (n - bs.length) 0

/-- `PFSPostMsgReq_t` with the data behind it. -/
structure PFSPostMsgReq where
  pHead : PFSHead
  pName : String
  pLen : ℕ
  data : List UInt8

namespace PFSPostMsgReq

/-- What stands behind `h_Head`, up to the data. -/
def rest (m : PFSPostMsgReq) : List UInt8 :=
  m.pHead.rest ++ (strncpy PATH_NAME_MAX m.pName ++ leBytes 8 m.pLen)

/-- The vector of the request, without that of the data. -/
def fixed (m : PFSPostMsgReq) : List UInt8 := m.pHead.hHead.bytes ++ m.rest

def bytes (m : PFSPostMsgReq) : List UInt8 := m.fixed ++ m.data

def setCksum64 (m : PFSPostMsgReq) (cksum : UInt64) : PFSPostMsgReq :=
  { m with pHead.hHead.hCksum64 := cksum }

/-- `sizeof( PFSPostMsgReq_t )` -/
def size : ℕ := 648

/-- As the session layer sends it. -/
def sent (sId : Vector UInt8 48) (m : PFSPostMsgReq) : PFSPostMsgReq :=
  { m with pHead.hHead := m.pHead.hHead.sessionCksum64 sId m.rest [m.data] }

/-- `in_cksum64` of a message in a queue: of as much as its head says. -/
def bad (m : PFSPostMsgReq) : Bool :=
  inCksum64 (m.bytes.take m.pHead.hHead.hLen.toNat) 0 ≠ 0

end PFSPostMsgReq

/-- `DATA_SIZE_POST` -/
def DATA_SIZE_POST : ℕ := PAXOS_COMMAND_SIZE - PFSPostMsgReq.size

/-! ### The client -/

/-- What an acceptor does with an out-of-band message: it takes it in, with its
`o_MemLimit`; it gives it to one that pulls, with its `c_MyId`; it loads it from a file. -/
inductive OutOfBandHop where
  | push (oMemLimit : ℤ)
  | pull (cMyId : ℤ)
  | load

/-- A call of `PFSPost` by a session, what its stack has in the bytes that are not set, and
`s_Id` when the message is sent. The acceptor it is sent to has `oMemLimit`, and `hops`
take it from there to the one that answers. -/
structure Posting where
  who : SessionId
  pQueue : String
  pBuff : List UInt8
  pad : Vector UInt8 4
  padReq : Vector UInt8 4
  sId : Vector UInt8 48
  oMemLimit : ℤ
  hops : List OutOfBandHop

/-- The message of `PFSPostOutOfBand`. -/
structure OutOfBandPost where
  reqPush : WireHead
  reqPost : PFSPostMsgReq
  req : PFSHead

namespace Posting

/-- `ReqPost` before its checksum is taken. -/
def reqPost (p : Posting) : PFSPostMsgReq where
  pHead :=
    { hHead := .sessionMsgInit PFS_POST_MSG 0 (PFSPostMsgReq.size + p.pBuff.length)
      pad := p.pad }
  pName := p.pQueue
  pLen := p.pBuff.length
  data := p.pBuff

/-- The message of `PFSPost` when it is short. -/
def msgReq (p : Posting) : PFSPostMsgReq :=
  p.reqPost.setCksum64 (msgCksum64 [p.reqPost.fixed, p.pBuff] 0)

/-- The message of `PFSPostOutOfBand`. The checksum of `ReqPost` is of `Req` too. -/
def outOfBand (p : Posting) : OutOfBandPost :=
  let req : PFSHead :=
    { hHead := .sessionMsgInit PFS_OUTOFBAND 0 (headSize + 8)
      pad := p.padReq }
  let reqPost := p.reqPost.setCksum64 (msgCksum64 [p.reqPost.fixed, p.pBuff, req.bytes] 0)
  let reqPush := WireHead.sessionMsgInit PAXOS_SESSION_OB_PUSH PFS_POST_MSG
    (headSize + PFSPostMsgReq.size + p.pBuff.length)
  { reqPush := { reqPush with
      hCksum64 :=
        if headSize % 8 ≠ 0 then msgCksum64 [reqPush.bytes, reqPost.fixed, p.pBuff] 0
        else inCksum64Update reqPost.pHead.hHead.hCksum64 [] 0 reqPush.bytes 0 }
    reqPost := reqPost
    req := { req with hHead.hCksum64 := msgCksum64 [req.bytes] 0 } }

end Posting

/-- `PaxosSessionMsgCksum64` on it: each of its three heads begins a sum. -/
def OutOfBandPost.sent (sId : Vector UInt8 48) (m : OutOfBandPost) : OutOfBandPost where
  reqPush := m.reqPush.sessionCksum64 sId [] []
  reqPost := m.reqPost.sent sId
  req := m.req.sent sId

/-! ### The acceptors -/

/-- A length that is not that of what was sent, the failed `assert`s on a checksum, a stub
that is taken for a request, a fault of the queues, and an answer that does not come. -/
inductive PostFault where
  | outOfStep | assertCksum | noBody | noReply
  | queue (f : QueueFault)
deriving DecidableEq

/-- `PaxosAcceptorRecvMsg`: as much is read as the head says. -/
def recvMsg (h : WireHead) (bs : List UInt8) : Except PostFault Unit :=
  if h.hLen ≠ bs.length then .error .outOfStep
  else if h.hCksum64 ≠ 0 ∧ inCksum64 bs 0 ≠ 0 then .error .assertCksum
  else .ok ()

/-- What `o_pData` has: a head, and the request unless only the head is left. -/
structure OutOfBandMsg where
  oHead : WireHead
  oBody : Option PFSPostMsgReq

namespace OutOfBandMsg

def bytes (d : OutOfBandMsg) : List UInt8 := d.oHead.bytes ++ d.oBody.elim [] (·.bytes)

/-- What `_PaxosAcceptorOutOfBandPush` keeps of a message: its head if it is too large. -/
def fit (oMemLimit : ℤ) (d : OutOfBandMsg) : OutOfBandMsg :=
  if oMemLimit ≤ d.oHead.hLen then
    let h := { d.oHead with
      hLen := headSize
      hCksum64 := 0 }
    { oHead := { h with hCksum64 := inCksum64 h.bytes 0 }
      oBody := none }
  else d

/-- `PaxosAcceptorOutOfBandPull`. `h_From` is at the beginning of a word. -/
def pull (cMyId : ℤ) (d : OutOfBandMsg) : OutOfBandMsg :=
  { d with oHead := { d.oHead with
      hCksum64 := inCksum64Update d.oHead.hCksum64 (leInt d.oHead.hFrom) 0 (leInt cMyId) 0
      hFrom := cMyId } }

def hop (d : OutOfBandMsg) : OutOfBandHop → Except PostFault OutOfBandMsg
  | .push oMemLimit => do
      recvMsg d.oHead d.bytes
      .ok (d.fit oMemLimit)
  | .pull cMyId => .ok (d.pull cMyId)
  | .load => do
      recvMsg d.oHead d.bytes
      .ok d

end OutOfBandMsg

/-- The head of an answer, as far as the client reads it. -/
structure PFSRpl where
  hCmd : ℤ
  hError : ℤ

/-- `PFSPostS` with its answer -/
def pfsPostRpl (who : SessionId) (m : PFSPostMsgReq) (s : PFSQueues PFSPostMsgReq) :
    Except PostFault (PFSQueues PFSPostMsgReq × PFSRpl) :=
  match pfsPostS PFSPostMsgReq.bad who m.pName m s with
  | .error f => .error (.queue f)
  | .ok t =>
      match postRpl who (t.out.drop s.out.length) with
      | none => .error .noReply
      | some hError => .ok (t, ⟨PFS_POST_MSG, hError⟩)

/-- `PFSOutOfBandReq`, for what a post pushed -/
def pfsOutOfBandPostReq (who : SessionId) (d : OutOfBandMsg) (s : PFSQueues PFSPostMsgReq) :
    Except PostFault (PFSQueues PFSPostMsgReq × PFSRpl) :=
  if d.oHead.hLen ≤ headSize then
    .ok (s, ⟨if d.oHead.hCode = PFS_POST_MSG then PFS_POST_MSG else PFS_OUTOFBAND, EINVAL⟩)
  else
    match d.oBody with
    | none => .error .noBody
    | some m => pfsPostRpl who m s

/-! ### The call -/

/-- What the queues are after it, `h_Error` of the answer, and what it returns. -/
structure PostResult where
  queues : PFSQueues PFSPostMsgReq
  hError : ℤ
  ret : ℤ

/-- `PFSPostOutOfBand`: `m_Err` of the answer is returned, which nothing sets. -/
def pfsPostOutOfBand (p : Posting) (s : PFSQueues PFSPostMsgReq) : Except PostFault PostResult := do
  let m := p.outOfBand.sent p.sId
  let d ← run OutOfBandMsg.hop ⟨m.reqPush, some m.reqPost⟩ (.push p.oMemLimit :: p.hops)
  recvMsg m.req.hHead m.req.bytes
  let (t, rpl) ← pfsOutOfBandPostReq p.who d s
  if rpl.hCmd ≠ PFS_POST_MSG then .error .noReply
  else .ok ⟨t, rpl.hError, 0⟩

/-- `PFSPost` -/
def pfsPost (p : Posting) (s : PFSQueues PFSPostMsgReq) : Except PostFault PostResult :=
  if DATA_SIZE_POST < p.pBuff.length then pfsPostOutOfBand p s
  else do
    let m := p.msgReq.sent p.sId
    recvMsg m.pHead.hHead m.bytes
    let (t, rpl) ← pfsPostRpl p.who m s
    .ok ⟨t, rpl.hError, if rpl.hError ≠ 0 then -1 else 0⟩

/-! ### Lengths -/

variable {h : WireHead} {m : PFSPostMsgReq} {d : OutOfBandMsg} {p : Posting} {sId : Vector UInt8 48}
  {rest : List UInt8} {vs : List (List UInt8)} {n : ℕ} {s t : PFSQueues PFSPostMsgReq}

@[simp] theorem leInt_length (x : ℤ) : (leInt x).length = 4 := leBytes_length

@[simp] theorem WireHead.front_length : h.front.length = 64 := by simp [front]

@[simp] theorem WireHead.back_length : h.back.length = 44 := by simp [back]

@[simp] theorem WireHead.bytes_length : h.bytes.length = headSize := by
  simp [WireHead.bytes, leBytes_length, headSize]

@[simp] theorem strncpy_length (n : ℕ) (src : String) : (strncpy n src).length = n := by
  simp only [strncpy, List.length_append, List.length_replicate]
  have := List.length_take_le n src.toUTF8.toList
  omega

@[simp] theorem PFSPostMsgReq.fixed_length : m.fixed.length = PFSPostMsgReq.size := by
  simp [fixed, PFSPostMsgReq.rest, PFSHead.rest, leBytes_length, headSize, PATH_NAME_MAX, size]

theorem PFSPostMsgReq.bytes_length : m.bytes.length = PFSPostMsgReq.size + m.data.length := by
  rw [PFSPostMsgReq.bytes, List.length_append, fixed_length]

/-- A length that fits into an `int` is stored as it is, and no other one. -/
theorem bmod_eq_iff : Int.bmod n (2 ^ 32) = n ↔ n < 2 ^ 31 := by
  constructor
  · intro h
    have := Int.bmod_lt (x := n) (m := 2 ^ 32) (by omega)
    omega
  · intro h
    exact Int.bmod_eq_of_le (by omega) (by omega)

theorem WireHead.sessionMsgInit_hLen (cmd code : ℤ) (n : ℕ) :
    (sessionMsgInit cmd code n).hLen = Int.bmod n (2 ^ 32) := by rw [sessionMsgInit]

theorem WireHead.sessionCksum64_hLen : (h.sessionCksum64 sId rest vs).hLen = h.hLen := by
  rw [sessionCksum64]

/-! ### Checksums on the way -/

theorem WireHead.byteSum_bytes (h : WireHead) (rest : List UInt8) : byteSum 0 (h.bytes ++ rest) =
    h.hCksum64.toNat + byteSum 0 (h.front ++ (leInt h.hFrom ++ h.back) ++ rest) := by
  rw [WireHead.bytes, List.append_assoc, byteSum_first]

/-- What a head begins checks when the session layer has sent it. -/
theorem WireHead.sessionCksum64_checks (h : WireHead) (sId : Vector UInt8 48) (rest : List UInt8)
    (vs : List (List UInt8)) :
    inCksum64 ((h.sessionCksum64 sId rest vs).bytes ++ (rest ++ vs.flatten)) 0 = 0 := by
  let h₀ : WireHead := { h with
    hCksum64 := 0
    hId := sId }
  have hsum := msgSum64_zero ((h₀.bytes ++ rest) :: vs)
  rw [List.flatten_cons, List.append_assoc, WireHead.byteSum_bytes] at hsum
  have hzero : h₀.hCksum64.toNat = 0 := rfl
  rw [hzero, Nat.zero_add] at hsum
  have hsealed := inCksum64_sealed hsum
  rw [← List.append_assoc] at hsealed
  exact hsealed

theorem WireHead.sum_self_checks (hz : h.hCksum64 = 0) :
    inCksum64 { h with hCksum64 := inCksum64 h.bytes 0 }.bytes 0 = 0 := by
  have hsum : SumsTo (inSum64 h.bytes 0) (byteSum 0 h.bytes) := inSum64_sumsTo (by omega)
  have hb := h.byteSum_bytes []
  rw [List.append_nil, List.append_nil, hz, UInt64.toNat_zero, Nat.zero_add] at hb
  rw [hb] at hsum
  exact inCksum64_sealed hsum

/-- A push is not all zeros before `h_From`. -/
theorem WireHead.front_sum (hcmd : h.hCmd = PAXOS_SESSION_OB_PUSH) : byteSum 0 h.front ≠ 0 := by
  have h9 : byteSum 0 (leInt PAXOS_SESSION_OB_PUSH) = 9 := by decide
  rw [front, hcmd, byteSum_append, h9]
  omega

/-- What is kept out of band is a push that checks, as long as its head says. -/
structure OutOfBandMsg.Sound (d : OutOfBandMsg) : Prop where
  check : inCksum64 d.bytes 0 = 0
  len : d.oHead.hLen = d.bytes.length
  cmd : d.oHead.hCmd = PAXOS_SESSION_OB_PUSH
  code : d.oHead.hCode = PFS_POST_MSG

namespace OutOfBandMsg

theorem Sound.recv (hd : d.Sound) : recvMsg d.oHead d.bytes = .ok () := by
  unfold recvMsg
  rw [if_neg (not_not.mpr hd.len), if_neg fun h => h.2 hd.check]

theorem pull_length (i : ℤ) : (d.pull i).bytes.length = d.bytes.length := by
  simp [OutOfBandMsg.bytes, pull]

theorem Sound.pull (hd : d.Sound) (i : ℤ) : (d.pull i).Sound where
  check := by
    have hcheck := hd.check
    unfold OutOfBandMsg.bytes WireHead.bytes at hcheck ⊢
    simp only [List.append_assoc] at hcheck ⊢
    have hne (x : ℤ) : leInt x ≠ [] := List.ne_nil_of_length_pos (by simp)
    exact inCksum64_update (by simp) (hne _) (hne _) (by simp) (d.oHead.front_sum hd.cmd) hcheck
  len := by
    rw [pull_length]
    exact hd.len
  cmd := hd.cmd
  code := hd.code

theorem Sound.cut (hd : d.Sound) {l : ℤ} (hl : l ≤ d.oHead.hLen) :
    (d.fit l).Sound ∧ (d.fit l).oBody = none := by
  unfold fit
  rw [if_pos hl]
  refine ⟨⟨?_, ?_, hd.cmd, hd.code⟩, rfl⟩
  · simp only [OutOfBandMsg.bytes, Option.elim_none, List.append_nil]
    exact WireHead.sum_self_checks rfl
  · simp [OutOfBandMsg.bytes]

end OutOfBandMsg

/-- Every acceptor on the way has room for `n` bytes. -/
def Passes (n : ℕ) (hops : List OutOfBandHop) : Prop := ∀ l, .push l ∈ hops → (n : ℤ) < l

/-- What is kept is as it was, or its head where it did not fit. -/
theorem OutOfBandMsg.Sound.hops (hd : d.Sound) (hops : List OutOfBandHop) :
    ∃ d', run hop d hops = .ok d' ∧ d'.Sound ∧ (Passes d.bytes.length hops → d'.oBody = d.oBody) ∧
      (¬ Passes d.bytes.length hops → d'.oBody = none) ∧ (d.oBody = none → d'.oBody = none) := by
  induction hops generalizing d with
  | nil =>
      refine ⟨d, rfl, hd, fun _ => rfl, fun h => absurd ?_ h, fun h => h⟩
      intro l hl
      cases hl
  | cons x hops ih =>
      have hrun (d' : OutOfBandMsg) (hx : d.hop x = .ok d') :
          run hop d (x :: hops) = run hop d' hops := by
        rw [run, hx]
        rfl
      cases x with
      | push l =>
          have hx : d.hop (.push l) = .ok (d.fit l) := by
            unfold hop
            rw [hd.recv]
            rfl
          rw [hrun _ hx]
          by_cases hl : l ≤ d.oHead.hLen
          · obtain ⟨hfit, hnone⟩ := hd.cut hl
            obtain ⟨d', hd', hs', -, -, hempty⟩ := ih hfit
            refine ⟨d', hd', hs', ?_, fun _ => hempty hnone, fun _ => hempty hnone⟩
            intro hpass
            have := hpass l List.mem_cons_self
            rw [← hd.len] at this
            omega
          · have hfit : d.fit l = d := if_neg hl
            rw [hfit]
            obtain ⟨d', hd', hs', hyes, hno, hempty⟩ := ih hd
            have hpass : Passes d.bytes.length (.push l :: hops) ↔ Passes d.bytes.length hops := by
              constructor
              · exact fun h k hk => h k (List.mem_cons_of_mem _ hk)
              · intro h k hk
                rcases List.mem_cons.mp hk with heq | hk
                · cases heq
                  rw [← hd.len]
                  omega
                · exact h k hk
            exact ⟨d', hd', hs', fun h => hyes (hpass.mp h), fun h => hno (mt hpass.mpr h), hempty⟩
      | pull i =>
          rw [hrun (d.pull i) rfl]
          obtain ⟨d', hd', hs', hyes, hno, hempty⟩ := ih (hd.pull i)
          rw [pull_length] at hyes hno
          have hpass : Passes d.bytes.length (.pull i :: hops) ↔ Passes d.bytes.length hops := by
            simp [Passes]
          exact ⟨d', hd', hs', fun h => hyes (hpass.mp h), fun h => hno (mt hpass.mpr h), hempty⟩
      | load =>
          have hx : d.hop .load = .ok d := by
            unfold hop
            rw [hd.recv]
            rfl
          rw [hrun _ hx]
          obtain ⟨d', hd', hs', hyes, hno, hempty⟩ := ih hd
          have hpass : Passes d.bytes.length (.load :: hops) ↔ Passes d.bytes.length hops := by
            simp [Passes]
          exact ⟨d', hd', hs', fun h => hyes (hpass.mp h), fun h => hno (mt hpass.mpr h), hempty⟩

/-! ### What is sent -/

/-- Every message in a queue checks. -/
abbrev Checked (s : PFSQueues PFSPostMsgReq) : Prop := s.Stored fun m => m.bad = false

theorem PFSPostMsgReq.sent_checks : inCksum64 (m.sent sId).bytes 0 = 0 := by
  have h := m.pHead.hHead.sessionCksum64_checks sId m.rest [m.data]
  rw [List.flatten_singleton, ← List.append_assoc] at h
  exact h

theorem PFSPostMsgReq.sent_length : (m.sent sId).bytes.length = m.bytes.length := by
  rw [bytes_length, bytes_length]
  rfl

theorem PFSPostMsgReq.sent_hLen : (m.sent sId).pHead.hHead.hLen = m.pHead.hHead.hLen := by
  rw [sent]
  exact WireHead.sessionCksum64_hLen

theorem PFSPostMsgReq.sent_good (sId : Vector UInt8 48) (h : m.pHead.hHead.hLen = m.bytes.length) :
    (m.sent sId).bad = false := by
  have hlen : (m.sent sId).pHead.hHead.hLen = (m.sent sId).bytes.length := by
    rw [sent_length, sent_hLen]
    exact h
  unfold bad
  rw [hlen, Int.toNat_natCast, List.take_length, sent_checks]
  rfl

theorem PFSHead.sent_checks (h : PFSHead) : inCksum64 (h.sent sId).bytes 0 = 0 := by
  have hsum := h.hHead.sessionCksum64_checks sId h.rest []
  rw [List.flatten_nil, List.append_nil] at hsum
  exact hsum

/-- A head that begins all that is sent is received as it is. -/
theorem recvMsg_ok {bs : List UInt8} (hlen : h.hLen = bs.length) (hcheck : inCksum64 bs 0 = 0) :
    recvMsg h bs = .ok () := by
  unfold recvMsg
  rw [if_neg (not_not.mpr hlen), if_neg fun h => h.2 hcheck]

namespace Posting

/-- How many bytes are pushed. -/
def pushed (p : Posting) : ℕ := headSize + PFSPostMsgReq.size + p.pBuff.length

/-- What the acceptor receives out of band. -/
def data (p : Posting) : OutOfBandMsg where
  oHead := (p.outOfBand.sent p.sId).reqPush
  oBody := some (p.outOfBand.sent p.sId).reqPost

theorem data_hLen (p : Posting) : p.data.oHead.hLen = Int.bmod p.pushed (2 ^ 32) := by
  rw [data, OutOfBandPost.sent, WireHead.sessionCksum64_hLen, outOfBand]
  dsimp only
  rw [WireHead.sessionMsgInit_hLen, pushed]

theorem data_length (p : Posting) : p.data.bytes.length = p.pushed := by
  have hpost : (p.outOfBand.sent p.sId).reqPost.bytes.length =
      PFSPostMsgReq.size + p.pBuff.length := PFSPostMsgReq.bytes_length
  have hbody : p.data.oBody = some (p.outOfBand.sent p.sId).reqPost := rfl
  rw [OutOfBandMsg.bytes, List.length_append, WireHead.bytes_length, hbody, Option.elim_some,
    hpost, ← Nat.add_assoc]
  rfl

theorem data_sound (hlen : p.pushed < 2 ^ 31) : p.data.Sound where
  check := by
    have hpush := p.outOfBand.reqPush.sessionCksum64_checks p.sId [] []
    rw [List.flatten_nil, List.append_nil, List.append_nil] at hpush
    exact inCksum64_append hpush PFSPostMsgReq.sent_checks (by rw [WireHead.bytes_length]; rfl)
  len := by
    rw [data_length, data_hLen]
    exact bmod_eq_iff.mpr hlen
  cmd := rfl
  code := rfl

/-- A length that does not fit into an `int` is not that of the message. -/
theorem data_outOfStep (hlen : ¬ p.pushed < 2 ^ 31) :
    run OutOfBandMsg.hop p.data (.push p.oMemLimit :: p.hops) = .error .outOfStep := by
  have hne : p.data.oHead.hLen ≠ p.data.bytes.length := by
    rw [data_length, data_hLen]
    exact mt bmod_eq_iff.mp hlen
  have hrecv : recvMsg p.data.oHead p.data.bytes = .error .outOfStep := if_pos hne
  unfold run OutOfBandMsg.hop
  simp only [hrecv]
  rfl

theorem req_received (p : Posting) : recvMsg (p.outOfBand.sent p.sId).req.hHead
    (p.outOfBand.sent p.sId).req.bytes = .ok () := by
  apply recvMsg_ok
  · have hlen : (p.outOfBand.sent p.sId).req.bytes.length = headSize + 8 := by
      simp [PFSHead.bytes, PFSHead.rest]
    rw [hlen, OutOfBandPost.sent, PFSHead.sent, WireHead.sessionCksum64_hLen, outOfBand]
    dsimp only
    rw [WireHead.sessionMsgInit_hLen]
    exact bmod_eq_iff.mpr (by decide)
  · exact p.outOfBand.req.sent_checks

/-- A message of either path says its own length, where that fits into an `int`. -/
theorem reqPost_length (p : Posting) {m : PFSPostMsgReq} {cksum : UInt64}
    (hm : m = p.reqPost.setCksum64 cksum) (hlen : p.pushed < 2 ^ 31) :
    m.pHead.hHead.hLen = m.bytes.length := by
  rw [PFSPostMsgReq.bytes_length, hm, PFSPostMsgReq.setCksum64, reqPost]
  dsimp only
  rw [WireHead.sessionMsgInit_hLen]
  unfold pushed at hlen
  exact bmod_eq_iff.mpr (by omega)

end Posting

/-! ### The call -/

/-- The queue has a new last message, with the name and the data of the call. -/
def Appended (p : Posting) (s t : PFSQueues PFSPostMsgReq) : Prop :=
  ∃ m, t.msgs p.pQueue = s.msgs p.pQueue ++ [m] ∧ m.pName = p.pQueue ∧
    m.pLen = p.pBuff.length ∧ m.data = p.pBuff

/-- The call says if its message was put into the queue, and fails on `EPIPE`. -/
def PostAgrees (p : Posting) (s : PFSQueues PFSPostMsgReq) : Prop :=
  ∃ r, pfsPost p s = .ok r ∧ (r.ret = 0 ↔ Appended p s r.queues) ∧ (r.hError = EPIPE → r.ret ≠ 0)

/-- The message fits into a command, or the queue has room and so has every acceptor. -/
def PostFits (p : Posting) (s : PFSQueues PFSPostMsgReq) : Prop :=
  p.pBuff.length ≤ DATA_SIZE_POST ∨
    (s.cnt p.pQueue ≤ QUEUE_POST_MAX ∧ p.pushed < 2 ^ 31 ∧
      Passes p.pushed (.push p.oMemLimit :: p.hops))

theorem not_appended (h : ∀ n, t.msgs n = s.msgs n) : ¬ Appended p s t := by
  rintro ⟨m, hm, -⟩
  have := congrArg List.length (hm.symm.trans (h p.pQueue))
  simp at this

theorem pfsPostRpl_full {who : SessionId} (hfull : QUEUE_POST_MAX < s.cnt m.pName) :
    ∃ t, pfsPostRpl who m s = .ok (t, ⟨PFS_POST_MSG, EPIPE⟩) ∧ ∀ n, t.msgs n = s.msgs n := by
  refine ⟨(s.queueAlloc m.pName).send (.postRpl who EPIPE), ?_,
    PFSQueues.msgs_queueAlloc m.pName⟩
  have hout : ((s.queueAlloc m.pName).send (.postRpl who EPIPE)).out.drop s.out.length =
      [.postRpl who EPIPE] := by
    rw [PFSQueues.send, queueAlloc_out, List.drop_left]
  unfold pfsPostRpl
  rw [post_full hfull]
  dsimp only
  rw [hout]
  simp [postRpl]

theorem pfsPostRpl_room (who : SessionId) (hs : Checked s) (hm : m.bad = false)
    (hroom : ¬ QUEUE_POST_MAX < s.cnt m.pName) :
    ∃ t, pfsPostRpl who m s = .ok (t, ⟨PFS_POST_MSG, 0⟩) ∧ Posted who m.pName m s t := by
  obtain ⟨t, ht, hposted⟩ := post_stored who hs hm hroom
  obtain ⟨o, hout, hanswer⟩ := hposted.answer
  refine ⟨t, ?_, hposted⟩
  unfold pfsPostRpl
  rw [ht]
  dsimp only
  rw [hout, List.drop_left, hanswer]

/-- The message of the call is the last of its queue, and checks. -/
def Took (p : Posting) (s t : PFSQueues PFSPostMsgReq) : Prop :=
  ∃ m, Posted p.who p.pQueue m s t ∧ m.bad = false ∧ m.pName = p.pQueue ∧
    m.pLen = p.pBuff.length ∧ m.data = p.pBuff

theorem Took.appended (h : Took p s t) : Appended p s t := by
  obtain ⟨m, hposted, -, hname, hlen, hdata⟩ := h
  exact ⟨m, hposted.msgs, hname, hlen, hdata⟩

theorem Took.checked (h : Took p s t) (hs : Checked s) : Checked t := by
  obtain ⟨m, hposted, hgood, -⟩ := h
  exact hposted.stored hs hgood

/-- The service answers a request of the call with `EPIPE`, or takes the message. -/
theorem pfsPostRpl_ok (hs : Checked s) (hm : m.bad = false) (hname : m.pName = p.pQueue)
    (hlen : m.pLen = p.pBuff.length) (hdata : m.data = p.pBuff) :
    (QUEUE_POST_MAX < s.cnt p.pQueue →
      ∃ t, pfsPostRpl p.who m s = .ok (t, ⟨PFS_POST_MSG, EPIPE⟩) ∧ ∀ n, t.msgs n = s.msgs n) ∧
    (¬ QUEUE_POST_MAX < s.cnt p.pQueue →
      ∃ t, pfsPostRpl p.who m s = .ok (t, ⟨PFS_POST_MSG, 0⟩) ∧ Took p s t) := by
  rw [← hname]
  constructor
  · exact fun hfull => pfsPostRpl_full hfull
  · intro hroom
    obtain ⟨t, ht, hposted⟩ := pfsPostRpl_room p.who hs hm hroom
    exact ⟨t, ht, m, hname ▸ hposted, hm, hname, hlen, hdata⟩

theorem pfsPost_inBand (hs : Checked s) (hshort : p.pBuff.length ≤ DATA_SIZE_POST) :
    (QUEUE_POST_MAX < s.cnt p.pQueue →
      ∃ t, pfsPost p s = .ok ⟨t, EPIPE, -1⟩ ∧ ∀ n, t.msgs n = s.msgs n) ∧
    (¬ QUEUE_POST_MAX < s.cnt p.pQueue → ∃ t, pfsPost p s = .ok ⟨t, 0, 0⟩ ∧ Took p s t) := by
  have hpushed : p.pushed < 2 ^ 31 := by
    unfold Posting.pushed
    have : DATA_SIZE_POST = 652 := rfl
    have : headSize = 120 := rfl
    have : PFSPostMsgReq.size = 648 := rfl
    omega
  have hlen := p.reqPost_length (m := p.msgReq) rfl hpushed
  have hgood := PFSPostMsgReq.sent_good p.sId hlen
  have hrecv : recvMsg (p.msgReq.sent p.sId).pHead.hHead (p.msgReq.sent p.sId).bytes = .ok () := by
    apply recvMsg_ok _ PFSPostMsgReq.sent_checks
    rw [PFSPostMsgReq.sent_length, PFSPostMsgReq.sent_hLen]
    exact hlen
  have hcall : pfsPost p s = (pfsPostRpl p.who (p.msgReq.sent p.sId) s).bind fun r =>
      .ok ⟨r.1, r.2.hError, if r.2.hError ≠ 0 then -1 else 0⟩ := by
    unfold pfsPost
    rw [if_neg (Nat.not_lt.mpr hshort)]
    dsimp only
    rw [hrecv]
    rfl
  obtain ⟨hfull, hroom⟩ := pfsPostRpl_ok (p := p) hs hgood rfl rfl rfl
  rw [hcall]
  constructor
  · intro h
    obtain ⟨t, ht, hmsgs⟩ := hfull h
    rw [ht]
    exact ⟨t, rfl, hmsgs⟩
  · intro h
    obtain ⟨t, ht, htook⟩ := hroom h
    rw [ht]
    exact ⟨t, rfl, htook⟩

theorem pfsPost_long (hlong : DATA_SIZE_POST < p.pBuff.length) (hpushed : ¬ p.pushed < 2 ^ 31) :
    pfsPost p s = .error .outOfStep := by
  have hrun := p.data_outOfStep hpushed
  unfold Posting.data at hrun
  unfold pfsPost pfsPostOutOfBand
  rw [if_pos hlong]
  dsimp only
  rw [hrun]
  rfl

/-- A message that comes through is answered as it is in band, and one that does not with
`EINVAL`. The caller does not learn which. -/
theorem pfsPost_outOfBand (hs : Checked s) (hlong : DATA_SIZE_POST < p.pBuff.length)
    (hpushed : p.pushed < 2 ^ 31) :
    (¬ Passes p.pushed (.push p.oMemLimit :: p.hops) → pfsPost p s = .ok ⟨s, EINVAL, 0⟩) ∧
    (Passes p.pushed (.push p.oMemLimit :: p.hops) → QUEUE_POST_MAX < s.cnt p.pQueue →
      ∃ t, pfsPost p s = .ok ⟨t, EPIPE, 0⟩ ∧ ∀ n, t.msgs n = s.msgs n) ∧
    (Passes p.pushed (.push p.oMemLimit :: p.hops) → ¬ QUEUE_POST_MAX < s.cnt p.pQueue →
      ∃ t, pfsPost p s = .ok ⟨t, 0, 0⟩ ∧ Took p s t) := by
  obtain ⟨d, hd, hsound, hyes, hno, -⟩ :=
    (p.data_sound hpushed).hops (.push p.oMemLimit :: p.hops)
  rw [p.data_length] at hyes hno
  have hcall : pfsPost p s = (pfsOutOfBandPostReq p.who d s).bind fun r =>
      if r.2.hCmd ≠ PFS_POST_MSG then .error .noReply else .ok ⟨r.1, r.2.hError, 0⟩ := by
    unfold Posting.data at hd
    unfold pfsPost pfsPostOutOfBand
    rw [if_pos hlong]
    dsimp only
    rw [hd, p.req_received]
    rfl
  have hlen := hsound.len
  unfold OutOfBandMsg.bytes at hlen
  rw [List.length_append, WireHead.bytes_length] at hlen
  rw [hcall]
  refine ⟨?_, ?_⟩
  · intro h
    rw [hno h, Option.elim_none, List.length_nil, Nat.add_zero] at hlen
    have hreq : pfsOutOfBandPostReq p.who d s = .ok (s, ⟨PFS_POST_MSG, EINVAL⟩) := by
      unfold pfsOutOfBandPostReq
      rw [if_pos (le_of_eq hlen), if_pos hsound.code]
    rw [hreq]
    rfl
  · have hreq (h : Passes p.pushed (.push p.oMemLimit :: p.hops)) :
        pfsOutOfBandPostReq p.who d s = pfsPostRpl p.who (p.outOfBand.sent p.sId).reqPost s := by
      have hbody : d.oBody = some (p.outOfBand.sent p.sId).reqPost := hyes h
      rw [hbody, Option.elim_some, PFSPostMsgReq.bytes_length] at hlen
      have hsize : 0 < PFSPostMsgReq.size := by decide
      unfold pfsOutOfBandPostReq
      rw [if_neg (by omega), hbody]
    have hgood : (p.outOfBand.sent p.sId).reqPost.bad = false :=
      PFSPostMsgReq.sent_good p.sId (p.reqPost_length (m := p.outOfBand.reqPost) rfl hpushed)
    obtain ⟨hfull, hroom⟩ := pfsPostRpl_ok (p := p) hs hgood rfl rfl rfl
    constructor
    · intro h hcnt
      obtain ⟨t, ht, hmsgs⟩ := hfull hcnt
      rw [hreq h, ht]
      exact ⟨t, rfl, hmsgs⟩
    · intro h hcnt
      obtain ⟨t, ht, htook⟩ := hroom hcnt
      rw [hreq h, ht]
      exact ⟨t, rfl, htook⟩

theorem agrees_took (h : pfsPost p s = .ok ⟨t, 0, 0⟩) (htook : Took p s t) : PostAgrees p s := by
  refine ⟨_, h, ⟨fun _ => htook.appended, fun _ => rfl⟩, ?_⟩
  intro he
  cases he

/-- A call that returns 0 and leaves the queues as they were says what is not so. -/
theorem not_agrees {e : ℤ} (h : pfsPost p s = .ok ⟨t, e, 0⟩) (hmsgs : ∀ n, t.msgs n = s.msgs n) :
    ¬ PostAgrees p s := by
  rintro ⟨r, hr, hret, -⟩
  cases h.symm.trans hr
  exact not_appended hmsgs (hret.mp rfl)

theorem agrees_iff (hs : Checked s) : PostAgrees p s ↔ PostFits p s := by
  unfold PostFits
  by_cases hshort : p.pBuff.length ≤ DATA_SIZE_POST
  · obtain ⟨hfull, hroom⟩ := pfsPost_inBand hs hshort
    refine iff_of_true ?_ (.inl hshort)
    by_cases hcnt : QUEUE_POST_MAX < s.cnt p.pQueue
    · obtain ⟨t, ht, hmsgs⟩ := hfull hcnt
      have hret : (-1 : ℤ) ≠ 0 := by decide
      exact ⟨_, ht, iff_of_false hret (not_appended hmsgs), fun _ => hret⟩
    · obtain ⟨t, ht, htook⟩ := hroom hcnt
      exact agrees_took ht htook
  · have hlong : DATA_SIZE_POST < p.pBuff.length := Nat.lt_of_not_le hshort
    by_cases hpushed : p.pushed < 2 ^ 31
    · obtain ⟨hcut, hfull, hroom⟩ := pfsPost_outOfBand hs hlong hpushed
      by_cases hpass : Passes p.pushed (.push p.oMemLimit :: p.hops)
      · by_cases hcnt : QUEUE_POST_MAX < s.cnt p.pQueue
        · obtain ⟨t, ht, hmsgs⟩ := hfull hpass hcnt
          apply iff_of_false (not_agrees ht hmsgs)
          rintro (h | ⟨hle, -⟩)
          · exact hshort h
          · omega
        · obtain ⟨t, ht, htook⟩ := hroom hpass hcnt
          exact iff_of_true (agrees_took ht htook) (.inr ⟨Int.not_lt.mp hcnt, hpushed, hpass⟩)
      · apply iff_of_false (not_agrees (hcut hpass) fun _ => rfl)
        rintro (h | ⟨-, -, h⟩)
        · exact hshort h
        · exact hpass h
    · apply iff_of_false
      · rintro ⟨r, hr, -⟩
        cases (pfsPost_long hlong hpushed).symm.trans hr
      · rintro (h | ⟨-, h, -⟩)
        · exact hshort h
        · exact hpushed h

/-- Whatever a call does, the messages in the queues check after it as before, and no
checksum is found wrong on the way. -/
theorem pfsPost_checked (hs : Checked s) :
    Result (· ≠ PostFault.assertCksum) (fun r => Checked r.queues) (pfsPost p s) := by
  have hsame {t : PFSQueues PFSPostMsgReq} (h : ∀ n, t.msgs n = s.msgs n) : Checked t :=
    fun n m hm => hs n m (h n ▸ hm)
  by_cases hshort : p.pBuff.length ≤ DATA_SIZE_POST
  · obtain ⟨hfull, hroom⟩ := pfsPost_inBand hs hshort
    by_cases hcnt : QUEUE_POST_MAX < s.cnt p.pQueue
    · obtain ⟨t, ht, hmsgs⟩ := hfull hcnt
      rw [ht]
      exact hsame hmsgs
    · obtain ⟨t, ht, htook⟩ := hroom hcnt
      rw [ht]
      exact htook.checked hs
  · have hlong : DATA_SIZE_POST < p.pBuff.length := Nat.lt_of_not_le hshort
    by_cases hpushed : p.pushed < 2 ^ 31
    · obtain ⟨hcut, hfull, hroom⟩ := pfsPost_outOfBand hs hlong hpushed
      by_cases hpass : Passes p.pushed (.push p.oMemLimit :: p.hops)
      · by_cases hcnt : QUEUE_POST_MAX < s.cnt p.pQueue
        · obtain ⟨t, ht, hmsgs⟩ := hfull hpass hcnt
          rw [ht]
          exact hsame hmsgs
        · obtain ⟨t, ht, htook⟩ := hroom hpass hcnt
          rw [ht]
          exact htook.checked hs
      · rw [hcut hpass]
        exact hs
    · rw [pfsPost_long hlong hpushed]
      exact PostFault.noConfusion

/-! ### Runs -/

/-- What the clients do to the queues: they post by `PFSPost` alone. -/
inductive PostOp where
  | post (p : Posting)
  | act (op : QueueOp PFSPostMsgReq) (notPost : op.isPost = false)

def postStep (s : PFSQueues PFSPostMsgReq) : PostOp → Except PostFault (PFSQueues PFSPostMsgReq)
  | .post p => (pfsPost p s).map (·.queues)
  | .act op _ => (queueStep PFSPostMsgReq.bad s op).mapError .queue

theorem postStep_checked {op : PostOp} (hs : Checked s) (h : postStep s op = .ok t) : Checked t := by
  cases op with
  | post p =>
      obtain ⟨r, hr, rfl⟩ := except_map_ok h
      have := pfsPost_checked (p := p) hs
      rw [hr] at this
      exact this
  | act op notPost =>
      have hstored := PFSQueues.Stored.queueStep PFSPostMsgReq.bad hs notPost
      change (queueStep PFSPostMsgReq.bad s op).mapError PostFault.queue = .ok t at h
      cases hq : queueStep PFSPostMsgReq.bad s op with
      | error f =>
          rw [hq] at h
          cases h
      | ok u =>
          rw [hq] at h hstored
          cases h
          exact hstored

theorem checked_empty : Checked {} := by
  intro n m hm
  cases hm

theorem post_run_checked {ops : List PostOp} (h : run postStep {} ops = .ok s) : Checked s := by
  apply run_invariant (I := Checked) (C := fun _ _ => True) _ _ Along.trivial h
  · exact fun s op t hs _ ht => postStep_checked hs ht
  · exact checked_empty

/-- In every run the messages in the queues check, none is found wrong on its way or when
it is handed out, and a call says what became of its message if and only if that fits. -/
theorem posts_agree {ops : List PostOp} (h : run postStep {} ops = .ok s) :
    Checked s ∧
      (∀ who name, pfsPeekReply PFSPostMsgReq.bad who name s ≠ .error .assertCksum) ∧
      ∀ p, pfsPost p s ≠ .error .assertCksum ∧ (PostAgrees p s ↔ PostFits p s) := by
  have hs := post_run_checked h
  refine ⟨hs, ?_, ?_⟩
  · intro who name hfault
    unfold pfsPeekReply at hfault
    cases hq : s.queue name with
    | none =>
        rw [PFSQueues.queueAt, hq] at hfault
        cases hfault
    | some q =>
        rw [queueAt_ok hq] at hfault
        simp only [bind, Except.bind] at hfault
        cases hmsg : q.qMsg with
        | nil =>
            rw [hmsg] at hfault
            cases hfault
        | cons m ms =>
            have hgood := hs name m (by rw [PFSQueues.msgs_queue hq, hmsg]; exact List.mem_cons_self)
            simp only [hmsg, hgood] at hfault
            cases hfault
  · intro p
    refine ⟨?_, agrees_iff hs⟩
    intro hfault
    have := pfsPost_checked (p := p) hs
    rw [hfault] at this
    exact this rfl

/-- A call with nothing special about it. -/
def Posting.plain (pBuff : List UInt8) (oMemLimit : ℤ) : Posting where
  who := sessionOf 1 1
  pQueue := "q"
  pBuff := pBuff
  pad := Vector.replicate 4 0
  padReq := Vector.replicate 4 0
  sId := Vector.replicate 48 0
  oMemLimit := oMemLimit
  hops := []

theorem posts_agree_long :
    PostAgrees (.plain (List.replicate 653 0) 4096)
      { adaptors := [sessionOf 1 1] } := by
  have hrun : run postStep {} [.act (.open (sessionOf 1 1)) rfl] =
      .ok { adaptors := [sessionOf 1 1] } := rfl
  apply ((posts_agree hrun).2.2 _).2.mpr
  refine .inr ⟨by decide, ?_, ?_⟩
  · unfold Posting.pushed Posting.plain
    rw [List.length_replicate]
    decide
  · intro l hl
    cases List.mem_singleton.mp hl
    unfold Posting.pushed Posting.plain
    rw [List.length_replicate]
    decide

/-- As many messages as one likes are posted, up to one more than `QUEUE_POST_MAX`. -/
theorem posts_fill {k : ℕ} (hk : k ≤ 101) :
    ∃ s, run postStep {} (List.replicate k (.post (.plain [] 0))) = .ok s ∧ s.cnt "q" = k := by
  induction k with
  | zero => exact ⟨{}, rfl, rfl⟩
  | succ k ih =>
      obtain ⟨s, hs, hcnt⟩ := ih (by omega)
      have hroom : ¬ QUEUE_POST_MAX < s.cnt "q" := by
        rw [hcnt]
        unfold QUEUE_POST_MAX
        omega
      obtain ⟨t, ht, m, hposted, -⟩ :=
        (pfsPost_inBand (p := .plain [] 0) (post_run_checked hs) (Nat.zero_le _)).2 hroom
      refine ⟨t, ?_, ?_⟩
      · rw [List.replicate_succ', run_append hs]
        simp only [run, postStep, ht]
        rfl
      · exact hposted.count.trans (congrArg (· + 1) hcnt)

/-- A long message is lost, and the call returns 0: the queue is full, or the acceptor has
no room. -/
theorem posts_lost :
    (∃ s t, run postStep {} (List.replicate 101 (.post (.plain [] 0))) = .ok s ∧
      pfsPost (.plain (List.replicate 653 0) 4096) s = .ok ⟨t, EPIPE, 0⟩ ∧
      ¬ Appended (.plain (List.replicate 653 0) 4096) s t) ∧
    (pfsPost (.plain (List.replicate 653 0) 1024) {} = .ok ⟨{}, EINVAL, 0⟩ ∧
      ¬ Appended (.plain (List.replicate 653 0) 1024) {} {}) ∧
    ¬ ∀ (ops : List PostOp) s, run postStep {} ops = .ok s → ∀ p, PostAgrees p s := by
  have hpushed (l : ℤ) : (Posting.plain (List.replicate 653 0) l).pushed = 1421 := by
    unfold Posting.pushed Posting.plain
    rw [List.length_replicate]
    rfl
  have hlong (l : ℤ) : DATA_SIZE_POST < (Posting.plain (List.replicate 653 0) l).pBuff.length := by
    unfold Posting.plain
    rw [List.length_replicate]
    decide
  have hfits (l : ℤ) : (Posting.plain (List.replicate 653 0) l).pushed < 2 ^ 31 := by
    rw [hpushed]
    decide
  obtain ⟨hcut, -, -⟩ := pfsPost_outOfBand checked_empty (hlong 1024) (hfits 1024)
  have hnopass : ¬ Passes (Posting.plain (List.replicate 653 0) 1024).pushed
      (.push (Posting.plain (List.replicate 653 0) 1024).oMemLimit ::
        (Posting.plain (List.replicate 653 0) 1024).hops) := by
    intro h
    have := h 1024 List.mem_cons_self
    rw [hpushed] at this
    omega
  refine ⟨?_, ⟨hcut hnopass, not_appended fun _ => rfl⟩, ?_⟩
  · obtain ⟨s, hs, hcnt⟩ := posts_fill (k := 101) le_rfl
    obtain ⟨-, hfull, -⟩ := pfsPost_outOfBand (post_run_checked hs) (hlong 4096) (hfits 4096)
    obtain ⟨t, ht, hmsgs⟩ := hfull (by
      intro l hl
      cases List.mem_singleton.mp hl
      rw [hpushed]
      decide) (by
      have hmax : QUEUE_POST_MAX < s.cnt "q" := by
        rw [hcnt]
        decide
      exact hmax)
    exact ⟨s, t, hs, ht, not_appended hmsgs⟩
  · intro h
    exact not_agrees (hcut hnopass) (fun _ => rfl) (h [] {} rfl _)

end PaxosSolutions
