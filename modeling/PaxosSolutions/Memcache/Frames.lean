import PaxosSolutions.Lib.File

/-!
# Frames from a client

A client sends lines of text, some with a body behind them, or binary frames with their
lengths in a head. A line is looked for in what has come before it is taken, a body is
read up to its length or up to the end of the stream.
-/
namespace PaxosSolutions.Memcache
open Lib

/-- `TOKEN_BUF_SIZE` -/
abbrev tokenBufSize : ℕ := 1024

def ascii (s : List Char) : List UInt8 := s.map fun c => UInt8.ofNat c.toNat

/-- What is sent to the client, with the text of `SendClientError` -/
inductive Reply where
  | error
  | clientError (pError : String)
deriving DecidableEq, Repr

/-- What a call has done with the stream: the line or the head that it has read, the body,
how many bytes it has consumed, and of every buffer that it has written the size and the
end of what was written. -/
structure Frame where
  accepted : Bool
  line : List UInt8 := []
  data : List UInt8 := []
  consumed : ℕ
  noreply : Bool := false
  reply : Option Reply := none
  writes : List (ℕ × ℕ) := []
deriving DecidableEq, Repr

/-- The peeks of `ReadCrLf`. At the `k`-th one `arrived k` bytes are there, and `recv` waits
for the first one. A peek without an LF is made again. -/
def readCrLf (stream : List UInt8) (size : ℕ) (arrived : ℕ → ℕ) : ℕ → ℕ → Option (Option ℕ)
  | 0, _ => none
  | fuel + 1, k =>
      let peeked := (stream.take (max 1 (arrived k))).take size
      if peeked = [] then some none
      else if 10 ∈ peeked then some (some (peeked.idxOf 10 + 1))
      else readCrLf stream size arrived fuel (k + 1)

/-- The delimiters of `strtok_r` -/
def isDelim (c : UInt8) : Bool := c == 32 || c == 13 || c == 10

/-- The tokens that `strtok_r` gives of a line one after the other. A line ends at a NUL. -/
def strtok (line : List UInt8) : List (List UInt8) :=
  ((line.takeWhile (· ≠ 0)).splitOnP isDelim).filter (· ≠ [])

/-- `IsDigitStr` -/
def isDigitStr (s : List UInt8) : Bool := s.all fun c => 48 ≤ c && c ≤ 57

def decimal (s : List UInt8) : ℕ := s.foldl (fun n c => 10 * n + (c.toNat - 48)) 0

/-- `atoll` of a row of digits -/
def atoll (s : List UInt8) : ℤ := min (decimal s) 0x7fffffffffffffff

/-- The commands by what `RecvClientText` does with them -/
inductive TextKind where
  | get | store | cas | delete | flush | incr | touch | other
deriving DecidableEq, Repr

def textKind (cmd : List UInt8) : TextKind :=
  if cmd = ascii ['g', 'e', 't'] ∨ cmd = ascii ['g', 'e', 't', 's'] then .get
  else if cmd = ascii ['s', 'e', 't'] ∨ cmd = ascii ['a', 'd', 'd'] ∨
    cmd = ascii ['r', 'e', 'p', 'l', 'a', 'c', 'e'] ∨ cmd = ascii ['a', 'p', 'p', 'e', 'n', 'd'] ∨
    cmd = ascii ['p', 'r', 'e', 'p', 'e', 'n', 'd'] then .store
  else if cmd = ascii ['c', 'a', 's'] then .cas
  else if cmd = ascii ['d', 'e', 'l', 'e', 't', 'e'] then .delete
  else if cmd = ascii ['f', 'l', 'u', 's', 'h', '_', 'a', 'l', 'l'] then .flush
  else if cmd = ascii ['i', 'n', 'c', 'r'] ∨ cmd = ascii ['d', 'e', 'c', 'r'] then .incr
  else if cmd = ascii ['t', 'o', 'u', 'c', 'h'] then .touch
  else .other

def noreply : List UInt8 := ascii ['n', 'o', 'r', 'e', 'p', 'l', 'y']

/-- The fields that a command has to have, with what is checked of each -/
def TextKind.fields : TextKind → List (List UInt8 → Bool)
  | .store => [fun _ => true, isDigitStr, isDigitStr, isDigitStr]
  | .cas => [fun _ => true, isDigitStr, isDigitStr, isDigitStr, isDigitStr]
  | .delete => [fun _ => true]
  | .incr => [fun _ => true, fun _ => true]
  | .touch => [fun _ => true, isDigitStr]
  | _ => []

/-- A command that has a body -/
def TextKind.hasBody (kind : TextKind) : Bool := kind == .store || kind == .cas

/-- The fields are there and are what they are to be. -/
def fieldsThere : List (List UInt8 → Bool) → List (List UInt8) → Bool
  | [], _ => true
  | _ :: _, [] => false
  | ok :: oks, arg :: args => ok arg && fieldsThere oks args

/-- The command has its fields, behind them nothing or `noreply`, and nothing more. -/
def argsGood (oks : List (List UInt8 → Bool)) (args : List (List UInt8)) : Bool :=
  fieldsThere oks args && (args.drop oks.length == [] || args.drop oks.length == [noreply])

/-- The `c_pNoreply` of a command -/
def TextKind.cNoreply (kind : TextKind) (args : List (List UInt8)) : Option (List UInt8) :=
  args[kind.fields.length]?

/-- The check of the end of the line, before the tokens are looked at -/
def endsNoreply (line : List UInt8) : Bool :=
  10 < line.length && line.getD (line.length - 10) 0 == 32 &&
    line.drop (line.length - 9) == noreply ++ [13, 10]

/-- What a command without its fields is answered -/
def badReply (kind : TextKind) (line : List UInt8) (args : List (List UInt8)) : Option Reply :=
  match kind with
  | .delete =>
      if endsNoreply line then none
      else some (.clientError "bad command line format.  Usage: delete <key> [noreply]")
  | .cas =>
      if kind.cNoreply args = some noreply then none
      else if args[4]? = none then some .error
      else some (.clientError "bad command line format")
  | .incr =>
      if kind.cNoreply args = some noreply then none
      else if kind.cNoreply args ≠ none then some .error
      else some (.clientError "bad command line format")
  | _ =>
      if kind.cNoreply args = some noreply then none
      else some (.clientError "bad command line format")

/-- The body of a store command: `len` is an `int`. `ReadStream` fails if the stream ends
before the first byte, and is content with fewer bytes if it ends later. -/
def recvBody (frame : Frame) (cBytes rest : List UInt8) : Frame :=
  let len := int32 (atoll cBytes + 2)
  let got := rest.take len.toNat
  if 0 < len ∧ rest = [] then { frame with accepted := false, noreply := false }
  else { frame with
    data := got
    consumed := frame.consumed + got.length
    writes := frame.writes ++ [((len % 2 ^ 64).toNat, got.length)] }

/-- What is kept of a line: the NUL behind it in `Buf`, the copy of both, and the NUL in
`c_Buf`. -/
def lineFrame (line : List UInt8) : Frame where
  accepted := true
  line := line
  consumed := line.length
  writes := [(tokenBufSize, line.length + 1), (line.length + 1, line.length + 1),
    (tokenBufSize, line.length + 1)]

/-- The exit `err1` behind the line, with what was sent before it -/
def refused (line : List UInt8) (reply : Option Reply) : Frame :=
  { lineFrame line with
    accepted := false
    reply := reply }

/-- What `RecvClientText` does for a command -/
def clientCommand (line rest : List UInt8) (args : List (List UInt8)) : TextKind → Frame
  | .get => if args = [] then refused line (some (.clientError "")) else lineFrame line
  | .other => lineFrame line
  | .flush => { lineFrame line with noreply := decide (noreply ∈ args) }
  | kind =>
      if argsGood kind.fields args = false then refused line (badReply kind line args)
      else
        let frame := { lineFrame line with noreply := (kind.cNoreply args).isSome }
        if kind.hasBody then recvBody frame (args.getD 3 []) rest else frame

/-- `RecvClientText` behind its line -/
def clientText (line rest : List UInt8) : Frame :=
  match strtok line with
  | [] => refused line (some (.clientError "bad command line format"))
  | cmd :: args => clientCommand line rest args (textKind cmd)

/-- `RecvClientText` -/
def RecvClientText (arrived : ℕ → ℕ) (fuel : ℕ) (stream : List UInt8) : Option Frame :=
  (readCrLf stream tokenBufSize arrived fuel 0).map fun
    | none => { accepted := false, consumed := 0 }
    | some n => clientText (stream.take n) (stream.drop n)

/-! ### Binary frames -/

/-- A number in network order -/
def beNat (bs : List UInt8) : ℕ := bs.foldl (fun n c => 256 * n + c.toNat) 0

/-- `BinHead_t` with the lengths that are looked at -/
structure BinHead where
  bytes : List UInt8
deriving DecidableEq, Repr

namespace BinHead

def hKeyLen (h : BinHead) : ℕ := beNat ((h.bytes.drop 2).take 2)

def hExtLen (h : BinHead) : ℕ := beNat ((h.bytes.drop 4).take 1)

def hBodyLen (h : BinHead) : ℕ := beNat ((h.bytes.drop 8).take 4)

end BinHead

/-- `sizeof(BinHead_t)` -/
abbrev sizeofHead : ℕ := 24

/-- `sizeof(BinHeadTag_t)` -/
abbrev sizeofTag : ℕ := 64

/-- The head that is read. What the stream does not have is left in it. -/
def recvHead (junk : List UInt8) (stream : List UInt8) : BinHead :=
  ⟨stream.take sizeofHead ++ junk.drop (stream.take sizeofHead).length⟩

/-- `RecvBinaryByFd`. `RecvStream` fails if the stream ends before the first byte, and is
content with fewer bytes if it ends later. The lengths are an `int` each. -/
def RecvBinaryByFd (junk : List UInt8) (stream : List UInt8) : Frame :=
  if stream = [] then { accepted := false, consumed := 0 }
  else
    let head := recvHead junk stream
    let len := head.hExtLen + head.hKeyLen
    let rest := stream.drop sizeofHead
    let tag := rest.take len
    let frame : Frame :=
      { accepted := true
        line := head.bytes
        consumed := (stream.take sizeofHead).length + tag.length
        writes := [(sizeofHead, (stream.take sizeofHead).length),
          (sizeofTag + len + 1, sizeofTag + tag.length)] }
    if 0 < len ∧ rest = [] then { frame with accepted := false }
    else
      -- the NUL behind the key
      let nul := if 0 < head.hKeyLen then [(sizeofTag + len + 1, sizeofTag + len + 1)] else []
      let frame := { frame with writes := frame.writes ++ nul }
      let len' := int32 (int32 head.hBodyLen - head.hExtLen - head.hKeyLen)
      let rest := rest.drop len
      let got := rest.take len'.toNat
      if len' < 0 then { frame with accepted := false }
      else if 0 < len' ∧ rest = [] then { frame with accepted := false }
      else { frame with
        data := got
        consumed := frame.consumed + got.length
        writes := frame.writes ++ [(len'.toNat, got.length)] }

end PaxosSolutions.Memcache
