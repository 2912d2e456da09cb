import Mathlib.Algebra.Ring.Nat
import Mathlib.Data.Int.Notation
import Mathlib.Data.List.Basic
import Mathlib.Logic.Function.Basic

/-!
# The lexer of the SQL statements

The lexer keeps the characters of a token in a text buffer while it reads them, and puts
back into a second buffer what it has read too much. Both are changed together. A
literal is a pointer into the text buffer.
-/
namespace PaxosSolutions.XjPing

/-! ### The table of the characters -/

def chars (cs : List Char) : List UInt8 := cs.map fun c => c.toNat.toUInt8

def isDigit (c : UInt8) : Bool := 48 ≤ c && c ≤ 57

def isUpper (c : UInt8) : Bool := 65 ≤ c && c ≤ 90

def isLower (c : UInt8) : Bool := 97 ≤ c && c ≤ 122

def toUpper (c : UInt8) : UInt8 := if isLower c then c - 32 else c

/-- The quote -/
def A_QUOTE : UInt8 := 39

def aWhite (c : UInt8) : Bool := c ∈ chars [' ', '\t', '\n']

def a1Char (c : UInt8) : Bool :=
  c ∈ chars ['=', '-', '(', ')', '<', '>', '!', '|', '&', '~', ';', ',', '.', '*', '+', '/', '?']

def aMore (c : UInt8) : Bool := c ∈ chars ['<', '>', '=', '!', '|', '&']

def aStr (c : UInt8) : Bool := isUpper c || isLower c || 128 ≤ c

def mStr (c : UInt8) : Bool := isDigit c || aStr c || c = 95

/-- `shex`, in both cases -/
def mLetter (c : UInt8) : Bool :=
  c ∈ chars ['X', 'A', 'B', 'C', 'D', 'E', 'F', 'x', 'a', 'b', 'c', 'd', 'e', 'f']

def mNumb (c : UInt8) : Bool := isDigit c || mLetter c

inductive CharKind where
  | white | oneChar | str | numb | quote | other
deriving DecidableEq, Repr

/-- `what_is` -/
def whatIs (c : UInt8) : CharKind :=
  if aWhite c then .white
  else if a1Char c then .oneChar
  else if aStr c then .str
  else if isDigit c then .numb
  else if c = A_QUOTE then .quote
  else .other

/-! ### The buffers -/

/-- `strptr` is what is left of the statement before its NUL, and `yysbuf` what has been
put back, the last one first. Places in the text buffer are counted from its start.
`outside` says that something has been written outside of it. -/
structure Lex where
  strptr : List UInt8
  yysbuf : List UInt8 := []
  textBuffer : ℕ → UInt8
  size : ℕ
  inptr : ℕ := 0
  yytext : ℕ := 0
  outside : Bool := false

namespace Lex

/-- `sql_lex_start` -/
def start (str : List UInt8) (textBuffer : ℕ → UInt8) (size : ℕ) : Lex where
  strptr := str
  textBuffer := textBuffer
  size := size

def write (st : Lex) (i : ℕ) (c : UInt8) : Lex :=
  { st with
    textBuffer := Function.update st.textBuffer i c
    outside := st.outside || st.size ≤ i }

/-- The next character. It is 0 at the end. -/
def next (st : Lex) : UInt8 × Lex :=
  match st.yysbuf, st.strptr with
  | c :: cs, _ => (c, { st with yysbuf := cs })
  | [], c :: cs => (c, { st with strptr := cs })
  | [], [] => (0, st)

/-- A character comes into the text buffer, if there is room for it. -/
def save (st : Lex) (c : UInt8) : Lex :=
  if st.inptr < st.size then { (st.write st.inptr c).write (st.inptr + 1) 0 with inptr := st.inptr + 1 }
  else st

/-- `input_nl` -/
def input (st : Lex) : UInt8 × Lex := (st.next.1, st.next.2.save st.next.1)

/-- `*--inptr = 0` -/
def dropChar (st : Lex) : Lex := { st.write (st.inptr - 1) 0 with inptr := st.inptr - 1 }

/-- `unput_nl` -/
def unput (st : Lex) (c : UInt8) : Lex :=
  let st := { st with yysbuf := c :: st.yysbuf }
  if st.inptr = 0 then st else st.dropChar

/-- The string at a place of the text buffer -/
def cstr (st : Lex) (p : ℕ) : List UInt8 :=
  ((List.range (st.size - p)).map fun i => st.textBuffer (p + i)).takeWhile (· ≠ 0)

/-- The text that is to be read -/
def ahead (st : Lex) : List UInt8 := (st.yysbuf ++ st.strptr).takeWhile (· ≠ 0)

end Lex

/-! ### Tokens -/

inductive SqlKey where
  | sCreate | sDrop | sView | sTable | sAs | sSelect | sFrom | sWhere | sDelete | sInsert | sInto
  | sValues | sUpdate | sSet | sAnd | sOr | sBegin | sCommit | sRollback | sOrder | sBy | sAsc | sDesc
  | sPrimary | sKey | sUnion | sAll | sLike | sNot | sEscape
deriving DecidableEq, Repr

/-- The table of the key words -/
def sqlKey : List (List Char × SqlKey) :=
  [(['C', 'R', 'E', 'A', 'T', 'E'], .sCreate), (['D', 'R', 'O', 'P'], .sDrop),
    (['V', 'I', 'E', 'W'], .sView), (['T', 'A', 'B', 'L', 'E'], .sTable), (['A', 'S'], .sAs),
    (['S', 'E', 'L', 'E', 'C', 'T'], .sSelect), (['F', 'R', 'O', 'M'], .sFrom),
    (['W', 'H', 'E', 'R', 'E'], .sWhere), (['D', 'E', 'L', 'E', 'T', 'E'], .sDelete),
    (['I', 'N', 'S', 'E', 'R', 'T'], .sInsert), (['I', 'N', 'T', 'O'], .sInto),
    (['V', 'A', 'L', 'U', 'E', 'S'], .sValues), (['U', 'P', 'D', 'A', 'T', 'E'], .sUpdate),
    (['S', 'E', 'T'], .sSet), (['A', 'N', 'D'], .sAnd), (['O', 'R'], .sOr),
    (['B', 'E', 'G', 'I', 'N'], .sBegin), (['C', 'O', 'M', 'M', 'I', 'T'], .sCommit),
    (['R', 'O', 'L', 'L', 'B', 'A', 'C', 'K'], .sRollback), (['O', 'R', 'D', 'E', 'R'], .sOrder),
    (['B', 'Y'], .sBy), (['A', 'S', 'C'], .sAsc), (['D', 'E', 'S', 'C'], .sDesc),
    (['P', 'R', 'I', 'M', 'A', 'R', 'Y'], .sPrimary), (['K', 'E', 'Y'], .sKey),
    (['U', 'N', 'I', 'O', 'N'], .sUnion), (['A', 'L', 'L'], .sAll), (['L', 'I', 'K', 'E'], .sLike),
    (['N', 'O', 'T'], .sNot), (['E', 'S', 'C', 'A', 'P', 'E'], .sEscape)]

def NEO_NAME_MAX : ℕ := 32

/-- `sqlkey`. The key is cut where its buffer ends. -/
def sqlkey (key : List UInt8) : Option SqlKey :=
  let buf := (key.take NEO_NAME_MAX).map toUpper
  (sqlKey.find? fun t => chars t.1 = buf).map Prod.snd

inductive LexTok where
  | eof
  | punct (c : UInt8)
  | seq | sge | sle | sne | sor | sand | sgt | slt
  | sstring (p : ℕ)
  | snum (n : ℤ)
  | sfloat (n : ℤ) (fd : List UInt8)
  | sname (p : ℕ)
  | skey (k : SqlKey)
deriving DecidableEq, Repr

/-- What `more_punct` makes of two characters. -/
def twoChar (c c2 : UInt8) : Option LexTok :=
  if c2 = 61 then
    if c = 61 then some .seq
    else if c = 62 then some .sge
    else if c = 60 then some .sle
    else if c = 33 then some .sne
    else none
  else if c2 = 124 then if c = 124 then some .sor else none
  else if c2 = 38 then if c = 38 then some .sand else none
  else if c2 = 62 then if c = 60 then some .sne else none
  else none

/-- What `more_punct` makes of the first of two characters. -/
def onlyChar (c c2 : UInt8) : LexTok :=
  if c2 = 61 || c2 = 124 || c2 = 38 || c2 = 62 then .punct c
  else if c = 62 then .sgt
  else if c = 60 then .slt
  else .punct c

/-- `more_punct` -/
def morePunct (c c2 : UInt8) (st : Lex) : LexTok × Lex :=
  match twoChar c c2 with
  | some tok => (tok, st)
  | none => (onlyChar c c2, st.unput c2)

/-- The masks of `more_str` -/
inductive LexMask where
  | str | numb | hex
deriving DecidableEq, Repr

/-- The characters of a mask. Those of `M_NUMB` and `M_HEX` are the same. -/
def LexMask.has : LexMask → UInt8 → Bool
  | .str => mStr
  | .numb => mNumb
  | .hex => mNumb

/-- The body of the first loop of `more_str` -/
def strStep (x : LexMask × ℤ) (c : UInt8) : LexMask × ℤ :=
  if x.1 = .str || c = 95 then x
  else if c = 88 || c = 120 then (.hex, x.2)
  else if x.1 = .hex then
    if aStr c then (.hex, x.2 * 16 + (10 + c.toNat - if c < 97 then 65 else 97))
    else (.hex, x.2 * 16 + (c.toNat - 48))
  else (x.1, x.2 * 10 + (c.toNat - 48))

/-- The first loop of `more_str`, with the character that ends it -/
def strLoop : ℕ → LexMask × ℤ → Lex → Option (UInt8 × (LexMask × ℤ) × Lex)
  | 0, _, _ => none
  | fuel + 1, x, st =>
      let (c, st) := st.input
      if x.1.has c then strLoop fuel (strStep x c) st else some (c, x, st)

/-- A loop that reads on while the characters are in a mask, with what it has read and
the character that ends it -/
def skipLoop (mask : LexMask) : ℕ → Lex → Option (List UInt8 × UInt8 × Lex)
  | 0, _ => none
  | fuel + 1, st =>
      let (c, st) := st.input
      if mask.has c then (skipLoop mask fuel st).map fun x => (c :: x.1, x.2)
      else some ([], c, st)

/-- A constant that goes on with a name: the name is read over. -/
def badConst (fuel : ℕ) (c : UInt8) (st : Lex) : Option Lex :=
  if mStr c then
    (skipLoop .str fuel { st with inptr := st.inptr + 1 }).map fun x => x.2.2.unput x.2.1
  else some st

/-- `more_str`. The value of a float is what is before the point and the characters
behind it. A `long long` wraps around. -/
def moreStr (fuel : ℕ) (mask : LexMask) (st : Lex) : Option (LexTok × Lex) := do
  let (c, x, st) ← strLoop fuel (mask, 0) st
  if x.1 = .numb && c = 46 then do
    let (fd, c, st) ← skipLoop .numb fuel st
    return (.sfloat x.2 fd, st.unput c)
  else do
    let st ← badConst fuel c (st.unput c)
    if x.1 = .str then
      return (((sqlkey (st.cstr st.yytext)).map LexTok.skey).getD (.sname st.yytext), st)
    else return (.snum (x.2.bmod (2 ^ 64)), st)

/-- The loop of `cl_literal`, with the character that ends it. Of two quotes one is taken
back. -/
def literalLoop : ℕ → Lex → Option (UInt8 × Lex)
  | 0, _ => none
  | fuel + 1, st =>
      let (c, st) := st.input
      if c = 0 then some (c, st)
      else if c = A_QUOTE then
        let (c, st) := st.input
        if c ≠ A_QUOTE then some (c, st) else literalLoop fuel st.dropChar
      else literalLoop fuel st

/-- `cl_literal` -/
def clLiteral (fuel : ℕ) (st : Lex) : Option (LexTok × Lex) := do
  let (c, st) ← literalLoop fuel st
  let st := st.unput (toUpper c)
  return (.sstring (st.yytext + 1), st.write (st.inptr - 1) 0)

/-- The loop of `read_token`. All characters of `A_MORE` are of the kind `A_1CHAR`, so
that the other case of its first `switch` is not there. -/
def tokenLoop : ℕ → Lex → Option (LexTok × Lex)
  | 0, _ => none
  | fuel + 1, st =>
      let (c, st) := st.input
      if c = 0 then some (.eof, st)
      else if aMore c then
        let (c1, st) := st.input
        some (morePunct c c1 st)
      else
        match whatIs c with
        | .white => tokenLoop fuel { st with inptr := st.yytext }
        | .quote => clLiteral fuel st
        | .oneChar =>
            if c = 46 then
              let (c1, st) := st.input
              let st := st.unput c1
              if whatIs c1 = .numb then moreStr fuel .numb (st.unput c) else some (.punct c, st)
            else some (.punct c, st)
        | .str => moreStr fuel .str st
        | .numb => moreStr fuel .numb (st.unput c)
        | .other => some (.eof, st)

/-- `read_token`. There is enough fuel for what is left. -/
def readToken (st : Lex) : Option (LexTok × Lex) :=
  tokenLoop (st.yysbuf.length + st.strptr.length + 2)
    { st with inptr := st.inptr + 1, yytext := st.inptr + 1 }

end PaxosSolutions.XjPing
