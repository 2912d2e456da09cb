import Mathlib.Data.List.Basic
import Mathlib.Logic.Function.Basic
import PaxosSolutions.Memcache.Frames

/-!
# Clones of parsed requests

A token record has the line in it and nine pointers into the line, the tag of a
binary frame has two pointers behind its own end and one to the value. A clone
of them is copied byte by byte, and its pointers are moved by the distance of
the two records, those that are NULL too.
-/
namespace PaxosSolutions.Memcache
open Lib

/-- The pointers of `CmdToken_t` -/
inductive TokenField where
  | pCmd | pKey | pFlags | pExptime | pBytes | pNoreply | pCas | pValue | pSave
deriving DecidableEq, Repr

/-- `CmdToken_t`, with its pointers as addresses. NULL is 0. -/
structure CmdToken where
  ptr : TokenField → ℕ
  cBuf : List UInt8

/-- The distance of `c_Buf` from the record: nine pointers, `c_MetaCAS` and `c_Epoch`. -/
abbrev offsetofBuf : ℕ := 88

/-- `sizeof(CmdToken_t)` -/
abbrev sizeofToken : ℕ := offsetofBuf + tokenBufSize

/-- The string at an offset -/
def strAt (buf : List UInt8) (off : ℕ) : List UInt8 := (buf.drop off).takeWhile (· ≠ 0)

/-- How far a scan from an offset goes -/
def span (p : UInt8 → Bool) (buf : List UInt8) (s : ℕ) : ℕ := s + ((buf.drop s).takeWhile p).length

/-- `strtok_r` of a buffer: the token that it gives, the buffer that it leaves, and what it
saves. -/
def strtokR (buf : List UInt8) (s : ℕ) : Option ℕ × List UInt8 × ℕ :=
  let s := span isDelim buf s
  let e := span (fun c => !isDelim c && c ≠ 0) buf s
  if buf.getD s 0 = 0 then (none, buf, s)
  else if buf.getD e 0 = 0 then (some s, buf, e)
  else (some s, buf.set e 0, e + 1)

namespace CmdToken

def set (t : CmdToken) (f : TokenField) (p : ℕ) : CmdToken :=
  { t with ptr := Function.update t.ptr f p }

/-- The string that a pointer of the record at `a` points to -/
def str (a : ℕ) (t : CmdToken) (f : TokenField) : List UInt8 :=
  strAt t.cBuf (t.ptr f - (a + offsetofBuf))

/-- `strtok_r` from an offset of `c_Buf`: the token as a pointer, and the record. -/
def strtok (a s : ℕ) (t : CmdToken) : ℕ × CmdToken :=
  let r := strtokR t.cBuf s
  (r.1.elim 0 fun off => a + offsetofBuf + off,
    ({ t with cBuf := r.2.1 } : CmdToken).set .pSave (a + offsetofBuf + r.2.2))

/-- `strtok_r` from `c_pSave` -/
def next (a : ℕ) (t : CmdToken) : ℕ × CmdToken := t.strtok a (t.ptr .pSave - (a + offsetofBuf))

/-- One token for every field -/
def fill (a : ℕ) (fs : List TokenField) (t : CmdToken) : CmdToken :=
  fs.foldl (fun t f => (t.next a).2.set f (t.next a).1) t

end CmdToken

/-- The fields of a command in the order in which they are read -/
def TextKind.order : TextKind → List TokenField
  | .store => [.pKey, .pFlags, .pExptime, .pBytes, .pNoreply]
  | .cas => [.pKey, .pFlags, .pExptime, .pBytes, .pCas, .pNoreply]
  | .delete => [.pKey, .pNoreply]
  | .incr => [.pKey, .pValue, .pNoreply]
  | .touch => [.pKey, .pExptime, .pNoreply]
  | _ => []

/-- The fields that have to be there, and whether they have to be digits. -/
def TextKind.needs : TextKind → List (TokenField × Bool)
  | .store => [(.pKey, false), (.pFlags, true), (.pExptime, true), (.pBytes, true)]
  | .cas => [(.pKey, false), (.pFlags, true), (.pExptime, true), (.pBytes, true), (.pCas, true)]
  | .delete => [(.pKey, false)]
  | .incr => [(.pKey, false), (.pValue, false)]
  | .touch => [(.pKey, false), (.pExptime, true)]
  | _ => []

namespace CmdToken

/-- The fields of a command, and what is behind `noreply`. A bad line leaves no record. -/
def args (a : ℕ) (kind : TextKind) (t : CmdToken) : Option CmdToken :=
  let t := t.fill a kind.order
  let r := if t.ptr .pNoreply = 0 then (0, t) else t.next a
  if (∀ f ∈ kind.needs, r.2.ptr f.1 ≠ 0 ∧ (f.2 → isDigitStr (r.2.str a f.1))) ∧
    (r.2.ptr .pNoreply ≠ 0 → r.2.str a .pNoreply = noreply) ∧ r.1 = 0
  then some r.2 else none

/-- The loop of `flush_all`. There are fewer tokens than bytes. -/
def flushArgs (a : ℕ) : ℕ → CmdToken → CmdToken
  | 0, t => t
  | n + 1, t =>
      let r := t.next a
      if r.1 = 0 then r.2
      else flushArgs a n (r.2.set
        (if strAt r.2.cBuf (r.1 - (a + offsetofBuf)) = noreply then .pNoreply else .pExptime) r.1)

/-- `get` needs a key behind it. -/
def getArgs (a : ℕ) (t : CmdToken) : Option CmdToken :=
  if t.cBuf.getD (span isDelim t.cBuf (t.ptr .pSave - (a + offsetofBuf))) 0 = 0 then none else some t

/-- What `RecvClientText` reads behind the command -/
def command (a : ℕ) (t : CmdToken) : TextKind → Option CmdToken
  | .get => t.getArgs a
  | .other => some t
  | .flush => some (t.flushArgs a (tokenBufSize + 1))
  | kind => t.args a kind

end CmdToken

/-- The record before its tokens are read: `c_Buf` has the line, a NUL and what was there
before. -/
def lineToken (line : List UInt8) (junk : ℕ → UInt8) : CmdToken where
  ptr _ := 0
  cBuf := line ++ 0 :: (List.range (tokenBufSize - 1 - line.length)).map junk

/-- The record that `RecvClientText` makes at `a` of a line. A line of 1024 bytes has its NUL
behind the record. -/
def clientToken (a : ℕ) (line : List UInt8) (junk : ℕ → UInt8) : Option (TextKind × CmdToken) :=
  if tokenBufSize ≤ line.length then none
  else
    let r := (lineToken line junk).strtok a 0
    let t := r.2.set .pCmd r.1
    if r.1 = 0 then none
    else (t.command a (textKind (t.str a .pCmd))).map (textKind (t.str a .pCmd), ·)

/-- The address that a pointer has in the clone: `p + diff` -/
def rebase (a b p : ℕ) : ℕ := (((p : ℤ) + ((b : ℤ) - a)) % 2 ^ 64).toNat

/-- `CloneToken` of the record at `a`, in the memory at `b`. -/
def cloneToken (a b : ℕ) (t : CmdToken) : CmdToken where
  ptr f := rebase a b (t.ptr f)
  cBuf := t.cBuf

def spaced (ss : List (List UInt8)) : List UInt8 := [32].intercalate ss

/-- The line of `SetItemRequestText`, and the body of the message behind it. -/
def setItemRequestText (a : ℕ) (t : CmdToken) (iCAS : ℕ) (body : List UInt8) : List UInt8 :=
  (if t.ptr .pCas ≠ 0 then
    spaced [t.str a .pCmd, t.str a .pKey, t.str a .pFlags, t.str a .pExptime, t.str a .pBytes,
      ascii (Nat.toDigits 10 iCAS)] ++ [13, 10]
  else
    spaced [t.str a .pCmd, t.str a .pKey, t.str a .pFlags, t.str a .pExptime,
      t.str a .pBytes] ++ [13, 10]) ++ body

/-- The pointer is NULL in both records or points into the clone, to an equal string. -/
def FieldKept (a b : ℕ) (t : CmdToken) (f : TokenField) : Prop :=
  ((cloneToken a b t).ptr f = 0 ↔ t.ptr f = 0) ∧
    (t.ptr f ≠ 0 → b ≤ (cloneToken a b t).ptr f ∧ (cloneToken a b t).ptr f < b + sizeofToken ∧
      (cloneToken a b t).str b f = t.str a f)

/-! ### The tag of a binary frame -/

/-- `BinHeadTag_t`, with the extras, the key and a byte behind it. -/
structure BinHeadTag where
  tHead : BinHead
  tPExt : ℕ := 0
  tPKey : ℕ := 0
  tPValue : ℕ := 0
  follow : List UInt8

/-- The tag that `RecvBinaryByFd` makes at `a` of a head and what comes behind it. The value
goes to `v`. -/
def recvHeadTag (a v : ℕ) (head : BinHead) (stream : List UInt8) (junk : ℕ → UInt8) :
    Option BinHeadTag :=
  let len := head.hExtLen + head.hKeyLen
  let len' := int32 (int32 head.hBodyLen - head.hExtLen - head.hKeyLen)
  if 0 < len ∧ stream = [] then none
  else if len' < 0 ∨ (0 < len' ∧ stream.drop len = []) then none
  else
    let got := (List.range (len + 1)).map fun i => (stream.take len).getD i (junk i)
    some {
      tHead := head
      tPExt := if 0 < head.hExtLen then a + sizeofTag else 0
      tPKey := if 0 < head.hKeyLen then a + sizeofTag + head.hExtLen else 0
      tPValue := if 0 < len' then v else 0
      follow := if 0 < head.hKeyLen then got.set len 0 else got }

/-- `CloneHead` of the tag at `a`, in the memory at `b`. -/
def cloneHead (a b : ℕ) (t : BinHeadTag) : BinHeadTag :=
  { t with
    tPExt := rebase a b t.tPExt
    tPKey := rebase a b t.tPKey }

namespace BinHeadTag

/-- What is behind a pointer of the tag at `a` -/
def behind (a : ℕ) (t : BinHeadTag) (p : ℕ) : List UInt8 := t.follow.drop (p - (a + sizeofTag))

def size (t : BinHeadTag) : ℕ := sizeofTag + t.follow.length

end BinHeadTag

/-- The pointers of the tag are NULL in both or point into the clone, to equal extras and
an equal key, and the value is the same. -/
structure HeadKept (a b : ℕ) (t : BinHeadTag) : Prop where
  extNull : (cloneHead a b t).tPExt = 0 ↔ t.tPExt = 0
  ext : t.tPExt ≠ 0 → b ≤ (cloneHead a b t).tPExt ∧ (cloneHead a b t).tPExt < b + t.size ∧
    ((cloneHead a b t).behind b (cloneHead a b t).tPExt).take t.tHead.hExtLen =
      (t.behind a t.tPExt).take t.tHead.hExtLen
  keyNull : (cloneHead a b t).tPKey = 0 ↔ t.tPKey = 0
  key : t.tPKey ≠ 0 → b ≤ (cloneHead a b t).tPKey ∧ (cloneHead a b t).tPKey < b + t.size ∧
    strAt ((cloneHead a b t).behind b (cloneHead a b t).tPKey) 0 = strAt (t.behind a t.tPKey) 0
  value : (cloneHead a b t).tPValue = t.tPValue

/-- Two parts of memory of one size that do not overlap -/
def Apart (a b size : ℕ) : Prop :=
  0 < a ∧ 0 < b ∧ a + size ≤ 2 ^ 64 ∧ b + size ≤ 2 ^ 64 ∧ (a + size ≤ b ∨ b + size ≤ a)

variable {a b n p s v : ℕ} {t u : CmdToken} {f g : TokenField} {buf : List UInt8} {fs : List TokenField}

theorem rebase_null (ha : a < 2 ^ 64) (hb : b < 2 ^ 64) (hne : a ≠ b) : rebase a b 0 ≠ 0 := by
  unfold rebase
  omega

theorem rebase_inside (hp : a ≤ p) (hfit : b + (p - a) < 2 ^ 64) : rebase a b p = b + (p - a) := by
  unfold rebase
  omega

theorem length_takeWhile_le {p : UInt8 → Bool} {l : List UInt8} {i : ℕ} {c : UInt8}
    (h : l[i]? = some c) (hc : p c = false) : (l.takeWhile p).length ≤ i := by
  induction l generalizing i with
  | nil => cases h
  | cons d l ih =>
      rw [List.takeWhile_cons]
      split_ifs with hd
      · cases i with
        | zero =>
            cases h
            rw [hc] at hd
            cases hd
        | succ i => exact Nat.succ_le_succ (ih h)
      · exact Nat.zero_le i

/-- A scan does not go over a byte that ends it. -/
theorem span_le {p : UInt8 → Bool} (hs : s ≤ n) (hn : buf[n]? = some 0) (hp : p 0 = false) :
    span p buf s ≤ n := by
  have hdrop : (buf.drop s)[n - s]? = some 0 := by
    rw [List.getElem?_drop, Nat.add_sub_cancel' hs]
    exact hn
  have hlen := length_takeWhile_le hdrop hp
  unfold span
  omega

/-- The NUL at `n` stays, and what is saved and found is not behind it. -/
theorem strtokR_spec (hs : s ≤ n) (hn : buf[n]? = some 0) :
    (strtokR buf s).2.1[n]? = some 0 ∧ (strtokR buf s).2.1.length = buf.length ∧
      (strtokR buf s).2.2 ≤ n ∧ ∀ off, (strtokR buf s).1 = some off → off ≤ n := by
  have hfirst : span isDelim buf s ≤ n := span_le hs hn rfl
  have hend : span (fun c => !isDelim c && c ≠ 0) buf (span isDelim buf s) ≤ n := span_le hfirst hn rfl
  unfold strtokR
  simp only
  split_ifs with h0 h1
  · refine ⟨hn, rfl, hfirst, ?_⟩
    intro off h
    cases h
  · refine ⟨hn, rfl, hend, ?_⟩
    intro off h
    cases h
    exact hfirst
  · have hne : span (fun c => !isDelim c && c ≠ 0) buf (span isDelim buf s) ≠ n := by
      intro h
      rw [h, List.getD_eq_getElem?_getD, hn] at h1
      exact h1 rfl
    refine ⟨?_, List.length_set, Nat.lt_of_le_of_ne hend hne, ?_⟩
    · rw [List.getElem?_set_ne hne]
      exact hn
    · intro off h
      cases h
      exact hfirst

/-- A pointer of the record at `a` that is NULL or points into the line -/
def Pointer (a n p : ℕ) : Prop := p = 0 ∨ (a + offsetofBuf ≤ p ∧ p ≤ a + offsetofBuf + n)

/-- What the parser keeps of the record: the NUL at `n`, and no pointer behind it. -/
structure Parsed (a n : ℕ) (t : CmdToken) : Prop where
  nul : t.cBuf[n]? = some 0
  length : t.cBuf.length = tokenBufSize
  save : a + offsetofBuf ≤ t.ptr .pSave ∧ t.ptr .pSave ≤ a + offsetofBuf + n
  pointer : ∀ f, Pointer a n (t.ptr f)

@[simp] theorem set_ptr_self (t : CmdToken) (f : TokenField) (p : ℕ) : (t.set f p).ptr f = p :=
  Function.update_self ..

theorem set_ptr_ne (t : CmdToken) (p : ℕ) (h : g ≠ f) : (t.set f p).ptr g = t.ptr g :=
  Function.update_of_ne h ..

theorem Parsed.set (ht : Parsed a n t) (hf : f ≠ .pSave) (hp : Pointer a n p) :
    Parsed a n (t.set f p) := by
  constructor
  · exact ht.nul
  · exact ht.length
  · rw [set_ptr_ne t p hf.symm]
    exact ht.save
  · intro g
    by_cases hg : g = f
    · rw [hg, set_ptr_self]
      exact hp
    · rw [set_ptr_ne t p hg]
      exact ht.pointer g

/-- A token is read from the record. -/
theorem strtok_parsed (hs : s ≤ n) (hn : t.cBuf[n]? = some 0) (hlen : t.cBuf.length = tokenBufSize)
    (hp : ∀ f, f ≠ .pSave → Pointer a n (t.ptr f)) :
    Parsed a n (t.strtok a s).2 ∧ Pointer a n (t.strtok a s).1 ∧
      ∀ f, f ≠ .pSave → (t.strtok a s).2.ptr f = t.ptr f := by
  obtain ⟨hnul, hlength, hsave, hfound⟩ := strtokR_spec hs hn
  refine ⟨?_, ?_, fun f hf => set_ptr_ne _ _ hf⟩
  · constructor
    · exact hnul
    · exact hlength.trans hlen
    · unfold CmdToken.strtok
      rw [set_ptr_self]
      omega
    · intro f
      by_cases hf : f = .pSave
      · subst hf
        unfold CmdToken.strtok
        rw [set_ptr_self]
        exact .inr (by omega)
      · exact (set_ptr_ne _ _ hf).symm ▸ hp f hf
  · have hfst : (t.strtok a s).1 = (strtokR t.cBuf s).1.elim 0 fun off => a + offsetofBuf + off := rfl
    rw [hfst]
    cases h : (strtokR t.cBuf s).1 with
    | none => exact .inl rfl
    | some off =>
        have hoff := hfound off h
        refine .inr ?_
        rw [Option.elim_some]
        omega

theorem Parsed.next (ht : Parsed a n t) :
    Parsed a n (t.next a).2 ∧ Pointer a n (t.next a).1 ∧
      ∀ f, f ≠ .pSave → (t.next a).2.ptr f = t.ptr f := by
  have hsave := ht.save
  exact strtok_parsed (by omega) ht.nul ht.length fun f _ => ht.pointer f

/-- The fields that are not read stay. -/
theorem Parsed.fill (ht : Parsed a n t) (hfs : .pSave ∉ fs) :
    Parsed a n (t.fill a fs) ∧
      ∀ f, f ∉ fs → f ≠ .pSave → (t.fill a fs).ptr f = t.ptr f := by
  induction fs generalizing t with
  | nil => exact ⟨ht, fun _ _ _ => rfl⟩
  | cons g fs ih =>
      obtain ⟨hnext, hpointer, hsame⟩ := ht.next
      have hg : g ≠ .pSave := fun h => hfs (h ▸ List.mem_cons_self)
      obtain ⟨hfill, hkeep⟩ := ih (hnext.set hg hpointer) fun h => hfs (List.mem_cons_of_mem g h)
      refine ⟨hfill, ?_⟩
      intro f hf hsave
      have hfg : f ≠ g := fun h => hf (h ▸ List.mem_cons_self)
      exact (hkeep f (fun h => hf (List.mem_cons_of_mem g h)) hsave).trans
        ((set_ptr_ne _ _ hfg).trans (hsame f hsave))

/-- `flush_all` reads into two fields only. -/
theorem Parsed.flushArgs (ht : Parsed a n t) (m : ℕ) : Parsed a n (t.flushArgs a m) ∧
    ∀ f, f ∉ [TokenField.pNoreply, .pExptime, .pSave] → (t.flushArgs a m).ptr f = t.ptr f := by
  induction m generalizing t with
  | zero => exact ⟨ht, fun _ _ => rfl⟩
  | succ m ih =>
      obtain ⟨hnext, hpointer, hsame⟩ := ht.next
      have hsave : ∀ f, f ∉ [TokenField.pNoreply, .pExptime, .pSave] → f ≠ .pSave := by
        rintro f hf rfl
        exact hf (by decide)
      have hkept : ∀ f g, f ∉ [TokenField.pNoreply, .pExptime, .pSave] →
          g ∈ [TokenField.pNoreply, .pExptime, .pSave] →
          ((t.next a).2.set g (t.next a).1).ptr f = t.ptr f := by
        intro f g hf hg
        have hfg : f ≠ g := fun h => hf (h.symm ▸ hg)
        rw [set_ptr_ne _ _ hfg]
        exact hsame f (hsave f hf)
      unfold CmdToken.flushArgs
      simp only
      split_ifs with h0 hno
      · exact ⟨hnext, fun f hf => hsame f (hsave f hf)⟩
      · obtain ⟨hloop, hkeep⟩ := ih (hnext.set (f := .pNoreply) (by decide) hpointer)
        exact ⟨hloop, fun f hf => (hkeep f hf).trans (hkept f .pNoreply hf (by decide))⟩
      · obtain ⟨hloop, hkeep⟩ := ih (hnext.set (f := .pExptime) (by decide) hpointer)
        exact ⟨hloop, fun f hf => (hkeep f hf).trans (hkept f .pExptime hf (by decide))⟩

/-- What a parsed line leaves: the fields of the command are there, `c_pCAS` for `cas` only,
and never with `c_pValue`. -/
structure Filled (a n : ℕ) (kind : TextKind) (t : CmdToken) : Prop extends Parsed a n t where
  cmd : t.ptr .pCmd ≠ 0
  needs : ∀ f ∈ kind.needs, t.ptr f.1 ≠ 0
  cas : kind ≠ .cas → t.ptr .pCas = 0
  value : kind = .cas → t.ptr .pValue = 0

theorem args_filled {kind : TextKind} (ht : Parsed a n t) (hcmd : t.ptr .pCmd ≠ 0)
    (hcas : t.ptr .pCas = 0) (hvalue : t.ptr .pValue = 0) (h : t.args a kind = some u) :
    Filled a n kind u := by
  have hnot : TokenField.pSave ∉ kind.order := by cases kind <;> decide
  obtain ⟨hfill, hsame⟩ := ht.fill hnot
  have hlast : ∃ r : ℕ × CmdToken, Parsed a n r.2 ∧
      (∀ f, f ≠ .pSave → r.2.ptr f = (t.fill a kind.order).ptr f) ∧
      r = if (t.fill a kind.order).ptr .pNoreply = 0 then (0, t.fill a kind.order)
        else (t.fill a kind.order).next a := by
    obtain ⟨hnext, -, hkeep⟩ := hfill.next
    split_ifs
    · exact ⟨_, hfill, fun _ _ => rfl, rfl⟩
    · exact ⟨_, hnext, hkeep, rfl⟩
  obtain ⟨r, hparsed, hkeep, hr⟩ := hlast
  unfold CmdToken.args at h
  simp only [← hr] at h
  split_ifs at h with hgood
  cases h
  constructor
  · exact hparsed
  · rw [hkeep .pCmd (by decide), hsame .pCmd (by cases kind <;> decide) (by decide)]
    exact hcmd
  · intro f hf
    exact (hgood.1 f hf).1
  · intro hkind
    rw [hkeep .pCas (by decide), hsame .pCas (by cases kind <;> first | decide | exact absurd rfl hkind)
      (by decide)]
    exact hcas
  · rintro rfl
    rw [hkeep .pValue (by decide), hsame .pValue (by decide) (by decide)]
    exact hvalue

theorem command_filled {kind : TextKind} (ht : Parsed a n t) (hcmd : t.ptr .pCmd ≠ 0)
    (hcas : t.ptr .pCas = 0) (hvalue : t.ptr .pValue = 0) (h : t.command a kind = some u) :
    Filled a n kind u := by
  cases kind with
  | get =>
      change (if _ then none else some t) = some u at h
      split_ifs at h
      cases h
      exact ⟨ht, hcmd, fun f hf => (List.not_mem_nil hf).elim, fun _ => hcas, fun _ => hvalue⟩
  | other =>
      cases h
      exact ⟨ht, hcmd, fun f hf => (List.not_mem_nil hf).elim, fun _ => hcas, fun _ => hvalue⟩
  | flush =>
      cases h
      obtain ⟨hflush, hkeep⟩ := ht.flushArgs (tokenBufSize + 1)
      refine ⟨hflush, ?_, fun f hf => (List.not_mem_nil hf).elim, ?_, ?_⟩
      · rw [hkeep .pCmd (by decide)]
        exact hcmd
      · intro _
        rw [hkeep .pCas (by decide)]
        exact hcas
      · intro _
        rw [hkeep .pValue (by decide)]
        exact hvalue
  | store => exact args_filled ht hcmd hcas hvalue h
  | cas => exact args_filled ht hcmd hcas hvalue h
  | delete => exact args_filled ht hcmd hcas hvalue h
  | incr => exact args_filled ht hcmd hcas hvalue h
  | touch => exact args_filled ht hcmd hcas hvalue h

/-- Every record that `RecvClientText` makes is filled. -/
theorem clientToken_filled {line : List UInt8} {junk : ℕ → UInt8} {kind : TextKind}
    (h : clientToken a line junk = some (kind, t)) : Filled a line.length kind t := by
  unfold clientToken at h
  split_ifs at h with hlong
  have hlen : (lineToken line junk).cBuf.length = tokenBufSize := by
    simp only [lineToken, List.length_append, List.length_cons, List.length_map, List.length_range]
    omega
  have hnul : (lineToken line junk).cBuf[line.length]? = some 0 := by
    unfold lineToken
    rw [List.getElem?_append_right le_rfl, Nat.sub_self]
    rfl
  obtain ⟨hparsed, hpointer, hsame⟩ := strtok_parsed (a := a) (Nat.zero_le line.length) hnul hlen
    fun _ _ => .inl rfl
  by_cases hcmd : ((lineToken line junk).strtok a 0).1 = 0
  · rw [if_pos hcmd] at h
    cases h
  · rw [if_neg hcmd] at h
    obtain ⟨u, hu, heq⟩ := Option.map_eq_some_iff.mp h
    obtain ⟨rfl, rfl⟩ := Prod.mk.inj heq
    refine command_filled (hparsed.set (by decide) hpointer) ?_ ?_ ?_ hu
    · rw [set_ptr_self]
      exact hcmd
    · rw [set_ptr_ne _ _ (by decide), hsame .pCas (by decide)]
      rfl
    · rw [set_ptr_ne _ _ (by decide), hsame .pValue (by decide)]
      rfl

/-- A NULL pointer is not NULL in the clone. -/
theorem Apart.rebase_null (h : Apart a b n) (hn : 0 < n) : rebase a b 0 ≠ 0 := by
  unfold Apart at h
  exact Memcache.rebase_null (by omega) (by omega) (by omega)

theorem Apart.rebase_inside (h : Apart a b n) (hlo : a ≤ p) (hhi : p < a + n) :
    rebase a b p = b + (p - a) := by
  unfold Apart at h
  exact Memcache.rebase_inside hlo (by omega)

/-- The string of a pointer into the record is that of the clone's pointer. -/
theorem Filled.str_clone {kind : TextKind} (ht : Filled a n kind t) (hn : n < tokenBufSize)
    (hab : Apart a b sizeofToken) (hf : t.ptr f ≠ 0) :
    b ≤ (cloneToken a b t).ptr f ∧ (cloneToken a b t).ptr f < b + sizeofToken ∧
      (cloneToken a b t).str b f = t.str a f := by
  have hsize : sizeofToken = offsetofBuf + tokenBufSize := rfl
  have hp : a + offsetofBuf ≤ t.ptr f ∧ t.ptr f ≤ a + offsetofBuf + n :=
    (ht.pointer f).resolve_left hf
  have hmoved : (cloneToken a b t).ptr f = b + (t.ptr f - a) :=
    hab.rebase_inside (by omega) (by omega)
  refine ⟨by omega, by omega, ?_⟩
  have hoff : b + (t.ptr f - a) - (b + offsetofBuf) = t.ptr f - (a + offsetofBuf) := by omega
  unfold CmdToken.str
  rw [hmoved, hoff]
  rfl

/-- Every pointer of the clone is not NULL. -/
theorem Filled.clone_ptr {kind : TextKind} (ht : Filled a n kind t) (hn : n < tokenBufSize)
    (hab : Apart a b sizeofToken) (f : TokenField) : (cloneToken a b t).ptr f ≠ 0 := by
  by_cases hf : t.ptr f = 0
  · change rebase a b (t.ptr f) ≠ 0
    rw [hf]
    exact hab.rebase_null (by decide)
  · have hin := (ht.str_clone hn hab hf).1
    have hb : 0 < b := hab.2.1
    omega

/-- A pointer is kept exactly if it is not NULL. -/
theorem Filled.kept_iff {kind : TextKind} (ht : Filled a n kind t) (hn : n < tokenBufSize)
    (hab : Apart a b sizeofToken) (f : TokenField) : FieldKept a b t f ↔ t.ptr f ≠ 0 := by
  constructor
  · intro h hnull
    exact ht.clone_ptr hn hab f (h.1.mpr hnull)
  · intro hf
    exact ⟨iff_of_false (ht.clone_ptr hn hab f) hf, fun _ => ht.str_clone hn hab hf⟩

theorem spaced_concat (cmd key flags exptime bytes last : List UInt8) :
    spaced [cmd, key, flags, exptime, bytes, last] =
      spaced [cmd, key, flags, exptime, bytes] ++ 32 :: last := by
  simp [spaced, List.intercalate, List.intersperse]

/-- The clone's request is the record's exactly for `cas`: the clone always has a `c_pCAS`. -/
theorem Filled.request_iff {kind : TextKind} (ht : Filled a n kind t) (hn : n < tokenBufSize)
    (hab : Apart a b sizeofToken) (hbody : kind.hasBody = true) (iCAS : ℕ) (body : List UInt8) :
    setItemRequestText b (cloneToken a b t) iCAS body = setItemRequestText a t iCAS body ↔
      kind = .cas := by
  have hkind : kind = .store ∨ kind = .cas := by
    cases kind <;> first | exact .inl rfl | exact .inr rfl | cases hbody
  have hstr : ∀ f, t.ptr f ≠ 0 → (cloneToken a b t).str b f = t.str a f :=
    fun f hf => (ht.str_clone hn hab hf).2.2
  have hneeds : ∀ f ∈ TextKind.store.needs, t.ptr f.1 ≠ 0 := by
    rcases hkind with rfl | rfl
    · exact ht.needs
    · exact fun f hf => ht.needs f (List.mem_append_left [(TokenField.pCas, true)] hf)
  have hkey := hneeds (.pKey, false) (by decide)
  have hflags := hneeds (.pFlags, true) (by decide)
  have hexptime := hneeds (.pExptime, true) (by decide)
  have hbytes := hneeds (.pBytes, true) (by decide)
  unfold setItemRequestText
  rw [if_pos (ht.clone_ptr hn hab .pCas), hstr _ ht.cmd, hstr _ hkey, hstr _ hflags,
    hstr _ hexptime, hstr _ hbytes]
  rcases hkind with rfl | rfl
  · refine iff_of_false ?_ TextKind.noConfusion
    rw [if_neg (not_not.mpr (ht.cas TextKind.noConfusion)), spaced_concat]
    intro h
    have hlen := congrArg List.length h
    simp only [List.length_append, List.length_cons] at hlen
    omega
  · rw [if_pos (ht.needs (.pCas, true) (by decide))]
    exact iff_of_true rfl rfl

theorem recvHeadTag_spec {head : BinHead} {stream : List UInt8} {junk : ℕ → UInt8} {h : BinHeadTag}
    (hh : recvHeadTag a v head stream junk = some h) :
    h.size = sizeofTag + (head.hExtLen + head.hKeyLen + 1) ∧
      h.tPExt = (if 0 < head.hExtLen then a + sizeofTag else 0) ∧
      h.tPKey = if 0 < head.hKeyLen then a + sizeofTag + head.hExtLen else 0 := by
  unfold recvHeadTag at hh
  simp only at hh
  split_ifs at hh <;> cases hh <;>
    simp [BinHeadTag.size, *]

/-- A pointer into the tag has the same bytes behind it in the clone. -/
theorem behind_clone {h : BinHeadTag} (hab : Apart a b h.size) (hlo : a + sizeofTag ≤ p)
    (hhi : p < a + h.size) : b ≤ rebase a b p ∧ rebase a b p < b + h.size ∧
      (cloneHead a b h).behind b (rebase a b p) = h.behind a p := by
  have hmoved := hab.rebase_inside (p := p) (by omega) hhi
  refine ⟨by omega, by omega, ?_⟩
  have hoff : b + (p - a) - (b + sizeofTag) = p - (a + sizeofTag) := by omega
  unfold BinHeadTag.behind
  rw [hmoved, hoff]
  rfl

/-- The tag is kept exactly if it has extras and a key. -/
theorem headKept_iff {head : BinHead} {stream : List UInt8} {junk : ℕ → UInt8} {h : BinHeadTag}
    (hh : recvHeadTag a v head stream junk = some h) (hab : Apart a b h.size) :
    HeadKept a b h ↔ 0 < head.hExtLen ∧ 0 < head.hKeyLen := by
  obtain ⟨hsize, hext, hkey⟩ := recvHeadTag_spec hh
  have hpos : 0 < h.size := by omega
  have ha : 0 < a := hab.1
  have hb : 0 < b := hab.2.1
  constructor
  · intro hk
    constructor
    · by_contra h0
      rw [if_neg h0] at hext
      refine hab.rebase_null hpos ?_
      have hnull := hk.extNull.mpr hext
      unfold cloneHead at hnull
      rwa [hext] at hnull
    · by_contra h0
      rw [if_neg h0] at hkey
      refine hab.rebase_null hpos ?_
      have hnull := hk.keyNull.mpr hkey
      unfold cloneHead at hnull
      rwa [hkey] at hnull
  · rintro ⟨hext0, hkey0⟩
    rw [if_pos hext0] at hext
    rw [if_pos hkey0] at hkey
    obtain ⟨hlo, hhi, heq⟩ := behind_clone hab (p := h.tPExt) (by omega) (by omega)
    obtain ⟨hlo', hhi', heq'⟩ := behind_clone hab (p := h.tPKey) (by omega) (by omega)
    constructor
    · exact iff_of_false (by change rebase a b h.tPExt ≠ 0; omega) (by omega)
    · intro _
      exact ⟨hlo, hhi, congrArg (List.take _) heq⟩
    · exact iff_of_false (by change rebase a b h.tPKey ≠ 0; omega) (by omega)
    · intro _
      exact ⟨hlo', hhi', congrArg (strAt · 0) heq'⟩
    · rfl

/-- Where the clones are right. No record of a line has all its fields, so that of each the
clone has a pointer that is not NULL and points to nothing. -/
theorem clone_right_iff (a b : ℕ) (junk : ℕ → UInt8) :
    (∀ line kind t, Apart a b sizeofToken → clientToken a line junk = some (kind, t) →
      (∀ f, FieldKept a b t f ↔ t.ptr f ≠ 0) ∧ (¬ ∀ f, FieldKept a b t f) ∧
      (kind.hasBody = true → ∀ iCAS body, setItemRequestText b (cloneToken a b t) iCAS body =
        setItemRequestText a t iCAS body ↔ kind = .cas)) ∧
    ∀ v head stream h, recvHeadTag a v head stream junk = some h → Apart a b h.size →
      (HeadKept a b h ↔ 0 < head.hExtLen ∧ 0 < head.hKeyLen) := by
  constructor
  · intro line kind t hab h
    have hn : line.length < tokenBufSize := by
      by_contra hlong
      unfold clientToken at h
      rw [if_pos (Nat.not_lt.mp hlong)] at h
      cases h
    have ht := clientToken_filled h
    refine ⟨ht.kept_iff hn hab, ?_, fun hbody => ht.request_iff hn hab hbody⟩
    intro hall
    by_cases hcas : kind = .cas
    · exact (ht.kept_iff hn hab .pValue).mp (hall .pValue) (ht.value hcas)
    · exact (ht.kept_iff hn hab .pCas).mp (hall .pCas) (ht.cas hcas)
  · intro v head stream h hh hab
    exact headKept_iff hh hab

/-- The line `cas k 1 0 2 7` -/
def casLine : List UInt8 := ascii ['c', 'a', 's', ' ', 'k', ' ', '1', ' ', '0', ' ', '2', ' ', '7'] ++ [13, 10]

/-- A head with four bytes of extras and a key of one byte. -/
def extHead : BinHead := ⟨[0x80, 1, 0, 1, 4, 0, 0, 0, 0, 0, 0, 5] ++ List.replicate 12 0⟩

theorem clone_right_iff_cas :
    (∃ t, clientToken 4096 casLine (fun _ => 0) = some (.cas, t) ∧
      setItemRequestText 8192 (cloneToken 4096 8192 t) 9 [] = setItemRequestText 4096 t 9 []) ∧
    ∃ h, recvHeadTag 4096 0 extHead [1, 2, 3, 4, 107] (fun _ => 0) = some h ∧
      HeadKept 4096 8192 h := by
  have happart : ∀ n ≤ 4096, Apart 4096 8192 n := by
    intro n hn
    unfold Apart
    omega
  have hline : (clientToken 4096 casLine fun _ => 0).map (·.1) = some .cas := by decide +kernel
  have hhead : (recvHeadTag 4096 0 extHead [1, 2, 3, 4, 107] fun _ => 0).isSome := by decide +kernel
  constructor
  · obtain ⟨⟨kind, t⟩, ht, rfl⟩ := Option.map_eq_some_iff.mp hline
    refine ⟨t, ht, ?_⟩
    exact (((clone_right_iff 4096 8192 fun _ => 0).1 casLine _ t (happart _ (by decide)) ht).2.2 rfl
      9 []).mpr rfl
  · obtain ⟨h, hh⟩ := Option.isSome_iff_exists.mp hhead
    refine ⟨h, hh, ?_⟩
    have hsize : h.size = sizeofTag + (4 + 1 + 1) := (recvHeadTag_spec hh).1
    exact ((clone_right_iff 4096 8192 fun _ => 0).2 0 extHead [1, 2, 3, 4, 107] h hh
      (happart _ (hsize ▸ by decide))).mpr (by decide)

/-- The line `set k 1 0 2` -/
def setKey : List UInt8 := ascii ['s', 'e', 't', ' ', 'k', ' ', '1', ' ', '0', ' ', '2'] ++ [13, 10]

/-- A `set` has no `c_pCAS`, and its clone has one. -/
theorem clone_not_right : ¬ ∀ a b line junk kind t, Apart a b sizeofToken →
    clientToken a line junk = some (kind, t) →
    (∀ f, FieldKept a b t f) ∧ (kind.hasBody = true → ∀ iCAS body,
      setItemRequestText b (cloneToken a b t) iCAS body = setItemRequestText a t iCAS body) := by
  intro h
  have hline : (clientToken 4096 setKey fun _ => 0).map (·.2.ptr .pCas) = some 0 := by decide +kernel
  obtain ⟨⟨kind, t⟩, ht, hnull⟩ := Option.map_eq_some_iff.mp hline
  have hapart : Apart 4096 8192 sizeofToken := by
    unfold Apart
    decide
  have hkept := ((h 4096 8192 setKey (fun _ => 0) kind t hapart ht).1 .pCas).1.mpr hnull
  change rebase 4096 8192 (t.ptr .pCas) = 0 at hkept
  rw [show t.ptr .pCas = 0 from hnull] at hkept
  revert hkept
  decide

end PaxosSolutions.Memcache
