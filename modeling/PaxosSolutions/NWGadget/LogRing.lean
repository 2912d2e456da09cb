import Mathlib.Data.List.Range
import PaxosSolutions.Lib.File
import PaxosSolutions.Lib.Run

/-!
# The log buffer

`Log` puts a record behind the one before: an `int` with the offset of the next
record, then the bytes that `LogPrintf` prints later. A -1 ends the row. When a
record would reach the end of the buffer, the row is dumped first, or with
`LOG_FLAG_WRAP` the next record goes to the start of the buffer.
-/
namespace PaxosSolutions.NWGadget
open Lib

/-- What stops a call: a write beyond `l_pBufEnd`, a row of records that does not end, or
the `assert` on the size of a binary dump. -/
inductive LogTrap
  | beyond
  | endless
  | abort
deriving DecidableEq, Repr

/-- What goes to `l_pFile`: the records that `LogPrintf` prints, or the whole buffer with
its size and the offset of the first record. -/
inductive LogOut
  | text (records : List (List UInt8))
  | binary (size start : ℤ) (buf : List UInt8)
deriving DecidableEq, Repr

/-- A record in the buffer by the offset of its header. -/
structure LogEntry where
  place : ℕ
  record : List UInt8
  overwritten : Bool := false
deriving DecidableEq, Repr

/-- `Log_t`, with offsets for the pointers into `l_pBuf`. A record is what `Log` has put
into `Buf`. `sent` has every record in order and `entries` those since the last dump. -/
structure LogRing where
  lSize : ℤ
  lLevel : ℤ
  wrap : Bool
  binary : Bool
  lPBuf : List UInt8
  lPBufStart : ℕ := 0
  lPBufNext : ℕ := 0
  out : List LogOut := []
  sent : List (List UInt8) := []
  entries : List LogEntry := []

inductive LogOp
  | log (level : ℤ) (record : List UInt8)
  | dump

def intAt (buf : List UInt8) (off : ℕ) : ℤ := bytesInt ((buf.drop off).take 4)

/-- `LogDumpBuf`. A row that is longer than the buffer comes back to a record for ever. -/
def logDumpBuf : ℕ → ℕ → List UInt8 → Option (List (List UInt8))
  | 0, _, _ => none
  | n + 1, p, buf =>
      if intAt buf p < 0 then some []
      else (logDumpBuf n (intAt buf p).toNat buf).map
        (((buf.drop (p + 4)).take ((intAt buf p).toNat - (p + 4))) :: ·)

namespace LogEntry

def enc (e : LogEntry) : List UInt8 :=
  intBytes ((e.place + 4 + e.record.length : ℕ) : ℤ) ++ e.record

/-- A write of `n` bytes at `a` -/
def touch (a n : ℕ) (e : LogEntry) : LogEntry :=
  { e with
    overwritten := e.overwritten || decide (a < e.place + 4 + e.record.length ∧ e.place < a + n) }

end LogEntry

namespace LogOut

/-- A binary dump is printed later, with `LogDumpBuf`. -/
def printed : LogOut → List (List UInt8)
  | .text records => records
  | .binary size start buf => (logDumpBuf (size.toNat + 1) start.toNat buf).getD []

end LogOut

namespace LogRing

def write (s : LogRing) (off : ℕ) (bs : List UInt8) : Except LogTrap LogRing :=
  if ((off + bs.length : ℕ) : ℤ) ≤ s.lSize then
    .ok { s with
      lPBuf := s.lPBuf.take off ++ (bs ++ s.lPBuf.drop (off + bs.length))
      entries := s.entries.map (.touch off bs.length) }
  else .error .beyond

/-- `LogCreate`, in memory that `fMalloc` has left as it was. -/
def create (size level : ℤ) (wrap binary : Bool) (junk : ℕ → UInt8) : Except LogTrap LogRing :=
  let s : LogRing := {
    lSize := size
    lLevel := level
    wrap := wrap
    binary := binary
    lPBuf := (List.range size.toNat).map junk }
  if 0 < size then s.write 0 (intBytes (-1)) else .ok s

/-- What `_LogDump` writes -/
def dumped (s : LogRing) : Except LogTrap LogOut :=
  if s.binary then
    if s.lSize < 1000000000 then .ok (.binary s.lSize s.lPBufStart s.lPBuf) else .error .abort
  else
    (logDumpBuf (s.lSize.toNat + 1) s.lPBufStart s.lPBuf).elim (.error .endless) fun records =>
      .ok (.text records)

/-- `_LogDump` -/
def dumpLocked (s : LogRing) : Except LogTrap LogRing :=
  if 0 < intAt s.lPBuf s.lPBufStart then
    s.dumped.bind fun o => ({ s with
      lPBufStart := 0
      lPBufNext := 0
      out := s.out ++ [o]
      entries := [] } : LogRing).write 0 (intBytes (-1))
  else .ok s

/-- `LogDump` -/
def logDump (s : LogRing) : Except LogTrap LogRing := if s.lSize ≤ 0 then .ok s else s.dumpLocked

/-- `IS_LOG_BUF_OVERFLOW` -/
def Overflow (s : LogRing) (l : ℕ) : Prop :=
  s.lPBufStart ≤ s.lPBufNext ∧ s.lSize ≤ ((s.lPBufNext + 4 + l + 4 : ℕ) : ℤ)

/-- `IS_LOG_BUF_OVERRUN` -/
def Overrun (s : LogRing) (l : ℕ) : Prop :=
  s.lPBufNext < s.lPBufStart ∧ s.lPBufStart ≤ s.lPBufNext + 4 + l + 4

instance (s : LogRing) (l : ℕ) : Decidable (s.Overflow l) := inferInstanceAs (Decidable (_ ∧ _))

instance (s : LogRing) (l : ℕ) : Decidable (s.Overrun l) := inferInstanceAs (Decidable (_ ∧ _))

/-- The loop that moves `l_pBufStart` over the records that the new one reaches. -/
def leave (l : ℕ) : ℕ → LogRing → Except LogTrap LogRing
  | 0, _ => .error .endless
  | n + 1, s =>
      if s.Overrun l then
        if intAt s.lPBuf s.lPBufStart < 0 then .error .beyond
        else leave l n { s with lPBufStart := (intAt s.lPBuf s.lPBufStart).toNat }
      else .ok s

/-- The part of `Log` under `IS_LOG_BUF_WRAP` -/
def makeRoom (s : LogRing) (l : ℕ) : Except LogTrap LogRing :=
  if s.Overflow l ∨ s.Overrun l then
    (if s.wrap then .ok s else s.dumpLocked).bind fun s =>
    (if s.Overflow l then
      (s.write s.lPBufNext (intBytes 0)).map fun s => { s with lPBufNext := 0 }
    else .ok s).bind fun s => s.leave l (s.lSize.toNat + 1)
  else .ok s

/-- The rest of `Log`: the record, its header, and the end of the row. -/
def put (s : LogRing) (r : List UInt8) : Except LogTrap LogRing :=
  let next := s.lPBufNext + 4 + r.length
  (s.write (s.lPBufNext + 4) r).bind fun t =>
  (t.write s.lPBufNext (intBytes (next : ℤ))).bind fun t =>
  (t.write next (intBytes (-1))).map fun t =>
    { t with
      lPBufNext := next
      sent := t.sent ++ [r]
      entries := t.entries ++ [⟨s.lPBufNext, r, false⟩] }

/-- `Log`. Without a buffer the record is printed at once. -/
def log (s : LogRing) (level : ℤ) (r : List UInt8) : Except LogTrap LogRing :=
  if s.lLevel < level then .ok s
  else if s.lSize ≤ 0 then .ok { s with out := s.out ++ [.text [r]], sent := s.sent ++ [r] }
  else (s.makeRoom r.length).bind fun s => s.put r

def step (s : LogRing) : LogOp → Except LogTrap LogRing
  | .log level r => s.log level r
  | .dump => s.logDump

def printed (s : LogRing) : List (List UInt8) := s.out.flatMap LogOut.printed

/-- A dump ends, and prints the last records since the dump before, with the latest one.
What it does not print was overwritten, and without `LOG_FLAG_WRAP` it completes the
records. -/
structure Right (s : LogRing) : Prop where
  dump : ∃ t lost kept, s.logDump = .ok t ∧ s.entries = lost ++ kept ∧
    t.printed = s.printed ++ kept.map (·.record) ∧ (s.entries ≠ [] → kept ≠ []) ∧
    (s.wrap = true → ∀ e ∈ lost, e.overwritten = true) ∧ (s.wrap = false → t.printed = s.sent)

/-- The record fits behind its header and before the end of the row, a binary dump is
less than a gigabyte, and a record that goes to the start of the buffer reaches the
last record before it. -/
def Reaching (s : LogRing) : LogOp → Prop
  | .log level r => level ≤ s.lLevel → 0 < s.lSize →
      ((r.length + 8 : ℕ) : ℤ) ≤ s.lSize ∧ (s.binary = true → s.lSize < 1000000000) ∧
      (s.wrap = true → s.Overflow r.length →
        ∀ e, s.entries.getLast? = some e → e.place < r.length + 8)
  | .dump => True

/-- The bytes of a row of records. -/
def chain (es : List LogEntry) : List UInt8 := es.flatMap LogEntry.enc

/-- The records lie one behind the other from an offset on. -/
def Laid : ℕ → List LogEntry → Prop
  | _, [] => True
  | off, e :: es => e.place = off ∧ Laid (off + 4 + e.record.length) es

/-- The row in the buffer has the records since it began at the start of the buffer. -/
structure Room (lost kept : List LogEntry) (s : LogRing) : Prop where
  pos : 0 < s.lSize
  lt : s.lSize < 2 ^ 31
  size : (s.lPBuf.length : ℤ) = s.lSize
  start : s.lPBufStart = 0
  next : s.lPBufNext = (chain kept).length
  entries : s.entries = lost ++ kept
  laid : Laid 0 kept
  fresh : ∀ e ∈ kept, e.overwritten = false
  row : ∃ rest, s.lPBuf = chain kept ++ rest
  all : s.wrap = false → lost = [] ∧ s.printed ++ s.entries.map (·.record) = s.sent

/-- The row is ended, and has the latest record. -/
structure Kept (lost kept : List LogEntry) (s : LogRing) : Prop extends Room lost kept s where
  ended : ∃ rest, s.lPBuf = chain kept ++ (intBytes (-1) ++ rest)
  last : lost ≠ [] → kept ≠ []

variable {s t : LogRing} {lost kept es : List LogEntry} {e : LogEntry} {a n off l : ℕ}
  {pre mid post bs r : List UInt8} {x : ℤ}

@[simp] theorem enc_length (e : LogEntry) : e.enc.length = 4 + e.record.length := by
  unfold LogEntry.enc
  rw [List.length_append, intBytes_length]

theorem chain_cons (e : LogEntry) (es : List LogEntry) : chain (e :: es) = e.enc ++ chain es :=
  List.flatMap_cons

theorem chain_append (es fs : List LogEntry) : chain (es ++ fs) = chain es ++ chain fs :=
  List.flatMap_append

theorem length_le_chain (es : List LogEntry) : es.length ≤ (chain es).length := by
  induction es with
  | nil => exact Nat.zero_le _
  | cons e es ih =>
      rw [chain_cons, List.length_append, List.length_cons, enc_length]
      omega

theorem intAt_append (pre : List UInt8) (hlo : -2 ^ 31 ≤ x) (hhi : x < 2 ^ 31) :
    intAt (pre ++ (intBytes x ++ post)) pre.length = x := by
  unfold intAt
  rw [List.drop_left, List.take_left' (intBytes_length x), bytesInt_intBytes hlo hhi]

/-- A record lies within its row. -/
theorem Laid.range (h : Laid off es) (he : e ∈ es) :
    off ≤ e.place ∧ e.place + 4 + e.record.length ≤ off + (chain es).length := by
  induction es generalizing off with
  | nil => cases he
  | cons f es ih =>
      rw [chain_cons, List.length_append, enc_length]
      rcases List.mem_cons.mp he with rfl | he
      · have := h.1
        omega
      · have := ih h.2 he
        omega

theorem Laid.concat (h : Laid off es) (he : e.place = off + (chain es).length) :
    Laid off (es ++ [e]) := by
  induction es generalizing off with
  | nil => exact ⟨he, trivial⟩
  | cons f es ih =>
      rw [chain_cons, List.length_append, enc_length] at he
      exact ⟨h.1, ih h.2 (by omega)⟩

/-- The last record is the furthest. -/
theorem Laid.le_last (h : Laid off es) (hl : es.getLast? = some e) {f : LogEntry} (hf : f ∈ es) :
    f.place ≤ e.place := by
  induction es generalizing off with
  | nil => cases hf
  | cons g es ih =>
      rcases List.mem_cons.mp hf with rfl | hf
      · have hfirst := h.1
        have hrange := Laid.range h (List.mem_of_getLast? hl)
        omega
      · obtain ⟨f', es', rfl⟩ := List.exists_cons_of_ne_nil (List.ne_nil_of_mem hf)
        rw [List.getLast?_cons_cons] at hl
        exact ih h.2 hl hf

/-- A row is printed record by record up to its end. -/
theorem logDumpBuf_chain (pre : List UInt8) (h : Laid pre.length es) (hn : es.length < n)
    (hfit : pre.length + (chain es).length < 2 ^ 31) :
    logDumpBuf n pre.length (pre ++ (chain es ++ (intBytes (-1) ++ post))) =
      some (es.map (·.record)) := by
  induction es generalizing pre n with
  | nil =>
      obtain ⟨n, rfl⟩ := Nat.exists_eq_add_one.mpr (Nat.zero_lt_of_lt hn)
      have hend : intAt (pre ++ (intBytes (-1) ++ post)) pre.length = -1 :=
        intAt_append pre (by omega) (by omega)
      unfold logDumpBuf
      rw [chain, List.flatMap_nil, List.nil_append, hend]
      rfl
  | cons e es ih =>
      obtain ⟨n, rfl⟩ := Nat.exists_eq_add_one.mpr (Nat.zero_lt_of_lt hn)
      rw [chain_cons, List.length_append, enc_length] at hfit
      rw [List.length_cons] at hn
      have hplace := h.1
      have hhead : intAt (pre ++ (chain (e :: es) ++ (intBytes (-1) ++ post))) pre.length =
          ((e.place + 4 + e.record.length : ℕ) : ℤ) := by
        rw [chain_cons, LogEntry.enc, List.append_assoc, List.append_assoc]
        exact intAt_append pre (by omega) (by omega)
      have hrec : ((pre ++ (chain (e :: es) ++ (intBytes (-1) ++ post))).drop (pre.length + 4)).take
          (e.place + 4 + e.record.length - (pre.length + 4)) = e.record := by
        have hskip : (pre ++ intBytes ((e.place + 4 + e.record.length : ℕ) : ℤ)).length =
            pre.length + 4 := by
          rw [List.length_append, intBytes_length]
        rw [chain_cons, LogEntry.enc, List.append_assoc, List.append_assoc, ← List.append_assoc pre,
          List.drop_left' hskip, List.take_left' (by omega)]
      have hnext : pre ++ (chain (e :: es) ++ (intBytes (-1) ++ post)) =
          (pre ++ e.enc) ++ (chain es ++ (intBytes (-1) ++ post)) := by
        rw [chain_cons, List.append_assoc, List.append_assoc]
      have hlen : (pre ++ e.enc).length = e.place + 4 + e.record.length := by
        rw [List.length_append, enc_length, hplace, Nat.add_assoc]
      unfold logDumpBuf
      rw [hhead, if_neg (by omega), Int.toNat_natCast, hrec, hnext, ← hlen,
        ih (pre ++ e.enc) (hlen ▸ hplace ▸ h.2) (by omega) (by omega)]
      rfl

theorem write_at (off : ℕ) (bs pre mid post : List UInt8) (hbuf : s.lPBuf = pre ++ (mid ++ post)) (hoff : off = pre.length)
    (hlen : bs.length = mid.length) (hsize : (s.lPBuf.length : ℤ) = s.lSize) :
    s.write off bs = .ok { s with
      lPBuf := pre ++ (bs ++ post)
      entries := s.entries.map (.touch off bs.length) } := by
  have hin : ((off + bs.length : ℕ) : ℤ) ≤ s.lSize := by
    rw [← hsize, hbuf, List.length_append, List.length_append]
    omega
  have htail : (pre ++ (mid ++ post)).drop (off + bs.length) = post := by
    rw [← List.append_assoc, List.drop_left' (by rw [List.length_append, hoff, hlen])]
  unfold write
  rw [if_pos hin, hbuf, htail, hoff, List.take_left]

/-- A write that does not fit is refused, and no write changes the size. -/
theorem write_ok (h : s.write off bs = .ok t) :
    ((off + bs.length : ℕ) : ℤ) ≤ s.lSize ∧ t.lSize = s.lSize := by
  unfold write at h
  split_ifs at h with hin
  cases h
  exact ⟨hin, rfl⟩

@[simp] theorem touch_record : (e.touch a n).record = e.record := rfl

@[simp] theorem touch_place : (e.touch a n).place = e.place := rfl

theorem touch_overwritten : (e.touch a n).overwritten = true ↔
    e.overwritten = true ∨ a < e.place + 4 + e.record.length ∧ e.place < a + n := by
  simp only [LogEntry.touch, Bool.or_eq_true, decide_eq_true_eq]

theorem map_record_touch (es : List LogEntry) :
    (es.map (LogEntry.touch a n)).map (·.record) = es.map (·.record) := by
  rw [List.map_map]
  rfl

/-- A write behind the records leaves them. -/
theorem map_touch_behind (h : ∀ e ∈ es, e.place + 4 + e.record.length ≤ a) :
    es.map (LogEntry.touch a n) = es := by
  have hself : ∀ e ∈ es, e.touch a n = e := by
    intro e he
    have hend := h e he
    unfold LogEntry.touch
    rw [decide_eq_false (by omega), Bool.or_false]
  exact (List.map_congr_left hself).trans (List.map_id es)

theorem printed_concat (o : LogOut) :
    ({ s with out := s.out ++ [o] } : LogRing).printed = s.printed ++ o.printed := by
  unfold printed
  rw [List.flatMap_append, List.flatMap_singleton]

/-- An empty row is not dumped. -/
theorem Kept.dumpLocked_nil (hs : Kept lost [] s) : s.dumpLocked = .ok s := by
  obtain ⟨rest, hbuf⟩ := hs.ended
  have hend : intAt s.lPBuf s.lPBufStart = -1 := by
    rw [hbuf, hs.start]
    exact intAt_append [] (by omega) (by omega)
  unfold dumpLocked
  rw [hend]
  rfl

/-- What a dump of the row gives to `LogPrintf`, now or later. -/
theorem Kept.logDumpBuf_eq (hs : Kept lost kept s) :
    logDumpBuf (s.lSize.toNat + 1) 0 s.lPBuf = some (kept.map (·.record)) := by
  have hsize := hs.size
  have hlt := hs.lt
  have hle := length_le_chain kept
  obtain ⟨rest, hbuf⟩ := hs.ended
  rw [hbuf, List.length_append] at hsize
  rw [hbuf]
  exact logDumpBuf_chain [] hs.laid (by omega) (by rw [List.length_nil]; omega)

/-- A row with records begins with an offset. -/
theorem Kept.head_pos (hs : Kept lost kept s) (hne : kept ≠ []) :
    0 < intAt s.lPBuf s.lPBufStart := by
  obtain ⟨e, es, rfl⟩ := List.exists_cons_of_ne_nil hne
  have hrange := hs.laid.range List.mem_cons_self
  have hsize := hs.size
  have hlt := hs.lt
  obtain ⟨rest, hbuf⟩ := hs.ended
  rw [hbuf, List.length_append] at hsize
  have hhead : intAt s.lPBuf s.lPBufStart = ((e.place + 4 + e.record.length : ℕ) : ℤ) := by
    rw [hbuf, hs.start, chain_cons, LogEntry.enc, List.append_assoc, List.append_assoc]
    exact intAt_append [] (by omega) (by omega)
  omega

/-- A dump begins a new row. -/
theorem Kept.dumpLocked (hs : Kept lost kept s) (hne : kept ≠ [])
    (hb : s.binary = true → s.lSize < 1000000000) :
    ∃ t, s.dumpLocked = .ok t ∧ Kept [] [] t ∧ t.printed = s.printed ++ kept.map (·.record) ∧
      t.lSize = s.lSize ∧ t.wrap = s.wrap ∧ t.binary = s.binary ∧ t.sent = s.sent := by
  obtain ⟨o, ho, hprinted⟩ : ∃ o, s.dumped = .ok o ∧ o.printed = kept.map (·.record) := by
    unfold dumped
    by_cases h : s.binary = true
    · rw [if_pos h, if_pos (hb h)]
      refine ⟨_, rfl, ?_⟩
      unfold LogOut.printed
      rw [hs.start]
      change (logDumpBuf (s.lSize.toNat + 1) 0 s.lPBuf).getD [] = _
      rw [hs.logDumpBuf_eq]
      rfl
    · rw [if_neg h, hs.start, hs.logDumpBuf_eq]
      exact ⟨_, rfl, rfl⟩
  obtain ⟨first, rest, hbuf, hfirst⟩ : ∃ first rest, s.lPBuf = first ++ rest ∧ first.length = 4 := by
    obtain ⟨rest, hbuf⟩ := hs.ended
    refine ⟨_, _, (List.take_append_drop 4 s.lPBuf).symm, ?_⟩
    rw [List.length_take, hbuf, List.length_append, List.length_append, intBytes_length]
    omega
  have hsize := hs.size
  have hwrite := write_at (s := { s with
    lPBufStart := 0
    lPBufNext := 0
    out := s.out ++ [o]
    entries := [] }) 0 (intBytes (-1)) [] _ _ hbuf rfl hfirst.symm hs.size
  have hrun : s.dumpLocked = .ok { s with
      lPBuf := intBytes (-1) ++ rest
      lPBufStart := 0
      lPBufNext := 0
      out := s.out ++ [o]
      entries := [] } := by
    unfold LogRing.dumpLocked
    simp only [if_pos (hs.head_pos hne), ho, Except.bind]
    exact hwrite
  refine ⟨_, hrun, ?_, ?_, rfl, rfl, rfl, rfl⟩
  · constructor
    · constructor
      · exact hs.pos
      · exact hs.lt
      · rw [← hsize, hbuf]
        simp only [List.length_append, intBytes_length, hfirst]
      · rfl
      · rfl
      · rfl
      · trivial
      · intro e he
        cases he
      · exact ⟨_, rfl⟩
      · intro hwrap
        obtain ⟨hlost, hall⟩ := hs.all hwrap
        refine ⟨rfl, ?_⟩
        rw [hs.entries, hlost, List.nil_append, ← hprinted] at hall
        exact (List.append_nil _).trans ((printed_concat o).trans hall)
    · exact ⟨_, rfl⟩
    · intro h
      exact absurd rfl h
  · exact (printed_concat o).trans (by rw [hprinted])

/-- A binary dump of a gigabyte is not written. -/
theorem Kept.dumpLocked_abort (hs : Kept lost kept s) (hne : kept ≠ []) (hb : s.binary = true)
    (hbig : ¬ s.lSize < 1000000000) : s.dumpLocked = .error .abort := by
  unfold LogRing.dumpLocked dumped
  rw [if_pos (hs.head_pos hne), if_pos hb, if_neg hbig]
  rfl

theorem leave_start (h : s.lPBufStart = 0) : s.leave l (n + 1) = .ok s := by
  unfold leave
  rw [if_neg]
  rintro ⟨hlt, -⟩
  omega

theorem Room.overflow_iff (hs : Room lost kept s) :
    s.Overflow l ↔ s.lSize ≤ ((s.lPBufNext + l + 8 : ℕ) : ℤ) := by
  unfold Overflow
  rw [hs.start]
  omega

/-- The end of the row becomes the mark that it goes on at the start of the buffer. -/
theorem Kept.mark (hs : Kept lost kept s) (hplain : s.wrap = false → lost ++ kept = []) :
    ∃ t, (s.write s.lPBufNext (intBytes 0)).map (fun s => { s with lPBufNext := 0 }) = .ok t ∧
      Room ((lost ++ kept).map (.touch s.lPBufNext 4)) [] t ∧ t.lPBufNext = 0 ∧
      t.lSize = s.lSize ∧ t.wrap = s.wrap ∧ t.binary = s.binary := by
  obtain ⟨rest, hbuf⟩ := hs.ended
  have hsize := hs.size
  have hwrite := write_at _ (intBytes 0) _ _ _ hbuf hs.next rfl hs.size
  have hrun : (s.write s.lPBufNext (intBytes 0)).map (fun s => { s with lPBufNext := 0 }) = .ok { s with
      lPBuf := chain kept ++ (intBytes 0 ++ rest)
      lPBufNext := 0
      entries := s.entries.map (.touch s.lPBufNext 4) } := by
    rw [hwrite]
    rfl
  refine ⟨_, hrun, ?_, rfl, rfl, rfl, rfl⟩
  constructor
  · exact hs.pos
  · exact hs.lt
  · rw [← hsize, hbuf]
    simp only [List.length_append, intBytes_length]
  · exact hs.start
  · rfl
  · rw [hs.entries, List.append_nil]
  · trivial
  · intro e he
    cases he
  · exact ⟨_, rfl⟩
  · intro hwrap
    obtain ⟨-, hall⟩ := hs.all hwrap
    rw [hplain hwrap]
    refine ⟨rfl, ?_⟩
    rw [map_record_touch]
    exact hall

/-- Behind the row there is room for the record, or the row begins anew. -/
theorem Kept.makeRoom (hs : Kept lost kept s)
    (hb : s.wrap = false → kept ≠ [] → s.binary = true → s.lSize < 1000000000) :
    ∃ lost' kept' t, s.makeRoom l = .ok t ∧ Room lost' kept' t ∧
      t.lSize = s.lSize ∧ t.wrap = s.wrap ∧ t.binary = s.binary ∧
      (¬ s.Overflow l → lost' = lost ∧ kept' = kept ∧ t.lPBufNext = s.lPBufNext) ∧
      (s.Overflow l → t.lPBufNext = 0) ∧
      (s.Overflow l → s.wrap = true →
        kept' = [] ∧ lost' = (lost ++ kept).map (.touch s.lPBufNext 4)) := by
  have hover : ¬ s.Overrun l := by
    rintro ⟨hlt, -⟩
    rw [hs.start] at hlt
    omega
  unfold LogRing.makeRoom
  by_cases h : s.Overflow l
  · rw [if_pos (.inl h)]
    by_cases hwrap : s.wrap = true
    · obtain ⟨t, ht, hroom, hnext, hsize, hw, hbin⟩ := hs.mark fun h => by
        rw [hwrap] at h
        cases h
      simp only [if_pos hwrap, Except.bind, if_pos h, ht, leave_start hroom.start]
      exact ⟨_, _, t, rfl, hroom, hsize, hw, hbin, fun hn => absurd h hn, fun _ => hnext,
        fun _ _ => ⟨rfl, rfl⟩⟩
    · have hplain := Bool.eq_false_of_not_eq_true hwrap
      -- the row is dumped, if it has a record, and the new one is empty
      obtain ⟨u, hu, hkept, hsize, hw, hbin⟩ : ∃ u, s.dumpLocked = .ok u ∧ Kept [] [] u ∧
          u.lSize = s.lSize ∧ u.wrap = s.wrap ∧ u.binary = s.binary := by
        by_cases hne : kept = []
        · subst hne
          obtain ⟨rfl, -⟩ := hs.all hplain
          exact ⟨s, hs.dumpLocked_nil, hs, rfl, rfl, rfl⟩
        · obtain ⟨u, hu, hkept, -, hsize, hw, hbin, -⟩ := hs.dumpLocked hne (hb hplain hne)
          exact ⟨u, hu, hkept, hsize, hw, hbin⟩
      simp only [if_neg hwrap, hu, Except.bind]
      by_cases h' : u.Overflow l
      · obtain ⟨t, ht, hroom, hnext, hsize', hw', hbin'⟩ := hkept.mark fun _ => rfl
        simp only [if_pos h', ht, leave_start hroom.start]
        exact ⟨_, _, t, rfl, hroom, hsize'.trans hsize, hw'.trans hw, hbin'.trans hbin,
          fun hn => absurd h hn, fun _ => hnext, fun _ ht => absurd ht hwrap⟩
      · simp only [if_neg h', leave_start hkept.start]
        exact ⟨_, _, u, rfl, hkept.toRoom, hsize, hw, hbin, fun hn => absurd h hn,
          fun _ => hkept.next, fun _ ht => absurd ht hwrap⟩
  · rw [if_neg (not_or.mpr ⟨h, hover⟩)]
    exact ⟨lost, kept, s, rfl, hs.toRoom, rfl, rfl, rfl, fun _ => ⟨rfl, rfl, rfl⟩,
      fun hn => absurd hn h, fun hn => absurd hn h⟩

/-- The writes of a record of `l` bytes at `a`. -/
def covered (a l : ℕ) (e : LogEntry) : LogEntry :=
  ((e.touch (a + 4) l).touch a 4).touch (a + 4 + l) 4

theorem covered_overwritten : (covered a l e).overwritten = true ↔
    e.overwritten = true ∨ a < e.place + 4 + e.record.length ∧ e.place < a + l + 8 := by
  unfold covered
  rw [touch_overwritten, touch_overwritten, touch_overwritten]
  simp only [touch_place, touch_record, or_assoc]
  refine or_congr Iff.rfl ?_
  omega

theorem map_covered_behind (h : ∀ e ∈ es, e.place + 4 + e.record.length ≤ a) :
    es.map (covered a l) = es := by
  have hmap : es.map (covered a l) =
      ((es.map (.touch (a + 4) l)).map (.touch a 4)).map (.touch (a + 4 + l) 4) := by
    rw [List.map_map, List.map_map]
    rfl
  have hfar : ∀ b, a ≤ b → ∀ e ∈ es, e.place + 4 + e.record.length ≤ b :=
    fun b hb e he => (h e he).trans hb
  rw [hmap, map_touch_behind (hfar (a + 4) (by omega)), map_touch_behind h,
    map_touch_behind (hfar (a + 4 + l) (by omega))]

theorem exists_split {l : List UInt8} (h : n ≤ l.length) : ∃ xs ys, l = xs ++ ys ∧ xs.length = n :=
  ⟨l.take n, l.drop n, (List.take_append_drop n l).symm, List.length_take_of_le h⟩

/-- A record goes to the end of the row. -/
theorem Room.put (hs : Room lost kept s)
    (hfit : ((s.lPBufNext + r.length + 8 : ℕ) : ℤ) ≤ s.lSize) :
    ∃ t, s.put r = .ok t ∧ t.lSize = s.lSize ∧ t.wrap = s.wrap ∧ t.binary = s.binary ∧
      Kept (lost.map (covered s.lPBufNext r.length)) (kept ++ [⟨s.lPBufNext, r, false⟩]) t := by
  obtain ⟨rest, hbuf⟩ := hs.row
  have hsize := hs.size
  have hlt := hs.lt
  have hnext := hs.next
  rw [hbuf, List.length_append] at hsize
  obtain ⟨head, rest, rfl, hhead⟩ := exists_split (l := rest) (n := 4) (by omega)
  rw [List.length_append] at hsize
  obtain ⟨body, rest, rfl, hbody⟩ := exists_split (l := rest) (n := r.length) (by omega)
  rw [List.length_append] at hsize
  obtain ⟨tail, rest, rfl, htail⟩ := exists_split (l := rest) (n := 4) (by omega)
  rw [List.length_append] at hsize
  have hsum : (chain kept).length + 4 + r.length + 4 + rest.length = s.lPBuf.length := by
    rw [hbuf]
    simp only [List.length_append]
    omega
  have hone := write_at (s.lPBufNext + 4) r (chain kept ++ head) body (tail ++ rest) (by rw [hbuf]; simp only [List.append_assoc])
    (by rw [List.length_append, hnext, hhead]) hbody.symm hs.size
  have htwo := write_at (s := { s with
      lPBuf := chain kept ++ head ++ (r ++ (tail ++ rest))
      entries := s.entries.map (.touch (s.lPBufNext + 4) r.length) }) s.lPBufNext
    (intBytes ((s.lPBufNext + 4 + r.length : ℕ) : ℤ)) (chain kept) head (r ++ (tail ++ rest)) (List.append_assoc ..) hnext hhead.symm (by
      rw [← hs.size, ← hsum]
      simp only [List.length_append, hhead, htail]
      omega)
  have hthree := write_at (s := { s with
      lPBuf := chain kept ++ (intBytes ((s.lPBufNext + 4 + r.length : ℕ) : ℤ) ++ (r ++ (tail ++ rest)))
      entries := (s.entries.map (.touch (s.lPBufNext + 4) r.length)).map (.touch s.lPBufNext 4) })
    (s.lPBufNext + 4 + r.length) (intBytes (-1))
    (chain kept ++ (intBytes ((s.lPBufNext + 4 + r.length : ℕ) : ℤ) ++ r)) tail rest (by simp only [List.append_assoc])
    (by simp only [List.length_append, intBytes_length, hnext]; omega) htail.symm (by
      rw [← hs.size, ← hsum]
      simp only [List.length_append, intBytes_length, htail]
      omega)
  have hrow : chain (kept ++ [⟨s.lPBufNext, r, false⟩]) =
      chain kept ++ (intBytes ((s.lPBufNext + 4 + r.length : ℕ) : ℤ) ++ r) := by
    rw [chain_append, chain_cons, LogEntry.enc]
    exact congrArg (chain kept ++ ·) (List.append_nil _)
  have hrun : s.put r = .ok { s with
      lPBuf := chain kept ++ (intBytes ((s.lPBufNext + 4 + r.length : ℕ) : ℤ) ++ r) ++
        (intBytes (-1) ++ rest)
      lPBufNext := s.lPBufNext + 4 + r.length
      sent := s.sent ++ [r]
      entries := s.entries.map (covered s.lPBufNext r.length) ++ [⟨s.lPBufNext, r, false⟩] } := by
    unfold LogRing.put
    simp only [hone, Except.bind, htwo, intBytes_length, hthree, Except.map]
    rw [List.map_map, List.map_map]
    rfl
  have hbehind : kept.map (covered s.lPBufNext r.length) = kept := by
    apply map_covered_behind
    intro e he
    have hrange := hs.laid.range he
    omega
  refine ⟨_, hrun, rfl, rfl, rfl, ?_⟩
  constructor
  · constructor
    · exact hs.pos
    · exact hs.lt
    · rw [← hs.size, ← hsum]
      simp only [List.length_append, intBytes_length]
      omega
    · exact hs.start
    · rw [hrow]
      simp only [List.length_append, intBytes_length, hnext]
      omega
    · change s.entries.map (covered s.lPBufNext r.length) ++ [_] = _
      rw [hs.entries, List.map_append, hbehind, List.append_assoc]
    · exact hs.laid.concat (by rw [Nat.zero_add]; exact hnext)
    · intro e he
      rcases List.mem_append.mp he with he | he
      · exact hs.fresh e he
      · rw [List.mem_singleton.mp he]
    · rw [hrow]
      exact ⟨_, rfl⟩
    · intro hwrap
      obtain ⟨rfl, hall⟩ := hs.all hwrap
      refine ⟨rfl, ?_⟩
      change s.printed ++ (s.entries.map (covered s.lPBufNext r.length) ++ [_]).map _ = s.sent ++ [r]
      rw [hs.entries, List.nil_append] at hall ⊢
      rw [hbehind, List.map_append, ← List.append_assoc, hall]
      rfl
  · rw [hrow]
    exact ⟨rest, rfl⟩
  · intro _ h
    exact List.cons_ne_nil _ [] (List.append_eq_nil_iff.mp h).2

/-- A record that does not fit is not put. -/
theorem put_ok (h : s.put r = .ok t) : ((s.lPBufNext + r.length + 8 : ℕ) : ℤ) ≤ s.lSize := by
  obtain ⟨u, hu, h⟩ := except_bind_ok h
  obtain ⟨v, hv, h⟩ := except_bind_ok h
  obtain ⟨w, hw, -⟩ := except_map_ok h
  have hlast := (write_ok hw).1
  rw [(write_ok hv).2, (write_ok hu).2, intBytes_length] at hlast
  omega

/-- What is printed by a dump is the row. -/
theorem Kept.logDump (hs : Kept lost kept s)
    (hb : kept ≠ [] → s.binary = true → s.lSize < 1000000000) :
    ∃ t, s.logDump = .ok t ∧ t.printed = s.printed ++ kept.map (·.record) ∧
      (t = s ∨ Kept [] [] t) := by
  unfold LogRing.logDump
  rw [if_neg (Int.not_le.mpr hs.pos)]
  by_cases hne : kept = []
  · subst hne
    exact ⟨s, hs.dumpLocked_nil, (List.append_nil _).symm, .inl rfl⟩
  · obtain ⟨t, ht, hkept, hprinted, -⟩ := hs.dumpLocked hne (hb hne)
    exact ⟨t, ht, hprinted, .inr hkept⟩

theorem Kept.right_iff (hs : Kept lost kept s) : s.Right ↔
    (kept ≠ [] → s.binary = true → s.lSize < 1000000000) ∧
      (s.wrap = true → ∀ e ∈ lost, e.overwritten = true) := by
  constructor
  · rintro ⟨t, lost', kept', ht, hentries, hprinted, -, hwrap, -⟩
    have hb : kept ≠ [] → s.binary = true → s.lSize < 1000000000 := by
      intro hne hbin
      by_contra hbig
      unfold LogRing.logDump at ht
      rw [if_neg (Int.not_le.mpr hs.pos), hs.dumpLocked_abort hne hbin hbig] at ht
      cases ht
    obtain ⟨u, hu, hrow, -⟩ := hs.logDump hb
    rw [ht] at hu
    cases hu
    have hsame : kept'.map (·.record) = kept.map (·.record) :=
      List.append_cancel_left (hprinted.symm.trans hrow)
    have hlen : kept.length = kept'.length := by
      simpa only [List.length_map] using (congrArg List.length hsame).symm
    obtain ⟨hlost, -⟩ := List.append_inj' (hs.entries.symm.trans hentries) hlen
    exact ⟨hb, fun hw => hlost ▸ hwrap hw⟩
  · rintro ⟨hb, hwrap⟩
    obtain ⟨t, ht, hprinted, -⟩ := hs.logDump hb
    refine ⟨t, lost, kept, ht, hs.entries, hprinted, ?_, hwrap, ?_⟩
    · intro hne hnil
      subst hnil
      by_cases hlost : lost = []
      · rw [hs.entries, hlost] at hne
        exact hne rfl
      · exact hs.last hlost rfl
    · intro hplain
      obtain ⟨rfl, hall⟩ := hs.all hplain
      rw [hprinted, ← hall, hs.entries, List.nil_append]

/-- `Log` of a record that is not below the level. -/
theorem Kept.log (hs : Kept lost kept s) (hr : s.Right) {level : ℤ} (hlevel : level ≤ s.lLevel) :
    (((r.length + 8 : ℕ) : ℤ) ≤ s.lSize → ∃ lost' kept' t, s.log level r = .ok t ∧
      Kept lost' kept' t ∧ kept' ≠ [] ∧ t.lSize = s.lSize ∧ t.wrap = s.wrap ∧ t.binary = s.binary ∧
      (s.wrap = true → ((∀ e ∈ lost', e.overwritten = true) ↔
        (s.Overflow r.length → ∀ e ∈ kept, e.place < r.length + 8)))) ∧
    ∀ t, s.log level r = .ok t → ((r.length + 8 : ℕ) : ℤ) ≤ s.lSize := by
  obtain ⟨hb, hlost⟩ := hs.right_iff.mp hr
  obtain ⟨lost', kept', u, hu, hroom, hsize, hw, hbin, hstay, hzero, hwrap⟩ :=
    hs.makeRoom (l := r.length) fun _ => hb
  have hlog : s.log level r = u.put r := by
    unfold LogRing.log
    rw [if_neg (Int.not_lt.mpr hlevel), if_neg (Int.not_le.mpr hs.pos), hu]
    rfl
  rw [hlog]
  constructor
  · intro hfit
    have hroomy : ((u.lPBufNext + r.length + 8 : ℕ) : ℤ) ≤ u.lSize := by
      rw [hsize]
      by_cases ho : s.Overflow r.length
      · rw [hzero ho, Nat.zero_add]
        exact hfit
      · rw [(hstay ho).2.2]
        rw [hs.overflow_iff] at ho
        omega
    obtain ⟨t, ht, hsize', hw', hbin', hkept⟩ := hroom.put hroomy
    refine ⟨_, _, t, ht, hkept, List.append_ne_nil_of_right_ne_nil _ (List.cons_ne_nil _ []),
      hsize'.trans hsize, hw'.trans hw, hbin'.trans hbin, ?_⟩
    intro hwraps
    have hlost := hlost hwraps
    by_cases ho : s.Overflow r.length
    · obtain ⟨-, rfl⟩ := hwrap ho hwraps
      rw [hzero ho]
      constructor
      · intro h _ e he
        have hrange := hs.laid.range he
        have hnext := hs.next
        have hcovered := h _ (List.mem_map_of_mem (List.mem_map_of_mem
          (List.mem_append_right lost he)))
        rw [covered_overwritten, touch_overwritten, hs.fresh e he] at hcovered
        simp only [touch_place, touch_record, Bool.false_eq_true, false_or] at hcovered
        omega
      · intro h e he
        obtain ⟨f, hf, rfl⟩ := List.mem_map.mp he
        obtain ⟨g, hg, rfl⟩ := List.mem_map.mp hf
        rw [covered_overwritten, touch_overwritten]
        rcases List.mem_append.mp hg with hg | hg
        · exact .inl (.inl (hlost g hg))
        · have hplace := h ho g hg
          refine .inr ⟨?_, ?_⟩
          · rw [touch_place]
            omega
          · rw [touch_place]
            omega
    · obtain ⟨rfl, -, -⟩ := hstay ho
      refine iff_of_true ?_ fun h => absurd h ho
      intro e he
      obtain ⟨f, hf, rfl⟩ := List.mem_map.mp he
      exact covered_overwritten.mpr (.inl (hlost f hf))
  · intro t ht
    have hfit := put_ok ht
    rw [hsize] at hfit
    omega

theorem create_kept {size level : ℤ} {wrap binary : Bool} {junk : ℕ → UInt8}
    (hsize : size < 2 ^ 31) (h : create size level wrap binary junk = .ok s) :
    (s.lSize ≤ 0 ∧ s.entries = [] ∧ s.printed = s.sent) ∨ Kept [] [] s := by
  unfold create at h
  split_ifs at h with hpos
  · have hfit := (write_ok h).1
    change ((0 + 4 : ℕ) : ℤ) ≤ size at hfit
    obtain ⟨first, rest, hbuf, hfirst⟩ := exists_split (l := (List.range size.toNat).map junk)
      (n := 4) (by rw [List.length_map, List.length_range]; omega)
    have hlen : (((List.range size.toNat).map junk).length : ℤ) = size := by
      rw [List.length_map, List.length_range]
      omega
    have hwrite := write_at (s := {
        lSize := size
        lLevel := level
        wrap := wrap
        binary := binary
        lPBuf := (List.range size.toNat).map junk }) 0 (intBytes (-1)) [] _ _ hbuf rfl hfirst.symm hlen
    cases hwrite.symm.trans h
    refine .inr ?_
    constructor
    · constructor
      · exact hpos
      · exact hsize
      · rw [hbuf, List.length_append, hfirst] at hlen
        rw [← hlen, List.nil_append, List.length_append, intBytes_length]
      · rfl
      · rfl
      · rfl
      · trivial
      · intro e he
        cases he
      · exact ⟨_, rfl⟩
      · exact fun _ => ⟨rfl, rfl⟩
    · exact ⟨_, rfl⟩
    · intro h
      exact absurd rfl h
  · cases h
    exact .inl ⟨Int.not_lt.mp hpos, rfl, rfl⟩

/-- What every call keeps: no buffer, or a row in it. -/
def Sound (s : LogRing) : Prop :=
  (s.lSize ≤ 0 ∧ s.entries = [] ∧ s.printed = s.sent) ∨ ∃ lost kept, Kept lost kept s

/-- Without a buffer nothing is left to dump. -/
theorem right_unbuffered (hsize : s.lSize ≤ 0) (hnone : s.entries = []) (hall : s.printed = s.sent) :
    s.Right := by
  refine ⟨s, [], [], ?_, hnone, (List.append_nil _).symm, fun h => absurd hnone h, ?_, fun _ => hall⟩
  · unfold LogRing.logDump
    rw [if_pos hsize]
  · intro _ e he
    cases he

theorem Kept.right_empty (hs : Kept [] [] s) : s.Right := by
  refine hs.right_iff.mpr ⟨fun h => absurd rfl h, ?_⟩
  intro _ e he
  cases he

/-- Without a buffer a record is printed at once. -/
theorem log_unbuffered (hsize : s.lSize ≤ 0) (hall : s.printed = s.sent) (level : ℤ)
    (r : List UInt8) : ∃ t, s.log level r = .ok t ∧ t.lSize ≤ 0 ∧ t.entries = s.entries ∧
      t.printed = t.sent := by
  unfold LogRing.log
  by_cases hlevel : s.lLevel < level
  · rw [if_pos hlevel]
    exact ⟨s, rfl, hsize, rfl, hall⟩
  · rw [if_neg hlevel, if_pos hsize]
    refine ⟨_, rfl, hsize, rfl, ?_⟩
    change ({ s with out := s.out ++ [.text [r]] } : LogRing).printed = s.sent ++ [r]
    rw [printed_concat, hall]
    rfl

theorem Sound.step_kept {i : LogOp} (hs : s.Sound) (hr : s.Right) (h : step s i = .ok t) : t.Sound := by
  rcases hs with ⟨hsize, hnone, hall⟩ | ⟨lost, kept, hs⟩
  · refine .inl ?_
    cases i with
    | log level r =>
        obtain ⟨u, hu, hsize', hnone', hall'⟩ := log_unbuffered hsize hall level r
        cases h.symm.trans hu
        exact ⟨hsize', hnone'.trans hnone, hall'⟩
    | dump =>
        cases h.symm.trans (if_pos hsize)
        exact ⟨hsize, hnone, hall⟩
  · refine .inr ?_
    cases i with
    | log level r =>
        by_cases hlevel : s.lLevel < level
        · cases h.symm.trans (if_pos hlevel)
          exact ⟨lost, kept, hs⟩
        · obtain ⟨hput, hfits⟩ := hs.log (r := r) hr (Int.not_lt.mp hlevel)
          obtain ⟨lost', kept', u, hu, hkept, -⟩ := hput (hfits t h)
          cases h.symm.trans hu
          exact ⟨lost', kept', hkept⟩
    | dump =>
        obtain ⟨u, hu, -, hkept⟩ := hs.logDump (hs.right_iff.mp hr).1
        cases h.symm.trans hu
        rcases hkept with rfl | hkept
        · exact ⟨lost, kept, hs⟩
        · exact ⟨[], [], hkept⟩

/-- A call ends well exactly if it meets the condition. -/
theorem Sound.right_iff {i : LogOp} (hs : s.Sound) (hr : s.Right) :
    (∃ t, step s i = .ok t ∧ t.Right) ↔ s.Reaching i := by
  rcases hs with ⟨hsize, hnone, hall⟩ | ⟨lost, kept, hs⟩
  · refine iff_of_true ?_ ?_
    · cases i with
      | log level r =>
          obtain ⟨t, ht, hsize', hnone', hall'⟩ := log_unbuffered hsize hall level r
          exact ⟨t, ht, right_unbuffered hsize' (hnone'.trans hnone) hall'⟩
      | dump => exact ⟨s, if_pos hsize, hr⟩
    · cases i with
      | log level r => exact fun _ hpos => absurd hsize (Int.not_le.mpr hpos)
      | dump => trivial
  · obtain ⟨hb, hlost⟩ := hs.right_iff.mp hr
    cases i with
    | dump =>
        refine iff_of_true ?_ trivial
        obtain ⟨t, ht, -, hkept⟩ := hs.logDump hb
        refine ⟨t, ht, ?_⟩
        rcases hkept with rfl | hkept
        · exact hr
        · exact hkept.right_empty
    | log level r =>
        by_cases hlevel : s.lLevel < level
        · exact iff_of_true ⟨s, if_pos hlevel, hr⟩ fun h => absurd hlevel (Int.not_lt.mpr h)
        · obtain ⟨hput, hfits⟩ := hs.log (r := r) hr (Int.not_lt.mp hlevel)
          constructor
          · rintro ⟨t, ht, hright⟩ - -
            have hfit := hfits t ht
            obtain ⟨lost', kept', u, hu, hkept, hne, hsize, hw, hbin, hiff⟩ := hput hfit
            cases ht.symm.trans hu
            obtain ⟨hb', hlost'⟩ := hkept.right_iff.mp hright
            refine ⟨hfit, ?_, ?_⟩
            · intro h
              rw [← hsize]
              exact hb' hne (hbin.trans h)
            · intro hwrap ho e he
              refine (hiff hwrap).mp (hlost' (hw.trans hwrap)) ho e ?_
              have hne : kept ≠ [] := by
                intro hnil
                have hnone := mt hs.last (not_not.mpr hnil)
                rw [hs.entries, hnil, not_not.mp hnone] at he
                cases he
              rw [hs.entries, List.getLast?_append_of_ne_nil _ hne] at he
              exact List.mem_of_getLast? he
          · intro h
            obtain ⟨hfit, hbig, hreach⟩ := h (Int.not_lt.mp hlevel) hs.pos
            obtain ⟨lost', kept', u, hu, hkept, hne, hsize, hw, hbin, hiff⟩ := hput hfit
            refine ⟨u, hu, hkept.right_iff.mpr ⟨?_, ?_⟩⟩
            · intro _ h
              rw [hsize]
              exact hbig (hbin.symm.trans h)
            · intro hwrap
              rw [hw] at hwrap
              rw [hiff hwrap]
              intro ho e he
              obtain ⟨last, hlast⟩ := Option.isSome_iff_exists.mp
                (List.getLast?_isSome.mpr (List.ne_nil_of_mem he))
              refine (hs.laid.le_last hlast he).trans_lt (hreach hwrap ho last ?_)
              rw [hs.entries, List.getLast?_append_of_ne_nil _ (List.ne_nil_of_mem he)]
              exact hlast

/-- After every call a dump ends and prints the last records, and what it leaves out was
overwritten, and without `LOG_FLAG_WRAP` each record is printed once, exactly if every
call meets the condition. -/
theorem logRing_right_iff {size level : ℤ} {wrap binary : Bool} {junk : ℕ → UInt8}
    (hsize : size < 2 ^ 31) (h : create size level wrap binary junk = .ok s) (ops : List LogOp) :
    (∀ js ks, ops = js ++ ks → ∃ t, run step s js = .ok t ∧ t.Right) ↔
      Along step Reaching s ops := by
  have hright : s.Right := by
    rcases create_kept hsize h with ⟨hsize, hnone, hall⟩ | hkept
    · exact right_unbuffered hsize hnone hall
    · exact hkept.right_empty
  have hsound : s.Sound := (create_kept hsize h).imp id fun hkept => ⟨[], [], hkept⟩
  exact goes_iff_along (fun s i t hs hr ht => hs.step_kept hr ht) (fun s i hs hr => hs.right_iff hr)
    hsound hright

/-- Two records fill the buffer, and the third one goes over both. -/
def round : List LogOp :=
  [.log 1 (List.replicate 12 1), .log 1 (List.replicate 12 2), .log 1 (List.replicate 12 3), .dump]

theorem logRing_right_iff_round : ∃ s, create 40 3 true false (fun _ => 0) = .ok s ∧
    ∀ js ks, round = js ++ ks → ∃ t, run step s js = .ok t ∧ t.Right := by
  refine ⟨_, rfl, (logRing_right_iff (show (40 : ℤ) < 2 ^ 31 by omega) rfl round).mpr ?_⟩
  refine ⟨?_, fun t ht => ?_⟩
  · intro _ _
    refine ⟨by decide, fun h => absurd h (by decide), ?_⟩
    intro _ _ e he
    cases he
  cases ht
  refine ⟨?_, fun t ht => ?_⟩
  · intro _ _
    refine ⟨by decide, fun h => absurd h (by decide), ?_⟩
    intro _ _ e he
    cases he
    decide
  cases ht
  refine ⟨?_, fun t ht => ?_⟩
  · intro _ _
    refine ⟨by decide, fun h => absurd h (by decide), ?_⟩
    intro _ _ e he
    cases he
    decide
  exact ⟨trivial, fun _ _ => trivial⟩

/-- The third record is whole in the buffer when the fourth one goes to the start, and is
not printed any more. -/
theorem logRing_not_right : ¬ ∀ size level wrap binary junk s ops, size < 2 ^ 31 →
    create size level wrap binary junk = .ok s →
    (∀ level r, .log level r ∈ ops → ((r.length + 8 : ℕ) : ℤ) ≤ size) →
    ∃ t, run step s ops = .ok t ∧ t.Right := by
  intro h
  obtain ⟨t, ht, hright⟩ := h 56 3 true false (fun _ => 0) _ [.log 1 (List.replicate 12 1),
    .log 1 (List.replicate 12 2), .log 1 (List.replicate 12 3), .log 1 (List.replicate 12 4)]
    (by omega) rfl (by
      intro level r hr
      simp only [List.mem_cons, LogOp.log.injEq, List.not_mem_nil, or_false] at hr
      rcases hr with ⟨-, rfl⟩ | ⟨-, rfl⟩ | ⟨-, rfl⟩ | ⟨-, rfl⟩ <;> decide)
  have hentries : t.entries.map (fun e => (e.place, e.overwritten)) =
      [(0, true), (16, true), (32, false)] ++ [(0, false)] := by
    cases ht
    decide
  have hdump : t.logDump.toOption.map (·.printed) = some [List.replicate 12 4] := by
    cases ht
    decide
  have hout : t.printed = [] ∧ t.wrap = true := by
    cases ht
    exact ⟨rfl, rfl⟩
  obtain ⟨u, lost, kept, hu, hsplit, hprinted, -, hlost, -⟩ := hright
  rw [hu] at hdump
  rw [hout.1, show u.printed = _ from Option.some.inj hdump] at hprinted
  have hone : kept.length = 1 := by simpa using (congrArg List.length hprinted).symm
  rw [hsplit, List.map_append] at hentries
  have hmap := List.append_inj_left' hentries (by rw [List.length_map, hone]; rfl)
  have hmem : (32, false) ∈ lost.map fun e => (e.place, e.overwritten) := by
    rw [hmap]
    decide
  obtain ⟨e, he, heq⟩ := List.mem_map.mp hmem
  have hwritten := hlost hout.2 e he
  rw [(Prod.mk.inj heq).2] at hwritten
  cases hwritten

end LogRing
end PaxosSolutions.NWGadget
