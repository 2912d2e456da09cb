import PaxosSolutions.NWGadget.CksumMsg
import PaxosSolutions.Lib.File

/-!
# Attribute files

The attributes of an item are written to a file as they are in memory: a head, in which
the first entry is embedded, and the other entries behind it. How many there are is in the
head. The length of a write is kept in an `int`.
-/
namespace PaxosSolutions.Memcache
open Lib NWGadget

/-- `sizeof(MemItemAttr_t)` -/
abbrev sizeofAttr : ℕ := 128

/-- `sizeof(MemItemAttrs_t)`, with one entry -/
abbrev sizeofAttrs : ℕ := 24 + sizeofAttr

/-- `MemItemAttr_t`. Its fields go to the file with whatever is between them. -/
structure MemItemAttr where
  bytes : Vector UInt8 sizeofAttr
deriving DecidableEq, Repr

/-- `MemItemAttrs_t` with all the entries that its memory has -/
structure MemItemAttrs where
  aMetaCAS : UInt64
  aEpoch : UInt64
  aI : ℤ
  aN : ℤ
  aAttr : List MemItemAttr
deriving DecidableEq, Repr

namespace MemItemAttrs

/-- A list that the memory can have: the counts are an `int` each, and there are as many
entries as `a_N` says, the embedded one always. -/
structure Sound (l : MemItemAttrs) : Prop where
  current : -2 ^ 31 ≤ l.aI ∧ l.aI < 2 ^ 31
  range : 0 ≤ l.aN ∧ l.aN < 2 ^ 31
  embedded : 1 ≤ l.aAttr.length
  entries : l.aN ≤ l.aAttr.length

/-- The head of the list in memory -/
def head (l : MemItemAttrs) : List UInt8 :=
  leBytes 8 l.aMetaCAS.toNat ++ (leBytes 8 l.aEpoch.toNat ++ (intBytes l.aI ++ intBytes l.aN))

/-- The memory of the list -/
def bytes (l : MemItemAttrs) : List UInt8 := l.head ++ l.aAttr.flatMap fun a => a.bytes.toList

end MemItemAttrs

/-- The entry that begins a part of the memory -/
def attrOf (mem : List UInt8) : MemItemAttr := ⟨Vector.ofFn fun i => mem.getD i 0⟩

def attrsOf : ℕ → List UInt8 → List MemItemAttr
  | 0, _ => []
  | n + 1, mem => attrOf mem :: attrsOf n (mem.drop sizeofAttr)

/-- A word of the memory -/
def wordAt (mem : List UInt8) (off n : ℕ) : ℕ := Nat.ofDigits 256 (((mem.drop off).take n).map UInt8.toNat)

/-- The list that a memory is -/
def memAttrs (mem : List UInt8) : MemItemAttrs where
  aMetaCAS := UInt64.ofNat (wordAt mem 0 8)
  aEpoch := UInt64.ofNat (wordAt mem 8 8)
  aI := bytesInt ((mem.drop 16).take 4)
  aN := bytesInt ((mem.drop 20).take 4)
  aAttr := attrsOf ((mem.length - 24) / sizeofAttr) (mem.drop 24)

/-- `Malloc`: what is in the memory is not known. -/
def malloc (junk : ℕ → UInt8) (n : ℕ) : List UInt8 := (List.range n).map junk

/-- `PFSWrite`. A length that is negative as an `int` is more than any buffer has. -/
def PFSWrite (pFile : File) (pBuff : List UInt8) (len : ℤ) : Option File :=
  if 0 ≤ len ∧ len ≤ pBuff.length then some (pFile.write (pBuff.take len.toNat)) else none

/-- `PFSRead` into the front of a buffer -/
def PFSRead (pFile : File) (pBuff : List UInt8) (len : ℤ) : Option (List UInt8 × File) :=
  if 0 ≤ len ∧ len ≤ pBuff.length then
    let (bs, pFile) := pFile.read len.toNat
    some (bs ++ pBuff.drop bs.length, pFile)
  else none

/-- The `int Len` of `WriteAttr` -/
def writeLen (aN : ℤ) : ℤ := int32 (sizeofAttrs + (aN - 1) * sizeofAttr)

/-- The `int Len` of `ReadAttr` -/
def readLen (aN : ℤ) : ℤ := int32 ((aN - 1) * sizeofAttr)

/-- `WriteAttr`: the file behind it. A file is opened at its start. -/
def WriteAttr (pAttrs : MemItemAttrs) (file : List UInt8) : Option (List UInt8) :=
  (PFSWrite ⟨file, 0⟩ pAttrs.bytes (writeLen pAttrs.aN)).map File.bytes

/-- `ReadAttr` -/
def ReadAttr (junk junkNew : ℕ → UInt8) (file : List UInt8) : Option MemItemAttrs := do
  let (pAttrs, pFile) ← PFSRead ⟨file, 0⟩ (malloc junk sizeofAttrs) sizeofAttrs
  let aN := (memAttrs pAttrs).aN
  if 1 < aN then do
    let len := readLen aN
    -- a negative length is added to the size of the head as a `size_t`
    if len < 0 then none
    else do
      let (entries, _) ← PFSRead pFile (malloc junkNew len.toNat) len
      some (memAttrs (pAttrs ++ entries))
  else some (memAttrs pAttrs)

/-- A row of calls of `WriteAttr` -/
def writeAttrs : List MemItemAttrs → List UInt8 → Option (List UInt8)
  | [], file => some file
  | l :: ls, file => do
      let file ← WriteAttr l file
      writeAttrs ls file

namespace MemItemAttrs

/-- What is read is what was written: the entries are those that `a_N` counts. -/
structure Equal (r l : MemItemAttrs) : Prop where
  metaCAS : r.aMetaCAS = l.aMetaCAS
  epoch : r.aEpoch = l.aEpoch
  count : r.aN = l.aN
  size : l.aN ≤ r.aAttr.length
  entries : r.aAttr.take l.aN.toNat = l.aAttr.take l.aN.toNat

end MemItemAttrs

/-- The list that was written last is read. -/
def ReadsLast (ls : List MemItemAttrs) (l : MemItemAttrs) (file : List UInt8) (junk junkNew : ℕ → UInt8) :
    Prop :=
  ∃ file' r, writeAttrs (ls ++ [l]) file = some file' ∧ ReadAttr junk junkNew file' = some r ∧ r.Equal l

section Lengths
variable {n : ℤ}

theorem writeLen_fits (hfit : n % 2 ^ 25 < 2 ^ 24) :
    writeLen n = 24 + 128 * (n % 2 ^ 25) := by
  change Int.bmod (152 + (n - 1) * 128) 0x100000000 = 24 + 128 * (n % 2 ^ 25)
  rw [Int.bmod_def]
  split <;> omega

theorem writeLen_wraps (hfit : ¬ n % 2 ^ 25 < 2 ^ 24) : writeLen n < 0 := by
  change Int.bmod (152 + (n - 1) * 128) 0x100000000 < 0
  rw [Int.bmod_def]
  split <;> omega

theorem readLen_fits (hfit : (n - 1) % 2 ^ 25 < 2 ^ 24) :
    readLen n = 128 * ((n - 1) % 2 ^ 25) := by
  change Int.bmod ((n - 1) * 128) 0x100000000 = 128 * ((n - 1) % 2 ^ 25)
  rw [Int.bmod_def]
  split <;> omega

theorem readLen_wraps (hfit : ¬ (n - 1) % 2 ^ 25 < 2 ^ 24) : readLen n < 0 := by
  change Int.bmod ((n - 1) * 128) 0x100000000 < 0
  rw [Int.bmod_def]
  split <;> omega

end Lengths

section Memory
variable {l : MemItemAttrs} {mem rest : List UInt8} {as : List MemItemAttr} {n m : ℕ}

theorem slice_append {pre mid post : List UInt8} (hpre : pre.length = n) (hmid : mid.length = m) :
    ((pre ++ (mid ++ post)).drop n).take m = mid := by
  rw [List.drop_left' hpre, List.take_left' hmid]

@[simp] theorem head_length (l : MemItemAttrs) : l.head.length = 24 := by
  unfold MemItemAttrs.head
  rw [List.length_append, List.length_append, List.length_append, leBytes_length, leBytes_length,
    intBytes_length, intBytes_length]

theorem flatMap_length (as : List MemItemAttr) :
    (as.flatMap fun a => a.bytes.toList).length = 128 * as.length := by
  induction as with
  | nil => rfl
  | cons a as ih =>
      rw [List.flatMap_cons, List.length_append, ih, Vector.length_toList, List.length_cons, Nat.mul_succ,
        Nat.add_comm]

theorem wordAt_leBytes {pre post : List UInt8} (w : UInt64) (hpre : pre.length = n) :
    UInt64.ofNat (wordAt (pre ++ (leBytes 8 w.toNat ++ post)) n 8) = w := by
  unfold wordAt
  rw [slice_append hpre leBytes_length, ofDigits_leBytes, Nat.mod_eq_of_lt (by exact w.toNat_lt),
    UInt64.ofNat_toNat]

/-- What the head of a memory says -/
theorem memAttrs_head (hs : l.Sound) (rest : List UInt8) : (memAttrs (l.head ++ rest)).aMetaCAS = l.aMetaCAS ∧
    (memAttrs (l.head ++ rest)).aEpoch = l.aEpoch ∧ (memAttrs (l.head ++ rest)).aN = l.aN := by
  obtain ⟨hlo, hhi⟩ := hs.range
  have hfirst : l.head ++ rest = [] ++ (leBytes 8 l.aMetaCAS.toNat ++ (leBytes 8 l.aEpoch.toNat ++
      (intBytes l.aI ++ (intBytes l.aN ++ rest)))) := by
    unfold MemItemAttrs.head
    simp only [List.append_assoc, List.nil_append]
  have hsecond : l.head ++ rest = leBytes 8 l.aMetaCAS.toNat ++ (leBytes 8 l.aEpoch.toNat ++
      (intBytes l.aI ++ (intBytes l.aN ++ rest))) := hfirst
  have hlast : l.head ++ rest = (leBytes 8 l.aMetaCAS.toNat ++ (leBytes 8 l.aEpoch.toNat ++
      intBytes l.aI)) ++ (intBytes l.aN ++ rest) := by
    rw [hsecond]
    simp only [List.append_assoc]
  refine ⟨?_, ?_, ?_⟩
  · unfold memAttrs
    rw [hfirst]
    exact wordAt_leBytes _ rfl
  · unfold memAttrs
    rw [hsecond]
    exact wordAt_leBytes _ leBytes_length
  · unfold memAttrs
    dsimp only
    rw [hlast, slice_append (by simp [leBytes_length]) (intBytes_length _)]
    exact bytesInt_intBytes (by omega) hhi

theorem attrOf_bytes (a : MemItemAttr) (rest : List UInt8) : attrOf (a.bytes.toList ++ rest) = a := by
  obtain ⟨v⟩ := a
  refine congrArg MemItemAttr.mk (Vector.ext fun i hi => ?_)
  rw [Vector.getElem_ofFn, List.getD_eq_getElem?_getD, List.getElem?_append_left (by simpa using hi)]
  simp [hi]

theorem attrsOf_bytes (as : List MemItemAttr) (rest : List UInt8) :
    attrsOf as.length ((as.flatMap fun a => a.bytes.toList) ++ rest) = as := by
  induction as with
  | nil => rfl
  | cons a as ih =>
      rw [List.flatMap_cons, List.append_assoc, List.length_cons, attrsOf, attrOf_bytes,
        List.drop_left' Vector.length_toList, ih]

theorem attrsOf_length (n : ℕ) (mem : List UInt8) : (attrsOf n mem).length = n := by
  induction n generalizing mem with
  | zero => rfl
  | succ n ih => rw [attrsOf, List.length_cons, ih]

theorem attrsOf_take (h : n ≤ m) (mem : List UInt8) : (attrsOf m mem).take n = attrsOf n mem := by
  induction n generalizing m mem with
  | zero => rfl
  | succ n ih =>
      obtain ⟨m, rfl⟩ : ∃ k, m = k + 1 := ⟨m - 1, by omega⟩
      rw [attrsOf, attrsOf, List.take_succ_cons, ih (by omega)]

theorem memAttrs_aAttr (mem : List UInt8) :
    (memAttrs mem).aAttr = attrsOf ((mem.length - 24) / 128) (mem.drop 24) := rfl

/-- The front of a list in memory -/
theorem bytes_take (l : MemItemAttrs) (h : n ≤ l.aAttr.length) : l.bytes.take (24 + 128 * n) =
    l.head ++ (l.aAttr.take n).flatMap fun a => a.bytes.toList := by
  have hsplit : l.bytes = (l.head ++ (l.aAttr.take n).flatMap fun a => a.bytes.toList) ++
      (l.aAttr.drop n).flatMap fun a => a.bytes.toList := by
    unfold MemItemAttrs.bytes
    rw [List.append_assoc, ← List.flatMap_append, List.take_append_drop]
  rw [hsplit, List.take_left']
  rw [List.length_append, head_length, flatMap_length, List.length_take, Nat.min_eq_left h]

/-- A memory that begins with the entries that are counted -/
theorem memAttrs_equal (hs : l.Sound) (rest : List UInt8) : (memAttrs (l.head ++
    (((l.aAttr.take l.aN.toNat).flatMap fun a => a.bytes.toList) ++ rest))).Equal l := by
  obtain ⟨hlo, hhi⟩ := hs.range
  have hle : l.aN.toNat ≤ l.aAttr.length := by
    have := hs.entries
    omega
  obtain ⟨hmeta, hepoch, hcount⟩ := memAttrs_head hs
    (((l.aAttr.take l.aN.toNat).flatMap fun a => a.bytes.toList) ++ rest)
  have hlen : (l.aAttr.take l.aN.toNat).length = l.aN.toNat := by rw [List.length_take, Nat.min_eq_left hle]
  have hsize : l.aN.toNat ≤ ((l.head ++ (((l.aAttr.take l.aN.toNat).flatMap fun a => a.bytes.toList) ++
      rest)).length - 24) / 128 := by
    rw [List.length_append, List.length_append, head_length, flatMap_length, hlen, Nat.add_sub_cancel_left,
      Nat.mul_add_div (by decide)]
    exact Nat.le_add_right _ _
  refine ⟨hmeta, hepoch, hcount, ?_, ?_⟩
  · rw [memAttrs_aAttr, attrsOf_length]
    omega
  · rw [memAttrs_aAttr, attrsOf_take hsize, List.drop_left' (head_length l)]
    have hall := attrsOf_bytes (l.aAttr.take l.aN.toNat) rest
    rwa [hlen] at hall

end Memory

section Calls
variable {l : MemItemAttrs} {ls : List MemItemAttrs} {file file' rest : List UInt8} {junk junkNew : ℕ → UInt8}

/-- The length of a write fits the `int`, or what is left of it there is short. -/
def LenFits (l : MemItemAttrs) : Prop := l.aN % 2 ^ 25 < 2 ^ 24

theorem writeAttr_fits (hs : l.Sound) (hfit : LenFits l) (file : List UInt8) : ∃ rest, WriteAttr l file =
    some (l.head ++ (((l.aAttr.take (l.aN % 2 ^ 25).toNat).flatMap fun a => a.bytes.toList) ++ rest)) := by
  obtain ⟨hlo, hhi⟩ := hs.range
  have hentries := hs.entries
  have hlen := writeLen_fits hfit
  have hle : (l.aN % 2 ^ 25).toNat ≤ l.aAttr.length := by omega
  have hsize : l.bytes.length = 24 + 128 * l.aAttr.length := by
    unfold MemItemAttrs.bytes
    rw [List.length_append, head_length, flatMap_length]
  have hnat : (writeLen l.aN).toNat = 24 + 128 * (l.aN % 2 ^ 25).toNat := by omega
  refine ⟨file.drop (l.bytes.take (writeLen l.aN).toNat).length, ?_⟩
  unfold WriteAttr PFSWrite
  rw [if_pos (by omega)]
  change some ([] ++ List.replicate (0 - file.length) 0 ++ l.bytes.take (writeLen l.aN).toNat ++
    file.drop (0 + (l.bytes.take (writeLen l.aN).toNat).length)) = _
  rw [Nat.zero_sub, List.replicate_zero, List.nil_append, List.nil_append, Nat.zero_add, hnat,
    bytes_take l hle, List.append_assoc]

theorem writeAttr_wraps (hfit : ¬LenFits l) (file : List UInt8) : WriteAttr l file = none := by
  have hlen := writeLen_wraps hfit
  unfold WriteAttr PFSWrite
  rw [if_neg (by omega)]
  rfl

theorem writeAttrs_fits (hs : ∀ m ∈ ls, m.Sound) (hfit : ∀ m ∈ ls, LenFits m) (file : List UInt8) :
    ∃ file', writeAttrs ls file = some file' := by
  induction ls generalizing file with
  | nil => exact ⟨file, rfl⟩
  | cons l ls ih =>
      obtain ⟨rest, hwrite⟩ := writeAttr_fits (hs l List.mem_cons_self) (hfit l List.mem_cons_self) file
      obtain ⟨file', hrest⟩ := ih (fun m hm => hs m (List.mem_cons_of_mem l hm))
        (fun m hm => hfit m (List.mem_cons_of_mem l hm)) _
      refine ⟨file', ?_⟩
      unfold writeAttrs
      rw [hwrite]
      exact hrest

theorem writeAttrs_snoc (ls : List MemItemAttrs) (l : MemItemAttrs) (file : List UInt8) :
    writeAttrs (ls ++ [l]) file = (writeAttrs ls file).bind (WriteAttr l) := by
  induction ls generalizing file with
  | nil =>
      change (WriteAttr l file).bind (writeAttrs []) = WriteAttr l file
      cases WriteAttr l file <;> rfl
  | cons m ls ih =>
      change (WriteAttr m file).bind (writeAttrs (ls ++ [l])) = ((WriteAttr m file).bind (writeAttrs ls)).bind _
      cases WriteAttr m file with
      | none => rfl
      | some file => exact ih file

/-- Every write of a row that runs through fits. -/
theorem LenFits.of_writes (h : writeAttrs ls file = some file') : ∀ m ∈ ls, LenFits m := by
  induction ls generalizing file with
  | nil => exact fun m hm => absurd hm List.not_mem_nil
  | cons l ls ih =>
      have hbind : (WriteAttr l file).bind (writeAttrs ls) = some file' := h
      have hfit : LenFits l := by
        by_contra hnot
        rw [writeAttr_wraps hnot] at hbind
        cases hbind
      cases hwrite : WriteAttr l file with
      | none =>
          rw [hwrite] at hbind
          cases hbind
      | some f =>
          rw [hwrite] at hbind
          exact List.forall_mem_cons.mpr ⟨hfit, ih hbind⟩

/-! ### Reading -/

theorem malloc_length (junk : ℕ → UInt8) (n : ℕ) : (malloc junk n).length = n := by
  unfold malloc
  rw [List.length_map, List.length_range]

/-- A read fills a buffer of its length with what the file has. -/
theorem pfsRead_malloc (pFile : File) (junk : ℕ → UInt8) (n : ℕ) : ∃ mem pos,
    PFSRead pFile (malloc junk n) n = some (mem, ⟨pFile.bytes, pos⟩) ∧ mem.length = n ∧
      pos = pFile.pos + ((pFile.bytes.drop pFile.pos).take n).length ∧
      (∀ k ≤ n, pFile.pos + k ≤ pFile.bytes.length → mem.take k = (pFile.bytes.drop pFile.pos).take k) := by
  have hle : (0 : ℤ) ≤ n ∧ (n : ℤ) ≤ (malloc junk n).length := by
    rw [malloc_length]
    omega
  refine ⟨(pFile.bytes.drop pFile.pos).take n ++
    (malloc junk n).drop ((pFile.bytes.drop pFile.pos).take n).length, _, ?_, ?_, rfl, ?_⟩
  · unfold PFSRead
    rw [if_pos hle]
    rfl
  · rw [List.length_append, List.length_drop, malloc_length, List.length_take]
    omega
  · intro k hk hin
    have hlen : k ≤ ((pFile.bytes.drop pFile.pos).take n).length := by
      rw [List.length_take, List.length_drop]
      omega
    rw [List.take_append_of_le_length hlen, List.take_take, Nat.min_eq_left hk]

/-- What `ReadAttr` does behind the head -/
def readTail (junkNew : ℕ → UInt8) (aN : ℤ) (r : List UInt8 × File) : Option MemItemAttrs :=
  if 1 < aN then
    if readLen aN < 0 then none
    else (PFSRead r.2 (malloc junkNew (readLen aN).toNat) (readLen aN)).bind fun e =>
      some (memAttrs (r.1 ++ e.1))
  else some (memAttrs r.1)

theorem readAttr_eq (junk junkNew : ℕ → UInt8) (file : List UInt8) : ReadAttr junk junkNew file =
    (PFSRead ⟨file, 0⟩ (malloc junk sizeofAttrs) sizeofAttrs).bind fun r =>
      readTail junkNew (memAttrs r.1).aN r := rfl

/-- The head is read first, with the embedded entry. -/
theorem readAttr_head (hs : l.Sound) (rest : List UInt8) (junk junkNew : ℕ → UInt8) : ∃ mem,
    mem.length = 152 ∧ (∀ k ≤ 152, k ≤ (l.head ++ rest).length → mem.take k = (l.head ++ rest).take k) ∧
    ReadAttr junk junkNew (l.head ++ rest) =
      readTail junkNew l.aN (mem, ⟨l.head ++ rest, ((l.head ++ rest).take 152).length⟩) := by
  have hsizeof : sizeofAttrs = 152 := rfl
  obtain ⟨mem, pos, hread, hlen, hpos, htake⟩ := pfsRead_malloc ⟨l.head ++ rest, 0⟩ junk sizeofAttrs
  rw [hsizeof] at hlen htake
  have htake' : ∀ k ≤ 152, k ≤ (l.head ++ rest).length → mem.take k = (l.head ++ rest).take k := by
    intro k hk hin
    exact htake k hk (by rw [Nat.zero_add]; exact hin)
  have hcount : (memAttrs mem).aN = l.aN := by
    have hfirst := htake' 24 (by decide) (by rw [List.length_append, head_length]; omega)
    rw [List.take_left' (head_length l)] at hfirst
    have hall := (memAttrs_head hs (mem.drop 24)).2.2
    rwa [← hfirst, List.take_append_drop] at hall
  have hpos' : pos = ((l.head ++ rest).take 152).length := by rw [hpos, Nat.zero_add, List.drop_zero, hsizeof]
  subst hpos'
  refine ⟨mem, hlen, htake', ?_⟩
  rw [readAttr_eq, hread, Option.bind_some, hcount]

theorem readAttr_fits (hs : l.Sound) (hsmall : l.aN < 2 ^ 24) (rest : List UInt8) (junk junkNew : ℕ → UInt8) :
    ∃ r, ReadAttr junk junkNew (l.head ++
      (((l.aAttr.take l.aN.toNat).flatMap fun a => a.bytes.toList) ++ rest)) = some r ∧ r.Equal l := by
  obtain ⟨hlo, hhi⟩ := hs.range
  have hentries := hs.entries
  obtain ⟨es, hes⟩ : ∃ es, es = (l.aAttr.take l.aN.toNat).flatMap fun a => a.bytes.toList := ⟨_, rfl⟩
  have hlen : es.length = 128 * l.aN.toNat := by
    rw [hes, flatMap_length, List.length_take, Nat.min_eq_left (by omega)]
  have hfile : (l.head ++ (es ++ rest)).length = 24 + (es.length + rest.length) := by
    rw [List.length_append, List.length_append, head_length]
  have hfront : (l.head ++ (es ++ rest)).take (24 + 128 * l.aN.toNat) = l.head ++ es := by
    rw [← List.append_assoc]
    exact List.take_left' (by rw [List.length_append, head_length, hlen])
  have hequal := memAttrs_equal hs
  rw [← hes] at hequal ⊢
  obtain ⟨mem, hmem, htake, hread⟩ := readAttr_head hs (es ++ rest) junk junkNew
  rw [hread]
  unfold readTail
  by_cases hone : 1 < l.aN
  · -- the other entries are read behind the first one
    have hwrap := readLen_fits (n := l.aN) (by omega)
    have hnat : (readLen l.aN).toNat = 128 * (l.aN.toNat - 1) := by omega
    rw [if_pos hone, if_neg (by omega)]
    obtain ⟨mem', pos, hread', hmem', -, htake'⟩ := pfsRead_malloc
      ⟨l.head ++ (es ++ rest), ((l.head ++ (es ++ rest)).take 152).length⟩ junkNew (readLen l.aN).toNat
    rw [Int.toNat_of_nonneg (by omega)] at hread'
    rw [hread', Option.bind_some]
    refine ⟨_, rfl, ?_⟩
    have hpos : ((l.head ++ (es ++ rest)).take 152).length = 152 := by
      rw [List.length_take, hfile]
      omega
    have hfirst := htake 152 (Nat.le_refl _) (by rw [hfile]; omega)
    have hsecond := htake' (readLen l.aN).toNat (Nat.le_refl _) (by rw [hpos]; simp only [hfile]; omega)
    rw [List.take_of_length_le (by omega)] at hfirst hsecond
    rw [hpos] at hsecond
    have hall : mem ++ mem' = l.head ++ (es ++ []) := by
      have hsum : 152 + 128 * (l.aN.toNat - 1) = 24 + 128 * l.aN.toNat := by omega
      rw [hfirst, hsecond, ← List.take_add, List.append_nil, ← hfront, hnat, hsum]
    rw [hall]
    exact hequal []
  · rw [if_neg hone]
    refine ⟨_, rfl, ?_⟩
    have hfirst := htake (24 + 128 * l.aN.toNat) (by omega) (by rw [hfile]; omega)
    have hall : mem = l.head ++ (es ++ mem.drop (24 + 128 * l.aN.toNat)) := by
      rw [← List.append_assoc, ← hfront, ← hfirst, List.take_append_drop]
    rw [hall]
    exact hequal _

/-- Of a longer list fewer entries are read than it counts. -/
theorem readAttr_short {r : MemItemAttrs} (hs : l.Sound) (hbig : 2 ^ 25 ≤ l.aN) (rest : List UInt8)
    (h : ReadAttr junk junkNew (l.head ++ rest) = some r) : ¬r.Equal l := by
  intro hequal
  have hsize := hequal.size
  obtain ⟨mem, hmem, -, hread⟩ := readAttr_head hs rest junk junkNew
  rw [hread] at h
  unfold readTail at h
  rw [if_pos (by omega)] at h
  by_cases hfit : (l.aN - 1) % 2 ^ 25 < 2 ^ 24
  · have hlen := readLen_fits hfit
    rw [if_neg (by omega)] at h
    obtain ⟨mem', pos, hread', hmem', -, -⟩ := pfsRead_malloc
      ⟨l.head ++ rest, ((l.head ++ rest).take 152).length⟩ junkNew (readLen l.aN).toNat
    rw [Int.toNat_of_nonneg (by omega)] at hread'
    rw [hread', Option.bind_some] at h
    obtain rfl := Option.some.inj h
    rw [memAttrs_aAttr, attrsOf_length, List.length_append, hmem, hmem'] at hsize
    omega
  · have hlen := readLen_wraps hfit
    rw [if_pos (by omega)] at h
    cases h

end Calls

/-- The list that was written last is read if and only if the length of every write fits
and the last list is short of 2^24 entries. -/
theorem readsLast_iff {ls : List MemItemAttrs} {l : MemItemAttrs} (hs : ∀ m ∈ ls ++ [l], m.Sound)
    (file : List UInt8) (junk junkNew : ℕ → UInt8) :
    ReadsLast ls l file junk junkNew ↔ (∀ m ∈ ls ++ [l], m.aN % 2 ^ 25 < 2 ^ 24) ∧ l.aN < 2 ^ 24 := by
  have hlast : l.Sound := hs l (List.mem_append_right ls (List.mem_singleton_self l))
  constructor
  · intro h
    obtain ⟨file', r, hwrites, hread, hequal⟩ := h
    have hfits := LenFits.of_writes hwrites
    have hfit := hfits l (List.mem_append_right ls (List.mem_singleton_self l))
    refine ⟨hfits, ?_⟩
    by_contra hbig
    have hbig' : 2 ^ 25 ≤ l.aN := by
      unfold LenFits at hfit
      omega
    rw [writeAttrs_snoc] at hwrites
    cases hfirst : writeAttrs ls file with
    | none =>
        rw [hfirst] at hwrites
        cases hwrites
    | some f =>
        rw [hfirst, Option.bind_some] at hwrites
        obtain ⟨rest, hwrite⟩ := writeAttr_fits hlast hfit f
        cases hwrites.symm.trans hwrite
        exact readAttr_short hlast hbig' _ hread hequal
  · intro h
    obtain ⟨hfits, hsmall⟩ := h
    obtain ⟨f, hfirst⟩ := writeAttrs_fits (fun m hm => hs m (List.mem_append_left [l] hm))
      (fun m hm => hfits m (List.mem_append_left [l] hm)) file
    obtain ⟨rest, hwrite⟩ := writeAttr_fits hlast
      (hfits l (List.mem_append_right ls (List.mem_singleton_self l))) f
    have hmod : l.aN % 2 ^ 25 = l.aN := Int.emod_eq_of_lt hlast.range.1 (by omega)
    rw [hmod] at hwrite
    obtain ⟨r, hread, hequal⟩ := readAttr_fits hlast hsmall rest junk junkNew
    refine ⟨_, r, ?_, hread, hequal⟩
    rw [writeAttrs_snoc, hfirst, Option.bind_some]
    exact hwrite

/-- A list without entries behind one with two: what is left of the longer one is not read. -/
theorem readsLast_shorter : ReadsLast [⟨1, 1, 0, 2, [⟨Vector.replicate 128 7⟩, ⟨Vector.replicate 128 9⟩]⟩]
    ⟨2, 1, 0, 0, [⟨Vector.replicate 128 5⟩]⟩ [] (fun _ => 0xff) fun _ => 0xff := by
  refine (readsLast_iff ?_ [] _ _).mpr ⟨?_, by decide⟩
  · intro m hm
    rcases List.mem_cons.mp hm with rfl | hm
    · exact ⟨by decide, by decide, by decide, by decide⟩
    · rw [List.mem_singleton.mp hm]
      exact ⟨by decide, by decide, by decide, by decide⟩
  · intro m hm
    rcases List.mem_cons.mp hm with rfl | hm
    · decide
    · rw [List.mem_singleton.mp hm]
      decide

/-- A list of 2^24 entries: the length of its write is negative. -/
theorem readsLast_wrong : ∃ l : MemItemAttrs, l.Sound ∧ l.aN = 0x1000000 ∧
    ¬ReadsLast [] l [] (fun _ => 0) fun _ => 0 := by
  refine ⟨⟨1, 1, 0, 0x1000000, List.replicate 0x1000000 ⟨Vector.replicate 128 7⟩⟩,
    ⟨by decide, by decide, ?_, ?_⟩, rfl, ?_⟩
  · rw [List.length_replicate]
    decide
  · rw [List.length_replicate]
    decide
  · intro h
    obtain ⟨file', r, hwrites, -⟩ := h
    have hfit := LenFits.of_writes hwrites _ (List.mem_singleton_self _)
    unfold LenFits at hfit
    exact absurd hfit (by decide)

end PaxosSolutions.Memcache
